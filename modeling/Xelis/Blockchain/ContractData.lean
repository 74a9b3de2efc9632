import Xelis.Blockchain.ContractBalances
import Xelis.State.StorageCalls

namespace Xelis.Blockchain

open Lib (FiniteMap IndexMap Exec History)
open Storage (VersionedTrees)
open State State.ApplicableChainState State.ContractChainState
open Transaction (Touches Merges Footprint)

variable {P : Type}

/-- What the contracts have in their storages. -/
abbrev Maps := Hash → Contents

def keysOf (K : Set (Hash × ValueCell)) (contract : Hash) : Set ValueCell := Set.preimage (Prod.mk contract) K

/-- No two of the keys have the same digest. -/
def Collisionless (blake3 : IVec → Hash) (K : Set (Hash × ValueCell)) : Prop :=
  Set.InjOn (fun e => Storage.getContractDataKey blake3 e.2 e.1) K

def versionOf (entry : VersionedState × Option ValueCell) : Option (Versioned (Option ValueCell)) :=
  if entry.1.shouldBeStored then some ⟨entry.1.getTopoheight, entry.2⟩ else none

variable {owner contract txHash hash : Hash} {s s' : ApplicableChainState P} {entry : VersionedState × Option ValueCell}
  {h : History (Versioned (Option ValueCell))} {cache cache' : ContractCache}

section Writing

variable {env : Env P} {K : Set (Hash × ValueCell)} {topoheight : TopoHeight} {contract : Hash} {key : ValueCell}

def HistoryAt (blake3 : IVec → Hash) (topoheight : TopoHeight) (contract : Hash) (key : ValueCell)
    (h : History (Versioned (Option ValueCell))) (s : ApplicableChainState P) : Prop :=
  s.inner.topoheight = topoheight ∧ dataHistory blake3 s.inner.storage contract key = h

theorem applyContractData_ok {e : ValueCell × VersionedState × Option ValueCell}
    (h : applyContractData env owner e s = .ok ⟨⟩ s') :
    s'.inner.topoheight = s.inner.topoheight ∧ s'.inner.storage.contractsData =
      match versionOf e.2 with
      | some v => s.inner.storage.contractsData.setLast
          (Storage.getContractDataKey env.blake3 e.1 owner) s.inner.topoheight v
      | none => s.inner.storage.contractsData := by
  unfold applyContractData at h
  unfold versionOf
  obtain ⟨_, _, hget, h⟩ := Exec.bind_ok_iff.mp h
  cases hget
  cases hstore : e.2.1.shouldBeStored with
  | false =>
    rw [if_neg (by simp [hstore])] at h
    cases h
    exact ⟨rfl, rfl⟩
  | true =>
    rw [if_pos hstore] at h
    cases h
    exact ⟨rfl, rfl⟩

theorem applyContractData_self (hat : HistoryAt env.blake3 topoheight contract key h s)
    (hwrite : applyContractData env contract (key, entry) s = .ok ⟨⟩ s') :
    HistoryAt env.blake3 topoheight contract key (h.extend topoheight (versionOf entry)) s' := by
  obtain ⟨rfl, rfl⟩ := hat
  obtain ⟨htopo, hdata⟩ := applyContractData_ok hwrite
  refine ⟨htopo, ?_⟩
  unfold dataHistory
  rw [hdata]
  cases versionOf entry with
  | none => rfl
  | some v => exact VersionedTrees.history_setLast_self _ _ _ _

theorem applyContractData_other (hK : Collisionless env.blake3 K) (hkey : (contract, key) ∈ K)
    {e : ValueCell × VersionedState × Option ValueCell} (howner : (owner, e.1) ∈ K)
    (hne : (owner, e.1) ≠ (contract, key))
    (hat : HistoryAt env.blake3 topoheight contract key h s) (hwrite : applyContractData env owner e s = .ok ⟨⟩ s') :
    HistoryAt env.blake3 topoheight contract key h s' := by
  obtain ⟨rfl, rfl⟩ := hat
  obtain ⟨htopo, hdata⟩ := applyContractData_ok hwrite
  refine ⟨htopo, ?_⟩
  unfold dataHistory
  rw [hdata]
  cases versionOf e.2 with
  | none => rfl
  | some v => exact VersionedTrees.history_setLast_of_ne _ _ _ _ fun he => hne (hK howner hkey he)

variable {kinds : List WriteKind}

theorem Steps.contractsData (hkinds : .contractData ∉ kinds)
    (h : Steps kinds s s') : s'.inner.storage.contractsData = s.inner.storage.contractsData := by
  refine StepsAt.eq_of_step (fun s => s.inner.storage.contractsData) (fun _ _ hstep => ?_) h
  cases hstep with
  | contractData hkind blake3 contract key v => exact absurd hkind hkinds
  | _ => rfl

theorem HistoryAt.steps (hkinds : .contractData ∉ kinds)
    (hat : HistoryAt env.blake3 topoheight contract key h s) (hsteps : Steps kinds s s') :
    HistoryAt env.blake3 topoheight contract key h s' := by
  refine ⟨hsteps.sameBlock.topoheight.trans hat.1, ?_⟩
  rw [← hat.2]
  unfold dataHistory
  rw [Steps.contractsData hkinds hsteps]

variable {e : Hash × ContractCache}

theorem applyCache_data (h : applyCache env e s = .ok ⟨⟩ s') :
    ∃ s₁, e.2.storage.toList.forM (applyContractData env e.1) s = .ok ⟨⟩ s₁ ∧ Steps [.contractBalance] s₁ s' := by
  obtain ⟨⟨⟩, s₁, hdata, hbalances⟩ := Exec.bind_ok_iff.mp h
  exact ⟨s₁, hdata, Steps.of_ok (Steps.forM _ fun b _ => applyContractBalance_steps e.1 b) hbalances⟩

def UsesKeys (K : Set (Hash × ValueCell)) (e : Hash × ContractCache) : Prop := ∀ k ∈ e.2.storage, (e.1, k) ∈ K

theorem UsesKeys.of_mem (h : UsesKeys K e) {d : ValueCell × VersionedState × Option ValueCell}
    (hd : d ∈ e.2.storage.toList) : (e.1, d.1) ∈ K := by
  refine h d.1 (Std.ExtTreeMap.isSome_getElem?_iff_mem.mp ?_)
  rw [Std.ExtTreeMap.mem_toList_iff_getElem?_eq_some.mp hd]
  rfl

theorem applyCache_keeps_history (hK : Collisionless env.blake3 K) (hkey : (contract, key) ∈ K)
    (huses : UsesKeys K e) (hne : e.1 = contract → e.2.storage[key]? = none)
    (hat : HistoryAt env.blake3 topoheight contract key h s) (hwrite : applyCache env e s = .ok ⟨⟩ s') :
    HistoryAt env.blake3 topoheight contract key h s' := by
  obtain ⟨s₁, hdata, hbalances⟩ := applyCache_data hwrite
  refine HistoryAt.steps (by simp) (Exec.forM_keeps (fun d hd s₂ s₃ h₂ hd₂ => ?_) hat hdata) hbalances
  refine applyContractData_other hK hkey (huses.of_mem hd) (fun heq => ?_) h₂ hd₂
  obtain ⟨howner, hsame⟩ := Prod.mk.injEq .. ▸ heq
  have hnone := hne howner
  rw [← hsame, Std.ExtTreeMap.mem_toList_iff_getElem?_eq_some.mp hd] at hnone
  cases hnone

theorem applyCache_extends_history (hK : Collisionless env.blake3 K) (huses : UsesKeys K (contract, cache))
    (hentry : cache.storage[key]? = some entry) (hat : HistoryAt env.blake3 topoheight contract key h s)
    (hwrite : applyCache env (contract, cache) s = .ok ⟨⟩ s') :
    HistoryAt env.blake3 topoheight contract key (h.extend topoheight (versionOf entry)) s' := by
  obtain ⟨s₁, hdata, hbalances⟩ := applyCache_data hwrite
  have hmem : (key, entry) ∈ cache.storage.toList := Std.ExtTreeMap.mem_toList_iff_getElem?_eq_some.mpr hentry
  have hkey : (contract, key) ∈ K := huses.of_mem hmem
  have hother : ∀ {h' : History (Versioned (Option ValueCell))}, ∀ d ∈ cache.storage.toList, key ≠ d.1 →
      ∀ s₂ s₃, HistoryAt env.blake3 topoheight contract key h' s₂ → applyContractData env contract d s₂ = .ok ⟨⟩ s₃ →
        HistoryAt env.blake3 topoheight contract key h' s₃ := fun d hd hne s₂ s₃ =>
    applyContractData_other hK hkey (huses.of_mem hd) fun heq => hne (Prod.ext_iff.mp heq).2.symm
  refine HistoryAt.steps (by simp) ?_ hbalances
  exact Exec.forM_once (k := Prod.fst) hmem (FiniteMap.toList_keys_distinct _) (fun _ _ => applyContractData_self)
    hother hother hat hdata

def entryOf (caches : FiniteMap Hash ContractCache) (contract : Hash) (key : ValueCell) :
    Option (VersionedState × Option ValueCell) :=
  caches[contract]?.bind (·.storage[key]?)

theorem applyCaches_histories (hK : Collisionless env.blake3 K) (hkey : (contract, key) ∈ K)
    {caches : FiniteMap Hash ContractCache} (huses : ∀ e ∈ caches.toList, UsesKeys K e)
    (hat : HistoryAt env.blake3 topoheight contract key h s)
    (hwrite : caches.toList.forM (applyCache env) s = .ok ⟨⟩ s') :
    HistoryAt env.blake3 topoheight contract key
      (h.extend topoheight ((entryOf caches contract key).bind versionOf)) s' := by
  have huncached : entryOf caches contract key = none → HistoryAt env.blake3 topoheight contract key h s' := by
    intro hnone
    refine Exec.forM_keeps (fun e he s₁ s₂ h₁ => ?_) hat hwrite
    refine applyCache_keeps_history hK hkey (huses e he) (fun howner => ?_) h₁
    rw [entryOf, ← howner, Std.ExtTreeMap.mem_toList_iff_getElem?_eq_some.mp he] at hnone
    exact hnone
  cases hentry : entryOf caches contract key with
  | none => exact huncached hentry
  | some entry =>
    obtain ⟨cache, hcache, hfound⟩ := Option.bind_eq_some_iff.mp hentry
    have hmem : (contract, cache) ∈ caches.toList := Std.ExtTreeMap.mem_toList_iff_getElem?_eq_some.mpr hcache
    have hother : ∀ {h' : History (Versioned (Option ValueCell))}, ∀ e ∈ caches.toList, contract ≠ e.1 →
        ∀ s₂ s₃, HistoryAt env.blake3 topoheight contract key h' s₂ → applyCache env e s₂ = .ok ⟨⟩ s₃ →
          HistoryAt env.blake3 topoheight contract key h' s₃ := fun e he hne s₂ s₃ =>
      applyCache_keeps_history hK hkey (huses e he) fun heq => absurd heq.symm hne
    exact Exec.forM_once (k := Prod.fst) hmem (FiniteMap.toList_keys_distinct _)
      (fun _ _ => applyCache_extends_history hK (huses _ hmem) hfound) hother hother hat hwrite

variable [RistrettoPoint P]

theorem applyChanges_histories (hK : Collisionless env.blake3 K) (hkey : (contract, key) ∈ K)
    (huses : ∀ e ∈ s.contractManager.caches.toList, UsesKeys K e) (hwrite : applyChanges env s = .ok ⟨⟩ s') :
    dataHistory env.blake3 s'.inner.storage contract key =
      (dataHistory env.blake3 s.inner.storage contract key).extend s.inner.topoheight
        ((entryOf s.contractManager.caches contract key).bind versionOf) := by
  obtain ⟨s₁, s₂, s₃, s₄, s₅, s₆, s₇, stages⟩ := applyChanges_ok hwrite
  have hat : HistoryAt env.blake3 s.inner.topoheight contract key (dataHistory env.blake3 s.inner.storage contract key) s :=
    ⟨rfl, rfl⟩
  have h₂ := (hat.steps (by simp) (accounts_steps stages.accounts)).steps (by simp) (assets_steps stages.assets)
  have h₃ := applyCaches_histories hK hkey huses h₂ stages.caches
  have h₅ := (h₃.steps (by simp) (transfers_steps stages.transfers)).steps (by simp) (contracts_steps stages.contracts)
  have h₇ := (h₅.steps (by simp) (outputs_steps stages.outputs)).steps (by simp) (balances_steps stages.balances)
  rw [stages.written]
  exact h₇.2

end Writing

section Runs

variable [RistrettoPoint P]

/-- A node between two blocks, with the topoheight of the last one, or in a block. -/
inductive Phase (P : Type) where
  | idle (storage : Storage P) (top : TopoHeight)
  | block (s : ApplicableChainState P)

/-- The part of the state of a block that decides what its contracts see in their storages. -/
structure SameData (s s' : ApplicableChainState P) : Prop where
  data : s'.inner.storage.contractsData = s.inner.storage.contractsData
  topoheight : s'.inner.topoheight = s.inner.topoheight
  caches : s'.contractManager.caches = s.contractManager.caches

/-- The runs of a node from a storage, with what plain maps make of the calls of its contracts. Every call on a
storage is on one of the keys and meets a condition. -/
inductive Reaches (env : Env P) (K : Set (Hash × ValueCell))
    (cond : Storage P → ContractChainState → StorageCall → Prop) (storage₀ : Storage P) (top₀ : TopoHeight) :
    Phase P → Maps → Prop
  | start : Reaches env K cond storage₀ top₀ (.idle storage₀ top₀)
      (fun contract key => storedValue (dataHistory env.blake3 storage₀ contract key))
  /-- Between two blocks the other parts of the storage change. -/
  | between {storage storage' : Storage P} {top : TopoHeight} {m : Maps}
      (h : Reaches env K cond storage₀ top₀ (.idle storage top) m)
      (hdata : storage'.contractsData = storage.contractsData) :
      Reaches env K cond storage₀ top₀ (.idle storage' top) m
  | opened {storage : Storage P} {top : TopoHeight} {m : Maps} {s : ApplicableChainState P}
      (h : Reaches env K cond storage₀ top₀ (.idle storage top) m) (hstorage : s.inner.storage = storage)
      (htop : top < s.inner.topoheight) (hcaches : s.contractManager.caches = ∅) :
      Reaches env K cond storage₀ top₀ (.block s) m
  | other {s s' : ApplicableChainState P} {m : Maps} (h : Reaches env K cond storage₀ top₀ (.block s) m)
      (hsame : SameData s s') : Reaches env K cond storage₀ top₀ (.block s') m
  /-- A successful call of a contract. -/
  | called {s : ApplicableChainState P} {m : Maps} {contract txHash : Hash} {deposits : IndexMap Hash ContractDeposit}
      {start final : ContractChainState} {calls : List HostCall} {answers : List Answer}
      (h : Reaches env K cond storage₀ top₀ (.block s) m) (hstart : s.startOf contract deposits txHash = .ok start)
      (hmeet : CallsMeet env.blake3 s.inner.storage
        (fun state call => call.key ∈ keysOf K contract ∧ cond s.inner.storage state call) start calls)
      (hperform : start.performAll env.blake3 s.inner.storage calls = some (answers, final)) :
      Reaches env K cond storage₀ top₀
        (.block (mergeContractChanges contract final.cache final.tracker final.assets s))
        (Function.update m contract ((m contract).after (storageCalls calls)))
  | written {s s' : ApplicableChainState P} {m : Maps} (h : Reaches env K cond storage₀ top₀ (.block s) m)
      (hwrite : applyChanges env s = .ok ⟨⟩ s') :
      Reaches env K cond storage₀ top₀ (.idle s'.inner.storage s.inner.topoheight) m

/-- What is asked of a node. In a block, the calls of any contract are answered as its plain map does, and none of them
fails. Between blocks a load at any later topoheight finds the plain map, and the versions from a topoheight on are
linked to the newest earlier ones. -/
def AsMap (env : Env P) (K : Set (Hash × ValueCell)) (cond : Storage P → ContractChainState → StorageCall → Prop)
    (base : TopoHeight) : Phase P → Maps → Prop
  | .idle storage top, m => ∀ contract key, (contract, key) ∈ K →
      (∀ t, top ≤ t → ∃ found,
        storage.getContractDataAtMaximumTopoheightFor env.blake3 contract key t = .ok found ∧
          found.bind (·.2.data) = m contract key) ∧
        (dataHistory env.blake3 storage contract key).LinkedFrom Versioned.previousTopoheight base
  | .block s, m => ∀ contract deposits txHash start calls answers state,
      s.startOf contract deposits txHash = .ok start →
      CallsMeet env.blake3 s.inner.storage
        (fun state call => call.key ∈ keysOf K contract ∧ cond s.inner.storage state call) start calls →
      start.performAll env.blake3 s.inner.storage calls = some (answers, state) →
      answers = (m contract).answers (storageCalls calls) ∧
        ∀ call : StorageCall, call.key ∈ keysOf K contract → cond s.inner.storage state call → call.Sized →
          ∃ next, state.answerOf env.blake3 s.inner.storage call =
            some (call.answer ((m contract).after (storageCalls calls)), next)

/-- The versions of a key of the run: the pointer is right, not above a topoheight, and links are right from the base
on. -/
structure Kept (base top : TopoHeight) (h : History (Versioned (Option ValueCell))) : Prop where
  headed : h.Headed
  linked : h.LinkedFrom Versioned.previousTopoheight base
  le : ∀ l, h.last = some l → l ≤ top

/-- The invariant of a run. -/
def Follows (env : Env P) (K : Set (Hash × ValueCell)) (base : TopoHeight) : Phase P → Maps → Prop
  | .idle storage top, m => ∀ contract key, (contract, key) ∈ K →
      Kept base top (dataHistory env.blake3 storage contract key) ∧
        storedValue (dataHistory env.blake3 storage contract key) = m contract key
  | .block s, m => ∃ top, top < s.inner.topoheight ∧
      (∀ contract key, (contract, key) ∈ K → Kept base top (dataHistory env.blake3 s.inner.storage contract key)) ∧
      ∀ contract, Holds env.blake3 s.inner.storage (keysOf K contract) contract (m contract)
        (s.contractManager.caches[contract]?.getD {})

end Runs

variable {top' t topoheight top₀ top stableTopoheight : TopoHeight} {storage storage' storage₀ : Storage P}

section Invariant

variable {env : Env P} {K : Set (Hash × ValueCell)} {base top : TopoHeight}

theorem Kept.mono (hk : Kept base top h) (hle : top ≤ top') :
    Kept base top' h := ⟨hk.headed, hk.linked, fun l hl => Nat.le_trans (hk.le l hl) hle⟩

theorem Kept.readable {key : ValueCell}
    (hk : Kept base top (dataHistory env.blake3 storage contract key)) (hlt : top < t) :
    Readable env.blake3 storage t contract key :=
  ⟨hk.headed, fun l hl => Nat.lt_of_le_of_lt (hk.le l hl) hlt⟩

/-- A version for a cached value is the new last one, linked to the one it replaces. -/
theorem Kept.extend (hk : Kept base top h) (hlt : top < t) (htracks : EntryTracks h entry) :
    Kept base t (h.extend t (versionOf entry)) ∧ storedValue (h.extend t (versionOf entry)) = entry.2 := by
  have hbefore : ∀ l, h.last = some l → l < t := fun l hl => Nat.lt_of_le_of_lt (hk.le l hl) hlt
  unfold versionOf
  cases hstore : entry.1.shouldBeStored with
  | true =>
    rw [if_pos rfl, History.extend_some]
    refine ⟨⟨hk.headed.push hbefore _, hk.linked.push hk.headed htracks.1 hbefore, fun l hl => ?_⟩, storedValue_push _ _ _⟩
    rw [History.last_push, Option.some.injEq] at hl
    exact Nat.le_of_eq hl.symm
  | false =>
    rw [if_neg (by simp), History.extend_none]
    refine ⟨hk.mono (Nat.le_of_lt hlt), (htracks.2 ?_).symm⟩
    simpa [VersionedState.shouldBeStored] using hstore

variable {deposits : IndexMap Hash ContractDeposit}

theorem addDeposits_storage
    (h : addDeposits storage contract topoheight cache deposits = .ok cache') : cache'.storage = cache.storage := by
  have hdeposit : ∀ {asset : Hash} {amount : Nat} {cache cache' : ContractCache},
      addDeposit storage contract topoheight cache asset amount = .ok cache' → cache'.storage = cache.storage := by
    intro asset amount cache cache' hadd
    unfold State.ApplicableChainState.addDeposit at hadd
    split at hadd
    · cases hadd
      rfl
    · cases hadd
      rfl
    · split at hadd
      · cases hadd
      · cases hadd
        rfl
  unfold State.ApplicableChainState.addDeposits at h
  generalize deposits.entries = entries at h
  induction entries generalizing cache with
  | nil =>
    cases h
    rfl
  | cons e entries ih =>
    obtain ⟨asset, deposit⟩ := e
    rw [List.foldlM_cons] at h
    cases deposit with
    | priv commitment senderHandle receiverHandle proof => exact ih h
    | pub amount =>
      cases hadd : State.ApplicableChainState.addDeposit storage contract topoheight cache asset amount with
      | error e => simp [hadd, bind, Except.bind] at h
      | ok cache₁ =>
        simp only [hadd, bind, Except.bind] at h
        exact (ih h).trans (hdeposit hadd)

theorem dataHistory_congr (h : storage'.contractsData = storage.contractsData)
    (blake3 : IVec → Hash) (contract : Hash) (key : ValueCell) :
    dataHistory blake3 storage' contract key = dataHistory blake3 storage contract key := by
  unfold dataHistory
  rw [h]

theorem holds_of_data {blake3 : IVec → Hash}
    (hdata : storage'.contractsData = storage.contractsData) {keys : Set ValueCell} {m : Contents}
    (h : Holds blake3 storage keys contract m cache) : Holds blake3 storage' keys contract m cache where
  contents key hkey := by
    rw [← h.contents key hkey, contentsOf, contentsOf, dataHistory_congr hdata]
  tracks key entry hentry := by
    rw [dataHistory_congr hdata]
    exact h.tracks key entry hentry
  keys := h.keys

variable {s s' : ApplicableChainState P} {m : Maps}
variable {start final : ContractChainState}

theorem Follows.sees [RistrettoPoint P] (h : Follows env K base (.block s) m)
    (hstart : s.startOf contract deposits txHash = .ok start) :
    Sees env.blake3 s.inner.storage (keysOf K contract) contract s.inner.topoheight (m contract) start ∧
      ∀ key ∈ keysOf K contract, Readable env.blake3 s.inner.storage s.inner.topoheight contract key := by
  obtain ⟨top, htop, hkept, hholds⟩ := h
  obtain ⟨hadd, hcontract, htopo, -⟩ := startOf_ok hstart
  exact ⟨⟨hcontract, htopo, (hholds contract).congr (addDeposits_storage hadd)⟩,
    fun key hkey => (hkept contract key hkey).readable htop⟩

theorem Follows.opened (h : Follows env K base (.idle storage top) m)
    (hstorage : s.inner.storage = storage) (htop : top < s.inner.topoheight) (hcaches : s.contractManager.caches = ∅) :
    Follows env K base (.block s) m := by
  subst hstorage
  refine ⟨top, htop, fun contract key hkey => (h contract key hkey).1, fun contract => ?_⟩
  have hempty : (s.contractManager.caches[contract]?.getD {}).storage = ∅ := by
    rw [hcaches, Std.ExtTreeMap.getElem?_empty]
    rfl
  refine ⟨fun key hkey => ?_, fun key entry hentry => ?_, fun key hkey => ?_⟩
  · rw [contentsOf_uncached (by rw [hempty]; exact Std.ExtTreeMap.getElem?_empty)]
    exact (h contract key hkey).2
  · rw [hempty, Std.ExtTreeMap.getElem?_empty] at hentry
    cases hentry
  · rw [hempty] at hkey
    exact absurd hkey Std.ExtTreeMap.not_mem_empty

theorem Follows.other (h : Follows env K base (.block s) m) (hsame : SameData s s') : Follows env K base (.block s') m := by
  obtain ⟨top, htop, hkept, hholds⟩ := h
  refine ⟨top, hsame.topoheight ▸ htop, fun contract key hkey => ?_, fun contract => ?_⟩
  · rw [dataHistory_congr hsame.data]
    exact hkept contract key hkey
  · rw [hsame.caches]
    exact holds_of_data hsame.data (hholds contract)

/-- A successful call leaves what its plain map leaves, and the other contracts alone. -/
theorem Follows.called (h : Follows env K base (.block s) m) {calls : List HostCall}
    (hfinal : Sees env.blake3 s.inner.storage (keysOf K contract) contract s.inner.topoheight
      ((m contract).after (storageCalls calls)) final) :
    Follows env K base (.block (mergeContractChanges contract final.cache final.tracker final.assets s))
      (Function.update m contract ((m contract).after (storageCalls calls))) := by
  obtain ⟨top, htop, hkept, hholds⟩ := h
  refine ⟨top, htop, hkept, fun other => ?_⟩
  by_cases hsame : contract = other
  · subst hsame
    rw [Function.update_self]
    have hcache : (mergeContractChanges contract final.cache final.tracker final.assets s).contractManager.caches[
        contract]?.getD {} = final.cache := by
      rw [show (mergeContractChanges contract final.cache final.tracker final.assets s).contractManager.caches[
        contract]? = some final.cache from FiniteMap.getElem?_insert_self' _ _ _]
      rfl
    rw [hcache]
    exact hfinal.holds
  · rw [Function.update_of_ne (Ne.symm hsame)]
    have hcache : (mergeContractChanges contract final.cache final.tracker final.assets s).contractManager.caches[
        other]? = s.contractManager.caches[other]? := FiniteMap.getElem?_insert_of_ne _ _ hsame
    rw [hcache]
    exact hholds other

theorem Follows.written [RistrettoPoint P] (hK : Collisionless env.blake3 K) (h : Follows env K base (.block s) m)
    (hwrite : applyChanges env s = .ok ⟨⟩ s') : Follows env K base (.idle s'.inner.storage s.inner.topoheight) m := by
  obtain ⟨top, htop, hkept, hholds⟩ := h
  have huses : ∀ e ∈ s.contractManager.caches.toList, UsesKeys K e := by
    intro e he key hkey
    have hcache := (hholds e.1).keys key
    rw [Std.ExtTreeMap.mem_toList_iff_getElem?_eq_some.mp he] at hcache
    exact hcache hkey
  intro contract key hkey
  rw [applyChanges_histories hK hkey huses hwrite]
  have hcontents := (hholds contract).contents key hkey
  have hentry : entryOf s.contractManager.caches contract key =
      (s.contractManager.caches[contract]?.getD {}).storage[key]? := by
    unfold entryOf
    cases s.contractManager.caches[contract]? with
    | none => exact Std.ExtTreeMap.getElem?_empty.symm
    | some cache => rfl
  rw [hentry]
  cases hcached : (s.contractManager.caches[contract]?.getD {}).storage[key]? with
  | none =>
    rw [contentsOf_uncached hcached] at hcontents
    exact ⟨(hkept contract key hkey).mono (Nat.le_of_lt htop), hcontents⟩
  | some entry =>
    rw [contentsOf_cached hcached] at hcontents
    rw [← hcontents]
    exact (hkept contract key hkey).extend htop ((hholds contract).tracks key entry hcached)

end Invariant

variable {m : Maps} {tx : Transaction}

section Blocks

variable [RistrettoPoint P] {env : Env P} {K : Set (Hash × ValueCell)} {base : TopoHeight}

theorem Reaches.follows (hK : Collisionless env.blake3 K)
    (hstart : ∀ contract key, (contract, key) ∈ K → Kept base top₀ (dataHistory env.blake3 storage₀ contract key))
    {phase : Phase P} (h : Reaches env K (Allowed env.blake3) storage₀ top₀ phase m) : Follows env K base phase m := by
  induction h with
  | start => exact fun contract key hkey => ⟨hstart contract key hkey, rfl⟩
  | between h hdata ih =>
    intro contract key hkey
    rw [dataHistory_congr hdata]
    exact ih contract key hkey
  | opened h hstorage htop hcaches ih => exact ih.opened hstorage htop hcaches
  | other h hsame ih => exact ih.other hsame
  | called h hbegin hmeet hperform ih =>
    obtain ⟨hsees, hread⟩ := ih.sees hbegin
    exact ih.called (hsees.performAll hread hmeet hperform).2
  | written h hwrite ih => exact ih.written hK hwrite

theorem Follows.asMap {phase : Phase P} (h : Follows env K base phase m) :
    AsMap env K (Allowed env.blake3) base phase m := by
  cases phase with
  | idle storage top =>
    intro contract key hkey
    obtain ⟨hkept, hstored⟩ := h contract key hkey
    refine ⟨fun t ht => ⟨_, getContractData_eq hkept.headed fun l hl => Nat.le_trans (hkept.le l hl) ht, ?_⟩, hkept.linked⟩
    exact hstored
  | block s =>
    intro contract deposits txHash start calls answers state hbegin hmeet hperform
    obtain ⟨hsees, hread⟩ := h.sees hbegin
    obtain ⟨hanswers, hstate⟩ := hsees.performAll hread hmeet hperform
    refine ⟨hanswers, fun call hkey hallowed hsized => ?_⟩
    obtain ⟨next, hnext, -⟩ := hstate.answerOf hread hkey hsized hallowed
    exact ⟨next, hnext⟩

def MachineMeets (env : Env P) (K : Set (Hash × ValueCell)) (cond : Storage P → ContractChainState → StorageCall → Prop)
    (tx : Transaction) (txHash : Hash) (s : ApplicableChainState P) : Prop :=
  ∀ s₁ start module invoke parameters maxGas calls gasUsage, Touches tx s s₁ →
    s₁.startOf (tx.target txHash) tx.deposits txHash = .ok start →
    env.run module invoke parameters maxGas s₁.inner.storage start = .ran calls gasUsage (some 0) →
    CallsMeet env.blake3 s₁.inner.storage
      (fun state call => call.key ∈ keysOf K (tx.target txHash) ∧ cond s₁.inner.storage state call) start calls

theorem SameData.of_touches (h : Touches tx s s') : SameData s s' :=
  let hsame := SameCaches.of_touches h
  ⟨congrArg Storage.contractsData hsame.storage, hsame.topoheight, hsame.caches⟩

omit [RistrettoPoint P] in
theorem merges_performAll (h : Merges env tx txHash s s') :
    ∃ start module invoke parameters maxGas calls gasUsage answers final,
      s.startOf (tx.target txHash) tx.deposits txHash = .ok start ∧
      env.run module invoke parameters maxGas s.inner.storage start = .ran calls gasUsage (some 0) ∧
      start.performAll env.blake3 s.inner.storage calls = some (answers, final) ∧
      s' = mergeContractChanges (tx.target txHash) final.cache final.tracker final.assets s := by
  obtain ⟨start, module, invoke, parameters, maxGas, usedGas, final, hstart, hrun, rfl⟩ := h
  obtain ⟨calls, gasUsage, hout, hexec⟩ := Transaction.runContract_exit hrun
  rw [← performAll_exec, Option.map_eq_some_iff] at hexec
  obtain ⟨⟨answers, _⟩, hperform, rfl⟩ := hexec
  exact ⟨start, module, invoke, parameters, maxGas, calls, gasUsage, answers, _, hstart, hout, hperform, rfl⟩

section Executed

variable {cond : Storage P → ContractChainState → StorageCall → Prop} {storage₀ : Storage P} {top₀ : TopoHeight}

theorem Reaches.footprint
    (h : Reaches env K cond storage₀ top₀ (.block s) m) (hmeet : MachineMeets env K cond tx txHash s)
    (hfoot : Footprint env tx txHash s s') :
    s'.inner.topoheight = s.inner.topoheight ∧ ∃ m', Reaches env K cond storage₀ top₀ (.block s') m' := by
  rcases hfoot with htouch | ⟨s₁, s₂, h₁, hmerge, h₂⟩
  · have hsame := SameData.of_touches htouch
    exact ⟨hsame.topoheight, m, h.other hsame⟩
  · obtain ⟨start, module, invoke, parameters, maxGas, calls, gasUsage, answers, final, hstart, hrun, hperform, rfl⟩ :=
      merges_performAll hmerge
    have hsame := SameData.of_touches h₁
    have hcalls := hmeet s₁ start module invoke parameters maxGas calls gasUsage h₁ hstart hrun
    have hmerged := (h.other hsame).called hstart hcalls hperform
    have hafter := SameData.of_touches h₂
    exact ⟨hafter.topoheight.trans hsame.topoheight, _, hmerged.other hafter⟩

omit [RistrettoPoint P] in
theorem sameData_link (run : BlockRun P) (txHash hash : Hash) :
    SameData run.chainState (run.link txHash hash).chainState := by
  obtain ⟨_, hlink⟩ := run.link_eq txHash hash
  rw [hlink]
  exact ⟨rfl, rfl, rfl⟩

theorem Reaches.executeTransaction {run run' : BlockRun P}
    (h : Reaches env K cond storage₀ top₀ (.block run.chainState) m)
    (hmeet : MachineMeets env K cond tx txHash (run.link txHash hash).chainState)
    (hrun : Blockchain.executeTransaction env hash tx txHash run = .ok ⟨⟩ run') :
    run'.chainState.inner.topoheight = run.chainState.inner.topoheight ∧
      ∃ m', Reaches env K cond storage₀ top₀ (.block run'.chainState) m' := by
  have hlink := sameData_link run txHash hash
  have hlinked := h.other hlink
  have hfoot := Transaction.applyWithPartialVerify_footprint env tx txHash (run.link txHash hash).chainState
  cases executeTransaction_step hrun with
  | skipped _ => exact ⟨hlink.topoheight, m, hlinked⟩
  | refused _ _ _ => exact ⟨hlink.topoheight, m, hlinked⟩
  | failed nonceChecker e chainState _ _ happly =>
    rw [happly] at hfoot
    obtain ⟨htopo, hafter⟩ := hlinked.footprint hmeet hfoot
    exact ⟨htopo.trans hlink.topoheight, hafter⟩
  | executed nonceChecker chainState nextNonce inner _ _ happly _ hupdate =>
    rw [happly] at hfoot
    obtain ⟨htopo, m', hexecuted⟩ := hlinked.footprint hmeet hfoot
    have hsame := ChainState.internalUpdateAccountNonce_sameFunds (P := P) tx.source nextNonce chainState.inner
    rw [hupdate] at hsame
    have hstorage : inner.storage = chainState.inner.storage := hsame.storage
    have hinner : inner.topoheight = chainState.inner.topoheight := hsame.topoheight
    refine ⟨hinner.trans (htopo.trans hlink.topoheight), m', hexecuted.other ⟨?_, hinner, rfl⟩⟩
    show inner.storage.contractsData = chainState.inner.storage.contractsData
    rw [hstorage]

theorem Reaches.executeBlock {devPublicKey : PublicKey}
    (h : Reaches env K cond storage₀ top₀ (.idle storage top) m) {mainnet : Bool}
    {blockVersion : BlockVersion} {burnedSupply : Nat} {block : Block} {nonceChecker : NonceChecker}
    {orphaned : List Hash} {blockReward : Nat} {run : BlockRun P} (htop : top < topoheight)
    (hmeet : Exec.Along (fun e run => MachineMeets env K cond e.1 e.2 (run.link e.2 hash).chainState)
      (fun e => Blockchain.executeTransaction env hash e.1 e.2) (block.transactions.zip block.header.txsHashes)
      (BlockRun.new storage mainnet stableTopoheight topoheight blockVersion burnedSupply hash block nonceChecker orphaned))
    (hrun : Blockchain.executeBlock env devPublicKey hash block blockReward
      (BlockRun.new storage mainnet stableTopoheight topoheight blockVersion burnedSupply hash block nonceChecker orphaned) =
        .ok ⟨⟩ run) : ∃ m', Reaches env K cond storage₀ top₀ (.idle run.storage topoheight) m' := by
  obtain ⟨run₁, s₁, s₂, htxs, hreward, hwrite, rfl⟩ := executeBlock_ok hrun
  have hexecuted : run₁.chainState.inner.topoheight = topoheight ∧
      ∃ m', Reaches env K cond storage₀ top₀ (.block run₁.chainState) m' := by
    refine Exec.forM_along (I := fun run => run.chainState.inner.topoheight = topoheight ∧
      ∃ m', Reaches env K cond storage₀ top₀ (.block run.chainState) m') ?_ hmeet ⟨rfl, m, h.opened rfl htop rfl⟩ htxs
    rintro e run run' hcalls ⟨htopo, m', hreached⟩ hstep
    obtain ⟨htopo', hafter⟩ := hreached.executeTransaction hcalls hstep
    exact ⟨htopo'.trans htopo, hafter⟩
  obtain ⟨htopo, m', hreached⟩ := hexecuted
  have hsteps := Steps.of_ok (rewardBlock_steps _ _ _ _ _) hreward
  have hrewarded := hreached.other
    ⟨Steps.contractsData (by simp) hsteps, hsteps.sameBlock.topoheight, congrArg _ hsteps.sameBlock.contractManager⟩
  refine ⟨m', ?_⟩
  have hwritten := hrewarded.written hwrite
  rw [hsteps.sameBlock.topoheight, htopo] at hwritten
  exact hwritten

end Executed

/-- When a presence is only asked for keys in the cache of the block, values are only replaced or deleted when they are
in that cache or there is none, and blocks come above what is stored, every call on the storage of a contract is
answered as a plain map does, whatever the transactions and blocks, and what is stored after a block is that map. The
blocks that are executed are such runs. -/
theorem contractStorage_asMap (env : Env P) (K : Set (Hash × ValueCell)) (hK : Collisionless env.blake3 K)
    (base : TopoHeight) (storage₀ : Storage P) (top₀ : TopoHeight)
    (hstart : ∀ contract key, (contract, key) ∈ K → Kept base top₀ (dataHistory env.blake3 storage₀ contract key)) :
    (∀ phase m, Reaches env K (Allowed env.blake3) storage₀ top₀ phase m → AsMap env K (Allowed env.blake3) base phase m) ∧
      ∀ devPublicKey storage top m mainnet stableTopoheight topoheight blockVersion burnedSupply hash block nonceChecker
        orphaned blockReward run, Reaches env K (Allowed env.blake3) storage₀ top₀ (.idle storage top) m →
        top < topoheight →
        Exec.Along (fun e run => MachineMeets env K (Allowed env.blake3) e.1 e.2 (run.link e.2 hash).chainState)
          (fun e => executeTransaction env hash e.1 e.2) (block.transactions.zip block.header.txsHashes)
          (BlockRun.new storage mainnet stableTopoheight topoheight blockVersion burnedSupply hash block nonceChecker
            orphaned) →
        executeBlock env devPublicKey hash block blockReward
          (BlockRun.new storage mainnet stableTopoheight topoheight blockVersion burnedSupply hash block nonceChecker
            orphaned) = .ok ⟨⟩ run →
        ∃ m', Reaches env K (Allowed env.blake3) storage₀ top₀ (.idle run.storage topoheight) m' := by
  constructor
  · intro phase m h
    exact (h.follows hK hstart).asMap
  · intro devPublicKey storage top m mainnet stableTopoheight topoheight blockVersion burnedSupply hash block nonceChecker
      orphaned blockReward run h htop hmeet hrun
    exact h.executeBlock htop hmeet hrun

section Samples

open Transaction (clearEnv isOk exists_of_isOk)

def sampleKey : ValueCell := [0, 1]

def dataStorage : Storage ℤ := contractStorage.setLastContractDataTo clearEnv.blake3 3#256 sampleKey 0 ⟨none, some [0, 2]⟩

def sampleKeys : Set (Hash × ValueCell) := {(3#256, sampleKey)}

theorem sampleKeys_collisionless : Collisionless clearEnv.blake3 sampleKeys := Set.injOn_singleton _ _

theorem dataStorage_kept (contract : Hash) (key : ValueCell) (hkey : (contract, key) ∈ sampleKeys) :
    Kept 0 0 (dataHistory clearEnv.blake3 dataStorage contract key) := by
  cases hkey
  have hempty : dataHistory clearEnv.blake3 contractStorage 3#256 sampleKey = ⟨none, fun _ => none⟩ :=
    History.ext (Std.ExtTreeMap.getElem?_empty) (funext fun _ => Std.ExtTreeMap.getElem?_empty)
  have hpush : dataHistory clearEnv.blake3 dataStorage 3#256 sampleKey =
      (⟨none, fun _ => none⟩ : History (Versioned (Option ValueCell))).push 0 ⟨none, some [0, 2]⟩ := by
    rw [← hempty]
    exact VersionedTrees.history_setLast_self _ _ _ _
  rw [hpush]
  have hlinked : (⟨none, fun _ => none⟩ : History (Versioned (Option ValueCell))).Linked Versioned.previousTopoheight :=
    History.Linked.empty
  obtain ⟨hheaded, hlinked⟩ := History.linked_iff.mp hlinked
  refine ⟨hheaded.push nofun _, hlinked.push hheaded rfl nofun, fun l hl => ?_⟩
  exact Nat.le_of_eq (Option.some.inj hl).symm

/-- The block that is executed over it, before its transactions. -/
def dataBlock : ApplicableChainState ℤ :=
  .new dataStorage false 0 1 .v3 0 1#256 ⟨⟨.v3, [], 0, 1, 0, [], 8#256, []⟩, []⟩

def dataCall : ContractChainState where
  mainnet := false
  contract := 3#256
  topoheight := 1
  blockHash := 1#256
  block := ⟨⟨.v3, [], 0, 1, 0, [], 8#256, []⟩, []⟩
  txHash := 5#256
  deposits := .empty
  cache := {}
  outputs := []
  tracker := {}
  globalCaches := ∅
  assets := ∅

theorem dataCall_start : dataBlock.startOf 3#256 .empty 5#256 = .ok dataCall := by
  have hcache : dataBlock.contractManager.caches[3#256]? = none := Std.ExtTreeMap.getElem?_empty
  simp only [startOf, hcache]
  rfl

theorem dataCall_has : dataCall.answerOf clearEnv.blake3 dataStorage (.has sampleKey) = none := by
  have hnone : (dataCall.answerOf clearEnv.blake3 dataStorage (.has sampleKey)).isNone = true := by decide +kernel
  exact Option.isNone_iff_eq_none.mp hnone

/-- The first call in a block that asks for the presence of a stored value fails, and the first one that replaces the
value gives back null. -/
theorem contractStorage_asMap_fails :
    Collisionless clearEnv.blake3 sampleKeys ∧
      (∀ contract key, (contract, key) ∈ sampleKeys → Kept 0 0 (dataHistory clearEnv.blake3 dataStorage contract key)) ∧
      (dataCall.answerOf clearEnv.blake3 dataStorage (.store sampleKey [0, 3])).map Prod.fst = some (.cell nullCell) ∧
      ¬∀ phase m, Reaches clearEnv sampleKeys (fun _ _ _ => True) dataStorage 0 phase m →
        AsMap clearEnv sampleKeys (fun _ _ _ => True) 0 phase m := by
  refine ⟨sampleKeys_collisionless, dataStorage_kept, by decide +kernel, fun h => ?_⟩
  have hreached : Reaches clearEnv sampleKeys (fun _ _ _ => True) dataStorage 0 (.block dataBlock) _ :=
    Reaches.start.opened rfl Nat.zero_lt_one rfl
  obtain ⟨-, hcalls⟩ := h _ _ hreached 3#256 .empty 5#256 dataCall [] [] dataCall dataCall_start trivial rfl
  obtain ⟨next, hnext⟩ := hcalls (.has sampleKey) rfl trivial trivial
  have hnone := dataCall_has
  rw [show dataStorage = dataBlock.inner.storage from rfl, hnext] at hnone
  cases hnone

/-- A value that was loaded in the block is replaced, then stored when the block is written. -/
def replacing : List HostCall := [.storageLoad sampleKey, .storageStore sampleKey [0, 3], .storageHas sampleKey]

theorem replacing_meets : CallsMeet clearEnv.blake3 dataStorage
    (fun state call => call.key ∈ keysOf sampleKeys 3#256 ∧ Allowed clearEnv.blake3 dataStorage state call)
    dataCall replacing := by
  have hkey : sampleKey ∈ keysOf sampleKeys 3#256 := rfl
  refine ⟨fun c hc => ?_, fun answers next hnext => ⟨fun c hc => ?_, fun answers' next' hnext' => ⟨fun c hc => ?_, ?_⟩⟩⟩
  · cases hc
    exact ⟨hkey, trivial⟩
  · cases hc
    have hloaded : (dataCall.perform clearEnv.blake3 dataStorage (.storageLoad sampleKey)).any
        (fun r => decide (sampleKey ∈ r.2.cache.storage)) = true := by decide +kernel
    rw [hnext] at hloaded
    exact ⟨hkey, .inl (of_decide_eq_true hloaded)⟩
  · cases hc
    have hstored : (dataCall.performAll clearEnv.blake3 dataStorage (replacing.take 2)).any
        (fun r => decide (sampleKey ∈ r.2.cache.storage)) = true := by decide +kernel
    simp only [replacing, List.take_succ_cons, List.take_zero, performAll, hnext, hnext', bind, Option.bind_some] at hstored
    have hcached : sampleKey ∈ next'.cache.storage := of_decide_eq_true hstored
    exact ⟨hkey, hcached⟩
  · exact fun _ _ _ => trivial

theorem replacing_performed :
    (dataCall.performAll clearEnv.blake3 dataStorage replacing).any (fun r =>
      isOk (applyChanges clearEnv (mergeContractChanges 3#256 r.2.cache r.2.tracker r.2.assets dataBlock))) = true := by
  decide +kernel

theorem contractStorage_asMap_replaced :
    ∃ storage m, Reaches clearEnv sampleKeys (Allowed clearEnv.blake3) dataStorage 0 (.idle storage 1) m ∧
      m 3#256 sampleKey = some [0, 3] ∧ AsMap clearEnv sampleKeys (Allowed clearEnv.blake3) 0 (.idle storage 1) m := by
  have hperformed := replacing_performed
  cases hperform : dataCall.performAll clearEnv.blake3 dataStorage replacing with
  | none =>
    rw [hperform] at hperformed
    cases hperformed
  | some r =>
    obtain ⟨answers, final⟩ := r
    rw [hperform] at hperformed
    obtain ⟨⟨⟩, s', hwrite⟩ := exists_of_isOk hperformed
    have hopened : Reaches clearEnv sampleKeys (Allowed clearEnv.blake3) dataStorage 0 (.block dataBlock) _ :=
      Reaches.start.opened rfl Nat.zero_lt_one rfl
    have hwritten := (hopened.called dataCall_start replacing_meets hperform).written hwrite
    refine ⟨_, _, hwritten, rfl, ?_⟩
    exact (contractStorage_asMap clearEnv sampleKeys sampleKeys_collisionless 0 dataStorage 0 dataStorage_kept).1 _ _
      hwritten

end Samples

end Blocks

end Xelis.Blockchain
