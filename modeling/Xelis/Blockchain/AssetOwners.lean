import Xelis.Blockchain.ContractData
import Xelis.State.AssetCalls
import Xelis.Transaction.Calls

namespace Xelis.Blockchain

open Lib (FiniteMap IndexMap Exec History)
open Storage (VersionedTrees keyBytes keyBytes_injective)
open State State.ApplicableChainState State.ContractChainState
open Transaction (Effect Fresh Performs Requests SameCalls withContract)

variable {P : Type}
variable {storage storage' storage₀ : Storage P} {asset asset' hash contract txHash caller : Hash}
  {t top₀ top stableTopoheight topoheight : TopoHeight} {env : Env P}

section Writing

variable {V : Type} {f : Storage P → History V} {topoheight : TopoHeight} {h : History V}

def RecordedAs (f : Storage P → History V) (topoheight : TopoHeight) (h : History V) (s : ApplicableChainState P) : Prop :=
  s.inner.topoheight = topoheight ∧ f s.inner.storage = h

variable {s s' : ApplicableChainState P}

theorem recordedAs_loop {E : Type} {entries : FiniteMap Hash E} {write : Hash × E → Write P PUnit} (version : E → Option V)
    (key : Hash) (hself : ∀ {h : History V} (e : E) (s s' : ApplicableChainState P), RecordedAs f topoheight h s →
      write (key, e) s = .ok ⟨⟩ s' → RecordedAs f topoheight (h.extend topoheight (version e)) s')
    (hother : ∀ {h : History V} (e : Hash × E) (s s' : ApplicableChainState P), e.1 ≠ key → RecordedAs f topoheight h s →
      write e s = .ok ⟨⟩ s' → RecordedAs f topoheight h s')
    (hat : RecordedAs f topoheight h s) (hwrite : entries.toList.forM write s = .ok ⟨⟩ s') :
    RecordedAs f topoheight (h.extend topoheight (entries[key]?.bind version)) s' := by
  cases hentry : entries[key]? with
  | none =>
    refine Exec.forM_keeps (fun e he s₁ s₂ h₁ => hother e s₁ s₂ (fun heq => ?_) h₁) hat hwrite
    rw [← heq, Std.ExtTreeMap.mem_toList_iff_getElem?_eq_some.mp he] at hentry
    cases hentry
  | some e =>
    have hmem : (key, e) ∈ entries.toList := Std.ExtTreeMap.mem_toList_iff_getElem?_eq_some.mpr hentry
    exact Exec.forM_once (k := Prod.fst) hmem (FiniteMap.toList_keys_distinct _) (hself e)
      (fun e' _ hne s₁ s₂ => hother e' s₁ s₂ (Ne.symm hne)) (fun e' _ hne s₁ s₂ => hother e' s₁ s₂ (Ne.symm hne)) hat hwrite

theorem contractHistory_congr (hcontracts : storage'.contracts = storage.contracts)
    (contract : Hash) : storage'.contractHistory contract = storage.contractHistory contract := by
  unfold Storage.contractHistory
  rw [hcontracts]

theorem assetHistory_addAsset_of_ne (storage : Storage P) (hne : asset ≠ asset') (t : TopoHeight)
    (v : Versioned AssetData) : (storage.addAsset asset t v).assetHistory asset' = storage.assetHistory asset' := by
  have hkey : keyBytes asset ≠ keyBytes asset' := fun heq => hne (keyBytes_injective heq)
  have hhistory := VersionedTrees.history_setLast_of_ne storage.assets (keyBytes asset) t v hkey
  have hversion := congrArg History.version hhistory
  refine History.ext ?_ hversion
  show (storage.addAsset asset t v).getAssetTopoheight asset' = storage.getAssetTopoheight asset'
  have hpointer : ((storage.assets.setPointer (keyBytes asset) t).setAt (keyBytes asset) t v).pointers[keyBytes asset']? =
      storage.assets.pointers[keyBytes asset']? := congrArg History.last hhistory
  unfold Storage.getAssetTopoheight Storage.addAsset
  rw [FiniteMap.getElem?_insert_of_ne _ _ hne, hpointer]

variable {kinds : List WriteKind}

theorem Steps.assetHistory (hkinds : .asset ∉ kinds)
    (h : StepsAt t kinds s s') (asset : Hash) : s'.inner.storage.assetHistory asset = s.inner.storage.assetHistory asset := by
  refine StepsAt.eq_of_step (fun s => s.inner.storage.assetHistory asset) (fun _ _ hstep => ?_) h
  cases hstep with
  | asset hkind asset v => exact absurd hkind hkinds
  | _ => rfl

theorem Steps.contracts (hkinds : .contract ∉ kinds)
    (h : StepsAt t kinds s s') : s'.inner.storage.contracts = s.inner.storage.contracts := by
  refine StepsAt.eq_of_step (fun s => s.inner.storage.contracts) (fun _ _ hstep => ?_) h
  cases hstep with
  | contract hkind hash v => exact absurd hkind hkinds
  | _ => rfl

theorem Steps.contractHistory (hkinds : .contract ∉ kinds) (h : StepsAt t kinds s s') (contract : Hash) :
    s'.inner.storage.contractHistory contract = s.inner.storage.contractHistory contract :=
  contractHistory_congr (Steps.contracts hkinds h) contract

/-- The contracts that are found depend on those of the block and of the storage. -/
theorem findContract_congr {s s' : ChainState P} (hcontracts : s'.contracts = s.contracts)
    (hstorage : s'.storage.contracts = s.storage.contracts) (htopo : s'.topoheight = s.topoheight) (hash : Hash) :
    s'.findContract hash = s.findContract hash := by
  unfold ChainState.findContract
  rw [hcontracts, htopo, Storage.getContractAtMaximumTopoheightFor_eq,
    Storage.getContractAtMaximumTopoheightFor_eq, hstorage]

variable [RistrettoPoint P]

omit [RistrettoPoint P] in
theorem applyAsset_ok {e : Hash × Option AssetChanges} (h : applyAsset e s = .ok ⟨⟩ s') :
    s'.inner.topoheight = s.inner.topoheight ∧ ∀ asset, s'.inner.storage.assetHistory asset =
      if e.1 = asset then (s.inner.storage.assetHistory asset).extend s.inner.topoheight (e.2.bind (storedFor ·.data))
      else s.inner.storage.assetHistory asset := by
  have hsteps := Steps.of_ok (applyAsset_steps e) h
  refine ⟨hsteps.sameBlock.topoheight, fun asset => ?_⟩
  unfold applyAsset at h
  obtain ⟨_, _, hget, h⟩ := Exec.bind_ok_iff.mp h
  cases hget
  obtain ⟨given, entry⟩ := e
  cases entry with
  | none =>
    cases h
    exact (ite_self _).symm
  | some changes =>
    obtain ⟨data, supply⟩ := changes
    have hsupply : ∀ e : VersionedState × Nat, Exec.Moves (StepsAt s.inner.topoheight [.supply]) (if e.1.shouldBeStored then
        modifyStorage (P := P) (·.setLastSupplyForAsset given s.inner.topoheight ⟨e.1.getTopoheight, e.2⟩)
      else pure ⟨⟩) := fun e => StepsAt.ite (StepsAt.modify fun _ => .supply (by simp) given _) (StepsAt.pure _)
    dsimp only at h ⊢
    rw [Option.bind_some, storedFor]
    split at h
    · rename_i hstore
      obtain ⟨⟨⟩, s₁, hasset, h⟩ := Exec.bind_ok_iff.mp h
      have hrest : StepsAt s.inner.topoheight [.supply] s₁ s' := by
        cases supply with
        | none =>
          cases h
          exact .refl
        | some e => exact Exec.Moves.of_ok (hsupply e) h
      cases hasset
      rw [if_pos hstore, Steps.assetHistory (by simp) hrest]
      by_cases hsame : given = asset
      · subst hsame
        rw [if_pos rfl]
        exact Storage.assetHistory_addAsset_self _ _ _ _
      · rw [if_neg hsame]
        exact assetHistory_addAsset_of_ne _ hsame _ _
    · rename_i hstore
      have hrest : StepsAt s.inner.topoheight [.supply] s s' := by
        cases supply with
        | none =>
          cases h
          exact .refl
        | some e => exact Exec.Moves.of_ok (hsupply e) h
      rw [if_neg hstore, Steps.assetHistory (by simp) hrest, History.extend_none, ite_self]

omit [RistrettoPoint P] in
theorem applyContract_ok {e : Hash × VersionedState × Option Module} (h : applyContract e s = .ok ⟨⟩ s') :
    s'.inner.topoheight = s.inner.topoheight ∧ ∀ contract, s'.inner.storage.contractHistory contract =
      if e.1 = contract then (s.inner.storage.contractHistory contract).extend s.inner.topoheight (storedFor e.2)
      else s.inner.storage.contractHistory contract := by
  have hsteps := Steps.of_ok (applyContract_steps e) h
  refine ⟨hsteps.sameBlock.topoheight, fun contract => ?_⟩
  unfold applyContract at h
  obtain ⟨_, _, hget, h⟩ := Exec.bind_ok_iff.mp h
  cases hget
  rw [storedFor]
  split at h
  · rename_i hstore
    cases h
    rw [if_pos hstore]
    by_cases hsame : e.1 = contract
    · subst hsame
      rw [if_pos rfl]
      exact VersionedTrees.history_setLast_self _ _ _ _
    · rw [if_neg hsame]
      exact VersionedTrees.history_setLast_of_ne _ _ _ _ fun heq => hsame (keyBytes_injective heq)
  · rename_i hstore
    cases h
    rw [if_neg hstore, History.extend_none, ite_self]

theorem applyChanges_assetHistory (hwrite : applyChanges env s = .ok ⟨⟩ s')
    (asset : Hash) : s'.inner.storage.assetHistory asset = (s.inner.storage.assetHistory asset).extend s.inner.topoheight
      (s.contractManager.assets[asset]?.bind (·.bind (storedFor ·.data))) := by
  obtain ⟨s₁, s₂, s₃, s₄, s₅, s₆, s₇, stages⟩ := applyChanges_ok hwrite
  have haccounts := accounts_steps stages.accounts
  have hat : RecordedAs (·.assetHistory asset) s.inner.topoheight (s.inner.storage.assetHistory asset) s₁ :=
    ⟨haccounts.sameBlock.topoheight, Steps.assetHistory (by simp) haccounts asset⟩
  have h₂ : RecordedAs (·.assetHistory asset) s.inner.topoheight ((s.inner.storage.assetHistory asset).extend
      s.inner.topoheight (s.contractManager.assets[asset]?.bind (·.bind (storedFor ·.data)))) s₂ := by
    refine recordedAs_loop (·.bind (storedFor ·.data)) asset ?_ ?_ hat stages.assets
    · rintro h entry t t' ⟨htopo, hhistory⟩ hstep
      obtain ⟨htopo', hasset⟩ := applyAsset_ok hstep
      refine ⟨htopo'.trans htopo, (hasset asset).trans ?_⟩
      rw [if_pos rfl, ← hhistory, htopo]
    · rintro h e t t' hne ⟨htopo, hhistory⟩ hstep
      obtain ⟨htopo', hasset⟩ := applyAsset_ok hstep
      exact ⟨htopo'.trans htopo, ((hasset asset).trans (if_neg hne)).trans hhistory⟩
  have hcaches := Steps.assetHistory (by simp) (caches_steps stages.caches) asset
  have htransfers := Steps.assetHistory (by simp) (transfers_steps stages.transfers) asset
  have hcontracts := Steps.assetHistory (by simp) (contracts_steps stages.contracts) asset
  have houtputs := Steps.assetHistory (by simp) (outputs_steps stages.outputs) asset
  have hbalances := Steps.assetHistory (by simp) (balances_steps stages.balances) asset
  rw [stages.written]
  exact (((hbalances.trans houtputs).trans hcontracts).trans htransfers).trans (hcaches.trans h₂.2)

theorem applyChanges_contractHistory (hwrite : applyChanges env s = .ok ⟨⟩ s')
    (contract : Hash) : s'.inner.storage.contractHistory contract =
      (s.inner.storage.contractHistory contract).extend s.inner.topoheight (s.inner.contracts[contract]?.bind storedFor) := by
  obtain ⟨s₁, s₂, s₃, s₄, s₅, s₆, s₇, stages⟩ := applyChanges_ok hwrite
  have haccounts := accounts_steps stages.accounts
  have hassets := assets_steps stages.assets
  have hcaches := caches_steps stages.caches
  have htransfers := transfers_steps stages.transfers
  have hbefore := (Steps.contractHistory (by simp) htransfers contract).trans
    ((Steps.contractHistory (by simp) hcaches contract).trans
      ((Steps.contractHistory (by simp) hassets contract).trans (Steps.contractHistory (by simp) haccounts contract)))
  have hblock := ((haccounts.sameBlock.trans hassets.sameBlock).trans hcaches.sameBlock).trans htransfers.sameBlock
  have hat : RecordedAs (·.contractHistory contract) s.inner.topoheight (s.inner.storage.contractHistory contract) s₄ :=
    ⟨hblock.topoheight, hbefore⟩
  have h₅ : RecordedAs (·.contractHistory contract) s.inner.topoheight ((s.inner.storage.contractHistory contract).extend
      s.inner.topoheight (s.inner.contracts[contract]?.bind storedFor)) s₅ := by
    refine recordedAs_loop storedFor contract ?_ ?_ hat stages.contracts
    · rintro h entry t t' ⟨htopo, hhistory⟩ hstep
      obtain ⟨htopo', hcontract⟩ := applyContract_ok hstep
      refine ⟨htopo'.trans htopo, (hcontract contract).trans ?_⟩
      rw [if_pos rfl, ← hhistory, htopo]
    · rintro h e t t' hne ⟨htopo, hhistory⟩ hstep
      obtain ⟨htopo', hcontract⟩ := applyContract_ok hstep
      exact ⟨htopo'.trans htopo, ((hcontract contract).trans (if_neg hne)).trans hhistory⟩
  have houtputs := Steps.contractHistory (by simp) (outputs_steps stages.outputs) contract
  have hbalances := Steps.contractHistory (by simp) (balances_steps stages.balances) contract
  rw [stages.written]
  exact (hbalances.trans houtputs).trans h₅.2

end Writing

section Runs

variable [RistrettoPoint P]

/-- The contracts that exist in a block: deployed in it, or stored. -/
def existing (s : ApplicableChainState P) : Set Hash :=
  {hash | ∃ versioned module, s.inner.findContract hash = .ok (versioned, some module)}

/-- The part of the state of a block that decides who owns what, and which contracts exist. -/
structure SameOwners (s s' : ApplicableChainState P) : Prop where
  assetHistory : ∀ asset, s'.inner.storage.assetHistory asset = s.inner.storage.assetHistory asset
  contractHistory : ∀ contract, s'.inner.storage.contractHistory contract = s.inner.storage.contractHistory contract
  topoheight : s'.inner.topoheight = s.inner.topoheight
  assets : s'.contractManager.assets = s.contractManager.assets
  contracts : ∀ hash, s'.inner.findContract hash = s.inner.findContract hash

/-- The runs of a node from a storage, with the owners that its contracts leave. Every call meets a condition. -/
inductive Owns (env : Env P) (cond : Storage P → Set Hash → ContractChainState → HostCall → Prop) (storage₀ : Storage P)
    (top₀ : TopoHeight) : Phase P → Registry → Prop
  | start : Owns env cond storage₀ top₀ (.idle storage₀ top₀) (ownersSeen storage₀ ∅)
  /-- Between two blocks the other parts of the storage change. -/
  | between {storage storage' : Storage P} {top : TopoHeight} {m : Registry}
      (h : Owns env cond storage₀ top₀ (.idle storage top) m)
      (hassets : ∀ asset, storage'.assetHistory asset = storage.assetHistory asset)
      (hcontracts : ∀ contract, storage'.contractHistory contract = storage.contractHistory contract) :
      Owns env cond storage₀ top₀ (.idle storage' top) m
  | opened {storage : Storage P} {top : TopoHeight} {m : Registry} {s : ApplicableChainState P}
      (h : Owns env cond storage₀ top₀ (.idle storage top) m) (hstorage : s.inner.storage = storage)
      (htop : top < s.inner.topoheight) (hassets : s.contractManager.assets = ∅) (hcontracts : s.inner.contracts = ∅) :
      Owns env cond storage₀ top₀ (.block s) m
  | other {s s' : ApplicableChainState P} {m : Registry} (h : Owns env cond storage₀ top₀ (.block s) m)
      (hsame : SameOwners s s') : Owns env cond storage₀ top₀ (.block s') m
  /-- A contract is deployed under a new hash. -/
  | deployed {s : ApplicableChainState P} {m : Registry} {hash : Hash} (h : Owns env cond storage₀ top₀ (.block s) m)
      (hnew : s.inner.findContract hash = .ok (.new, none)) (module : Module) :
      Owns env cond storage₀ top₀ (.block { s with inner := ChainState.setContract hash (.new, some module) s.inner }) m
  /-- A successful call of a contract. -/
  | called {s : ApplicableChainState P} {m : Registry} {contract txHash : Hash} {deposits : IndexMap Hash ContractDeposit}
      {start final : ContractChainState} {calls : List HostCall} (h : Owns env cond storage₀ top₀ (.block s) m)
      (hexists : contract ∈ existing s) (hstart : s.startOf contract deposits txHash = .ok start)
      (hmeet : Meets env.blake3 s.inner.storage (cond s.inner.storage (existing s)) start calls)
      (hexec : start.execAll env.blake3 s.inner.storage calls = some final) :
      Owns env cond storage₀ top₀ (.block (mergeContractChanges contract final.cache final.tracker final.assets s))
        (m.after env.blake3 contract (existing s) calls)
  | written {s s' : ApplicableChainState P} {m : Registry} (h : Owns env cond storage₀ top₀ (.block s) m)
      (hwrite : applyChanges env s = .ok ⟨⟩ s') : Owns env cond storage₀ top₀ (.idle s'.inner.storage s.inner.topoheight) m

/-- The condition on the calls: a transfer looks up a contract that exists as the new owner does. -/
def looksUp (storage : Storage P) (known : Set Hash) (state : ContractChainState) (call : HostCall) : Prop :=
  state.LooksUp storage known call

/-- What is asked of one more call of an execution that meets a condition, where the owners are known: an owner changes
when its asset is made or when the contract that owns it gives it to one that exists, a transfer of the ownership
answers yes in that case alone, and only the owner mints. -/
structure CallDisciplined (blake3 : IVec → Hash) (storage : Storage P) (known : Set Hash)
    (cond : ContractChainState → HostCall → Prop) (m : Registry) (state : ContractChainState) : Prop where
  seen : ownersSeen storage state.assets = m
  changes : ∀ call next asset, state.exec blake3 storage call = some next → cond state call →
    ownersSeen storage next.assets asset ≠ m asset →
      (m asset = none ∧ ownersSeen storage next.assets asset = some (some state.contract)) ∨
        ∃ newContract, call = .assetTransferOwnership asset newContract ∧ m asset = some (some state.contract) ∧
          newContract ∈ known ∧ ownersSeen storage next.assets asset = some (some newContract)
  transfers : ∀ asset newContract answer next,
    state.answerTransferOwnership storage asset newContract = some (answer, next) →
      cond state (.assetTransferOwnership asset newContract) →
        (answer = true ↔ m asset = some (some state.contract) ∧ newContract ∈ known)
  mints : ∀ asset amount next, state.answerMint storage asset amount = some (true, next) → m asset = some (some state.contract)

/-- What is asked of a node. Owners are contracts that exist, in a block and in the storage, at any later topoheight, and
in a block every call of any contract keeps to the owners. -/
def Disciplined (env : Env P) (cond : Storage P → Set Hash → ContractChainState → HostCall → Prop) :
    Phase P → Registry → Prop
  | .idle storage top, m => ∀ t, top ≤ t →
      (∀ asset, ∃ found, storage.getAssetAtMaximumTopoheight asset t = .ok found ∧
        found.map (fun version => contractOwner version.2.data) = m asset) ∧
      ∀ asset owner, m asset = some (some owner) → ∃ topo version,
        storage.getContractAtMaximumTopoheightFor owner t = .ok (some (topo, version)) ∧ version.data.isSome = true
  | .block s, m => (∀ asset owner, m asset = some (some owner) → owner ∈ existing s) ∧
      ∀ contract deposits txHash start calls state, contract ∈ existing s →
        s.startOf contract deposits txHash = .ok start →
        Meets env.blake3 s.inner.storage (cond s.inner.storage (existing s)) start calls →
        start.execAll env.blake3 s.inner.storage calls = some state →
        state.contract = contract ∧ CallDisciplined env.blake3 s.inner.storage (existing s)
          (cond s.inner.storage (existing s)) (m.after env.blake3 contract (existing s) calls) state

end Runs

variable {m : Registry}

section Invariant

variable {top : TopoHeight} {storage : Storage P} {m : Registry} {s s' : ApplicableChainState P}

/-- A storage whose assets and contracts have no version above a topoheight. -/
structure RecordsKept (top : TopoHeight) (storage : Storage P) : Prop where
  assets : ∀ asset, Chained top (storage.assetHistory asset)
  contracts : ∀ contract, Chained top (storage.contractHistory contract)

/-- The invariant of a run. -/
def OwnersHold : Phase P → Registry → Prop
  | .idle storage top, m => RecordsKept top storage ∧ ownersSeen storage ∅ = m ∧
      ∀ asset owner, m asset = some (some owner) → ∃ module, latest (storage.contractHistory owner) = some (some module)
  | .block s, m => (∃ top, top < s.inner.topoheight ∧ RecordsKept top s.inner.storage) ∧
      Owned s.inner.storage m s.contractManager.assets ∧
      (∀ hash, ∃ entry, s.inner.findContract hash = .ok entry ∧ Remembers (s.inner.storage.contractHistory hash) entry) ∧
      ∀ asset owner, m asset = some (some owner) → owner ∈ existing s

theorem ownersSeen_congr (hassets : ∀ asset, storage'.assetHistory asset = storage.assetHistory asset)
    (assets : FiniteMap Hash (Option AssetChanges)) : ownersSeen storage' assets = ownersSeen storage assets := by
  funext asset
  unfold State.ContractChainState.ownersSeen
  rw [hassets]

theorem RecordsKept.congr (h : RecordsKept top storage)
    (hassets : ∀ asset, storage'.assetHistory asset = storage.assetHistory asset)
    (hcontracts : ∀ contract, storage'.contractHistory contract = storage.contractHistory contract) :
    RecordsKept top storage' where
  assets asset := by
    rw [hassets]
    exact h.assets asset
  contracts contract := by
    rw [hcontracts]
    exact h.contracts contract

theorem findContract_stored (hc : Chained top (s.inner.storage.contractHistory hash))
    (hle : top ≤ s.inner.topoheight) (hnone : s.inner.contracts[hash]? = none) :
    ∃ entry, s.inner.findContract hash = .ok entry ∧ Remembers (s.inner.storage.contractHistory hash) entry ∧
      entry.2 = (latest (s.inner.storage.contractHistory hash)).join := by
  unfold ChainState.findContract
  rw [hnone, Storage.getContractAtMaximumTopoheightFor_found hc.linked (hc.found hle)]
  cases hnewest : (s.inner.storage.contractHistory hash).newestVersion with
  | none =>
    have hlatest : latest (s.inner.storage.contractHistory hash) = none := by rw [latest, hnewest, Option.map_none]
    rw [hlatest]
    exact ⟨_, rfl, remembers_new (hc.last_eq_none hlatest) none, rfl⟩
  | some found =>
    obtain ⟨topo, version⟩ := found
    refine ⟨_, rfl, hc.remembers_fetched hnewest, ?_⟩
    rw [latest, hnewest]
    rfl

theorem OwnersHold.opened (h : OwnersHold (.idle storage top) m) (hstorage : s.inner.storage = storage)
    (htop : top < s.inner.topoheight) (hassets : s.contractManager.assets = ∅) (hcontracts : s.inner.contracts = ∅) :
    OwnersHold (.block s) m := by
  subst hstorage
  obtain ⟨hkept, hseen, howners⟩ := h
  have hfind : ∀ hash, ∃ entry, s.inner.findContract hash = .ok entry ∧
      Remembers (s.inner.storage.contractHistory hash) entry ∧
        entry.2 = (latest (s.inner.storage.contractHistory hash)).join := fun hash =>
    findContract_stored (hkept.contracts hash) (Nat.le_of_lt htop) (by rw [hcontracts, Std.ExtTreeMap.getElem?_empty])
  refine ⟨⟨top, htop, hkept⟩, ⟨hassets ▸ hseen, fun asset entry hentry => ?_⟩, fun hash => ?_, fun asset owner howner => ?_⟩
  · rw [hassets, Std.ExtTreeMap.getElem?_empty] at hentry
    cases hentry
  · obtain ⟨entry, hentry, hremembers, -⟩ := hfind hash
    exact ⟨entry, hentry, hremembers⟩
  · obtain ⟨module, hmodule⟩ := howners asset owner howner
    obtain ⟨⟨versioned, found⟩, hentry, -, hfound⟩ := hfind owner
    rw [hmodule] at hfound
    obtain rfl : found = some module := hfound
    exact ⟨versioned, module, hentry⟩

theorem SameOwners.existing (h : SameOwners s s') : existing s' = existing s := by
  unfold Blockchain.existing
  simp only [h.contracts]

theorem OwnersHold.other (h : OwnersHold (.block s) m) (hsame : SameOwners s s') : OwnersHold (.block s') m := by
  obtain ⟨⟨top, htop, hkept⟩, howned, hfind, howners⟩ := h
  refine ⟨⟨top, hsame.topoheight ▸ htop, hkept.congr hsame.assetHistory hsame.contractHistory⟩, ?_, fun hash => ?_, ?_⟩
  · refine ⟨(ownersSeen_congr hsame.assetHistory _).trans (hsame.assets ▸ howned.seen), fun asset entry hentry => ?_⟩
    rw [hsame.assets] at hentry
    rw [hsame.assetHistory]
    exact howned.kept asset entry hentry
  · obtain ⟨entry, hentry, hremembers⟩ := hfind hash
    refine ⟨entry, (hsame.contracts hash).trans hentry, ?_⟩
    rw [hsame.contractHistory]
    exact hremembers
  · rw [hsame.existing]
    exact howners

theorem OwnersHold.deployed (h : OwnersHold (.block s) m)
    (hnew : s.inner.findContract hash = .ok (.new, none)) (module : Module) :
    OwnersHold (.block { s with inner := ChainState.setContract hash (.new, some module) s.inner }) m := by
  obtain ⟨hkept, howned, hfind, howners⟩ := h
  refine ⟨hkept, howned, fun other => ?_, fun asset owner howner => ?_⟩
  · by_cases hsame : hash = other
    · subst hsame
      obtain ⟨entry, hentry, hremembers⟩ := hfind hash
      rw [hnew, Except.ok.injEq] at hentry
      subst hentry
      exact ⟨_, ChainState.findContract_setContract_self _ _, hremembers.markUpdated (some module)⟩
    · obtain ⟨entry, hentry, hremembers⟩ := hfind other
      exact ⟨entry, (ChainState.findContract_setContract_of_ne hsame _).trans hentry, hremembers⟩
  · obtain ⟨versioned, found, hfound⟩ := howners asset owner howner
    have hne : hash ≠ owner := by
      rintro rfl
      rw [hnew] at hfound
      cases hfound
    exact ⟨versioned, found, (ChainState.findContract_setContract_of_ne hne _).trans hfound⟩

variable {deposits : IndexMap Hash ContractDeposit} {start final : ContractChainState}

theorem OwnersHold.started [RistrettoPoint P] (h : OwnersHold (.block s) m)
    (hstart : s.startOf contract deposits txHash = .ok start) :
    Owned s.inner.storage m start.assets ∧ start.contract = contract ∧
      ∃ top, (∀ asset, Chained top (s.inner.storage.assetHistory asset)) ∧ top ≤ start.topoheight := by
  obtain ⟨⟨top, htop, hkept⟩, howned, -, -⟩ := h
  obtain ⟨-, hcontract, htopo, -, hassets⟩ := startOf_ok hstart
  refine ⟨hassets ▸ howned, hcontract, top, hkept.assets, ?_⟩
  rw [htopo]
  exact Nat.le_of_lt htop

theorem after_existing {blake3 : IVec → Hash} {known : Set Hash} (hcaller : caller ∈ known)
    (hm : ∀ asset owner, m asset = some (some owner) → owner ∈ known) (calls : List HostCall) :
    ∀ asset owner, m.after blake3 caller known calls asset = some (some owner) → owner ∈ known := by
  induction calls generalizing m with
  | nil => exact hm
  | cons call calls ih => exact ih fun asset owner howner => HostCall.owners_existing hcaller hm call howner

theorem OwnersHold.called [RistrettoPoint P] (h : OwnersHold (.block s) m) {calls : List HostCall}
    (hexists : contract ∈ Blockchain.existing s) (hstart : s.startOf contract deposits txHash = .ok start)
    (hmeet : Meets env.blake3 s.inner.storage (looksUp s.inner.storage (Blockchain.existing s)) start calls)
    (hexec : start.execAll env.blake3 s.inner.storage calls = some final) :
    OwnersHold (.block (mergeContractChanges contract final.cache final.tracker final.assets s))
      (m.after env.blake3 contract (Blockchain.existing s) calls) := by
  obtain ⟨howned, hcontract, top, hchain, hle⟩ := h.started hstart
  obtain ⟨hfinal, -, -⟩ := execAll_owned hchain hle howned hmeet hexec
  rw [hcontract] at hfinal
  obtain ⟨hkept, -, hfind, howners⟩ := h
  exact ⟨hkept, hfinal, hfind, after_existing hexists howners calls⟩

theorem OwnersHold.written [RistrettoPoint P] (h : OwnersHold (.block s) m)
    (hwrite : applyChanges env s = .ok ⟨⟩ s') : OwnersHold (.idle s'.inner.storage s.inner.topoheight) m := by
  obtain ⟨⟨top, htop, hkept⟩, howned, hfind, howners⟩ := h
  -- an asset that was not found, or not asked for, keeps its versions
  have hasset : ∀ asset, Chained s.inner.topoheight (s'.inner.storage.assetHistory asset) ∧
      (latest (s'.inner.storage.assetHistory asset)).map contractOwner = m asset := by
    intro asset
    rw [applyChanges_assetHistory hwrite]
    have hseen := congrFun howned.seen asset
    cases hcached : s.contractManager.assets[asset]? with
    | none =>
      rw [ownersSeen_uncached hcached] at hseen
      exact ⟨(hkept.assets asset).mono (Nat.le_of_lt htop), hseen⟩
    | some entry =>
      rw [ownersSeen_cached hcached] at hseen
      have hentry := howned.kept asset entry hcached
      cases entry with
      | none =>
        refine ⟨(hkept.assets asset).mono (Nat.le_of_lt htop), ?_⟩
        have hlast : (s.inner.storage.assetHistory asset).last = none := hentry
        rw [← hseen]
        show (latest (s.inner.storage.assetHistory asset)).map contractOwner = none
        rw [latest, History.newestVersion, hlast]
        rfl
      | some changes =>
        obtain ⟨hchained, hlatest⟩ := (hkept.assets asset).extend htop hentry
        refine ⟨hchained, ?_⟩
        rw [← hseen]
        show (latest ((s.inner.storage.assetHistory asset).extend _ (storedFor changes.data))).map contractOwner = _
        rw [hlatest]
        rfl
  have hcontract : ∀ hash, Chained s.inner.topoheight (s'.inner.storage.contractHistory hash) ∧
      ∀ versioned module, s.inner.findContract hash = .ok (versioned, some module) →
        latest (s'.inner.storage.contractHistory hash) = some (some module) := by
    intro hash
    rw [applyChanges_contractHistory hwrite]
    cases hcached : s.inner.contracts[hash]? with
    | none =>
      refine ⟨(hkept.contracts hash).mono (Nat.le_of_lt htop), fun versioned module hmodule => ?_⟩
      obtain ⟨entry, hentry, -, hfound⟩ := findContract_stored (hkept.contracts hash) (Nat.le_of_lt htop) hcached
      rw [hmodule, Except.ok.injEq] at hentry
      rw [← hentry] at hfound
      exact Option.join_eq_some_iff.mp hfound.symm
    | some entry =>
      have hfound : s.inner.findContract hash = .ok entry := by
        unfold ChainState.findContract
        rw [hcached]
      obtain ⟨entry', hentry', hremembers⟩ := hfind hash
      rw [hfound, Except.ok.injEq] at hentry'
      subst hentry'
      obtain ⟨hchained, hlatest⟩ := (hkept.contracts hash).extend htop hremembers
      refine ⟨hchained, fun versioned module hmodule => ?_⟩
      rw [hfound, Except.ok.injEq] at hmodule
      rw [hmodule] at hlatest
      rw [hmodule]
      exact hlatest
  refine ⟨⟨fun asset => (hasset asset).1, fun hash => (hcontract hash).1⟩, funext fun asset => ?_, fun asset owner howner => ?_⟩
  · rw [ownersSeen_uncached Std.ExtTreeMap.getElem?_empty]
    exact (hasset asset).2
  · obtain ⟨versioned, module, hmodule⟩ := howners asset owner howner
    exact ⟨module, (hcontract owner).2 versioned module hmodule⟩

end Invariant

section Blocks

variable [RistrettoPoint P] {env : Env P}

theorem Owns.hold (hkept : RecordsKept top₀ storage₀)
    (howners : ∀ asset owner, ownersSeen storage₀ ∅ asset = some (some owner) →
      ∃ module, latest (storage₀.contractHistory owner) = some (some module))
    {phase : Phase P} (h : Owns env looksUp storage₀ top₀ phase m) : OwnersHold phase m := by
  induction h with
  | start => exact ⟨hkept, rfl, howners⟩
  | between h hassets hcontracts ih =>
    obtain ⟨hkept, hseen, howners⟩ := ih
    refine ⟨hkept.congr hassets hcontracts, (ownersSeen_congr hassets ∅).trans hseen, fun asset owner howner => ?_⟩
    rw [hcontracts]
    exact howners asset owner howner
  | opened h hstorage htop hassets hcontracts ih => exact ih.opened hstorage htop hassets hcontracts
  | other h hsame ih => exact ih.other hsame
  | deployed h hnew module ih => exact ih.deployed hnew module
  | called h hexists hstart hmeet hexec ih => exact ih.called hexists hstart hmeet hexec
  | written h hwrite ih => exact ih.written hwrite

theorem OwnersHold.disciplined {phase : Phase P} (h : OwnersHold phase m) : Disciplined env looksUp phase m := by
  cases phase with
  | idle storage top =>
    obtain ⟨hkept, hseen, howners⟩ := h
    intro t ht
    refine ⟨fun asset => ?_, fun asset owner howner => ?_⟩
    · have hchain := (hkept.assets asset).mono ht
      refine ⟨_, Storage.getAssetAtMaximumTopoheight_found hchain.linked (hchain.found (Nat.le_refl t)), ?_⟩
      rw [← hseen, ownersSeen_uncached Std.ExtTreeMap.getElem?_empty, latest, Option.map_map]
      rfl
    · obtain ⟨module, hmodule⟩ := howners asset owner howner
      obtain ⟨⟨topo, version⟩, hnewest, hdata⟩ := Option.map_eq_some_iff.mp hmodule
      have hchain := (hkept.contracts owner).mono ht
      have hfound := Storage.getContractAtMaximumTopoheightFor_found hchain.linked (hchain.found (Nat.le_refl t))
      rw [hnewest] at hfound
      exact ⟨topo, version, hfound, by rw [hdata]; rfl⟩
  | block s =>
    refine ⟨h.2.2.2, fun contract deposits txHash start calls state hexists hstart hmeet hexec => ?_⟩
    obtain ⟨howned, hcontract, top, hchain, hle⟩ := h.started hstart
    obtain ⟨hfinal, hsame, htopo⟩ := execAll_owned hchain hle howned hmeet hexec
    rw [hcontract] at hfinal hsame
    refine ⟨hsame, hfinal.seen, fun call next asset hcall hlooks hne => ?_,
      fun asset newContract answer next htransfer hlooks => ?_,
      fun asset amount next hmint => (answerMint_owned hfinal hmint).2 rfl⟩
    · have hnext := exec_owned hchain (htopo ▸ hle) hfinal hlooks hcall
      rw [hnext.seen] at hne ⊢
      exact HostCall.owners_changed hne
    · exact (answerTransferOwnership_right hfinal htransfer _).mpr hlooks

/-- The transfers of the ownership in the call of a transaction look up a contract that exists as the new owner does. -/
def CallLooksUp (env : Env P) (tx : Transaction) (txHash : Hash) (s : ApplicableChainState P) : Prop :=
  ∀ module invoke parameters maxGas start calls final, Requests tx s module invoke parameters maxGas →
    Performs env txHash (tx.target txHash) tx.deposits module invoke parameters maxGas s start calls final →
    Meets env.blake3 s.inner.storage (looksUp s.inner.storage (insert (tx.target txHash) (existing s))) start calls

def Executable (env : Env P) (tx : Transaction) (txHash : Hash) (s : ApplicableChainState P) : Prop :=
  Fresh tx txHash s ∧ CallLooksUp env tx txHash s

section Executed

variable {storage₀ : Storage P} {top₀ : TopoHeight} {tx : Transaction} {txHash : Hash} {s s' : ApplicableChainState P}
  {m : Registry}

omit [RistrettoPoint P] in
theorem sameOwners_of_sameCalls (h : SameCalls s s') : SameOwners s s' where
  assetHistory asset := by rw [h.storage]
  contractHistory contract := by rw [h.storage]
  topoheight := h.topoheight
  assets := h.assets
  contracts := h.contracts

omit [RistrettoPoint P] in
theorem existing_withContract (hnew : s.inner.findContract txHash = .ok (.new, none)) (module : Module) :
    existing (withContract txHash module s) = insert txHash (existing s) := by
  ext hash
  rw [Set.mem_insert_iff]
  by_cases hsame : txHash = hash
  · subst hsame
    exact iff_of_true ⟨.new, module, ChainState.findContract_setContract_self _ _⟩ (.inl rfl)
  · have hfind := ChainState.findContract_setContract_of_ne (s := s.inner) hsame (.new, some module)
    constructor
    · rintro ⟨versioned, found, hfound⟩
      exact .inr ⟨versioned, found, hfind.symm.trans hfound⟩
    · rintro (rfl | ⟨versioned, found, hfound⟩)
      · exact absurd rfl hsame
      · exact ⟨versioned, found, hfind.trans hfound⟩

theorem Owns.effect (h : Owns env looksUp storage₀ top₀ (.block s) m) (hlooks : CallLooksUp env tx txHash s)
    (heffect : Effect env tx txHash s s') :
    s'.inner.topoheight = s.inner.topoheight ∧ ∃ m', Owns env looksUp storage₀ top₀ (.block s') m' := by
  cases heffect with
  | same hsame => exact ⟨hsame.topoheight, m, h.other (sameOwners_of_sameCalls hsame)⟩
  | called module invoke parameters maxGas start calls final hrequest hexists hperforms hsame =>
    have hmeet := hlooks _ _ _ _ _ _ _ hrequest hperforms
    have hmem : tx.target txHash ∈ existing s := hexists
    rw [Set.insert_eq_of_mem hmem] at hmeet
    have hcalled := h.called hmem hperforms.begins hmeet hperforms.ends
    exact ⟨hsame.topoheight, _, hcalled.other (sameOwners_of_sameCalls hsame)⟩
  | deployed deployed hnew hsame =>
    exact ⟨hsame.topoheight, m, (h.deployed hnew deployed).other (sameOwners_of_sameCalls hsame)⟩
  | constructed deployed module invoke parameters maxGas start calls final hnew htarget hrequest hperforms hsame =>
    have hmeet := hlooks module invoke parameters maxGas start calls final hrequest
      (htarget.symm ▸ ⟨hperforms.begins, hperforms.runs, hperforms.ends⟩)
    rw [htarget, ← existing_withContract hnew deployed] at hmeet
    have hmem : txHash ∈ existing (withContract txHash deployed s) := by
      rw [existing_withContract hnew]
      exact Set.mem_insert _ _
    have hcalled := (h.deployed hnew deployed).called hmem hperforms.begins hmeet hperforms.ends
    exact ⟨hsame.topoheight, _, hcalled.other (sameOwners_of_sameCalls hsame)⟩

omit [RistrettoPoint P] in
theorem sameOwners_link (run : BlockRun P) (txHash hash : Hash) :
    SameOwners run.chainState (run.link txHash hash).chainState := by
  obtain ⟨_, hlink⟩ := run.link_eq txHash hash
  rw [hlink]
  exact ⟨fun _ => rfl, fun _ => rfl, rfl, rfl, fun _ => rfl⟩

theorem Owns.executeTransaction {run run' : BlockRun P} (h : Owns env looksUp storage₀ top₀ (.block run.chainState) m)
    (hexec : Executable env tx txHash (run.link txHash hash).chainState)
    (hrun : Blockchain.executeTransaction env hash tx txHash run = .ok ⟨⟩ run') :
    run'.chainState.inner.topoheight = run.chainState.inner.topoheight ∧
      ∃ m', Owns env looksUp storage₀ top₀ (.block run'.chainState) m' := by
  have hlink := sameOwners_link run txHash hash
  have hlinked := h.other hlink
  have heffect := Transaction.applyWithPartialVerify_effect env hexec.1
  cases executeTransaction_step hrun with
  | skipped _ => exact ⟨hlink.topoheight, m, hlinked⟩
  | refused _ _ _ => exact ⟨hlink.topoheight, m, hlinked⟩
  | failed nonceChecker e chainState _ _ happly =>
    rw [happly] at heffect
    obtain ⟨htopo, hafter⟩ := hlinked.effect hexec.2 heffect
    exact ⟨htopo.trans hlink.topoheight, hafter⟩
  | executed nonceChecker chainState nextNonce inner _ _ happly _ hupdate =>
    rw [happly] at heffect
    obtain ⟨htopo, m', hexecuted⟩ := hlinked.effect hexec.2 heffect
    have hnonce := Transaction.updateNonce_keepsCalls tx nextNonce chainState
    unfold onInner at hnonce
    rw [hupdate] at hnonce
    have hsame := sameOwners_of_sameCalls hnonce.sameCalls
    refine ⟨hsame.topoheight.trans (htopo.trans hlink.topoheight), m', hexecuted.other ?_⟩
    exact ⟨hsame.assetHistory, hsame.contractHistory, hsame.topoheight, hsame.assets, hsame.contracts⟩

theorem Owns.executeBlock {devPublicKey : PublicKey}
    (h : Owns env looksUp storage₀ top₀ (.idle storage top) m) {mainnet : Bool}
    {blockVersion : BlockVersion} {burnedSupply : Nat} {block : Block} {nonceChecker : NonceChecker}
    {orphaned : List Hash} {blockReward : Nat} {run : BlockRun P} (htop : top < topoheight)
    (hexec : Exec.Along (fun e run => Executable env e.1 e.2 (run.link e.2 hash).chainState)
      (fun e => Blockchain.executeTransaction env hash e.1 e.2) (block.transactions.zip block.header.txsHashes)
      (BlockRun.new storage mainnet stableTopoheight topoheight blockVersion burnedSupply hash block nonceChecker orphaned))
    (hrun : Blockchain.executeBlock env devPublicKey hash block blockReward
      (BlockRun.new storage mainnet stableTopoheight topoheight blockVersion burnedSupply hash block nonceChecker orphaned) =
        .ok ⟨⟩ run) : ∃ m', Owns env looksUp storage₀ top₀ (.idle run.storage topoheight) m' := by
  obtain ⟨run₁, s₁, s₂, htxs, hreward, hwrite, rfl⟩ := executeBlock_ok hrun
  have hexecuted : run₁.chainState.inner.topoheight = topoheight ∧
      ∃ m', Owns env looksUp storage₀ top₀ (.block run₁.chainState) m' := by
    refine Exec.forM_along (I := fun run => run.chainState.inner.topoheight = topoheight ∧
      ∃ m', Owns env looksUp storage₀ top₀ (.block run.chainState) m') ?_ hexec ⟨rfl, m, h.opened rfl htop rfl rfl⟩ htxs
    rintro e run run' hcalls ⟨htopo, m', hreached⟩ hstep
    obtain ⟨htopo', hafter⟩ := hreached.executeTransaction hcalls hstep
    exact ⟨htopo'.trans htopo, hafter⟩
  obtain ⟨htopo, m', hreached⟩ := hexecuted
  have hsteps := Steps.of_ok (rewardBlock_steps _ _ _ _ _) hreward
  have hblock := hsteps.sameBlock
  have hassets := Steps.assetHistory (by simp) hsteps
  have hcontracts := Steps.contractHistory (by simp) hsteps
  have hrewarded := findContract_congr hblock.contracts (Steps.contracts (by simp) hsteps) hblock.topoheight
  have hwritten := (hreached.other ⟨hassets, hcontracts, hblock.topoheight,
    congrArg ContractManager.assets hblock.contractManager, hrewarded⟩).written hwrite
  rw [hblock.topoheight, htopo] at hwritten
  exact ⟨m', hwritten⟩

end Executed

/-- When every transfer of an ownership by the owner looks up a contract that exists as the new owner does, whatever the
transactions and blocks, an owner changes only where the contract that owns the asset gives it to one that exists, the
answers say so, only the owner mints, and owners exist. The blocks that are executed are such runs. -/
theorem assetOwners_disciplined (env : Env P) (storage₀ : Storage P) (top₀ : TopoHeight) (hkept : RecordsKept top₀ storage₀)
    (howners : ∀ asset owner, ownersSeen storage₀ ∅ asset = some (some owner) →
      ∃ module, latest (storage₀.contractHistory owner) = some (some module)) :
    (∀ phase m, Owns env looksUp storage₀ top₀ phase m → Disciplined env looksUp phase m) ∧
      ∀ devPublicKey storage top m mainnet stableTopoheight topoheight blockVersion burnedSupply hash block nonceChecker
        orphaned blockReward run, Owns env looksUp storage₀ top₀ (.idle storage top) m → top < topoheight →
        Exec.Along (fun e run => Executable env e.1 e.2 (run.link e.2 hash).chainState)
          (fun e => executeTransaction env hash e.1 e.2) (block.transactions.zip block.header.txsHashes)
          (BlockRun.new storage mainnet stableTopoheight topoheight blockVersion burnedSupply hash block nonceChecker
            orphaned) →
        executeBlock env devPublicKey hash block blockReward
          (BlockRun.new storage mainnet stableTopoheight topoheight blockVersion burnedSupply hash block nonceChecker
            orphaned) = .ok ⟨⟩ run →
        ∃ m', Owns env looksUp storage₀ top₀ (.idle run.storage topoheight) m' := by
  constructor
  · intro phase m h
    exact (h.hold hkept howners).disciplined
  · intro devPublicKey storage top m mainnet stableTopoheight topoheight blockVersion burnedSupply hash block nonceChecker
      orphaned blockReward run h htop hexec hrun
    exact h.executeBlock htop hexec hrun

section Samples

open Transaction (clearEnv)

/-- A digest that is the hash of no contract. -/
def ownerEnv : Env ℤ := { clearEnv with blake3 := fun _ => 6#256 }

/-- Two contracts and no asset. -/
def ownerStorage : Storage ℤ :=
  let s : Storage ℤ := {}
  (s.setLastContractTo 3#256 0 ⟨none, some []⟩).setLastContractTo 4#256 0 ⟨none, some []⟩

theorem assetHistory_ownerStorage (asset : Hash) : ownerStorage.assetHistory asset = ⟨none, fun _ => none⟩ := by
  refine History.ext ?_ (funext fun _ => Std.ExtTreeMap.getElem?_empty)
  show ownerStorage.getAssetTopoheight asset = none
  unfold Storage.getAssetTopoheight
  rw [show ownerStorage.assetsCache[asset]? = none from Std.ExtTreeMap.getElem?_empty]
  exact Std.ExtTreeMap.getElem?_empty

theorem contractHistory_ownerStorage (contract : Hash) : ownerStorage.contractHistory contract =
    if contract = 3#256 ∨ contract = 4#256 then (⟨none, fun _ => none⟩ : History (Versioned (Option Module))).push 0 ⟨none, some []⟩
    else ⟨none, fun _ => none⟩ := by
  have hempty : ∀ key, (⟨∅, ∅⟩ : VersionedTrees (Versioned (Option Module))).history key = ⟨none, fun _ => none⟩ := fun key =>
    History.ext Std.ExtTreeMap.getElem?_empty (funext fun _ => Std.ExtTreeMap.getElem?_empty)
  let trees : VersionedTrees (Versioned (Option Module)) := ⟨∅, ∅⟩
  show ((trees.setLast (keyBytes 3#256) 0 ⟨none, some []⟩).setLast (keyBytes 4#256) 0 ⟨none, some []⟩).history
    (keyBytes contract) = _
  by_cases hfour : contract = 4#256
  · subst hfour
    rw [VersionedTrees.history_setLast_self, VersionedTrees.history_setLast_of_ne _ _ _ _
      (fun heq => absurd (keyBytes_injective heq) (by decide)), hempty, if_pos (.inr rfl)]
  · rw [VersionedTrees.history_setLast_of_ne _ _ _ _ fun heq => hfour (keyBytes_injective heq).symm]
    by_cases hthree : contract = 3#256
    · subst hthree
      rw [VersionedTrees.history_setLast_self, hempty, if_pos (.inl rfl)]
    · rw [VersionedTrees.history_setLast_of_ne _ _ _ _ fun heq => hthree (keyBytes_injective heq).symm, hempty,
        if_neg (by simp [hthree, hfour])]

theorem ownerStorage_kept : RecordsKept 0 ownerStorage where
  assets asset := by
    rw [assetHistory_ownerStorage]
    exact ⟨History.Linked.empty, nofun⟩
  contracts contract := by
    rw [contractHistory_ownerStorage]
    split
    · refine ⟨History.Linked.empty.push rfl nofun, fun l hl => ?_⟩
      exact Nat.le_of_eq (Option.some.inj hl).symm
    · exact ⟨History.Linked.empty, nofun⟩

theorem ownersSeen_ownerStorage (asset : Hash) : ownersSeen ownerStorage ∅ asset = none := by
  rw [ownersSeen_uncached Std.ExtTreeMap.getElem?_empty, assetHistory_ownerStorage]
  rfl

/-- The block that is executed over it, before its transactions. -/
def ownerBlock : ApplicableChainState ℤ :=
  .new ownerStorage false 0 1 .v3 0 1#256 ⟨⟨.v3, [], 0, 1, 0, [], 8#256, []⟩, []⟩

/-- The start of a call of the first contract in that block. -/
def ownerCall : ContractChainState where
  mainnet := false
  contract := 3#256
  topoheight := 1
  blockHash := 1#256
  block := ⟨⟨.v3, [], 0, 1, 0, [], 8#256, []⟩, []⟩
  txHash := 5#256
  deposits := .empty
  cache := {}
  outputs := []
  tracker := {}
  globalCaches := ∅
  assets := ∅

theorem ownerCall_start : ownerBlock.startOf 3#256 .empty 5#256 = .ok ownerCall := by
  have hcache : ownerBlock.contractManager.caches[3#256]? = none := Std.ExtTreeMap.getElem?_empty
  simp only [startOf, hcache]
  rfl

theorem mem_existing_ownerBlock (contract : Hash) : contract ∈ existing ownerBlock ↔ contract = 3#256 ∨ contract = 4#256 := by
  obtain ⟨⟨versioned, found⟩, hfind, -, hfound⟩ := findContract_stored (s := ownerBlock)
    (ownerStorage_kept.contracts contract) (Nat.zero_le _) Std.ExtTreeMap.getElem?_empty
  have hstored : found = (latest (ownerStorage.contractHistory contract)).join := hfound
  rw [contractHistory_ownerStorage] at hstored
  show (∃ versioned module, ownerBlock.inner.findContract contract = .ok (versioned, some module)) ↔ _
  rw [hfind]
  split at hstored
  · rename_i hknown
    rw [latest, newestVersion_push] at hstored
    subst hstored
    exact iff_of_true ⟨versioned, [], rfl⟩ hknown
  · rename_i hunknown
    rw [show (latest (⟨none, fun _ => none⟩ : History (Versioned (Option Module)))).join = none from rfl] at hstored
    subst hstored
    refine iff_of_false ?_ hunknown
    rintro ⟨_, _, heq⟩
    cases heq

def tokenCreation : HostCall := .assetCreate 0 "Token" "TOK" 8 none

theorem tokenTransfer_refused :
    (ownerCall.execAll ownerEnv.blake3 ownerStorage [tokenCreation]).any (fun state =>
      (state.answerTransferOwnership ownerStorage 6#256 4#256).any (fun r => r.1 == false)) = true := by
  decide +kernel

/-- Without the condition, a contract that owns an asset cannot give it to another contract that exists. -/
theorem assetOwners_transfer_refused :
    RecordsKept 0 ownerStorage ∧ (∀ asset, ownersSeen ownerStorage ∅ asset = none) ∧
      ¬∀ phase m, Owns ownerEnv (fun _ _ _ _ => True) ownerStorage 0 phase m →
        Disciplined ownerEnv (fun _ _ _ _ => True) phase m := by
  refine ⟨ownerStorage_kept, ownersSeen_ownerStorage, fun h => ?_⟩
  have hreached : Owns ownerEnv (fun _ _ _ _ => True) ownerStorage 0 (.block ownerBlock) _ :=
    Owns.start.opened rfl Nat.zero_lt_one rfl rfl
  have hrefused := tokenTransfer_refused
  cases hexec : ownerCall.execAll ownerEnv.blake3 ownerStorage [tokenCreation] with
  | none =>
    rw [hexec] at hrefused
    cases hrefused
  | some state =>
    rw [hexec, Option.any_some] at hrefused
    obtain ⟨-, hcalls⟩ := h _ _ hreached
    have hexists : (3#256 : Hash) ∈ existing ownerBlock := (mem_existing_ownerBlock _).mpr (.inl rfl)
    obtain ⟨hcontract, hcall⟩ := hcalls 3#256 .empty 5#256 ownerCall [tokenCreation] state hexists ownerCall_start
      ⟨trivial, fun _ _ => trivial⟩ hexec
    cases hanswer : state.answerTransferOwnership ownerStorage 6#256 4#256 with
    | none =>
      rw [hanswer] at hrefused
      cases hrefused
    | some r =>
      obtain ⟨answer, next⟩ := r
      rw [hanswer, Option.any_some] at hrefused
      obtain rfl : answer = false := by simpa using hrefused
      have hnew : (6#256 : Hash) = ownerEnv.blake3 (hashToBytes 3#256 ++ Serializer.toBytes (UInt64.ofNat 0)) := rfl
      have howner : Registry.after ownerEnv.blake3 3#256 (existing ownerBlock) (ownersSeen ownerStorage ∅) [tokenCreation]
          6#256 = some (some 3#256) := by
        simp only [Registry.after, List.foldl_cons, List.foldl_nil, tokenCreation, HostCall.owners, ← hnew,
          if_pos (ownersSeen_ownerStorage 6#256), Function.update_self]
      have hright := hcall.transfers 6#256 4#256 false next hanswer trivial
      rw [hcontract] at hright
      exact absurd (hright.mpr ⟨howner, (mem_existing_ownerBlock _).mpr (.inr rfl)⟩) Bool.false_ne_true

/-- The contract makes an asset, tries to give it to one that does not exist, and mints. -/
def tokenCalls : List HostCall := [tokenCreation, .assetTransferOwnership 6#256 5#256, .assetMint 6#256 10]

theorem tokenCalls_meet :
    Meets ownerEnv.blake3 ownerStorage (looksUp ownerStorage (existing ownerBlock)) ownerCall tokenCalls := by
  refine ⟨trivial, fun next hnext => ⟨fun _ found hfound => ?_, fun _ _ => ⟨trivial, fun _ _ => trivial⟩⟩⟩
  -- no contract has the hash of the asset
  have htopo : next.topoheight = 1 := (exec_stepped hnext).2.1
  have hchain := ownerStorage_kept.contracts 6#256
  have hmissing := Storage.hasContractAtMaximumTopoheight_found hchain.linked (hchain.found (Nat.zero_le 1))
  rw [htopo, hmissing, Except.ok.injEq, contractHistory_ownerStorage, if_neg (by decide)] at hfound
  rw [← hfound, mem_existing_ownerBlock]
  decide

theorem tokenCalls_performed :
    (ownerCall.execAll ownerEnv.blake3 ownerStorage tokenCalls).any (fun state => Transaction.isOk (applyChanges ownerEnv
      (mergeContractChanges 3#256 state.cache state.tracker state.assets ownerBlock))) = true := by
  decide +kernel

theorem assetOwners_disciplined_token :
    ∃ storage m, Owns ownerEnv looksUp ownerStorage 0 (.idle storage 1) m ∧ m 6#256 = some (some 3#256) ∧
      Disciplined ownerEnv looksUp (.idle storage 1) m := by
  have hperformed := tokenCalls_performed
  cases hexec : ownerCall.execAll ownerEnv.blake3 ownerStorage tokenCalls with
  | none =>
    rw [hexec] at hperformed
    cases hperformed
  | some final =>
    rw [hexec] at hperformed
    obtain ⟨⟨⟩, s', hwrite⟩ := Transaction.exists_of_isOk hperformed
    have hopened : Owns ownerEnv looksUp ownerStorage 0 (.block ownerBlock) _ := Owns.start.opened rfl Nat.zero_lt_one rfl rfl
    have hexists : (3#256 : Hash) ∈ existing ownerBlock := (mem_existing_ownerBlock _).mpr (.inl rfl)
    have hwritten := (hopened.called hexists ownerCall_start tokenCalls_meet hexec).written hwrite
    have hnew : ownerEnv.blake3 (hashToBytes 3#256 ++ Serializer.toBytes (UInt64.ofNat 0)) = 6#256 := rfl
    have hunknown : (5#256 : Hash) ∉ existing ownerBlock := fun hmem =>
      absurd ((mem_existing_ownerBlock _).mp hmem) (by decide)
    refine ⟨_, _, hwritten, ?_, ?_⟩
    · simp only [Registry.after, tokenCalls, List.foldl_cons, List.foldl_nil, tokenCreation, HostCall.owners, hnew,
        if_pos (ownersSeen_ownerStorage 6#256), Function.update_self, hunknown, and_false, if_false]
    · refine (assetOwners_disciplined ownerEnv ownerStorage 0 ownerStorage_kept fun asset owner howner => ?_).1 _ _ hwritten
      rw [ownersSeen_ownerStorage] at howner
      cases howner

end Samples

end Blocks

end Xelis.Blockchain
