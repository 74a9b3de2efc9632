import Xelis.Blockchain.Execution
import Xelis.Storage.Versions
import Xelis.Transaction.Coverage

namespace Xelis.Blockchain

open Lib (FiniteMap IndexMap Exec)
open Storage (VersionedTrees)
open State State.ApplicableChainState
open Transaction (Touch Touches Merges Footprint)

variable {P : Type}

def storedAt (balances : VersionedTrees (Versioned Nat)) (topoheight : TopoHeight) (contract asset : Hash) :
    Except BlockchainError (Option (TopoHeight × Versioned Nat)) :=
  balances.lookup (fun _ => .contractBalance) (fun _ => .contractBalance)
    (Storage.getContractBalanceKey contract asset) topoheight
    balances.pointers[Storage.getContractBalanceKey contract asset]?

/-- An entry of a cache that was only read is what the storage has. -/
def EntryFaithful (balances : VersionedTrees (Versioned Nat)) (topoheight : TopoHeight) (contract asset : Hash) :
    Option (VersionedState × Nat) → Prop
  | some (.fetchedAt topo, balance) =>
    ∃ version, storedAt balances topoheight contract asset = .ok (some (topo, version)) ∧ version.data = balance
  | none => storedAt balances topoheight contract asset = .ok none
  | _ => True

def CacheFaithful (balances : VersionedTrees (Versioned Nat)) (topoheight : TopoHeight) (contract : Hash)
    (cache : ContractCache) : Prop :=
  ∀ asset entry, cache.balances[asset]? = some entry → EntryFaithful balances topoheight contract asset entry

/-- The balance of an asset was loaded into the cache and not changed since. -/
def isReadOnly (cache : ContractCache) (asset : Hash) : Bool :=
  match cache.balances[asset]? with
  | some (some (state, _)) => state.isFetchedAt
  | _ => false

def CachesFaithful (s : ApplicableChainState P) : Prop :=
  ∀ contract cache, s.contractManager.caches[contract]? = some cache →
    CacheFaithful s.inner.storage.contractsBalances s.inner.topoheight contract cache

variable {cache cache' : ContractCache} {entry : Option (VersionedState × Nat)}

section Entries

variable {balances : VersionedTrees (Versioned Nat)} {topoheight : TopoHeight} {contract asset : Hash}

theorem entryFaithful_markUpdated (state : VersionedState) (balance : Nat) :
    EntryFaithful balances topoheight contract asset (some (state.markUpdated, balance)) := by
  cases state with
  | new => trivial
  | fetchedAt topo => trivial
  | updated topo => trivial

theorem entryFaithful_new (balance : Nat) : EntryFaithful balances topoheight contract asset (some (.new, balance)) := trivial

theorem CacheFaithful.insert (h : CacheFaithful balances topoheight contract cache)
    (hentry : EntryFaithful balances topoheight contract asset entry) :
    CacheFaithful balances topoheight contract { cache with balances := cache.balances.insert asset entry } := by
  intro a found hfound
  by_cases ha : asset = a
  · subst ha
    rw [FiniteMap.getElem?_insert_self', Option.some.injEq] at hfound
    rw [← hfound]
    exact hentry
  · rw [FiniteMap.getElem?_insert_of_ne _ _ ha] at hfound
    exact h a found hfound

end Entries

variable {asset txHash hash contract' asset' : Hash}

section Calls

variable {storage : Storage P} {topoheight : TopoHeight} {contract : Hash}
variable {state state' : ContractChainState}

theorem entryFaithful_entry (h : CacheFaithful storage.contractsBalances state.topoheight state.contract state.cache)
    (hentry : state.entry storage asset = some entry) :
    EntryFaithful storage.contractsBalances state.topoheight state.contract asset entry := by
  unfold ContractChainState.entry at hentry
  cases hcached : state.cache.balances[asset]? with
  | some cached =>
    simp only [hcached, Option.some.injEq] at hentry
    rw [← hentry]
    exact h asset cached hcached
  | none =>
    simp only [hcached, ContractChainState.getBalanceFromProvider,
      Storage.getContractBalanceAtMaximumTopoheight_eq] at hentry
    cases hstored : storedAt storage.contractsBalances state.topoheight state.contract asset with
    | error e =>
      unfold storedAt at hstored
      simp [hstored] at hentry
    | ok found =>
      have hloaded := hstored
      unfold storedAt at hloaded
      simp only [hloaded, Option.some.injEq] at hentry
      subst hentry
      cases found with
      | none => exact hstored
      | some found => exact ⟨found.2, hstored, rfl⟩

theorem CacheFaithful.stepped (hstep : state.Stepped storage state')
    (h : CacheFaithful storage.contractsBalances state.topoheight state.contract state.cache) :
    CacheFaithful storage.contractsBalances state'.topoheight state'.contract state'.cache := by
  obtain ⟨hcontract, htopo, hbalance⟩ := hstep
  rw [hcontract, htopo]
  generalize hbalances : state'.cache.balances = balances at hbalance
  generalize state'.tracker = tracker at hbalance
  have hcache : ∀ asset entry, balances[asset]? = some entry →
      EntryFaithful storage.contractsBalances state.topoheight state.contract asset entry := by
    cases hbalance with
    | same => exact h
    | read asset entry hentry => exact h.insert (entryFaithful_entry h hentry)
    | transfer key asset amount versioned balance hentry hle => exact h.insert (entryFaithful_markUpdated _ _)
    | burn asset amount versioned balance hentry hle => exact h.insert (entryFaithful_markUpdated _ _)
    | create asset maxSupply state₁ hnew => exact h.insert (entryFaithful_new _)
    | mint asset amount changes balance hchanges howner hentry =>
      cases balance with
      | none => exact h.insert (entryFaithful_new _)
      | some balance => exact h.insert (entryFaithful_markUpdated _ _)
  intro asset entry hentry
  rw [hbalances] at hentry
  exact hcache asset entry hentry

theorem CacheFaithful.addDeposit {amount : Nat}
    (h : CacheFaithful storage.contractsBalances topoheight contract cache) (hfresh : isReadOnly cache asset = false)
    (hadd : addDeposit storage contract topoheight cache asset amount = .ok cache') :
    CacheFaithful storage.contractsBalances topoheight contract cache' ∧
      ∀ a, isReadOnly cache a = false → isReadOnly cache' a = false := by
  have hinsert : ∀ state balance, state.isFetchedAt = false →
      cache' = { cache with balances := cache.balances.insert asset (some (state, balance)) } →
      CacheFaithful storage.contractsBalances topoheight contract cache' ∧
        ∀ a, isReadOnly cache a = false → isReadOnly cache' a = false := by
    rintro state balance hstate rfl
    constructor
    · refine h.insert ?_
      cases state with
      | new => trivial
      | fetchedAt topo => cases hstate
      | updated topo => trivial
    · intro a ha
      unfold isReadOnly at ha ⊢
      by_cases hasset : asset = a
      · subst hasset
        rw [FiniteMap.getElem?_insert_self']
        exact hstate
      · rw [FiniteMap.getElem?_insert_of_ne _ _ hasset]
        exact ha
  unfold State.ApplicableChainState.addDeposit at hadd
  cases hcached : cache.balances[asset]? with
  | some entry =>
    cases entry with
    | none =>
      simp only [hcached, Except.ok.injEq] at hadd
      exact hinsert .new amount rfl hadd.symm
    | some entry =>
      obtain ⟨state, balance⟩ := entry
      simp only [hcached, Except.ok.injEq] at hadd
      refine hinsert state (balance + amount) ?_ hadd.symm
      simpa only [isReadOnly, hcached] using hfresh
  | none =>
    cases hload : storage.getContractBalanceAtMaximumTopoheight contract asset topoheight with
    | error e => simp [hcached, hload] at hadd
    | ok found =>
      simp only [hcached, hload, Except.ok.injEq] at hadd
      refine hinsert _ _ ?_ hadd.symm
      cases found with
      | none => rfl
      | some found => rfl

theorem CacheFaithful.addDeposits {deposits : IndexMap Hash ContractDeposit}
    (h : CacheFaithful storage.contractsBalances topoheight contract cache)
    (hfresh : ∀ asset amount, (asset, .pub amount) ∈ deposits.entries → isReadOnly cache asset = false)
    (hadd : addDeposits storage contract topoheight cache deposits = .ok cache') :
    CacheFaithful storage.contractsBalances topoheight contract cache' := by
  unfold State.ApplicableChainState.addDeposits at hadd
  generalize deposits.entries = entries at hadd hfresh
  induction entries generalizing cache with
  | nil =>
    cases hadd
    exact h
  | cons e entries ih =>
    obtain ⟨asset, deposit⟩ := e
    have hrest : ∀ a amount, (a, .pub amount) ∈ entries → isReadOnly cache a = false :=
      fun a amount ha => hfresh a amount (List.mem_cons_of_mem _ ha)
    rw [List.foldlM_cons] at hadd
    cases deposit with
    | priv commitment senderHandle receiverHandle proof => exact ih h hadd hrest
    | pub amount =>
      cases hdeposit : State.ApplicableChainState.addDeposit storage contract topoheight cache asset amount with
      | error e => simp [hdeposit, bind, Except.bind] at hadd
      | ok cache₁ =>
        simp only [hdeposit, bind, Except.bind] at hadd
        obtain ⟨h₁, hread⟩ := CacheFaithful.addDeposit h (hfresh asset amount List.mem_cons_self) hdeposit
        exact ih h₁ hadd fun a amount' ha => hread a (hrest a amount' ha)

end Calls

variable {s s' : ApplicableChainState P}

section Transactions

variable [RistrettoPoint P]

/-- No public deposit of the transaction goes to a balance that its contract has only read in the block so far. -/
def DepositsFresh (tx : Transaction) (txHash : Hash) (s : ApplicableChainState P) : Prop :=
  ∀ asset amount, (asset, .pub amount) ∈ tx.deposits.entries →
    isReadOnly (s.contractManager.caches[tx.target txHash]?.getD {}) asset = false

/-- The part of the state that decides whether the caches are faithful. -/
structure SameCaches (s s' : ApplicableChainState P) : Prop where
  storage : s'.inner.storage = s.inner.storage
  topoheight : s'.inner.topoheight = s.inner.topoheight
  caches : s'.contractManager.caches = s.contractManager.caches

variable {tx : Transaction}

theorem SameCaches.of_touch (h : Touch tx s s') : SameCaches s s' := by
  cases h with
  | credit key asset ct =>
    unfold ChainState.putReceiverBalance
    cases s.inner.receiverBalances[key]?.bind (·[asset]?) with
    | none => exact ⟨rfl, rfl, rfl⟩
    | some version => exact ⟨rfl, rfl, rfl⟩
  | _ => exact ⟨rfl, rfl, rfl⟩

theorem SameCaches.of_touches (h : Touches tx s s') : SameCaches s s' := by
  induction h with
  | refl => exact ⟨rfl, rfl, rfl⟩
  | tail _ hstep ih =>
    have hlast := SameCaches.of_touch hstep
    exact ⟨hlast.storage.trans ih.storage, hlast.topoheight.trans ih.topoheight, hlast.caches.trans ih.caches⟩

omit [RistrettoPoint P] in
theorem SameCaches.faithful (h : SameCaches s s') (hs : CachesFaithful s) : CachesFaithful s' := by
  intro contract cache hcache
  rw [h.caches] at hcache
  rw [h.storage, h.topoheight]
  exact hs contract cache hcache

variable {env : Env P}

omit [RistrettoPoint P] in
theorem CachesFaithful.merges
    (h : CachesFaithful s) (hfresh : DepositsFresh tx txHash s) (hmerge : Merges env tx txHash s s') : CachesFaithful s' := by
  obtain ⟨start, module, invoke, parameters, maxGas, usedGas, final, hstart, hrun, rfl⟩ := hmerge
  have hopened : CacheFaithful s.inner.storage.contractsBalances s.inner.topoheight (tx.target txHash)
      (s.contractManager.caches[tx.target txHash]?.getD {}) := by
    cases hcache : s.contractManager.caches[tx.target txHash]? with
    | some cache => exact h _ cache hcache
    | none =>
      intro asset entry hentry
      simp at hentry
  obtain ⟨hadd, hcontract, htopo, -⟩ := startOf_ok hstart
  have hstarted : CacheFaithful s.inner.storage.contractsBalances start.topoheight start.contract start.cache := by
    rw [hcontract, htopo]
    exact hopened.addDeposits hfresh hadd
  have hfinal : CacheFaithful s.inner.storage.contractsBalances final.topoheight final.contract final.cache :=
    Transaction.runContract_invariant
      (I := fun state => CacheFaithful s.inner.storage.contractsBalances state.topoheight state.contract state.cache)
      (fun _ _ hstep hstate => hstate.stepped hstep) hrun hstarted
  have hframe := Transaction.runContract_frame hrun
  rw [hframe.1, hframe.2, hcontract, htopo] at hfinal
  intro contract cache hcache
  by_cases hsame : tx.target txHash = contract
  · subst hsame
    have hmerged : (mergeContractChanges (tx.target txHash) final.cache final.tracker final.assets s).contractManager.caches[
        tx.target txHash]? = some final.cache := FiniteMap.getElem?_insert_self' _ _ _
    rw [hmerged, Option.some.injEq] at hcache
    rw [← hcache]
    exact hfinal
  · have hother : (mergeContractChanges (tx.target txHash) final.cache final.tracker final.assets s).contractManager.caches[
        contract]? = s.contractManager.caches[contract]? := FiniteMap.getElem?_insert_of_ne _ _ hsame
    rw [hother] at hcache
    exact h contract cache hcache

theorem CachesFaithful.footprint (h : CachesFaithful s)
    (hfresh : s'.contractManager.caches ≠ s.contractManager.caches → DepositsFresh tx txHash s)
    (hfoot : Footprint env tx txHash s s') : CachesFaithful s' := by
  by_cases hcaches : s'.contractManager.caches = s.contractManager.caches
  · exact SameCaches.faithful ⟨hfoot.framed.storage, hfoot.framed.topoheight, hcaches⟩ h
  rcases hfoot with htouch | ⟨s₁, s₂, h₁, hmerge, h₂⟩
  · exact (SameCaches.of_touches htouch).faithful h
  · have hsame := SameCaches.of_touches h₁
    have hfresh₁ : DepositsFresh tx txHash s₁ := by
      intro asset amount hmem
      rw [hsame.caches]
      exact hfresh hcaches asset amount hmem
    exact (SameCaches.of_touches h₂).faithful ((hsame.faithful h).merges hfresh₁ hmerge)

/-- A turn that changes the caches has merged the run of a contract. -/
def MergedFresh (env : Env P) (hash : Hash) (e : Transaction × Hash) (run : BlockRun P) : Prop :=
  ∀ run', executeTransaction env hash e.1 e.2 run = .ok ⟨⟩ run' →
    run'.chainState.contractManager.caches ≠ run.chainState.contractManager.caches → DepositsFresh e.1 e.2 run.chainState

theorem CachesFaithful.executeTransaction
    {run run' : BlockRun P} (h : CachesFaithful run.chainState) (hmerged : MergedFresh env hash (tx, txHash) run)
    (hrun : executeTransaction env hash tx txHash run = .ok ⟨⟩ run') : CachesFaithful run'.chainState := by
  -- neither the link nor the mark of a transaction touches the balances of the contracts
  have hlink : (run.link txHash hash).storage.contractsBalances = run.storage.contractsBalances := by
    obtain ⟨_, hlink⟩ := run.link_eq txHash hash
    rw [hlink]
    rfl
  have hlinked : CachesFaithful (run.link txHash hash).chainState := by
    intro contract cache hcache
    show CacheFaithful (run.link txHash hash).storage.contractsBalances _ _ _
    rw [hlink]
    exact h contract cache hcache
  have hfoot := Transaction.applyWithPartialVerify_footprint env tx txHash (run.link txHash hash).chainState
  have hfresh := hmerged run' hrun
  cases executeTransaction_step hrun with
  | skipped _ => exact hlinked
  | refused _ _ _ => exact hlinked
  | failed nonceChecker e chainState _ _ happly =>
    rw [happly] at hfoot
    exact hlinked.footprint hfresh hfoot
  | executed nonceChecker chainState nextNonce inner _ _ happly _ hupdate =>
    rw [happly] at hfoot
    have hexecuted : CachesFaithful chainState := hlinked.footprint hfresh hfoot
    have hsame := ChainState.internalUpdateAccountNonce_sameFunds (P := P) tx.source nextNonce chainState.inner
    rw [hupdate] at hsame
    have hstorage : inner.storage = chainState.inner.storage := hsame.storage
    have htopo : inner.topoheight = chainState.inner.topoheight := hsame.topoheight
    intro contract cache hcache
    show CacheFaithful inner.storage.contractsBalances inner.topoheight contract cache
    rw [hstorage, htopo]
    exact hexecuted contract cache hcache

end Transactions

section Writing

variable [RistrettoPoint P] {topoheight : TopoHeight} {contract asset : Hash}

def EntryStored (balances : VersionedTrees (Versioned Nat)) (topoheight : TopoHeight) (contract asset : Hash)
    (entry : Option (VersionedState × Nat)) : Prop :=
  (storedAt balances topoheight contract asset).map (·.map (·.2.data)) = .ok (entry.map Prod.snd)

variable {balances : VersionedTrees (Versioned Nat)}

theorem storedAt_setLast_of_ne (hne : ¬(contract' = contract ∧ asset' = asset)) (t : TopoHeight) (v : Versioned Nat)
    {r : Option (TopoHeight × Versioned Nat)} (h : storedAt balances topoheight contract asset = .ok r) :
    storedAt (balances.setLast (Storage.getContractBalanceKey contract' asset') t v) topoheight contract asset =
      .ok r := by
  have hkey : Storage.getContractBalanceKey contract' asset' ≠ Storage.getContractBalanceKey contract asset :=
    fun he => hne (Storage.keyBytes_append_inj he)
  unfold storedAt at h ⊢
  rw [VersionedTrees.pointers_setLast_of_ne _ _ _ _ hkey]
  exact VersionedTrees.lookup_setLast_of_ne hkey _ _ h

theorem storedAt_setLast_self (balances : VersionedTrees (Versioned Nat)) (v : Versioned Nat) :
    storedAt (balances.setLast (Storage.getContractBalanceKey contract asset) topoheight v) topoheight contract asset =
      .ok (some (topoheight, v)) := by
  unfold storedAt
  rw [VersionedTrees.pointers_setLast_self]
  exact VersionedTrees.lookup_of_le (Nat.le_refl _) (VersionedTrees.version_setLast_self _ _ _ _)

theorem EntryFaithful.setLast_of_ne
    (hne : ¬(contract' = contract ∧ asset' = asset)) (t : TopoHeight) (v : Versioned Nat)
    (h : EntryFaithful balances topoheight contract asset entry) :
    EntryFaithful (balances.setLast (Storage.getContractBalanceKey contract' asset') t v) topoheight contract asset
      entry := by
  cases entry with
  | none => exact storedAt_setLast_of_ne hne t v h
  | some entry =>
    obtain ⟨state, balance⟩ := entry
    cases state with
    | new => trivial
    | updated topo => trivial
    | fetchedAt topo =>
      obtain ⟨version, hstored, hdata⟩ := h
      exact ⟨version, storedAt_setLast_of_ne hne t v hstored, hdata⟩

theorem EntryStored.setLast_of_ne (hne : ¬(contract' = contract ∧ asset' = asset)) (t : TopoHeight) (v : Versioned Nat)
    (h : EntryStored balances topoheight contract asset entry) :
    EntryStored (balances.setLast (Storage.getContractBalanceKey contract' asset') t v) topoheight contract asset
      entry := by
  unfold EntryStored at h ⊢
  cases hstored : storedAt balances topoheight contract asset with
  | error e => simp [hstored, Except.map] at h
  | ok r =>
    rw [storedAt_setLast_of_ne hne t v hstored, ← hstored]
    exact h

/-- The balances that are stored once an entry is written. -/
def writeEntry (topoheight : TopoHeight) (contract : Hash) (balances : VersionedTrees (Versioned Nat))
    (e : Hash × Option (VersionedState × Nat)) : VersionedTrees (Versioned Nat) :=
  match e.2 with
  | some (state, balance) =>
    if state.shouldBeStored then
      balances.setLast (Storage.getContractBalanceKey contract e.1) topoheight ⟨state.getTopoheight, balance⟩
    else balances
  | none => balances

variable {e : Hash × Option (VersionedState × Nat)}

omit [RistrettoPoint P] in
theorem applyContractBalance_ok (h : applyContractBalance contract e s = .ok ⟨⟩ s') :
    s'.inner.topoheight = s.inner.topoheight ∧ s'.inner.storage.contractsBalances =
      writeEntry s.inner.topoheight contract s.inner.storage.contractsBalances e := by
  unfold applyContractBalance at h
  unfold writeEntry
  obtain ⟨_, _, hget, h⟩ := Exec.bind_ok_iff.mp h
  cases hget
  cases hentry : e.2 with
  | none =>
    simp only [hentry] at h
    cases h
    exact ⟨rfl, rfl⟩
  | some entry =>
    obtain ⟨state, balance⟩ := entry
    simp only [hentry] at h ⊢
    cases hstore : state.shouldBeStored with
    | false =>
      rw [if_neg (by simp [hstore])] at h
      cases h
      exact ⟨rfl, rfl⟩
    | true =>
      rw [if_pos hstore] at h
      cases h
      exact ⟨rfl, rfl⟩

theorem entryStored_writeEntry (h : EntryFaithful balances topoheight contract asset entry) :
    EntryStored (writeEntry topoheight contract balances (asset, entry)) topoheight contract asset entry := by
  unfold EntryStored
  cases entry with
  | none =>
    show Except.map _ (storedAt balances topoheight contract asset) = _
    rw [show storedAt balances topoheight contract asset = .ok none from h]
    rfl
  | some entry =>
    obtain ⟨state, balance⟩ := entry
    cases state with
    | new => exact congrArg (Except.map _) (storedAt_setLast_self balances _)
    | updated topo => exact congrArg (Except.map _) (storedAt_setLast_self balances _)
    | fetchedAt topo =>
      obtain ⟨version, hstored, hdata⟩ := h
      show Except.map _ (storedAt balances topoheight contract asset) = _
      rw [hstored, ← hdata]
      rfl

variable {K : VersionedTrees (Versioned Nat) → Prop}

/-- What is known of one balance of a contract, whatever is written of the other ones. -/
def IgnoresOthers (contract asset : Hash) (K : VersionedTrees (Versioned Nat) → Prop) : Prop :=
  ∀ balances contract' asset' t v, ¬(contract' = contract ∧ asset' = asset) → K balances →
    K (balances.setLast (Storage.getContractBalanceKey contract' asset') t v)

theorem writeEntry_keeps
    (hkeep : IgnoresOthers contract asset K) (hne : ¬(contract' = contract ∧ e.1 = asset))
    (h : K balances) (t : TopoHeight) : K (writeEntry t contract' balances e) := by
  unfold writeEntry
  cases e.2 with
  | none => exact h
  | some entry =>
    dsimp only
    split
    · exact hkeep _ _ _ _ _ hne h
    · exact h

def AtBlock (topoheight : TopoHeight) (K : VersionedTrees (Versioned Nat) → Prop) (s : ApplicableChainState P) : Prop :=
  s.inner.topoheight = topoheight ∧ K s.inner.storage.contractsBalances

omit [RistrettoPoint P] in
theorem applyContractBalance_keeps
    (hkeep : IgnoresOthers contract asset K) (hne : ¬(contract' = contract ∧ e.1 = asset))
    (h : AtBlock topoheight K s) (hwrite : applyContractBalance contract' e s = .ok ⟨⟩ s') :
    AtBlock topoheight K s' := by
  obtain ⟨htopo, hbalances⟩ := applyContractBalance_ok hwrite
  refine ⟨htopo.trans h.1, ?_⟩
  rw [hbalances]
  exact writeEntry_keeps hkeep hne h.2 _

variable {kinds : List WriteKind}

omit [RistrettoPoint P] in
theorem Steps.contractsBalances (hkinds : .contractBalance ∉ kinds)
    (h : Steps kinds s s') : s'.inner.storage.contractsBalances = s.inner.storage.contractsBalances := by
  refine StepsAt.eq_of_step (fun s => s.inner.storage.contractsBalances) (fun _ _ hstep => ?_) h
  cases hstep with
  | contractBalance hkind contract asset v => exact absurd hkind hkinds
  | _ => rfl

omit [RistrettoPoint P] in
theorem AtBlock.steps (hkinds : .contractBalance ∉ kinds) (h : AtBlock topoheight K s)
    (hsteps : Steps kinds s s') : AtBlock topoheight K s' := by
  refine ⟨hsteps.sameBlock.topoheight.trans h.1, ?_⟩
  rw [Steps.contractsBalances hkinds hsteps]
  exact h.2

variable {env : Env P}

section

omit [RistrettoPoint P]

/-- The stages of one cache: its data, which leaves the balances alone, then its balances. -/
theorem applyCache_ok {e : Hash × ContractCache} (h : applyCache env e s = .ok ⟨⟩ s') :
    ∃ s₁, Steps [.contractData] s s₁ ∧ e.2.balances.toList.forM (applyContractBalance e.1) s₁ = .ok ⟨⟩ s' := by
  obtain ⟨⟨⟩, s₁, hdata, hbalances⟩ := Exec.bind_ok_iff.mp h
  exact ⟨s₁, Steps.of_ok (Steps.forM _ fun d _ => applyContractData_steps env e.1 d) hdata, hbalances⟩

theorem applyCache_keeps
    (hkeep : IgnoresOthers contract asset K)
    {e : Hash × ContractCache} (hne : e.1 ≠ contract) (h : AtBlock topoheight K s)
    (hwrite : applyCache env e s = .ok ⟨⟩ s') : AtBlock topoheight K s' := by
  obtain ⟨s₁, hdata, hbalances⟩ := applyCache_ok hwrite
  refine Exec.forM_keeps (fun b _ s₂ s₃ hK hb => ?_) (h.steps (by simp) hdata) hbalances
  exact applyContractBalance_keeps hkeep (fun hc => hne hc.1) hK hb

theorem applyCache_stores {e : Hash × ContractCache} (htopo : s.inner.topoheight = topoheight)
    (h : CacheFaithful s.inner.storage.contractsBalances topoheight e.1 e.2) (hwrite : applyCache env e s = .ok ⟨⟩ s') :
    ∀ b ∈ e.2.balances.toList, AtBlock topoheight (EntryStored · topoheight e.1 b.1 b.2) s' := by
  obtain ⟨s₁, hdata, hbalances⟩ := applyCache_ok hwrite
  refine Exec.forM_each (k := Prod.fst)
    (Q := fun b s => AtBlock topoheight (EntryFaithful · topoheight e.1 b.1 b.2) s) ?_ ?_ ?_
    (FiniteMap.toList_keys_distinct _) (fun b hb => ?_) hbalances
  · intro b s₂ s₃ hfaithful hb
    obtain ⟨htopo₂, hwritten⟩ := applyContractBalance_ok hb
    refine ⟨htopo₂.trans hfaithful.1, ?_⟩
    rw [hwritten, hfaithful.1]
    exact entryStored_writeEntry hfaithful.2
  · intro b c s₂ s₃ hne hfaithful hc
    exact applyContractBalance_keeps (fun _ _ _ t v hn hK => hK.setLast_of_ne hn t v) (fun he => hne he.2.symm) hfaithful hc
  · intro b c s₂ s₃ hne hstored hc
    exact applyContractBalance_keeps (fun _ _ _ t v hn hK => hK.setLast_of_ne hn t v) (fun he => hne he.2.symm) hstored hc
  · refine AtBlock.steps (by simp) (s := s) ⟨htopo, ?_⟩ hdata
    exact h b.1 b.2 (Std.ExtTreeMap.mem_toList_iff_getElem?_eq_some.mp hb)

theorem applyCaches_store {caches : FiniteMap Hash ContractCache} (htopo : s.inner.topoheight = topoheight)
    (h : ∀ contract cache, caches[contract]? = some cache →
      CacheFaithful s.inner.storage.contractsBalances topoheight contract cache)
    (hwrite : caches.toList.forM (applyCache env) s = .ok ⟨⟩ s') :
    ∀ e ∈ caches.toList, ∀ b ∈ e.2.balances.toList, AtBlock topoheight (EntryStored · topoheight e.1 b.1 b.2) s' := by
  refine Exec.forM_each (k := Prod.fst)
    (Q := fun e s => s.inner.topoheight = topoheight ∧ CacheFaithful s.inner.storage.contractsBalances topoheight e.1 e.2)
    (R := fun e s => ∀ b ∈ e.2.balances.toList, AtBlock topoheight (EntryStored · topoheight e.1 b.1 b.2) s)
    ?_ ?_ ?_ (FiniteMap.toList_keys_distinct _) (fun e he => ?_) hwrite
  · exact fun e s₁ s₂ hfaithful he => applyCache_stores hfaithful.1 hfaithful.2 he
  · intro e c s₁ s₂ hne hfaithful hc
    refine ⟨((Steps.of_ok (applyCache_steps env c) hc).sameBlock.topoheight).trans hfaithful.1, ?_⟩
    intro asset entry hentry
    have hkept : AtBlock topoheight (EntryFaithful · topoheight e.1 asset entry) s₂ :=
      applyCache_keeps (fun _ _ _ t v hn hK => hK.setLast_of_ne hn t v) (Ne.symm hne)
        ⟨hfaithful.1, hfaithful.2 asset entry hentry⟩ hc
    exact hkept.2
  · intro e c s₁ s₂ hne hstored hc b hb
    exact applyCache_keeps (fun _ _ _ t v hn hK => hK.setLast_of_ne hn t v) (Ne.symm hne) (hstored b hb) hc
  · exact ⟨htopo, h e.1 e.2 (Std.ExtTreeMap.mem_toList_iff_getElem?_eq_some.mp he)⟩

end

end Writing

section Blocks

variable [RistrettoPoint P] {env : Env P}

/-- What the storage has for every contract and asset is what the caches of the block hold. -/
def BalancesStored (s : ApplicableChainState P) : Prop :=
  ∀ contract cache asset entry, s.contractManager.caches[contract]? = some cache → cache.balances[asset]? = some entry →
    (s.inner.storage.getContractBalanceAtMaximumTopoheight contract asset s.inner.topoheight).map (·.map (·.2.data)) =
      .ok (entry.map Prod.snd)

theorem applyChanges_stores (h : CachesFaithful s) (hwrite : applyChanges env s = .ok ⟨⟩ s') : BalancesStored s' := by
  obtain ⟨s₁, s₂, s₃, s₄, s₅, s₆, s₇, stages⟩ := applyChanges_ok hwrite
  have b₁ := accounts_steps stages.accounts
  have b₂ := assets_steps stages.assets
  have htopo : s₂.inner.topoheight = s.inner.topoheight := (b₁.sameBlock.trans b₂.sameBlock).topoheight
  have hbalances : s₂.inner.storage.contractsBalances = s.inner.storage.contractsBalances :=
    (Steps.contractsBalances (by simp) b₂).trans (Steps.contractsBalances (by simp) b₁)
  have hstored := applyCaches_store htopo (fun contract cache hcache => hbalances ▸ h contract cache hcache) stages.caches
  have b₄ := transfers_steps stages.transfers
  have b₅ := contracts_steps stages.contracts
  have b₆ := outputs_steps stages.outputs
  have b₇ := balances_steps stages.balances
  have hmanager : s'.contractManager = s.contractManager := by
    rw [stages.written]
    exact (((((b₁.sameBlock.trans b₂.sameBlock).trans (caches_steps stages.caches).sameBlock).trans b₄.sameBlock).trans
      b₅.sameBlock).trans b₆.sameBlock).trans b₇.sameBlock |>.contractManager
  intro contract cache asset entry hcache hentry
  rw [hmanager] at hcache
  have hentry₃ := hstored (contract, cache) (Std.ExtTreeMap.mem_toList_iff_getElem?_eq_some.mpr hcache)
    (asset, entry) (Std.ExtTreeMap.mem_toList_iff_getElem?_eq_some.mpr hentry)
  have hentry₇ := (((hentry₃.steps (by simp) b₄).steps (by simp) b₅).steps (by simp) b₆).steps (by simp) b₇
  rw [Storage.getContractBalanceAtMaximumTopoheight_eq, stages.written]
  have htopo₇ : (s₇.withStorage (fun storage => { storage with
      burnedSupply := storage.burnedSupply.insert s.inner.topoheight s.burnedSupply })).inner.topoheight =
        s.inner.topoheight := hentry₇.1
  rw [htopo₇]
  exact hentry₇.2

/-- When no deposit of a merged call goes to a balance that was only read before it, the balances that the caches hold at
the end of the block are the ones that are stored. -/
theorem executeBlock_stores_balances (env : Env P) (devPublicKey : PublicKey) (storage : Storage P) (mainnet : Bool)
    (stableTopoheight topoheight : TopoHeight) (blockVersion : BlockVersion) (burnedSupply : Nat) (hash : Hash)
    (block : Block) (nonceChecker : NonceChecker) (orphaned : List Hash) (blockReward : Nat) (run : BlockRun P)
    (hfresh : Exec.Along (MergedFresh env hash) (fun e => executeTransaction env hash e.1 e.2)
      (block.transactions.zip block.header.txsHashes)
      (BlockRun.new storage mainnet stableTopoheight topoheight blockVersion burnedSupply hash block nonceChecker orphaned))
    (hrun : executeBlock env devPublicKey hash block blockReward
      (BlockRun.new storage mainnet stableTopoheight topoheight blockVersion burnedSupply hash block nonceChecker orphaned) =
        .ok ⟨⟩ run) :
    BalancesStored run.chainState := by
  obtain ⟨run₁, s₁, s₂, htxs, hreward, hwrite, rfl⟩ := executeBlock_ok hrun
  have hexecuted : CachesFaithful run₁.chainState := by
    refine Exec.forM_along (I := fun run => CachesFaithful run.chainState)
      (fun e _ _ hdeposits hfaithful hstep => hfaithful.executeTransaction hdeposits hstep) hfresh ?_ htxs
    intro contract cache hcache
    simp [BlockRun.new, ApplicableChainState.new] at hcache
  have hsteps := Steps.of_ok (rewardBlock_steps _ _ _ _ _) hreward
  have hrewarded : CachesFaithful s₁ := by
    intro contract cache hcache
    rw [hsteps.sameBlock.contractManager] at hcache
    rw [Steps.contractsBalances (by simp) hsteps, hsteps.sameBlock.topoheight]
    exact hexecuted contract cache hcache
  exact applyChanges_stores hrewarded hwrite

section Samples

open Transaction (clearEnv sampleStorage sampleTx isOk)

/-- A machine whose contracts read their native balance when nothing is deposited. -/
def readingEnv : Env ℤ :=
  let calls (state : ContractChainState) : List HostCall :=
    if state.deposits.entries.isEmpty then [.getBalanceForAsset XELIS_ASSET] else []
  { clearEnv with run := fun _ _ _ _ _ state => VmOutcome.ran (calls state) 0 (some 0) }

/-- A contract with a hundred units of the native asset. -/
def contractStorage : Storage ℤ :=
  (sampleStorage.setLastContractTo 3#256 0 ⟨none, some []⟩).setLastContractBalanceTo 3#256 XELIS_ASSET 0 ⟨none, 100⟩

def readingCall : Transaction :=
  sampleTx (.invokeContract ⟨3#256, .empty, 0, 0, []⟩) (10 * COIN_VALUE - 10000)

def depositingCall : Transaction :=
  let payload := .invokeContract ⟨3#256, .single XELIS_ASSET (.pub 50), 0, 0, []⟩
  { (sampleTx payload (10 * COIN_VALUE - 20050)) with nonce := 1 }

/-- The contract reads its balance, then gets a deposit of fifty units in the same block. -/
def readThenDeposit : Block :=
  ⟨⟨.v3, [], 0, 1, 0, [], 8#256, [11#256, 12#256]⟩, [readingCall, depositingCall]⟩

def callRun (block : Block) : EStateM.Result BlockchainError (BlockRun ℤ) PUnit :=
  executeBlock readingEnv 9#256 1#256 block 0 (BlockRun.new contractStorage false 0 1 .v3 0 1#256 block {} [])

/-- The native balance of the contract in the cache and in the storage, at the end of a block. -/
def contractBalances (r : EStateM.Result BlockchainError (BlockRun ℤ) PUnit) : Option (Nat × Nat) :=
  match r with
  | .error _ _ => none
  | .ok _ run =>
    match (run.chainState.contractManager.caches[3#256]?.getD {}).balances[XELIS_ASSET]?,
      run.storage.getContractBalanceAtMaximumTopoheight 3#256 XELIS_ASSET run.chainState.inner.topoheight with
    | some (some (_, held)), .ok (some (_, version)) => some (held, version.data)
    | _, _ => none

theorem readThenDeposit_balances : contractBalances (callRun readThenDeposit) = some (150, 100) := by
  decide +kernel

/-- The deposit of a block in which the contract had read its balance is in the cache, but it is not stored. -/
theorem readThenDeposit_not_stored :
    ∃ run, callRun readThenDeposit = .ok ⟨⟩ run ∧ ¬BalancesStored run.chainState := by
  have hbalances := readThenDeposit_balances
  unfold contractBalances at hbalances
  cases hrun : callRun readThenDeposit with
  | error e run => simp [hrun] at hbalances
  | ok _ run =>
    refine ⟨run, rfl, fun hstored => ?_⟩
    simp only [hrun] at hbalances
    cases hcache : run.chainState.contractManager.caches[3#256]? with
    | none => simp [hcache] at hbalances
    | some cache =>
      cases hentry : cache.balances[XELIS_ASSET]? with
      | none => simp [hcache, hentry] at hbalances
      | some entry =>
        have hread := hstored 3#256 cache XELIS_ASSET entry hcache hentry
        simp only [hcache, hentry, Option.getD_some] at hbalances
        change Except.map _ (run.storage.getContractBalanceAtMaximumTopoheight _ _ _) = _ at hread
        cases entry with
        | none => simp at hbalances
        | some entry =>
          cases hquery : run.storage.getContractBalanceAtMaximumTopoheight 3#256 XELIS_ASSET
              run.chainState.inner.topoheight with
          | error e => simp [hquery] at hbalances
          | ok found =>
            cases found with
            | none => simp [hquery] at hbalances
            | some version =>
              simp only [hquery, Option.some.injEq, Prod.mk.injEq] at hbalances
              simp only [hquery, Except.map, Option.map_some, Except.ok.injEq, Option.some.injEq] at hread
              omega

def depositAlone : Block :=
  ⟨⟨.v3, [], 0, 1, 0, [], 8#256, [12#256]⟩, [{ depositingCall with nonce := 0, sourceCommitments :=
    [⟨BitVec.ofNat 256 (10 * COIN_VALUE - 10050), [], XELIS_ASSET⟩] }]⟩

theorem depositAlone_stored :
    isOk (callRun depositAlone) = true ∧ ∀ run, callRun depositAlone = .ok ⟨⟩ run → BalancesStored run.chainState := by
  refine ⟨by decide +kernel, fun run hrun => ?_⟩
  refine executeBlock_stores_balances readingEnv 9#256 contractStorage false 0 1 .v3 0 1#256 depositAlone {} [] 0 run ?_ hrun
  refine And.intro (fun _ _ _ => ?_) fun _ _ => trivial
  intro asset amount hmem
  simp [BlockRun.new, ApplicableChainState.new, isReadOnly]

end Samples

end Blocks

end Xelis.Blockchain
