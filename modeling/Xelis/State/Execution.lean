import Xelis.State.Host

namespace Xelis.State.ContractChainState

open Lib (FiniteMap)

variable {P : Type} {blake3 : IVec → Hash} {provider : Storage P}

/-- The entry of an asset as a call sees it: cached, or loaded. -/
def entry (provider : Storage P) (state : ContractChainState) (asset : Hash) : Option (Option (VersionedState × Nat)) :=
  match state.cache.balances[asset]? with
  | some balance => some balance
  | none => state.getBalanceFromProvider provider asset

def withEntry (state : ContractChainState) (asset : Hash) (balance : Option (VersionedState × Nat)) : ContractChainState :=
  { state with cache := { state.cache with balances := state.cache.balances.insert asset balance } }

theorem getBalanceFromCache_eq (state : ContractChainState) (asset : Hash) :
    state.getBalanceFromCache provider asset =
      (state.entry provider asset).map (fun balance => (balance, state.withEntry asset balance)) := by
  unfold getBalanceFromCache entry
  cases h : state.cache.balances[asset]? with
  | some balance =>
    have hsame : state.withEntry asset balance = state := by
      rw [withEntry, FiniteMap.insert_eq_self h]
    simp [hsame]
  | none =>
    cases state.getBalanceFromProvider provider asset with
    | none => rfl
    | some balance => rfl

/-- What one call does to the balances of its contract and to the transfers of the block. -/
inductive BalanceStep (provider : Storage P) (state : ContractChainState) :
    FiniteMap Hash (Option (VersionedState × Nat)) → ContractEventTracker → Prop
  | same : BalanceStep provider state state.cache.balances state.tracker
  | read (asset : Hash) (balance : Option (VersionedState × Nat)) (hentry : state.entry provider asset = some balance) :
      BalanceStep provider state (state.cache.balances.insert asset balance) state.tracker
  | transfer (key : PublicKey) (asset : Hash) (amount : Nat) (versioned : VersionedState) (balance : Nat)
      (hentry : state.entry provider asset = some (some (versioned, balance))) (hle : amount ≤ balance) :
      BalanceStep provider state
        (state.cache.balances.insert asset (some (versioned.markUpdated, balance - amount)))
        (state.addTransfer key asset amount).tracker
  | burn (asset : Hash) (amount : Nat) (versioned : VersionedState) (balance : Nat)
      (hentry : state.entry provider asset = some (some (versioned, balance))) (hle : amount ≤ balance) :
      BalanceStep provider state
        (state.cache.balances.insert asset (some (versioned.markUpdated, balance - amount))) state.tracker
  | create (asset : Hash) (maxSupply : Nat) (state' : ContractChainState)
      (hnew : state.getOptionalAssetFromCache provider asset = some (none, state')) :
      BalanceStep provider state (state.cache.balances.insert asset (some (.new, maxSupply))) state.tracker
  | mint (asset : Hash) (amount : Nat) (changes : AssetChanges) (balance : Option (VersionedState × Nat))
      (hchanges : state.getAssetChangesForHash asset = some changes)
      (howner : changes.data.2.owner.map AssetOwner.contract = some state.contract)
      (hentry : state.entry provider asset = some balance) :
      BalanceStep provider state
        (state.cache.balances.insert asset (some (
          match balance with
          | some (versioned, balance) => (versioned.markUpdated, balance + amount)
          | none => (.new, amount)))) state.tracker

/-- A call keeps the contract and the topoheight, and moves balances in one of the ways above. -/
def Stepped (provider : Storage P) (state state' : ContractChainState) : Prop :=
  state'.contract = state.contract ∧ state'.topoheight = state.topoheight ∧
    BalanceStep provider state state'.cache.balances state'.tracker

variable {state state' state₁ : ContractChainState}

theorem stepped_of_same (hcontract : state'.contract = state.contract)
    (htopo : state'.topoheight = state.topoheight) (hbalances : state'.cache.balances = state.cache.balances)
    (htracker : state'.tracker = state.tracker) : Stepped provider state state' := by
  refine ⟨hcontract, htopo, ?_⟩
  rw [hbalances, htracker]
  exact .same

section Calls

variable {state state' : ContractChainState}
variable {asset newContract : Hash}

theorem getBalanceForAsset_stepped
    (h : (state.getBalanceFromCache provider asset).map Prod.snd = some state') : Stepped provider state state' := by
  rw [getBalanceFromCache_eq, Option.map_map, Option.map_eq_some_iff] at h
  obtain ⟨balance, hentry, rfl⟩ := h
  exact ⟨rfl, rfl, .read asset balance hentry⟩

variable {amount id decimals : Nat}

theorem transfer_ok {destination : Address} (h : state.transfer provider destination amount asset = some state') :
    state' = state ∨ ∃ balance, state.entry provider asset = some balance ∧ (state' = state.withEntry asset balance ∨
      ∃ versioned held, balance = some (versioned, held) ∧ amount ≤ held ∧
        state' = (((state.withEntry asset balance).setBalance asset (versioned.markUpdated, held - amount)).addTransfer
          destination.key asset amount).pushOutput (.transfer amount asset destination.key)) := by
  unfold transfer at h
  split at h
  · cases h
    exact .inl rfl
  split at h
  · cases h
  split at h
  · cases h
    exact .inl rfl
  simp only [getBalanceFromCache_eq, bind, Option.bind_eq_some_iff, Option.map_eq_some_iff] at h
  obtain ⟨_, ⟨balance, hentry, rfl⟩, h⟩ := h
  refine .inr ⟨balance, hentry, ?_⟩
  cases balance with
  | none =>
    cases h
    exact .inl rfl
  | some balance =>
    dsimp only at h
    split at h
    · cases h
      exact .inl rfl
    · rename_i hcond
      simp only [Bool.or_eq_true, decide_eq_true_eq, not_or, not_lt] at hcond
      cases h
      exact .inr ⟨balance.1, balance.2, rfl, hcond.1, rfl⟩

theorem burn_ok (h : state.burn provider amount asset = some state') :
    ∃ balance, state.entry provider asset = some balance ∧ (state' = state.withEntry asset balance ∨
      ∃ versioned held, balance = some (versioned, held) ∧ amount ≤ held ∧
        state' = ((state.withEntry asset balance).setBalance asset (versioned.markUpdated, held - amount)).pushOutput
          (.burn asset amount)) := by
  simp only [burn, getBalanceFromCache_eq, bind, Option.bind_eq_some_iff, Option.map_eq_some_iff] at h
  obtain ⟨_, ⟨balance, hentry, rfl⟩, h⟩ := h
  refine ⟨balance, hentry, ?_⟩
  cases balance with
  | none =>
    cases h
    exact .inl rfl
  | some balance =>
    dsimp only at h
    split at h
    · cases h
      exact .inl rfl
    · rename_i hcond
      simp only [Bool.or_eq_true, decide_eq_true_eq, not_or, not_lt] at hcond
      cases h
      exact .inr ⟨balance.1, balance.2, rfl, hcond.1, rfl⟩

theorem balances_spend (versioned : VersionedState) (held : Nat) (entry : Option (VersionedState × Nat)) :
    ((state.withEntry asset entry).setBalance asset (versioned.markUpdated, held - amount)).cache.balances =
      state.cache.balances.insert asset (some (versioned.markUpdated, held - amount)) :=
  FiniteMap.insert_insert_self state.cache.balances asset entry _

theorem transfer_stepped {destination : Address}
    (h : state.transfer provider destination amount asset = some state') : Stepped provider state state' := by
  rcases transfer_ok h with rfl | ⟨balance, hentry, rfl | ⟨versioned, held, rfl, hle, rfl⟩⟩
  · exact stepped_of_same rfl rfl rfl rfl
  · exact ⟨rfl, rfl, .read asset balance hentry⟩
  · have hstep := BalanceStep.transfer destination.key asset amount versioned held hentry hle
    rw [← balances_spend versioned held (some (versioned, held))] at hstep
    exact ⟨rfl, rfl, hstep⟩

theorem burn_stepped (h : state.burn provider amount asset = some state') : Stepped provider state state' := by
  obtain ⟨balance, hentry, rfl | ⟨versioned, held, rfl, hle, rfl⟩⟩ := burn_ok h
  · exact ⟨rfl, rfl, .read asset balance hentry⟩
  · have hstep := BalanceStep.burn asset amount versioned held hentry hle
    rw [← balances_spend versioned held (some (versioned, held))] at hstep
    exact ⟨rfl, rfl, hstep⟩

theorem getOptionalAssetFromCache_frame {changes : Option AssetChanges}
    (h : state.getOptionalAssetFromCache provider asset = some (changes, state₁)) :
    ∃ assets, state₁ = { state with assets } := by
  unfold getOptionalAssetFromCache at h
  cases hcached : state.assets[asset]? with
  | some cached =>
    simp only [hcached, Option.some.injEq, Prod.mk.injEq] at h
    exact ⟨state.assets, h.2.symm⟩
  | none =>
    simp only [hcached, bind, Option.bind_eq_some_iff, Option.some.injEq, Prod.mk.injEq] at h
    obtain ⟨found, -, -, rfl⟩ := h
    exact ⟨_, rfl⟩

theorem assetCreate_stepped {name ticker : String} {maxSupply : Option Nat}
    (h : state.assetCreate blake3 provider id name ticker decimals maxSupply = some state') :
    Stepped provider state state' := by
  unfold assetCreate at h
  split at h
  · cases h
  split at h
  · cases h
  simp only [bind, Option.bind_eq_some_iff] at h
  obtain ⟨⟨changes, state₁⟩, hlookup, h⟩ := h
  obtain ⟨assets, rfl⟩ := getOptionalAssetFromCache_frame hlookup
  cases changes with
  | some changes =>
    cases h
    exact stepped_of_same rfl rfl rfl rfl
  | none =>
    cases maxSupply with
    | none =>
      cases h
      exact stepped_of_same rfl rfl rfl rfl
    | some maxSupply =>
      cases h
      exact ⟨rfl, rfl, .create _ maxSupply _ hlookup⟩

theorem assetMint_stepped (h : state.assetMint provider asset amount = some state') :
    Stepped provider state state' := by
  unfold assetMint at h
  simp only [bind, Option.bind_eq_some_iff] at h
  obtain ⟨changes, hchanges, h⟩ := h
  split at h
  · cases h
    exact stepped_of_same rfl rfl rfl rfl
  rename_i howner
  split at h
  · cases h
    exact stepped_of_same rfl rfl rfl rfl
  obtain ⟨⟨supplyState, supply⟩, -, h⟩ := Option.bind_eq_some_iff.mp h
  dsimp only at h
  split at h
  · cases h
  rw [getBalanceFromCache_eq] at h
  cases hentry : state.entry provider asset with
  | none =>
    have hnone : entry provider (state.setAsset asset (some { changes with
        supply := some (supplyState.markUpdated, supply + amount) })) asset = none := hentry
    simp [hnone] at h
  | some balance =>
    have hsome : entry provider (state.setAsset asset (some { changes with
        supply := some (supplyState.markUpdated, supply + amount) })) asset = some balance := hentry
    have howner' : changes.data.2.owner.map AssetOwner.contract = some state.contract := by simpa using howner
    have hmint := BalanceStep.mint asset amount changes balance hchanges howner' hentry
    rw [← FiniteMap.insert_insert_self _ _ balance] at hmint
    simp only [hsome, Option.map_some, Option.bind_some] at h
    cases balance with
    | none =>
      cases h
      exact ⟨rfl, rfl, hmint⟩
    | some balance =>
      dsimp only at h
      split at h
      · cases h
      · cases h
        exact ⟨rfl, rfl, hmint⟩

theorem assetGetByHash_stepped
    (h : (state.getOptionalAssetFromCache provider asset).map Prod.snd = some state') : Stepped provider state state' := by
  obtain ⟨⟨changes, state₁⟩, hlookup, rfl⟩ := Option.map_eq_some_iff.mp h
  obtain ⟨assets, rfl⟩ := getOptionalAssetFromCache_frame hlookup
  exact stepped_of_same rfl rfl rfl rfl

/-- A call that leaves the cache and the transfers alone. -/
structure KeepsCache (state state' : ContractChainState) : Prop where
  contract : state'.contract = state.contract
  topoheight : state'.topoheight = state.topoheight
  cache : state'.cache = state.cache
  tracker : state'.tracker = state.tracker

theorem KeepsCache.stepped (h : KeepsCache state state') : Stepped provider state state' :=
  stepped_of_same h.contract h.topoheight (congrArg (·.balances) h.cache) h.tracker

theorem assetGetSupply_keepsCache (h : state.assetGetSupply provider asset = some state') : KeepsCache state state' := by
  simp only [assetGetSupply, bind, Option.bind_eq_some_iff] at h
  obtain ⟨changes, -, h⟩ := h
  cases hsupply : changes.supply with
  | some supply =>
    simp only [hsupply] at h
    cases h
    exact ⟨rfl, rfl, rfl, rfl⟩
  | none =>
    simp only [hsupply, Option.bind_eq_some_iff] at h
    obtain ⟨supply, -, h⟩ := h
    cases h
    exact ⟨rfl, rfl, rfl, rfl⟩

theorem assetTransferOwnership_keepsCache
    (h : state.assetTransferOwnership provider asset newContract = some state') : KeepsCache state state' := by
  unfold assetTransferOwnership at h
  split at h
  · cases h
  · cases h
    exact ⟨rfl, rfl, rfl, rfl⟩
  · simp only [bind, Option.bind_eq_some_iff] at h
    obtain ⟨changes, -, h⟩ := h
    split at h
    · split at h
      · cases h
        exact ⟨rfl, rfl, rfl, rfl⟩
      · cases h
        exact ⟨rfl, rfl, rfl, rfl⟩
    · cases h
      exact ⟨rfl, rfl, rfl, rfl⟩

theorem data_frame {call : HostCall} (h : state.exec blake3 provider call = some state')
    (hcall : match call with
      | .storageLoad _ | .storageHas _ | .storageStore _ _ | .storageDelete _ | .memoryStorageStore _ _
      | .memoryStorageDelete _ | .fireEvent _ _ => True
      | _ => False) : state'.contract = state.contract ∧ state'.topoheight = state.topoheight ∧
        state'.cache.balances = state.cache.balances ∧ state'.tracker = state.tracker ∧ state'.assets = state.assets := by
  cases call with
  | storageLoad key =>
    simp only [exec, storageLoad] at h
    split at h
    · cases h
      exact ⟨rfl, rfl, rfl, rfl, rfl⟩
    · split at h
      · cases h
      · cases h
        exact ⟨rfl, rfl, rfl, rfl, rfl⟩
      · cases h
        exact ⟨rfl, rfl, rfl, rfl, rfl⟩
  | storageHas key =>
    simp only [exec, storageHas] at h
    split at h
    · cases h
      exact ⟨rfl, rfl, rfl, rfl, rfl⟩
    · split at h
      · cases h
      · cases h
        exact ⟨rfl, rfl, rfl, rfl, rfl⟩
  | storageStore key value =>
    simp only [exec, storageStore] at h
    split at h
    · cases h
    · split at h
      · cases h
        exact ⟨rfl, rfl, rfl, rfl, rfl⟩
      · split at h
        · cases h
        · cases h
          exact ⟨rfl, rfl, rfl, rfl, rfl⟩
        · cases h
          exact ⟨rfl, rfl, rfl, rfl, rfl⟩
  | storageDelete key =>
    simp only [exec, storageDelete] at h
    split at h
    · cases h
      exact ⟨rfl, rfl, rfl, rfl, rfl⟩
    · cases h
      exact ⟨rfl, rfl, rfl, rfl, rfl⟩
    · cases h
      exact ⟨rfl, rfl, rfl, rfl, rfl⟩
    · split at h
      · cases h
      · cases h
        exact ⟨rfl, rfl, rfl, rfl, rfl⟩
      · cases h
        exact ⟨rfl, rfl, rfl, rfl, rfl⟩
  | memoryStorageStore key value =>
    simp only [exec, memoryStorageStore] at h
    split at h
    · cases h
    · cases h
      exact ⟨rfl, rfl, rfl, rfl, rfl⟩
  | memoryStorageDelete key =>
    cases h
    exact ⟨rfl, rfl, rfl, rfl, rfl⟩
  | fireEvent id data =>
    cases h
    exact ⟨rfl, rfl, rfl, rfl, rfl⟩
  | getBalanceForAsset | transfer | burn | assetCreate | assetGetByHash | assetGetSupply
  | assetTransferOwnership | assetMint => exact hcall.elim

theorem exec_stepped {call : HostCall} (h : state.exec blake3 provider call = some state') :
    Stepped provider state state' := by
  cases call with
  | getBalanceForAsset asset => exact getBalanceForAsset_stepped h
  | transfer destination amount asset => exact transfer_stepped h
  | burn amount asset => exact burn_stepped h
  | assetCreate id name ticker decimals maxSupply => exact assetCreate_stepped h
  | assetGetByHash asset => exact assetGetByHash_stepped h
  | assetGetSupply asset => exact (assetGetSupply_keepsCache h).stepped
  | assetTransferOwnership asset newContract => exact (assetTransferOwnership_keepsCache h).stepped
  | assetMint asset amount => exact assetMint_stepped h
  | storageLoad | storageHas | storageStore | storageDelete | memoryStorageStore | memoryStorageDelete
  | fireEvent =>
    obtain ⟨hcontract, htopo, hbalances, htracker, -⟩ := data_frame h trivial
    exact stepped_of_same hcontract htopo hbalances htracker

end Calls

theorem execAll_invariant {I : ContractChainState → Prop}
    (hstep : ∀ state state', Stepped provider state state' → I state → I state') {calls : List HostCall}
    (h : execAll blake3 provider state calls = some state') (hI : I state) : I state' := by
  induction calls generalizing state with
  | nil =>
    cases h
    exact hI
  | cons call calls ih =>
    obtain ⟨state₁, hcall, hrest⟩ := Option.bind_eq_some_iff.mp h
    exact ih hrest (hstep state state₁ (exec_stepped hcall) hI)

end Xelis.State.ContractChainState
