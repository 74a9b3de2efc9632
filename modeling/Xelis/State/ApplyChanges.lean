import Xelis.State.Applicable

namespace Xelis.State.ApplicableChainState

open Lib (FiniteMap Exec)

variable {P : Type} [RistrettoPoint P]

/-- Programs that write the changes: an error keeps what was written before it. -/
abbrev Write (P α : Type) := Exec BlockchainError (ApplicableChainState P) α

def modifyStorage (f : Storage P → Storage P) : Write P PUnit :=
  modify (fun s => { s with inner := { s.inner with storage := f s.inner.storage } })

/-- The version stored for a balance that was spent, given what the account received in the block. -/
def mergeEchange (storage : Storage P) (blockVersion : BlockVersion) (topoheight : TopoHeight) (key : PublicKey)
    (asset : Hash) (echange : Echange P) : Option (VersionedBalance P) → Except BlockchainError (VersionedBalance P)
  | some final =>
    let outputBalance := echange.version.takeBalanceWith echange.outputBalanceUsed
    .ok { final with
      balanceType := .both
      outputBalance := some outputBalance
      finalBalance := final.finalBalance.sub echange.outputSum }
  | none =>
    if echange.outputBalanceUsed || !echange.newVersion then
      match storage.getNewVersionedBalance key asset topoheight with
      | .error e => .error e
      | .ok (version, _) =>
        let version := { version with finalBalance := version.finalBalance.sub echange.outputSum }
        if blockVersion = .v0 then .ok { version with balanceType := .output }
        else .ok { version with
          outputBalance := some (echange.version.takeBalanceWith echange.outputBalanceUsed)
          balanceType := .both }
    else .ok { echange.version with balanceType := .output }

/-- One asset spent by a sender, moved to its receiver balances. -/
def applyEchange (key : PublicKey) (e : Hash × Echange P) : Write P PUnit := do
  let s ← get
  let received := s.inner.receiverBalances[key]?.bind (·[e.1]?)
  let version ← Exec.ofExcept
    (mergeEchange s.inner.storage s.inner.blockVersion s.inner.topoheight key e.1 e.2 received)
  modify (fun s => { s with inner := ChainState.setReceiverVersion key e.1 version s.inner })

/-- A multisig that was set or deleted in the block. -/
def applyMultisig (e : PublicKey × Account P) : Write P PUnit := do
  let topoheight := (← get).inner.topoheight
  match e.2.multisig with
  | some (state, multisig) =>
    if state.shouldBeStored then
      modifyStorage (·.setLastMultisigTo e.1 topoheight ⟨state.getTopoheight, multisig⟩)
  | none => pure ⟨⟩

/-- One sender: its nonce, its multisig when it changed, and its spendings. -/
def applyAccount (e : PublicKey × Account P) : Write P PUnit := do
  let topoheight := (← get).inner.topoheight
  modifyStorage (·.setLastNonceTo e.1 topoheight e.2.nonce)
  applyMultisig e
  modify (fun s =>
    let balances := s.inner.receiverBalances[e.1]?.getD ∅
    { s with inner := { s.inner with receiverBalances := s.inner.receiverBalances.insert e.1 balances } })
  e.2.assets.toList.forM (applyEchange e.1)

def applyAsset (e : Hash × Option AssetChanges) : Write P PUnit := do
  let topoheight := (← get).inner.topoheight
  match e.2 with
  | none => pure ⟨⟩
  | some changes =>
    if changes.data.1.shouldBeStored then
      modifyStorage (·.addAsset e.1 topoheight ⟨changes.data.1.getTopoheight, changes.data.2⟩)
    match changes.supply with
    | some (state, supply) =>
      if state.shouldBeStored then
        modifyStorage (·.setLastSupplyForAsset e.1 topoheight ⟨state.getTopoheight, supply⟩)
    | none => pure ⟨⟩

def applyContractData (env : Env P) (contract : Hash) (e : ValueCell × VersionedState × Option ValueCell) : Write P PUnit := do
  let topoheight := (← get).inner.topoheight
  if e.2.1.shouldBeStored then
    modifyStorage (·.setLastContractDataTo env.blake3 contract e.1 topoheight ⟨e.2.1.getTopoheight, e.2.2⟩)

def applyContractBalance (contract : Hash) (e : Hash × Option (VersionedState × Nat)) : Write P PUnit := do
  let topoheight := (← get).inner.topoheight
  match e.2 with
  | some (state, balance) =>
    if state.shouldBeStored then
      modifyStorage (·.setLastContractBalanceTo contract e.1 topoheight ⟨state.getTopoheight, balance⟩)
  | none => pure ⟨⟩

def applyCache (env : Env P) (e : Hash × ContractCache) : Write P PUnit := do
  e.2.storage.toList.forM (applyContractData env e.1)
  e.2.balances.toList.forM (applyContractBalance e.1)

def liftInner {α : Type} (x : Exec BlockchainError (ChainState P) α) : Exec BlockchainError (ApplicableChainState P) α :=
  fun s => match x s.inner with
    | .ok a inner => .ok a { s with inner }
    | .error e inner => .error e { s with inner }

def applyContractTransfer (key : PublicKey) (e : Hash × Nat) : Write P PUnit := do
  let balance ← liftInner (ChainState.internalGetReceiverBalance key e.1)
  modify (fun s => { s with inner := ChainState.putReceiverBalance key e.1 (balance.addScalar e.2) s.inner })

def applyContract (e : Hash × VersionedState × Option Module) : Write P PUnit := do
  let topoheight := (← get).inner.topoheight
  if e.2.1.shouldBeStored then
    modifyStorage (·.setLastContractTo e.1 topoheight ⟨e.2.1.getTopoheight, e.2.2⟩)

def applyOutputs (e : Hash × List ContractOutput) : Write P PUnit :=
  modifyStorage (fun storage => { storage with contractsOutputs := storage.contractsOutputs.insert e.1 e.2 })

/-- The first nonce of an account that only received. -/
def registerNonce (key : PublicKey) : Write P PUnit := do
  let s ← get
  if !s.inner.accounts.contains key && !s.inner.storage.hasNonce key then
    modifyStorage (·.setLastNonceTo key s.inner.topoheight ⟨none, 0⟩)

def registerAccount (key : PublicKey) : Write P PUnit := do
  let s ← get
  let registered ← Exec.ofExcept (s.inner.storage.isAccountRegisteredForTopoheight key s.inner.topoheight)
  if !registered then
    modifyStorage (·.setAccountRegistrationTopoheight key s.inner.topoheight)

def applyBalances (e : PublicKey × FiniteMap Hash (VersionedBalance P)) : Write P PUnit := do
  let topoheight := (← get).inner.topoheight
  e.2.toList.forM (fun b => modifyStorage (·.setLastBalanceTo e.1 b.1 topoheight b.2))
  registerNonce e.1
  registerAccount e.1

def applyChanges (env : Env P) : Write P PUnit := do
  (← get).inner.accounts.toList.forM applyAccount
  (← get).contractManager.assets.toList.forM applyAsset
  (← get).contractManager.caches.toList.forM (applyCache env)
  (← get).contractManager.tracker.transfers.toList.forM (fun e => e.2.toList.forM (applyContractTransfer e.1))
  (← get).inner.contracts.toList.forM applyContract
  (← get).contractManager.outputs.toList.forM applyOutputs
  (← get).inner.receiverBalances.toList.forM applyBalances
  let s ← get
  modifyStorage (fun storage =>
    { storage with burnedSupply := storage.burnedSupply.insert s.inner.topoheight s.burnedSupply })

end Xelis.State.ApplicableChainState
