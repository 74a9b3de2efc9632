import Xelis.Lib.Exec
import Xelis.Storage.Storage

namespace Xelis.State

open Lib (FiniteMap Exec)

/-- Spendings of one account in one asset. -/
structure Echange (P : Type) where
  allowOutputBalance : Bool
  newVersion : Bool
  version : VersionedBalance P
  outputSum : Ciphertext P
  outputBalanceUsed : Bool
  deriving DecidableEq

namespace Echange

variable {P : Type} [RistrettoPoint P]

def new (allowOutputBalance newVersion : Bool) (version : VersionedBalance P) : Echange P :=
  { allowOutputBalance, newVersion, version, outputSum := Ciphertext.zero, outputBalanceUsed := false }

def useOutput (e : Echange P) : Bool := e.outputBalanceUsed || e.allowOutputBalance

def getBalance (e : Echange P) : Ciphertext P × Echange P :=
  let (ct, used) := e.version.selectBalance e.useOutput
  (ct, if e.outputBalanceUsed then e else { e with outputBalanceUsed := used })

/-- Writing through the reference of `getBalance`. -/
def setBalance (e : Echange P) (ct : Ciphertext P) : Echange P :=
  { e with version := e.version.setSelected e.useOutput ct }

def addOutputToSum (e : Echange P) (output : Ciphertext P) : Echange P :=
  { e with outputSum := e.outputSum.add output }

end Echange

/-- A sender of the block. -/
structure Account (P : Type) where
  nonce : VersionedNonce
  assets : FiniteMap Hash (Echange P)
  multisig : Option (VersionedState × Option MultiSigPayload)
  deriving DecidableEq

structure ChainState (P : Type) where
  storage : Storage P
  mainnet : Bool
  receiverBalances : FiniteMap PublicKey (FiniteMap Hash (VersionedBalance P))
  accounts : FiniteMap PublicKey (Account P)
  stableTopoheight : TopoHeight
  topoheight : TopoHeight
  contracts : FiniteMap Hash (VersionedState × Option Module)
  blockVersion : BlockVersion
  gasFee : Nat

variable {P : Type} [RistrettoPoint P]

/-- Which version of a balance a transaction built at `reference` spends from: whether its output balance
may be used, whether the version is a clean one, and the version. -/
def searchVersionedBalanceForReference (storage : Storage P) (key : PublicKey) (asset : Hash)
    (current : TopoHeight) (reference : Reference) (noNew : Bool) :
    Except BlockchainError (Bool × Bool × VersionedBalance P) := do
  let referenceBlockTopo :=
    match storage.isBlockTopologicalOrdered reference.hash, storage.topoByHash[reference.hash]? with
    | true, some topo =>
      if topo = reference.topoheight then topo
      else if reference.topoheight < current then reference.topoheight
      else current
    | _, _ =>
      if storage.prunedTopoheight.any (fun v => reference.topoheight < v) then reference.topoheight else current
  let minTopo := min (min reference.topoheight referenceBlockTopo) current
  let lastOutput ← storage.getOutputBalanceInRange key asset minTopo current
  let (useOutputBalance, version) ← match lastOutput with
    | some (topo, v) =>
      if reference.topoheight < topo || referenceBlockTopo < topo then
        pure (true, some v)
      else if topo < reference.topoheight || topo < referenceBlockTopo then do
        let found ← storage.getBalanceAtMaximumTopoheight key asset (max topo referenceBlockTopo)
        pure (false, found.map Prod.snd)
      else pure (false, some v)
    | none => do
      let found ← storage.getBalanceAtMaximumTopoheight key asset referenceBlockTopo
      pure (false, found.map Prod.snd)
  match version with
  | some version => return (useOutputBalance, false, version)
  | none => do
    let (version, new) ← storage.getNewVersionedBalance key asset current
    if new && noNew then
      throw .noPreviousBalanceFound
    return (useOutputBalance, true, version)

namespace ChainState

def new (storage : Storage P) (mainnet : Bool) (stableTopoheight topoheight : TopoHeight)
    (blockVersion : BlockVersion) : ChainState P :=
  { storage, mainnet, receiverBalances := ∅, accounts := ∅, stableTopoheight, topoheight, contracts := ∅,
    blockVersion, gasFee := 0 }

def createSenderEchange (storage : Storage P) (key : PublicKey) (asset : Hash) (current : TopoHeight)
    (reference : Reference) : Except BlockchainError (Echange P) := do
  let (useOutputBalance, newVersion, version) ←
    searchVersionedBalanceForReference storage key asset current reference true
  return Echange.new useOutputBalance newVersion version

/-- A stored multisig that was deleted counts as no multisig at all. -/
def createSenderAccount (storage : Storage P) (key : PublicKey) (topoheight : TopoHeight) :
    Except BlockchainError (Account P) := do
  match ← storage.getNonceAtMaximumTopoheight key topoheight with
  | none => throw (.accountNotFound key)
  | some (topo, version) =>
    let multisig ← storage.getMultisigAtMaximumTopoheightFor key topoheight
    return {
      nonce := { version with previousTopoheight := some topo }
      assets := ∅
      multisig := multisig.bind (fun m => m.2.data.map (fun payload => (.fetchedAt m.1, some payload))) }

def setReceiverVersion (key : PublicKey) (asset : Hash) (version : VersionedBalance P) (s : ChainState P) :
    ChainState P :=
  let assets := (s.receiverBalances[key]?.getD ∅).insert asset version
  { s with receiverBalances := s.receiverBalances.insert key assets }

/-- The entry of the account is created before the balance is looked up. -/
def internalGetReceiverBalance (key : PublicKey) (asset : Hash) : Exec BlockchainError (ChainState P) (Ciphertext P) := do
  let s ← get
  let assets := s.receiverBalances[key]?.getD ∅
  set { s with receiverBalances := s.receiverBalances.insert key assets }
  match assets[asset]? with
  | some version => return version.finalBalance
  | none =>
    let (version, _) ← Exec.ofExcept (s.storage.getNewVersionedBalance key asset s.topoheight)
    modify (setReceiverVersion key asset version)
    return version.finalBalance

def withReceiver (s : ChainState P) (key : PublicKey) : ChainState P :=
  { s with receiverBalances := s.receiverBalances.insert key (s.receiverBalances[key]?.getD ∅) }

theorem internalGetReceiverBalance_eq (key : PublicKey) (asset : Hash) (s : ChainState P) :
    internalGetReceiverBalance key asset s =
      match s.receiverBalances[key]?.bind (·[asset]?) with
      | some version => .ok version.finalBalance (s.withReceiver key)
      | none => match s.storage.getNewVersionedBalance key asset s.topoheight with
        | .ok (version, _) => .ok version.finalBalance (setReceiverVersion key asset version (s.withReceiver key))
        | .error e => .error e (s.withReceiver key) := by
  have hentry : (s.receiverBalances[key]?.getD ∅)[asset]? = s.receiverBalances[key]?.bind (·[asset]?) := by
    cases s.receiverBalances[key]? with
    | none => simp
    | some assets => rfl
  simp only [internalGetReceiverBalance, Exec.bind_apply, Exec.get_apply, Exec.set_apply, hentry]
  cases s.receiverBalances[key]?.bind (·[asset]?) with
  | some version => rfl
  | none =>
    simp only [Exec.bind_apply, Exec.ofExcept_apply]
    cases s.storage.getNewVersionedBalance key asset s.topoheight with
    | ok found => rfl
    | error e => rfl

/-- Writing through the reference of `internalGetReceiverBalance`. -/
def putReceiverBalance (key : PublicKey) (asset : Hash) (ct : Ciphertext P) (s : ChainState P) : ChainState P :=
  match s.receiverBalances[key]?.bind (·[asset]?) with
  | some version => setReceiverVersion key asset { version with finalBalance := ct } s
  | none => s

def setAccount (key : PublicKey) (account : Account P) (s : ChainState P) : ChainState P :=
  { s with accounts := s.accounts.insert key account }

def setEchange (account : Account P) (asset : Hash) (e : Echange P) : Account P :=
  { account with assets := account.assets.insert asset e }

/-- The account and the echange are only inserted once both are found. -/
def internalGetSenderVerificationBalance (key : PublicKey) (asset : Hash) (reference : Reference) :
    Exec BlockchainError (ChainState P) (Ciphertext P) := do
  let s ← get
  match s.accounts[key]? with
  | some account =>
    match account.assets[asset]? with
    | some echange =>
      let (ct, echange) := echange.getBalance
      modify (setAccount key (setEchange account asset echange))
      return ct
    | none =>
      let echange ← Exec.ofExcept (createSenderEchange s.storage key asset s.topoheight reference)
      let (ct, echange) := echange.getBalance
      modify (setAccount key (setEchange account asset echange))
      return ct
  | none =>
    let account ← Exec.ofExcept (createSenderAccount s.storage key s.topoheight)
    let echange ← Exec.ofExcept (createSenderEchange s.storage key asset s.topoheight reference)
    let (ct, echange) := echange.getBalance
    modify (setAccount key (setEchange account asset echange))
    return ct

/-- The account and the echange that a lookup of a sender balance finds or loads. -/
def findSender (s : ChainState P) (key : PublicKey) (asset : Hash) (reference : Reference) :
    Except BlockchainError (Account P × Echange P) :=
  match s.accounts[key]? with
  | some account =>
    match account.assets[asset]? with
    | some echange => .ok (account, echange)
    | none => (createSenderEchange s.storage key asset s.topoheight reference).map (account, ·)
  | none => do
    let account ← createSenderAccount s.storage key s.topoheight
    let echange ← createSenderEchange s.storage key asset s.topoheight reference
    return (account, echange)

/-- A failed lookup leaves the state alone. -/
theorem internalGetSenderVerificationBalance_eq (key : PublicKey) (asset : Hash) (reference : Reference)
    (s : ChainState P) :
    internalGetSenderVerificationBalance key asset reference s =
      match s.findSender key asset reference with
      | .ok (account, echange) =>
        .ok echange.getBalance.1 (setAccount key (setEchange account asset echange.getBalance.2) s)
      | .error e => .error e s := by
  simp only [internalGetSenderVerificationBalance, findSender, Exec.bind_apply, Exec.get_apply]
  cases s.accounts[key]? with
  | some account =>
    dsimp only
    cases account.assets[asset]? with
    | some echange => rfl
    | none =>
      simp only [Exec.bind_apply, Exec.ofExcept_apply]
      cases createSenderEchange s.storage key asset s.topoheight reference with
      | ok echange => rfl
      | error e => rfl
  | none =>
    simp only [Exec.bind_apply, Exec.ofExcept_apply]
    cases createSenderAccount s.storage key s.topoheight with
    | error e => rfl
    | ok account =>
      cases createSenderEchange s.storage key asset s.topoheight reference with
      | ok echange => rfl
      | error e => rfl

/-- Writing through the reference of `internalGetSenderVerificationBalance`. -/
def putSenderBalance (key : PublicKey) (asset : Hash) (ct : Ciphertext P) (s : ChainState P) : ChainState P :=
  match s.accounts[key]? with
  | some account =>
    match account.assets[asset]? with
    | some echange => setAccount key (setEchange account asset (echange.setBalance ct)) s
    | none => s
  | none => s

def internalUpdateSenderEchange (key : PublicKey) (asset : Hash) (newCt : Ciphertext P) :
    Exec BlockchainError (ChainState P) PUnit := do
  let s ← get
  match s.accounts[key]? with
  | some account =>
    match account.assets[asset]? with
    | some echange => modify (setAccount key (setEchange account asset (echange.addOutputToSum newCt)))
    | none => throw (.noTxSender key)
  | none => throw (.noTxSender key)

section

omit [RistrettoPoint P]

theorem accounts_setAccount (key : PublicKey) (account : Account P) (s : ChainState P) :
    (setAccount key account s).accounts[key]? = some account := FiniteMap.getElem?_insert_self' _ _ _

theorem assets_setEchange (account : Account P) (asset : Hash) (e : Echange P) :
    (setEchange account asset e).assets[asset]? = some e := FiniteMap.getElem?_insert_self' _ _ _

theorem setAccount_setAccount (key : PublicKey) (account account' : Account P) (s : ChainState P) :
    setAccount key account (setAccount key account' s) = setAccount key account s := by
  rw [setAccount, setAccount, FiniteMap.insert_insert_self]
  rfl

theorem setEchange_setEchange (account : Account P) (asset : Hash) (e e' : Echange P) :
    setEchange (setEchange account asset e') asset e = setEchange account asset e := by
  rw [setEchange, setEchange, FiniteMap.insert_insert_self]
  rfl

end

omit [RistrettoPoint P] in
theorem putSenderBalance_eq (key : PublicKey) (asset : Hash) (ct : Ciphertext P) (account : Account P) (e : Echange P)
    (s : ChainState P) :
    putSenderBalance key asset ct (setAccount key (setEchange account asset e) s) =
      setAccount key (setEchange account asset (e.setBalance ct)) s := by
  simp only [putSenderBalance, accounts_setAccount, assets_setEchange, setAccount_setAccount, setEchange_setEchange]

theorem internalUpdateSenderEchange_eq (key : PublicKey) (asset : Hash) (output : Ciphertext P) (account : Account P)
    (e : Echange P) (s : ChainState P) :
    internalUpdateSenderEchange key asset output (setAccount key (setEchange account asset e) s) =
      .ok ⟨⟩ (setAccount key (setEchange account asset (e.addOutputToSum output)) s) := by
  have hset : setAccount key (setEchange (setEchange account asset e) asset (e.addOutputToSum output))
      (setAccount key (setEchange account asset e) s) =
        setAccount key (setEchange account asset (e.addOutputToSum output)) s := by
    rw [setAccount_setAccount, setEchange_setEchange]
  simp only [internalUpdateSenderEchange, Exec.bind_apply, Exec.get_apply, accounts_setAccount, assets_setEchange]
  exact congrArg (EStateM.Result.ok PUnit.unit) hset

section

omit [RistrettoPoint P]

def getInternalAccount (key : PublicKey) : Exec BlockchainError (ChainState P) (Account P) := do
  let s ← get
  match s.accounts[key]? with
  | some account => return account
  | none =>
    let account ← Exec.ofExcept (createSenderAccount s.storage key s.topoheight)
    modify (setAccount key account)
    return account

def findAccount (s : ChainState P) (key : PublicKey) : Except BlockchainError (Account P) :=
  match s.accounts[key]? with
  | some account => .ok account
  | none => createSenderAccount s.storage key s.topoheight

variable {s : ChainState P}

theorem findAccount_of_some {key : PublicKey} {account : Account P} (h : s.accounts[key]? = some account) :
    s.findAccount key = .ok account := by
  rw [findAccount, h]

theorem getInternalAccount_eq (key : PublicKey) (s : ChainState P) :
    getInternalAccount key s =
      match s.findAccount key with
      | .ok account => .ok account (setAccount key account s)
      | .error e => .error e s := by
  simp only [getInternalAccount, findAccount, Exec.bind_apply, Exec.get_apply]
  cases h : s.accounts[key]? with
  | some account =>
    have hsame : setAccount key account s = s := by
      rw [setAccount, FiniteMap.insert_eq_self h]
    exact congrArg (EStateM.Result.ok account) hsame.symm
  | none =>
    simp only [Exec.bind_apply, Exec.ofExcept_apply]
    cases createSenderAccount s.storage key s.topoheight with
    | ok account => rfl
    | error e => rfl

def internalGetAccountNonce (key : PublicKey) : Exec BlockchainError (ChainState P) Nonce := do
  let account ← getInternalAccount key
  return account.nonce.nonce

def internalUpdateAccountNonce (key : PublicKey) (newNonce : Nonce) : Exec BlockchainError (ChainState P) PUnit := do
  let account ← getInternalAccount key
  modify (setAccount key { account with nonce := { account.nonce with nonce := newNonce } })

theorem internalUpdateAccountNonce_eq (key : PublicKey) (newNonce : Nonce) (s : ChainState P) :
    internalUpdateAccountNonce key newNonce s =
      match s.findAccount key with
      | .ok account => .ok ⟨⟩ (setAccount key { account with nonce := { account.nonce with nonce := newNonce } } s)
      | .error e => .error e s := by
  simp only [internalUpdateAccountNonce, Exec.bind_apply, getInternalAccount_eq]
  cases s.findAccount key with
  | ok account => exact congrArg (EStateM.Result.ok PUnit.unit) (setAccount_setAccount key _ account s)
  | error e => rfl

theorem internalUpdateAccountNonce_ok {key : PublicKey} {newNonce : Nonce} {s s' : ChainState P}
    (h : internalUpdateAccountNonce key newNonce s = .ok ⟨⟩ s') :
    ∃ account, s.findAccount key = .ok account ∧
      s' = setAccount key { account with nonce := { account.nonce with nonce := newNonce } } s := by
  rw [internalUpdateAccountNonce_eq] at h
  cases hfind : s.findAccount key with
  | error e => simp [hfind] at h
  | ok account =>
    simp only [hfind, EStateM.Result.ok.injEq, true_and] at h
    exact ⟨account, rfl, h.symm⟩

/-- The account with its new multisig: a deletion keeps the entry without a payload. -/
def withMultisig (account : Account P) (payload : MultiSigPayload) : Account P :=
  { account with multisig := some (
      match account.multisig with
      | some (state, _) => state.markUpdated
      | none => .new,
      if payload.isDelete then none else some payload) }

def setMultisigState (key : PublicKey) (payload : MultiSigPayload) : Exec BlockchainError (ChainState P) PUnit := do
  let account ← getInternalAccount key
  modify (setAccount key (withMultisig account payload))

theorem setMultisigState_eq (key : PublicKey) (payload : MultiSigPayload) (s : ChainState P) :
    setMultisigState key payload s =
      match s.findAccount key with
      | .ok account => .ok ⟨⟩ (setAccount key (withMultisig account payload) s)
      | .error e => .error e s := by
  simp only [setMultisigState, Exec.bind_apply, getInternalAccount_eq]
  cases s.findAccount key with
  | ok account => exact congrArg (EStateM.Result.ok PUnit.unit) (setAccount_setAccount key _ account s)
  | error e => rfl

def getMultisigState (key : PublicKey) : Exec BlockchainError (ChainState P) (Option MultiSigPayload) := do
  let account ← getInternalAccount key
  return account.multisig.bind Prod.snd

def internalGetVersionedContract (hash : Hash) :
    Exec BlockchainError (ChainState P) (VersionedState × Option Module) := do
  let s ← get
  match s.contracts[hash]? with
  | some contract => return contract
  | none =>
    let found ← Exec.ofExcept (s.storage.getContractAtMaximumTopoheightFor hash s.topoheight)
    let contract := match found with
      | some (topo, version) => (.fetchedAt topo, version.data)
      | none => (.new, none)
    set { s with contracts := s.contracts.insert hash contract }
    return contract

def findContract (s : ChainState P) (hash : Hash) : Except BlockchainError (VersionedState × Option Module) :=
  match s.contracts[hash]? with
  | some contract => .ok contract
  | none => (s.storage.getContractAtMaximumTopoheightFor hash s.topoheight).map (fun found =>
    match found with
    | some (topo, version) => (.fetchedAt topo, version.data)
    | none => (.new, none))

def setContract (hash : Hash) (contract : VersionedState × Option Module) (s : ChainState P) : ChainState P :=
  { s with contracts := s.contracts.insert hash contract }

theorem findContract_setContract_of_ne {hash hash' : Hash} (hne : hash ≠ hash')
    (contract : VersionedState × Option Module) : (setContract hash contract s).findContract hash' = s.findContract hash' := by
  unfold findContract setContract
  dsimp only
  rw [FiniteMap.getElem?_insert_of_ne _ _ hne]

theorem findContract_setContract_self (hash : Hash) (contract : VersionedState × Option Module) :
    (setContract hash contract s).findContract hash = .ok contract := by
  unfold findContract setContract
  dsimp only
  rw [FiniteMap.getElem?_insert_self']

theorem findContract_keep {hash : Hash} {contract : VersionedState × Option Module}
    (hfind : s.findContract hash = .ok contract) (hash' : Hash) :
    (setContract hash contract s).findContract hash' = s.findContract hash' := by
  by_cases hne : hash = hash'
  · subst hne
    rw [findContract_setContract_self, hfind]
  · exact findContract_setContract_of_ne hne contract

theorem internalGetVersionedContract_eq (hash : Hash) (s : ChainState P) :
    internalGetVersionedContract hash s =
      match s.findContract hash with
      | .ok contract => .ok contract (setContract hash contract s)
      | .error e => .error e s := by
  simp only [internalGetVersionedContract, findContract, Exec.bind_apply, Exec.get_apply]
  cases h : s.contracts[hash]? with
  | some contract =>
    have hsame : setContract hash contract s = s := by
      rw [setContract, FiniteMap.insert_eq_self h]
    exact congrArg (EStateM.Result.ok contract) hsame.symm
  | none =>
    simp only [Exec.bind_apply, Exec.ofExcept_apply]
    cases s.storage.getContractAtMaximumTopoheightFor hash s.topoheight with
    | ok found => rfl
    | error e => rfl

def loadVersionedContract (hash : Hash) : Exec BlockchainError (ChainState P) Bool := do
  let contract ← internalGetVersionedContract hash
  return contract.2.isSome

theorem loadVersionedContract_eq (hash : Hash) (s : ChainState P) :
    loadVersionedContract hash s =
      match s.findContract hash with
      | .ok contract => .ok contract.2.isSome (setContract hash contract s)
      | .error e => .error e s := by
  simp only [loadVersionedContract, Exec.bind_apply, internalGetVersionedContract_eq]
  cases s.findContract hash with
  | ok contract => rfl
  | error e => rfl

def setContractModule (hash : Hash) (module : Module) : Exec BlockchainError (ChainState P) PUnit := do
  let (state, _) ← internalGetVersionedContract hash
  if !state.isNew then
    throw .contractAlreadyExists
  modify (setContract hash (state.markUpdated, some module))

theorem setContractModule_eq (hash : Hash) (module : Module) (s : ChainState P) :
    setContractModule hash module s =
      match s.findContract hash with
      | .ok (.new, _) => .ok ⟨⟩ (setContract hash (.new, some module) s)
      | .ok contract => .error .contractAlreadyExists (setContract hash contract s)
      | .error e => .error e s := by
  simp only [setContractModule, Exec.bind_apply, internalGetVersionedContract_eq]
  cases s.findContract hash with
  | error e => rfl
  | ok contract =>
    obtain ⟨state, module'⟩ := contract
    cases state with
    | fetchedAt topo => rfl
    | updated topo => rfl
    | new =>
      have hset : setContract hash (.new, some module) (setContract hash (.new, module') s) =
          setContract hash (.new, some module) s := by
        rw [setContract, setContract, FiniteMap.insert_insert_self]
        rfl
      exact congrArg (EStateM.Result.ok PUnit.unit) hset

def internalGetContractModule (hash : Hash) : Exec BlockchainError (ChainState P) Module := do
  let s ← get
  match s.contracts[hash]?.bind Prod.snd with
  | some module => return module
  | none => throw (.contractNotFound hash)

end

def rewardMiner (miner : PublicKey) (reward : Nat) : Exec BlockchainError (ChainState P) PUnit := do
  let balance ← internalGetReceiverBalance miner XELIS_ASSET
  modify (putReceiverBalance miner XELIS_ASSET (balance.addScalar reward))

end ChainState

end Xelis.State
