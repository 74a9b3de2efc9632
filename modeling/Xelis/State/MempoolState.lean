import Xelis.Mempool.Cache
import Xelis.State.Verification

namespace Xelis.State

open Lib (FiniteMap Exec)

/-- A sender, with the balances its transactions have left so far. -/
structure MempoolState.Account (P : Type) where
  nonce : Nonce
  assets : FiniteMap Hash (Ciphertext P)
  multisig : Option MultiSigPayload

structure MempoolState (P : Type) where
  mempool : Mempool P
  storage : Storage P
  receiverBalances : FiniteMap PublicKey (FiniteMap Hash (Ciphertext P))
  accounts : FiniteMap PublicKey (MempoolState.Account P)
  contracts : FiniteMap Hash Module
  stableTopoheight : TopoHeight
  topoheight : TopoHeight
  blockVersion : BlockVersion

namespace MempoolState

variable {P : Type}

def new (mempool : Mempool P) (storage : Storage P) (stableTopoheight topoheight : TopoHeight)
    (blockVersion : BlockVersion) : MempoolState P :=
  { mempool, storage, receiverBalances := ∅, accounts := ∅, contracts := ∅, stableTopoheight, topoheight, blockVersion }

def getSenderCache (s : MempoolState P) (key : PublicKey) :
    Option (FiniteMap Hash (Ciphertext P) × Option MultiSigPayload) :=
  s.accounts[key]?.map (fun account => (account.assets, account.multisig))

def setReceiver (key : PublicKey) (asset : Hash) (ct : Ciphertext P) (s : MempoolState P) : MempoolState P :=
  { s with receiverBalances := s.receiverBalances.insert key ((s.receiverBalances[key]?.getD ∅).insert asset ct) }

def setAccount (key : PublicKey) (account : Account P) (s : MempoolState P) : MempoolState P :=
  { s with accounts := s.accounts.insert key account }

def setBalance (account : Account P) (asset : Hash) (ct : Ciphertext P) : Account P :=
  { account with assets := account.assets.insert asset ct }

/-- The multisig of the storage: a deleted one counts as none. -/
def storedMultisig (storage : Storage P) (key : PublicKey) (topoheight : TopoHeight) :
    Except BlockchainError (Option MultiSigPayload) := do
  let found ← storage.getMultisigAtMaximumTopoheightFor key topoheight
  return found.bind (fun m => m.2.data)

/-- A cache without a multisig is not told apart from one that never looked: the storage is asked. -/
def expectedMultisig (cache : AccountCache P) (storage : Storage P) (key : PublicKey) (topoheight : TopoHeight) :
    Except BlockchainError (Option MultiSigPayload) :=
  match cache.multisig with
  | some multisig => .ok (some multisig)
  | none => storedMultisig storage key topoheight

def createSenderAccount (mempool : Mempool P) (storage : Storage P) (key : PublicKey) (topoheight : TopoHeight) :
    Except BlockchainError (Account P) :=
  match mempool.getCacheFor key with
  | some cache => do
    let multisig ← expectedMultisig cache storage key topoheight
    return { nonce := cache.getNextNonce, assets := ∅, multisig }
  | none => do
    let found ← storage.getNonceAtMaximumTopoheight key topoheight
    let multisig ← storedMultisig storage key topoheight
    return { nonce := found.elim 0 (fun v => v.2.nonce), assets := ∅, multisig }

theorem createSenderAccount_nonce {mempool : Mempool P} {storage : Storage P} {key : PublicKey}
    {topoheight : TopoHeight} {cache : AccountCache P} (hcache : mempool.getCacheFor key = some cache)
    {account : Account P} (h : createSenderAccount mempool storage key topoheight = .ok account) :
    account.nonce = cache.getNextNonce := by
  unfold createSenderAccount at h
  rw [hcache] at h
  dsimp only at h
  cases hmultisig : expectedMultisig cache storage key topoheight with
  | ok multisig =>
    rw [hmultisig] at h
    cases h
    rfl
  | error e =>
    rw [hmultisig] at h
    cases h

def findAccount (s : MempoolState P) (key : PublicKey) : Except BlockchainError (Account P) :=
  match s.accounts[key]? with
  | some account => .ok account
  | none => createSenderAccount s.mempool s.storage key s.topoheight

def internalGetAccountNonce (key : PublicKey) : Exec BlockchainError (MempoolState P) Nonce := do
  let s ← get
  match s.accounts[key]? with
  | some account => return account.nonce
  | none =>
    let account ← Exec.ofExcept (createSenderAccount s.mempool s.storage key s.topoheight)
    modify (setAccount key account)
    return account.nonce

theorem internalGetAccountNonce_eq (key : PublicKey) (s : MempoolState P) :
    internalGetAccountNonce key s =
      match s.findAccount key with
      | .ok account => .ok account.nonce (setAccount key account s)
      | .error e => .error e s := by
  simp only [internalGetAccountNonce, findAccount, Exec.bind_apply, Exec.get_apply]
  cases h : s.accounts[key]? with
  | some account =>
    have hsame : setAccount key account s = s := by
      rw [setAccount, FiniteMap.insert_eq_self h]
    exact congrArg (EStateM.Result.ok account.nonce) hsame.symm
  | none =>
    simp only [Exec.bind_apply, Exec.ofExcept_apply]
    cases createSenderAccount s.mempool s.storage key s.topoheight with
    | ok account => rfl
    | error e => rfl

def internalUpdateAccountNonce (key : PublicKey) (newNonce : Nonce) : Exec BlockchainError (MempoolState P) PUnit := do
  let s ← get
  match s.accounts[key]? with
  | some account => modify (setAccount key { account with nonce := newNonce })
  | none => throw (.accountNotFound key)

def setMultisigState (key : PublicKey) (payload : MultiSigPayload) : Exec BlockchainError (MempoolState P) PUnit := do
  let s ← get
  match s.accounts[key]? with
  | some account =>
    modify (setAccount key { account with multisig := if payload.isDelete then none else some payload })
  | none => throw (.accountNotFound key)

def getMultisigState (key : PublicKey) : Exec BlockchainError (MempoolState P) (Option MultiSigPayload) := do
  let s ← get
  match s.accounts[key]? with
  | some account => return account.multisig
  | none => throw (.accountNotFound key)

def setContractModule (hash : Hash) (module : Module) : Exec BlockchainError (MempoolState P) PUnit := do
  let s ← get
  set { s with contracts := s.contracts.insert hash module }
  if s.contracts.contains hash then
    throw .contractAlreadyExists

def loadContractModule (hash : Hash) : Exec BlockchainError (MempoolState P) Bool := do
  let s ← get
  if s.contracts.contains hash then
    return true
  let found ← Exec.ofExcept (s.storage.getContractAtMaximumTopoheightFor hash s.topoheight)
  match found.bind (fun v => v.2.data) with
  | some module =>
    set { s with contracts := s.contracts.insert hash module }
    return true
  | none => throw (.contractNotFound hash)

def getContractModule (hash : Hash) : Exec BlockchainError (MempoolState P) Module := do
  let s ← get
  match s.contracts[hash]? with
  | some module => return module
  | none => throw (.contractNotFound hash)

section Balances

variable [RistrettoPoint P]

def internalGetReceiverBalance (key : PublicKey) (asset : Hash) : Exec BlockchainError (MempoolState P) (Ciphertext P) := do
  let s ← get
  let assets := s.receiverBalances[key]?.getD ∅
  set { s with receiverBalances := s.receiverBalances.insert key assets }
  match assets[asset]? with
  | some ct => return ct
  | none =>
    let (version, _) ← Exec.ofExcept (s.storage.getNewVersionedBalance key asset s.topoheight)
    modify (setReceiver key asset version.finalBalance)
    return version.finalBalance

/-- Writing through the reference of `internalGetReceiverBalance`. -/
def putReceiverBalance (key : PublicKey) (asset : Hash) (ct : Ciphertext P) (s : MempoolState P) : MempoolState P :=
  match s.receiverBalances[key]?.bind (·[asset]?) with
  | some _ => setReceiver key asset ct s
  | none => s

/-- A balance that is not known yet may be spent from: it is zero. -/
def getVersionedBalanceForReference (storage : Storage P) (key : PublicKey) (asset : Hash) (current : TopoHeight)
    (reference : Reference) : Except BlockchainError (Ciphertext P) := do
  let (output, _, version) ← searchVersionedBalanceForReference storage key asset current reference false
  return version.takeBalanceWith output

def findBalance (mempool : Mempool P) (storage : Storage P) (topoheight : TopoHeight) (key : PublicKey) (asset : Hash)
    (reference : Reference) : Except BlockchainError (Ciphertext P) :=
  match (mempool.getCacheFor key).bind (fun cache => cache.balances[asset]?) with
  | some ct => .ok ct
  | none => getVersionedBalanceForReference storage key asset topoheight reference

def internalGetSenderBalance (key : PublicKey) (asset : Hash) (reference : Reference) :
    Exec BlockchainError (MempoolState P) (Ciphertext P) := do
  let s ← get
  match s.accounts[key]? with
  | some account =>
    match account.assets[asset]? with
    | some ct => return ct
    | none =>
      let ct ← Exec.ofExcept (findBalance s.mempool s.storage s.topoheight key asset reference)
      modify (setAccount key (setBalance account asset ct))
      return ct
  | none =>
    let account ← Exec.ofExcept (createSenderAccount s.mempool s.storage key s.topoheight)
    modify (setAccount key account)
    let (version, new) ← Exec.ofExcept (s.storage.getNewVersionedBalance key asset s.topoheight)
    if new then
      throw .noPreviousBalanceFound
    modify (setAccount key (setBalance account asset version.finalBalance))
    return version.finalBalance

/-- Writing through the reference of `internalGetSenderBalance`. -/
def putSenderBalance (key : PublicKey) (asset : Hash) (ct : Ciphertext P) (s : MempoolState P) : MempoolState P :=
  match s.accounts[key]? with
  | some account =>
    match account.assets[asset]? with
    | some _ => setAccount key (setBalance account asset ct) s
    | none => s
  | none => s

/-- The outputs of the sender are not kept. -/
@[reducible] def verificationState (txSize : Transaction → Nat) :
    BlockchainVerificationState (MempoolState P) P BlockchainError where
  preVerifyTx tx := do
    let s ← get
    Exec.ofExcept (preVerifyTx txSize s.storage tx s.topoheight s.blockVersion)
  getReceiverBalance := internalGetReceiverBalance
  putReceiverBalance := putReceiverBalance
  getSenderBalance := internalGetSenderBalance
  putSenderBalance := putSenderBalance
  addSenderOutput _ _ _ := pure ⟨⟩
  getAccountNonce := internalGetAccountNonce
  updateAccountNonce := internalUpdateAccountNonce
  setMultisigState := setMultisigState
  getMultisigState := getMultisigState
  setContractModule := setContractModule
  loadContractModule := loadContractModule
  getContractModule := getContractModule

theorem preVerifyTx_ok {txSize : Transaction → Nat} {tx : Transaction} {s s' : MempoolState P}
    (h : (verificationState txSize).preVerifyTx tx s = .ok ⟨⟩ s') : s' = s := by
  obtain ⟨s₁, s₂, hget, hcheck⟩ := Exec.bind_ok_iff.mp h
  cases hget
  rw [Exec.ofExcept_apply] at hcheck
  split at hcheck
  · cases hcheck
    rfl
  · cases hcheck

end Balances

end MempoolState

end Xelis.State
