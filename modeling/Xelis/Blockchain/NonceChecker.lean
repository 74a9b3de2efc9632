import Xelis.Storage.Storage

namespace Xelis.Blockchain

open Lib (FiniteMap)

structure AccountEntry where
  initialNonce : Nonce
  expectedNonce : Nonce
  /-- In the order of their use. -/
  usedNonces : List (Nonce × TopoHeight)
  deriving DecidableEq

namespace AccountEntry

def new (nonce : Nonce) : AccountEntry := { initialNonce := nonce, expectedNonce := nonce, usedNonces := [] }

def containsNonce (entry : AccountEntry) (nonce : Nonce) : Bool := entry.usedNonces.any (fun e => e.1 == nonce)

def insertNonceAtTopoheight (entry : AccountEntry) (nonce : Nonce) (topoheight : TopoHeight) : Bool × AccountEntry :=
  if entry.containsNonce nonce || nonce != entry.expectedNonce then (false, entry)
  else (true, { entry with expectedNonce := nonce + 1, usedNonces := entry.usedNonces ++ [(nonce, topoheight)] })

end AccountEntry

structure NonceChecker where
  cache : FiniteMap PublicKey AccountEntry := ∅

namespace NonceChecker

variable {P : Type}

/-- The entry of an account: the cached one, or a new one at the stored nonce. -/
def entryFor (checker : NonceChecker) (storage : Storage P) (key : PublicKey) (topoheight : TopoHeight) :
    Except BlockchainError AccountEntry :=
  match checker.cache[key]? with
  | some entry => .ok entry
  | none =>
    match storage.getNonceAtMaximumTopoheight key topoheight with
    | .error e => .error e
    | .ok none => .error (.accountNotFound key)
    | .ok (some (_, version)) => .ok (AccountEntry.new version.nonce)

/-- The entry stays in the cache even when the nonce is refused. -/
def useNonce (checker : NonceChecker) (storage : Storage P) (key : PublicKey) (nonce : Nonce)
    (topoheight : TopoHeight) : Except BlockchainError (Bool × NonceChecker) := do
  let entry ← checker.entryFor storage key topoheight
  let (valid, entry) := entry.insertNonceAtTopoheight nonce topoheight
  return (valid, { cache := checker.cache.insert key entry })

def getNewNonce (checker : NonceChecker) (key : PublicKey) : Except BlockchainError Nonce :=
  match checker.cache[key]? with
  | some entry => .ok entry.expectedNonce
  | none => .error (.accountNotFound key)

end NonceChecker

end Xelis.Blockchain
