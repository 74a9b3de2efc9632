import Xelis.Common.Transaction
import Xelis.Lib.IndexSet

namespace Xelis

open Lib (FiniteMap IndexSet)

structure SortedTx where
  tx : Transaction
  firstSeen : Nat
  size : Nat

/-- Pending transactions of one sender, with the balances and the multisig expected after all of them. -/
structure AccountCache (P : Type) where
  min : Nonce
  max : Nonce
  txs : IndexSet Hash
  balances : FiniteMap Hash (Ciphertext P)
  multisig : Option MultiSigPayload

namespace AccountCache

variable {P : Type}

def getNextNonce (cache : AccountCache P) : Nonce := cache.max + 1

def updateNonceRange (cache : AccountCache P) (nonce : Nonce) : AccountCache P :=
  let cache := if nonce < cache.min then { cache with min := nonce } else cache
  if cache.max < nonce then { cache with max := nonce } else cache

def update (cache : AccountCache P) (nonce : Nonce) (hash : Hash) : AccountCache P :=
  let cache := cache.updateNonceRange nonce
  { cache with txs := cache.txs.insert hash }

/-- The index in the ordered transactions is computed from the nonce. -/
def hasTxWithSameNonce (cache : AccountCache P) (nonce : Nonce) : Option Hash :=
  if nonce < cache.min || cache.max < nonce || cache.txs.isEmpty then none
  else cache.txs.getIndex ((nonce - cache.min) % (cache.max + 1 - cache.min))

end AccountCache

structure Mempool (P : Type) where
  mainnet : Bool
  txs : FiniteMap Hash SortedTx
  caches : FiniteMap PublicKey (AccountCache P)

namespace Mempool

variable {P : Type}

def new (mainnet : Bool) : Mempool P := { mainnet, txs := ∅, caches := ∅ }

def containsTx (mempool : Mempool P) (hash : Hash) : Bool := mempool.txs.contains hash

def getCacheFor (mempool : Mempool P) (key : PublicKey) : Option (AccountCache P) := mempool.caches[key]?

end Mempool

end Xelis
