import Xelis.State.MempoolState
import Xelis.Storage.Blocks

namespace Xelis

open Lib (FiniteMap Exec)
open State (MempoolState)

/-- The chain as it stands when the mempool is called. -/
structure ChainView (P : Type) where
  storage : Storage P
  stableTopoheight : TopoHeight
  topoheight : TopoHeight
  blockVersion : BlockVersion

/-- The lowest and the highest nonce seen so far, with `nonce` added. -/
def widenBounds (bounds : Option Nonce × Option Nonce) (nonce : Nonce) : Option Nonce × Option Nonce :=
  (match bounds.1 with
    | some v => if nonce < v then some nonce else some v
    | none => some nonce,
   match bounds.2 with
    | some v => if v < nonce then some nonce else some v
    | none => some nonce)

def AccountCache.setBounds {P : Type} (cache : AccountCache P) : Option Nonce × Option Nonce → AccountCache P
  | (some min, some max) => { cache with min, max }
  | _ => cache

@[simp] theorem AccountCache.setBounds_txs {P : Type} (cache : AccountCache P) (bounds : Option Nonce × Option Nonce) :
    (cache.setBounds bounds).txs = cache.txs := by
  rcases bounds with ⟨_ | min, _ | max⟩ <;> rfl

namespace Mempool

variable {P : Type}

/-- A nonce that is tracked already replaces the transaction that has it. -/
def placeInCache (mempool : Mempool P) (cache : AccountCache P) (nonce : Nonce) (hash : Hash) :
    AccountCache P × FiniteMap Hash SortedTx :=
  if cache.min ≤ nonce && nonce ≤ cache.max then
    let index := (nonce - cache.min) % (cache.max + 1 - cache.min)
    match (cache.txs.insert hash).swapRemoveIndex index with
    | (some txHash, txs) => ({ cache with txs }, mempool.txs.erase txHash)
    | (none, txs) => ({ cache with txs }, mempool.txs)
  else (cache.update nonce hash, mempool.txs)

/-- The transaction is in the pool, and the cache of its sender holds what its verification left. -/
def insertVerified (mempool : Mempool P) (hash : Hash) (sorted : SortedTx) (balances : FiniteMap Hash (Ciphertext P))
    (multisig : Option MultiSigPayload) : Mempool P :=
  let nonce := sorted.tx.nonce
  match mempool.caches[sorted.tx.source]? with
  | some cache =>
    let (cache, txs) := mempool.placeInCache cache nonce hash
    { mempool with
      txs := txs.insert hash sorted
      caches := mempool.caches.insert sorted.tx.source { cache with balances, multisig } }
  | none =>
    let cache := { min := nonce, max := nonce, txs := .single hash, balances, multisig }
    { mempool with txs := mempool.txs.insert hash sorted, caches := mempool.caches.insert sorted.tx.source cache }

def drain (mempool : Mempool P) : Mempool P × List (Hash × Transaction) :=
  ({ mempool with txs := ∅, caches := ∅ }, mempool.txs.toList.map (fun e => (e.1, e.2.tx)))

/-- The bounds of the transactions left in a cache; the error names the transaction that was removed. -/
def boundsOf (removed : Hash) (txs : FiniteMap Hash SortedTx) (hashes : List Hash) :
    Except BlockchainError (Option Nonce × Option Nonce) :=
  hashes.foldlM (fun bounds txHash =>
    match txs[txHash]? with
    | some sorted => .ok (widenBounds bounds sorted.tx.nonce)
    | none => .error (.txNotFound removed)) (none, none)

def removeTx (hash : Hash) : Exec BlockchainError (Mempool P) PUnit := do
  let mempool ← get
  match mempool.txs[hash]? with
  | none => throw (.txNotFound hash)
  | some sorted =>
    let txs := mempool.txs.erase hash
    set { mempool with txs }
    let key := sorted.tx.source
    match mempool.caches[key]? with
    | none => pure ⟨⟩
    | some cache =>
      if hash ∈ cache.txs.elems then
        let cache := { cache with txs := cache.txs.shiftRemove hash }
        set { mempool with txs, caches := mempool.caches.insert key cache }
        if cache.txs.isEmpty then
          modify (fun m => { m with caches := m.caches.erase key })
        else
          let bounds ← Exec.ofExcept (boundsOf hash txs cache.txs.elems)
          modify (fun m => { m with caches := m.caches.insert key (cache.setBounds bounds) })

/-- Transactions taken out of the pool, with those that were really there. -/
def deleteTxs (hashes : List Hash) (run : Mempool P × List (Hash × SortedTx)) : Mempool P × List (Hash × SortedTx) :=
  hashes.foldl (fun run hash =>
    match run.1.txs[hash]? with
    | some sorted => ({ run.1 with txs := run.1.txs.erase hash }, run.2 ++ [(hash, sorted)])
    | none => run) run

/-- A transaction outlives a clean up when its nonce is not used by the chain. -/
def isStillValid (txs : FiniteMap Hash SortedTx) (nonce : Nonce) (hash : Hash) : Bool :=
  txs[hash]?.any (fun sorted => nonce ≤ sorted.tx.nonce)

/-- The cache without the transactions whose nonce is used, its bounds computed again. -/
def retainValid (txs : FiniteMap Hash SortedTx) (cache : AccountCache P) (nonce : Nonce) : AccountCache P :=
  let kept := cache.txs.retain (isStillValid txs nonce)
  let bounds := (kept.elems.filterMap (fun hash => txs[hash]?)).foldl
    (fun bounds sorted => widenBounds bounds sorted.tx.nonce) (none, none)
  { cache with txs := kept }.setBounds bounds

section Verified

variable [RistrettoPoint P]

def addTx (proofs : Proofs P) (mempool : Mempool P) (chain : ChainView P) (hash : Hash) (tx : Transaction)
    (size now : Nat) : Except (VerificationError BlockchainError) (Mempool P) :=
  letI := MempoolState.verificationState (P := P) proofs.txSize
  let state := MempoolState.new mempool chain.storage chain.stableTopoheight chain.topoheight chain.blockVersion
  match tx.verify proofs hash state with
  | .error e _ => .error e
  | .ok _ state =>
    match state.getSenderCache tx.source with
    | none => .error (.state (.accountNotFound tx.source))
    | some (balances, multisig) =>
      .ok (mempool.insertVerified hash { tx, firstSeen := now, size } balances multisig)

def addTxToMempoolWithStorageAndHash (proofs : Proofs P) (mempool : Mempool P) (chain : ChainView P) (tx : Transaction)
    (hash : Hash) (now : Nat) : Except (VerificationError BlockchainError) (Mempool P) := do
  let size := proofs.txSize tx
  if MAX_TRANSACTION_SIZE < size then
    throw (.state (.txTooBig size MAX_TRANSACTION_SIZE))
  if mempool.containsTx hash then
    throw (.state (.txAlreadyInMempool hash))
  if chain.storage.isTxExecutedInABlock hash then
    throw (.state (.txAlreadyInBlockchain hash))
  if let some cache := mempool.getCacheFor tx.source then
    if let some other := cache.hasTxWithSameNonce tx.nonce then
      throw (.state (.txNonceAlreadyUsed tx.nonce other))
    if !(tx.nonce ≤ cache.max + 1 && cache.min ≤ tx.nonce) then
      throw (.state (.invalidTxNonceMempoolCache tx.nonce cache.min cache.max))
  mempool.addTx proofs chain hash tx size now

/-- What is left of a cache once the chain has used the nonces below `nonce`; `none` when nothing is left.
The transactions that stay are verified again when others were dropped. -/
def revalidate (proofs : Proofs P) (mempool : Mempool P) (chain : ChainView P) (key : PublicKey)
    (cache : AccountCache P) (nonce : Nonce) : Option (AccountCache P) := do
  let left := retainValid mempool.txs cache nonce
  if left.txs.isEmpty then
    none
  else
    let txs ← left.txs.elems.mapM (fun hash => mempool.txs[hash]?.map (fun sorted => (sorted.tx, hash)))
    if cache.txs.elems.all (isStillValid mempool.txs nonce) then
      some left
    else
      letI := MempoolState.verificationState (P := P) proofs.txSize
      let state := MempoolState.new mempool chain.storage chain.stableTopoheight chain.topoheight chain.blockVersion
      match Transaction.verifyBatch proofs txs state with
      | .error _ _ => none
      | .ok _ state =>
        match state.getSenderCache key with
        | some (balances, multisig) => some { left with balances, multisig }
        | none => some left

/-- One cache of the old ones: it is put back when some of its transactions are still valid. -/
def cleanUpAccount (proofs : Proofs P) (chain : ChainView P) (run : Mempool P × List (Hash × SortedTx))
    (e : PublicKey × AccountCache P) : Mempool P × List (Hash × SortedTx) :=
  match chain.storage.getLastNonce e.1 with
  | .error _ => deleteTxs e.2.txs.elems run
  | .ok (_, version) =>
    if version.nonce < e.2.min then
      deleteTxs e.2.txs.elems run
    else
      match revalidate proofs run.1 chain e.1 e.2 version.nonce with
      | none => deleteTxs e.2.txs.elems run
      | some cache =>
        let run := deleteTxs (e.2.txs.elems.filter (fun hash => !isStillValid run.1.txs version.nonce hash)) run
        ({ run.1 with caches := run.1.caches.insert e.1 cache }, run.2)

def cleanUp (proofs : Proofs P) (mempool : Mempool P) (chain : ChainView P) : Mempool P × List (Hash × SortedTx) :=
  mempool.caches.toList.foldl (cleanUpAccount proofs chain) ({ mempool with caches := ∅ }, [])

end Verified

end Mempool

end Xelis
