import Xelis.Storage.Blocks
import Xelis.Storage.Deletion

namespace Xelis.Storage

open Lib (FiniteMap Exec)

/-- Ten times the stable limit. -/
def PRUNE_SAFETY_LIMIT : Nat := 8 * 10

/-- Tips are a set, kept in insertion order. -/
def Tips.remove (tips : Tips) (hash : Hash) : Tips := tips.filter (· ≠ hash)

def Tips.insert (tips : Tips) (hash : Hash) : Tips := if tips.contains hash then tips else tips ++ [hash]

variable {tips : Tips}

theorem Tips.mem_insert {hash x : Hash} : x ∈ Tips.insert tips hash ↔ x ∈ tips ∨ x = hash := by
  unfold Tips.insert
  split
  · rename_i hcontains
    refine ⟨.inl, ?_⟩
    rintro (hx | rfl)
    · exact hx
    · exact List.contains_iff_mem.mp hcontains
  · rw [List.mem_append, List.mem_singleton]

variable {hashes : List Hash}

theorem Tips.mem_insertAll {x : Hash} : x ∈ hashes.foldl Tips.insert tips ↔ x ∈ tips ∨ x ∈ hashes := by
  induction hashes generalizing tips with
  | nil => simp
  | cons hash hashes ih => rw [List.foldl_cons, ih, Tips.mem_insert, List.mem_cons, or_assoc]

theorem Tips.nodup_insertAll (h : tips.Nodup) : (hashes.foldl Tips.insert tips).Nodup := by
  induction hashes generalizing tips with
  | nil => exact h
  | cons hash hashes ih =>
    refine ih ?_
    unfold Tips.insert
    split
    · exact h
    · rename_i hcontains
      refine List.nodup_append.mpr ⟨h, List.nodup_singleton hash, ?_⟩
      rintro x hx _ hhash rfl
      rw [List.mem_singleton.mp hhash] at hx
      exact hcontains (List.contains_iff_mem.mpr hx)

section Stored

variable {P : Type}

/-- Removing an entry that must be there. -/
def deleteCacheableData {K V : Type} [Ord K] [Std.TransOrd K] (tree : Storage P → FiniteMap K V)
    (put : FiniteMap K V → Storage P → Storage P) (key : K) : Exec BlockchainError (Storage P) V := fun s =>
  match (tree s)[key]? with
  | some value => .ok value (put ((tree s).erase key) s)
  | none => .error (.notFoundOnDisk .deleteData) s

def getBlockExecutorForTx (s : Storage P) (tx : Hash) : Option Hash := s.txsExecuted[tx]?

def hasBlocksAtHeight (s : Storage P) (height : Nat) : Bool := s.blocksAtHeight.contains height

def removeBlockHashAtHeight (s : Storage P) (hash : Hash) (height : Nat) : Storage P :=
  match s.blocksAtHeight[height]? with
  | none => s
  | some hashes =>
    let left := Tips.remove hashes hash
    if left.isEmpty then { s with blocksAtHeight := s.blocksAtHeight.erase height }
    else { s with blocksAtHeight := s.blocksAtHeight.insert height left }

/-- The transaction forgets the block. It has to go when no block is left. -/
def unlinkTx (hash : Hash) (s : Storage P) (txHash : Hash) : Storage P × Bool :=
  match s.txBlocks[txHash]? with
  | some blocks =>
    let left := Tips.remove blocks hash
    ({ s with txBlocks := s.txBlocks.insert txHash left }, left.isEmpty)
  | none => (s, true)

/-- The mark of a transaction that some block executed is removed with its outputs. -/
def unmarkTx (s : Storage P) (txHash : Hash) : Storage P :=
  if s.isTxExecutedInABlock txHash then (s.removeTxExecuted txHash).deleteContractOutputsForTx txHash else s

def deleteTxOfBlock (hash : Hash) (acc : Storage P × List (Hash × Transaction)) (txHash : Hash) :
    Storage P × List (Hash × Transaction) :=
  let (s, shouldDelete) := unlinkTx hash acc.1 txHash
  let s := unmarkTx s txHash
  match shouldDelete, s.transactions[txHash]? with
  | true, some tx => ({ s with transactions := s.transactions.erase txHash }, acc.2 ++ [(txHash, tx)])
  | _, _ => (s, acc.2)

/-- What is known of a block at a topoheight, but for its transactions. -/
def deleteHeaderAtTopoheight (topoheight : TopoHeight) : Exec BlockchainError (Storage P) (Hash × BlockHeader) := do
  let hash ← deleteCacheableData hashAtTopo (fun hashAtTopo s => { s with hashAtTopo }) topoheight
  modify (fun s => { s with blocksExecutionOrder := s.blocksExecutionOrder.erase hash })
  let _ ← deleteCacheableData topoByHash (fun topoByHash s => { s with topoByHash }) hash
  let block ← deleteCacheableData blocks (fun blocks s => { s with blocks }) hash
  let _ ← deleteCacheableData supply (fun supply s => { s with supply }) topoheight
  let _ ← deleteCacheableData burnedSupply (fun burnedSupply s => { s with burnedSupply }) topoheight
  let _ ← deleteCacheableData rewards (fun rewards s => { s with rewards }) topoheight
  let _ ← deleteCacheableData difficulty (fun difficulty s => { s with difficulty }) hash
  let _ ← deleteCacheableData cumulativeDifficulty (fun cumulativeDifficulty s => { s with cumulativeDifficulty }) hash
  return (hash, block)

def deleteBlockAtTopoheight (topoheight : TopoHeight) :
    Exec BlockchainError (Storage P) (Hash × BlockHeader × List (Hash × Transaction)) := do
  let (hash, block) ← deleteHeaderAtTopoheight topoheight
  let (s, txs) := block.txsHashes.foldl (deleteTxOfBlock hash) (← get, [])
  set s
  if s.hasBlocksAtHeight block.height then
    set (s.removeBlockHashAtHeight hash block.height)
  return (hash, block, txs)

/-- Going down from a topoheight to a block that is alone at its height, but not below the pruned topoheight. -/
def searchSyncBlock (s : Storage P) (prunedTopoheight : TopoHeight) : TopoHeight → Except BlockchainError TopoHeight
  | 0 => .ok 0
  | lowestTopo + 1 =>
    if prunedTopoheight < lowestTopo + 1 then do
      let hash ← s.getHashAtTopoHeight (lowestTopo + 1)
      let blockHeight ← s.getHeightForBlockHash hash
      let blocksAtHeight ← s.getBlocksAtHeight blockHeight
      if blocksAtHeight.length = 1 then return lowestTopo + 1
      else searchSyncBlock s prunedTopoheight lowestTopo
    else .ok (lowestTopo + 1)

def lowestTopoheight (s : Storage P) (topoheight : TopoHeight) (count : Nat) (untilTopoHeight : TopoHeight) :
    Except BlockchainError TopoHeight := do
  let prunedTopoheight := s.prunedTopoheight.getD 0
  let lowestTopo ← searchSyncBlock s prunedTopoheight (topoheight - count)
  let safetyPrunedTopoheight := prunedTopoheight + PRUNE_SAFETY_LIMIT
  if prunedTopoheight ≠ 0 ∧ lowestTopo ≤ safetyPrunedTopoheight ∧ untilTopoHeight ≠ 0 then return safetyPrunedTopoheight
  else return lowestTopo

/-- What the rewinding loop carries. -/
structure RewindState where
  height : Nat
  topoheight : TopoHeight
  tips : Tips
  txs : List (Hash × Transaction)

/-- The tips once a block is gone: its parents take its place. -/
def replaceTip (tips : Tips) (hash : Hash) (parents : List Hash) : Tips :=
  parents.foldl Tips.insert (Tips.remove tips hash)

/-- The rewinding loop, from the top down; `fuel` is the topoheight it is at. -/
def popLoop (prunedTopoheight lowestTopo untilTopoHeight : TopoHeight) :
    Nat → RewindState → Exec BlockchainError (Storage P) RewindState
  | 0, r => pure r
  | topoheight + 1, r =>
    if topoheight + 1 ≤ lowestTopo ∨ topoheight + 1 ≤ untilTopoHeight then pure r
    else do
      let (hash, block, blockTxs) ← deleteBlockAtTopoheight (topoheight + 1)
      deleteVersionedDataAtTopoheight (topoheight + 1)
      let txs := r.txs ++ blockTxs
      let tips := replaceTip r.tips hash block.tips
      if topoheight + 1 ≤ prunedTopoheight then
        let genesis ← Exec.ofExcept ((← get).getHashAtTopoHeight 0)
        modify (fun s => { s with prunedTopoheight := none })
        return { height := 0, topoheight := 0, tips := [genesis], txs }
      else
        let height := if block.height < r.height then block.height else r.height
        popLoop prunedTopoheight lowestTopo untilTopoHeight topoheight { height, topoheight, tips, txs }

/-- The counters of blocks are not modelled here. -/
def popBlocks (height : Nat) (topoheight : TopoHeight) (count : Nat) (untilTopoHeight : TopoHeight) :
    Exec BlockchainError (Storage P) (Nat × TopoHeight × List (Hash × Transaction)) := do
  if topoheight < count then
    throw .notEnoughBlocks
  let s ← get
  let lowestTopo ← Exec.ofExcept (s.lowestTopoheight topoheight count untilTopoHeight)
  let tips := s.tips.filter (s.isBlockTopologicalOrdered ·)
  let r ← popLoop (s.prunedTopoheight.getD 0) lowestTopo untilTopoHeight topoheight
    { height, topoheight, tips, txs := [] }
  modify clearVersionedDataCaches
  modify (fun s => { s with tips := r.tips, topTopoheight := some r.topoheight, topHeight := some r.height })
  return (r.height, r.topoheight, r.txs)

end Stored

end Xelis.Storage
