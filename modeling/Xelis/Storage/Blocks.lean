import Xelis.Storage.Storage

namespace Xelis.Storage

open Lib (FiniteMap)

variable {P : Type} (s : Storage P)

def isTxExecutedInABlock (tx : Hash) : Bool := s.txsExecuted.contains tx

def isTxExecutedInBlock (tx block : Hash) : Bool := s.txsExecuted[tx]? == some block

def setTxExecutedInBlock (tx block : Hash) : Storage P :=
  { s with txsExecuted := s.txsExecuted.insert tx block }

def removeTxExecuted (tx : Hash) : Storage P := { s with txsExecuted := s.txsExecuted.erase tx }

def addBlockLinkedToTxIfNotPresent (tx block : Hash) : Storage P :=
  let hashes := s.txBlocks[tx]?.getD []
  if hashes.contains block then s else { s with txBlocks := s.txBlocks.insert tx (hashes ++ [block]) }

theorem addBlockLinkedToTxIfNotPresent_eq (tx block : Hash) :
    ∃ blocks, s.addBlockLinkedToTxIfNotPresent tx block = { s with txBlocks := blocks } := by
  unfold addBlockLinkedToTxIfNotPresent
  dsimp only
  split
  · exact ⟨_, rfl⟩
  · exact ⟨_, rfl⟩

def getBlockRewardAtTopoHeight (topoheight : TopoHeight) : Except BlockchainError Nat :=
  match s.rewards[topoheight]? with
  | some reward => .ok reward
  | none => .error (.notFoundOnDisk (.blockRewardAtTopoHeight topoheight))

def getSupplyAtTopoHeight (topoheight : TopoHeight) : Except BlockchainError Nat :=
  match s.supply[topoheight]? with
  | some supply => .ok supply
  | none => .error (.notFoundOnDisk (.supplyAtTopoHeight topoheight))

def getBurnedSupplyAtTopoHeight (topoheight : TopoHeight) : Except BlockchainError Nat :=
  match s.burnedSupply[topoheight]? with
  | some supply => .ok supply
  | none => .error (.notFoundOnDisk (.burnedSupplyAtTopoHeight topoheight))

def setSupplyAtTopoHeight (topoheight : TopoHeight) (supply : Nat) : Storage P :=
  { s with supply := s.supply.insert topoheight supply }

def setBlockRewardAtTopoHeight (topoheight : TopoHeight) (reward : Nat) : Storage P :=
  { s with rewards := s.rewards.insert topoheight reward }

def hasBlockWithHash (hash : Hash) : Bool := s.blocks.contains hash

def getBlockHeaderByHash (hash : Hash) : Except BlockchainError BlockHeader :=
  match s.blocks[hash]? with
  | some header => .ok header
  | none => .error (.notFoundOnDisk .getBlockHeaderByHash)

def getTransaction (hash : Hash) : Except BlockchainError Transaction :=
  match s.transactions[hash]? with
  | some tx => .ok tx
  | none => .error (.notFoundOnDisk .getTransaction)

def getBlockByHash (hash : Hash) : Except BlockchainError Block := do
  let header ← s.getBlockHeaderByHash hash
  let transactions ← header.txsHashes.mapM s.getTransaction
  return { header, transactions }

def getHeightForBlockHash (hash : Hash) : Except BlockchainError Nat := (s.getBlockHeaderByHash hash).map (·.height)

def getTimestampForBlockHash (hash : Hash) : Except BlockchainError TimestampMillis :=
  (s.getBlockHeaderByHash hash).map (·.timestamp)

def getPastBlocksForBlockHash (hash : Hash) : Except BlockchainError (List Hash) :=
  (s.getBlockHeaderByHash hash).map (·.tips)

def getDifficultyForBlockHash (hash : Hash) : Except BlockchainError Nat :=
  match s.difficulty[hash]? with
  | some difficulty => .ok difficulty
  | none => .error (.notFoundOnDisk .difficultyForBlockHash)

def getCumulativeDifficultyForBlockHash (hash : Hash) : Except BlockchainError Nat :=
  match s.cumulativeDifficulty[hash]? with
  | some difficulty => .ok difficulty
  | none => .error (.notFoundOnDisk .cumulativeDifficultyForBlockHash)

def getEstimatedCovarianceForBlockHash (hash : Hash) : Except BlockchainError Nat :=
  match s.difficultyCovariance[hash]? with
  | some p => .ok p
  | none => .error (.notFoundOnDisk .estimatedCovarianceForBlockHash)

def setCumulativeDifficultyForBlockHash (hash : Hash) (difficulty : Nat) : Storage P :=
  { s with cumulativeDifficulty := s.cumulativeDifficulty.insert hash difficulty }

def getBlocksAtHeight (height : Nat) : Except BlockchainError (List Hash) :=
  match s.blocksAtHeight[height]? with
  | some hashes => .ok hashes
  | none => .error (.notFoundOnDisk (.blocksAtHeight height))

def addBlockHashAtHeight (hash : Hash) (height : Nat) : Storage P :=
  let hashes := s.blocksAtHeight[height]?.getD []
  let hashes := if hashes.contains hash then hashes else hashes ++ [hash]
  { s with blocksAtHeight := s.blocksAtHeight.insert height hashes }

/-- Transactions that are known already are kept as they are. -/
def saveTransactions (txs : List (Hash × Transaction)) : Storage P :=
  let save (saved : FiniteMap Hash Transaction) (e : Hash × Transaction) :=
    if saved.contains e.1 then saved else saved.insert e.1 e.2
  { s with transactions := txs.foldl save s.transactions }

def saveBlock (block : BlockHeader) (txs : List Transaction) (difficulty p : Nat) (hash : Hash) : Storage P :=
  let s := s.saveTransactions (block.txsHashes.zip txs)
  let s := { s with
    blocks := s.blocks.insert hash block
    difficulty := s.difficulty.insert hash difficulty
    difficultyCovariance := s.difficultyCovariance.insert hash p }
  s.addBlockHashAtHeight hash block.height

def addBlockExecutionToOrder (hash : Hash) : Storage P :=
  { s with
    blocksExecutionOrder := s.blocksExecutionOrder.insert hash s.blocksExecutionCount
    blocksExecutionCount := s.blocksExecutionCount + 1 }

def getTopoHeightForHash (hash : Hash) : Except BlockchainError TopoHeight :=
  match s.topoByHash[hash]? with
  | some topoheight => .ok topoheight
  | none => .error (.notFoundOnDisk .getTopoHeightForHash)

def getHashAtTopoHeight (topoheight : TopoHeight) : Except BlockchainError Hash :=
  match s.hashAtTopo[topoheight]? with
  | some hash => .ok hash
  | none => .error (.notFoundOnDisk (.getBlockHashAtTopoHeight topoheight))

def getTopTopoheight : Except BlockchainError TopoHeight :=
  match s.topTopoheight with
  | some topoheight => .ok topoheight
  | none => .error (.notFoundOnDisk .topTopoHeight)

def getTopBlockHash : Except BlockchainError Hash := do s.getHashAtTopoHeight (← s.getTopTopoheight)

end Xelis.Storage
