import Xelis.Blockchain.BlockVerification
import Xelis.Blockchain.HeaderVerification
import Xelis.Blockchain.Tips

namespace Xelis.Blockchain

open Lib (Exec Halt IndexSet)

variable {P τ : Type} [RistrettoPoint P]

/-- The chain of a node: what it stores and remembers, and where it stands. -/
structure Blockchain (P : Type) where
  storage : Storage P := {}
  caches : DagCaches := {}
  height : Nat := 0
  topoheight : TopoHeight := 0
  stableHeight : Nat := 0
  stableTopoheight : TopoHeight := 0

/-- How a node is set up. The loops over the graph have `turns` turns. -/
structure Setup (P : Type) extends Node P where
  rules : HeaderRules
  threading : Threading
  txHash : Transaction → Hash
  turns : Nat

structure NewBlock extends Block where
  blockHash : Hash
  size : Nat
  currentTimestamp : TimestampMillis

/-- A program over the chain. -/
abbrev Insertion (P α : Type) := Exec (Halt (VerificationError BlockchainError)) (Blockchain P) α

namespace Insertion

omit [RistrettoPoint P] in
/-- A walk through the graph. -/
def onCaches {α : Type} (x : Exec (Halt BlockchainError) DagCaches α) : Insertion P α := fun c =>
  match x c.caches with
  | .ok a caches => .ok a { c with caches }
  | .error e caches => .error (e.map .state) { c with caches }

def load {α : Type} (f : Storage P → Except BlockchainError α) : Insertion P α := do
  Exec.attempt ((f (← get).storage).mapError .state)

def onStorage (f : Storage P → Storage P) : Insertion P PUnit := modify fun c => { c with storage := f c.storage }

end Insertion

open Insertion (onCaches load onStorage)

section Verification

/-- What is left to visit, and what was found. -/
structure TxsSearch where
  hashes : List Hash
  queue : List Hash
  processed : List Hash

/-- A block above the height gives its transactions, and its tips are visited. -/
def getAllTxsTurn (s : Storage P) (untilHeight : Nat) (executedOnly : Bool) (search : TxsSearch) :
    Exec (Halt BlockchainError) τ (TxsSearch ⊕ List Hash) :=
  match search.queue.getLast? with
  | none => return .inr search.hashes
  | some hash => do
    let search := { search with queue := search.queue.dropLast }
    let header ← Exec.attempt (s.getBlockHeaderByHash hash)
    if untilHeight ≤ header.height then
      let hashes := (header.txsHashes.filter fun tx => !executedOnly || s.isTxExecutedInBlock tx hash).foldl Storage.Tips.insert search.hashes
      return .inl (header.tips.foldl (fun search tip =>
        if search.processed.contains tip then search
        else { search with processed := search.processed ++ [tip], queue := Storage.Tips.insert search.queue tip }) { search with hashes })
    else return .inl search

def getAllTxsUntilHeight (turns : Nat) (s : Storage P) (untilHeight : Nat) (tips : List Hash) (executedOnly : Bool) :
    Exec (Halt BlockchainError) τ (List Hash) :=
  Lib.Loop.run (getAllTxsTurn s untilHeight executedOnly) turns { hashes := [], queue := tips, processed := [] }

/-- The transactions behind the tips, as far as they are asked for. -/
def parentsTxsOf (turns : Nat) (s : Storage P) (untilHeight : Nat) (tips : List Hash) (executedOnly : Bool) :
    Except (Halt BlockchainError) (Except BlockchainError (List Hash)) :=
  match (getAllTxsUntilHeight turns s untilHeight tips executedOnly : Exec (Halt BlockchainError) PUnit (List Hash)) ⟨⟩ with
  | .ok hashes _ => .ok (.ok hashes)
  | .error (.failed e) _ => .ok (.error e)
  | .error .spent _ => .error .spent

variable (setup : Setup P) (b : NewBlock)

def Blockchain.view (c : Blockchain P) : ChainView where
  currentTimestamp := b.currentTimestamp
  currentHeight := c.height
  stableHeight := c.stableHeight

def Setup.version : BlockVersion := getVersionAtHeight setup.rules.network b.header.height

def Blockchain.contextOf (c : Blockchain P) (parentsTxs : Except BlockchainError (List Hash)) : BlockContext P where
  storage := c.storage
  mainnet := setup.mainnet
  stableHeight := c.stableHeight
  stableTopoheight := c.stableTopoheight
  currentTopoheight := c.topoheight
  version := setup.version b
  blockHash := b.blockHash
  txHash := setup.txHash
  parentsTxs

def verifyBlockTransactions : Insertion P PUnit := do
  let hashesLen := b.header.txsHashes.length
  let txsLen := b.transactions.length
  if hashesLen ≠ txsLen then
    throw (.failed (.state (.invalidBlockTxs hashesLen txsLen)))
  if 2 ^ 16 - 1 < txsLen then
    throw (.failed (.state (.invalidBlockTxs (2 ^ 16 - 1) txsLen)))
  let c ← get
  match parentsTxsOf setup.turns c.storage c.stableHeight b.header.tips (!isV2Enabled (setup.version b)) with
  | .error e => throw (e.map .state)
  | .ok parentsTxs =>
    Exec.attempt (verifyTransactions setup.env.toProofs (c.contextOf setup b parentsTxs) setup.threading
      (b.transactions.zip b.header.txsHashes))

/-- The difficulty of the block and its covariance come back. -/
def verifyNewBlock : Insertion P (VarUint × VarUint) := do
  let c ← get
  let result ← onCaches (verifyNewHeader setup.rules (c.view b) setup.turns c.storage b.header b.blockHash b.size)
  verifyBlockTransactions setup b
  return result

end Verification

section Placement

variable (setup : Setup P) (b : NewBlock)

/-- Where the new order starts, and the blocks of it. -/
structure Plan where
  tips : List Hash
  bestTip : Hash
  base : Hash
  baseHeight : Nat
  baseTopoHeight : TopoHeight
  fullOrder : IndexSet Hash

def saveNewBlock (difficulty p : VarUint) : Insertion P PUnit :=
  onStorage fun s => (s.saveBlock b.header b.transactions difficulty p b.blockHash).addBlockExecutionToOrder b.blockHash

/-- The work behind the block, counted from the base of its tips. -/
def cumulativeDifficulty : Insertion P VarUint := do
  if b.header.tips.isEmpty then return GENESIS_BLOCK_DIFFICULTY
  else
    let s := (← get).storage
    let (base, baseHeight) ← onCaches (findCommonBase setup.turns s b.header.tips)
    let (_, score) ← onCaches (findTipWorkScore setup.turns s b.blockHash base baseHeight)
    return score

def planOrder : Insertion P Plan := do
  let s := (← get).storage
  let tips := b.header.tips.foldl Storage.Tips.remove (Storage.Tips.insert s.tips b.blockHash)
  let (base, baseHeight) ← onCaches (findCommonBase setup.turns s tips)
  let bestTip ← onCaches (findBestTip setup.turns s tips base baseHeight)
  let baseTopoHeight ← load (·.getTopoHeightForHash base)
  let fullOrder ← onCaches (generateFullOrder setup.turns s bestTip base baseHeight baseTopoHeight)
  return { tips, bestTip, base, baseHeight, baseTopoHeight, fullOrder }

/-- The block is stored with its difficulties, and the order behind the best tip is generated. -/
def placeNewBlock (difficulty p : VarUint) : Insertion P Plan := do
  saveNewBlock b difficulty p
  let score ← cumulativeDifficulty setup b
  onStorage (·.setCumulativeDifficultyForBlockHash b.blockHash score)
  planOrder setup b

end Placement

/-- What the loop over the old order carries: the part of the new order that is left to write, and how many blocks of it
stay where they are. -/
structure Cleaning (P : Type) where
  storage : Storage P
  order : List Hash
  skipped : Nat := 0
  isWritten : Bool
  orphanedTransactions : List Hash := []

def cleanTransaction (hash : Hash) (isOrphaned : Bool) (c : Cleaning P) (txHash : Hash) : Cleaning P :=
  if c.storage.isTxExecutedInBlock txHash hash then
    { c with
      storage := (c.storage.removeTxExecuted txHash).deleteContractOutputsForTx txHash
      orphanedTransactions :=
        if isOrphaned && !c.orphanedTransactions.contains txHash then c.orphanedTransactions ++ [txHash] else c.orphanedTransactions }
  else c

/-- The changes of a block are taken back. -/
def cleanBlock (topoheight : TopoHeight) (hash : Hash) : Exec BlockchainError (Cleaning P) PUnit := fun c =>
  match c.storage.getBlockHeaderByHash hash with
  | .error e => .error e c
  | .ok header =>
    let c := header.txsHashes.foldl (cleanTransaction hash (!c.order.contains hash)) c
    match Storage.deleteVersionedDataAtTopoheight topoheight c.storage with
    | .ok _ storage => .ok ⟨⟩ { c with storage }
    | .error e storage => .error e { c with storage }

def Cleaning.stays (c : Cleaning P) (hash : Hash) : Bool :=
  !c.isWritten && match c.order with
    | first :: _ => c.storage.isBlockTopologicalOrdered first && first == hash
    | [] => false

def cleanOrder : Nat → TopoHeight → Exec BlockchainError (Cleaning P) PUnit
  | 0, _ => pure ⟨⟩
  | n + 1, topoheight => do
    let c ← get
    let hash ← Exec.ofExcept (c.storage.getHashAtTopoHeight topoheight)
    if c.stays hash then set { c with order := c.order.tail, skipped := c.skipped + 1 }
    else
      set { c with isWritten := true }
      cleanBlock topoheight hash
    cleanOrder n (topoheight + 1)

def skipOrdered (s : Storage P) : TopoHeight → List Hash → TopoHeight × List Hash
  | topoheight, [] => (topoheight, [])
  | topoheight, hash :: order =>
    if s.isBlockTopologicalOrdered hash && s.topoByHash[hash]? == some topoheight then skipOrdered s (topoheight + 1) order
    else (topoheight, hash :: order)

section Reordering

variable (setup : Setup P) (b : NewBlock)

/-- The old order is taken back down to the first block that moves. -/
def cleanOldOrder (plan : Plan) : Insertion P (Cleaning P) := fun chain =>
  let start : Cleaning P :=
    { storage := chain.storage, order := plan.fullOrder.elems, isWritten := decide (plan.baseTopoHeight = 0) }
  match cleanOrder (chain.topoheight + 1 - plan.baseTopoHeight) plan.baseTopoHeight start with
  | .error e c => .error (.failed (.state e)) { chain with storage := c.storage }
  | .ok _ c =>
    let c := if c.isWritten then { c with storage := c.storage.clearVersionedDataCaches } else c
    .ok c { chain with storage := c.storage }

/-- The blocks from the first one that moves are ordered and executed. The last topoheight of the order comes back. -/
def writeNewOrder (plan : Plan) (c : Cleaning P) : Insertion P TopoHeight := fun chain =>
  let first := plan.baseTopoHeight + c.skipped
  let (start, order) :=
    if c.isWritten || b.header.tips.isEmpty then (first, c.order) else skipOrdered chain.storage first c.order
  let ordering : Ordering P := { storage := chain.storage, orphanedTransactions := c.orphanedTransactions }
  match orderFrom setup.toNode (setup.version b) plan.baseTopoHeight start order ordering with
  | .error e o => .error (.failed (.state e)) { chain with storage := o.storage }
  | .ok _ o => .ok (if c.order.isEmpty then 0 else first + c.order.length - 1) { chain with storage := o.storage }

def reorder (plan : Plan) : Insertion P TopoHeight := do
  let c ← cleanOldOrder plan
  writeNewOrder setup b plan c

end Reordering

section Finish

variable (setup : Setup P) (b : NewBlock)

/-- The tips that are not too far away from the ordered chain, nor too light. -/
def newTips (tips : List Hash) : Insertion P (List Hash) := do
  let chain ← get
  let near ← tips.filterM fun hash => onCaches (verifyDistanceFromMainchain setup.turns chain.storage hash chain.height)
  let bestTip ← load (findBestTipByCumulativeDifficulty · near)
  let valid ← near.filterM fun hash => if bestTip = hash then return false else load (validateTips · bestTip hash)
  return Storage.Tips.insert valid bestTip

/-- The chain gets longer, or its first block was replaced. -/
def extendTo (highestTopo : TopoHeight) : Insertion P PUnit := modify fun chain =>
  if chain.height = 0 ∨ chain.topoheight < highestTopo then
    { chain with storage := { chain.storage with topTopoheight := some highestTopo }, topoheight := highestTopo }
  else chain

def linkTransactions (plan : Plan) : Insertion P PUnit :=
  onStorage fun s =>
    if plan.fullOrder.elems.contains b.blockHash then s
    else b.header.txsHashes.foldl (fun s txHash => s.addBlockLinkedToTxIfNotPresent txHash b.blockHash) s

def raiseTo (height : Nat) : Insertion P PUnit := modify fun chain =>
  if chain.height = 0 ∨ chain.height < height then
    { chain with storage := { chain.storage with topHeight := some height }, height }
  else chain

def finishInsertion (plan : Plan) (highestTopo : TopoHeight) : Insertion P PUnit := do
  let _ ← load (·.getHeightForBlockHash plan.bestTip)
  let tips ← newTips setup plan.tips
  extendTo highestTopo
  linkTransactions b plan
  onStorage fun s => { s with tips }
  raiseTo b.header.height
  modify fun chain => { chain with stableHeight := plan.baseHeight, stableTopoheight := plan.baseTopoHeight }
  let _ ← load (getDifficultyAtTips setup.rules · tips)

end Finish

section Insertion

variable (setup : Setup P) (b : NewBlock)

def addNewBlock : Insertion P PUnit := do
  let (difficulty, p) ← verifyNewBlock setup b
  let plan ← placeNewBlock setup b difficulty p
  let highestTopo ← reorder setup b plan
  finishInsertion setup b plan highestTopo

/-- The chain that the genesis block is added to: the native asset is registered, and the topoheight is given. -/
def createGenesis (asset : Versioned AssetData) (hash : Hash) : Blockchain P :=
  { storage :=
      { (({} : Storage P).addAsset XELIS_ASSET 0 asset).setTopoHeightForBlock hash 0 with topHeight := some 0 } }

end Insertion

section Reward

variable {P : Type} (chain : Blockchain P)

def Blockchain.isSideBlock (hash : Hash) : Except BlockchainError Bool := isSideBlockInternal chain.storage hash chain.topoheight

def Blockchain.getBlockReward (hash : Hash) (pastSupply : Nat) (currentTopoheight : TopoHeight) : Except BlockchainError Nat := do
  let isSideBlock ← chain.isSideBlock hash
  if isSideBlock then
    let height ← chain.storage.getHeightForBlockHash hash
    let count ← countSideBlocks chain.storage hash height currentTopoheight
    return internalGetBlockReward pastSupply isSideBlock count
  else return internalGetBlockReward pastSupply isSideBlock 0

end Reward

end Xelis.Blockchain
