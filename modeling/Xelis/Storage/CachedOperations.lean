import Xelis.Storage.Caches

namespace Xelis.Storage

open Lib (Exec)

/-- The link and the type at the start of a stored balance. -/
instance balanceLinkSerializer : Serializer (Option UInt64 × BalanceType) where
  toBytes e := Serializer.toBytes e.1 ++ BalanceType.toBytes e.2
  fromBytes bytes := do
    let previous : Option UInt64 ← Serializer.fromBytes bytes
    match bytes.drop (if previous.isSome then 9 else 1) with
    | 0 :: _ => return (previous, .input)
    | 1 :: _ => return (previous, .output)
    | 2 :: _ => return (previous, .both)
    | [] => throw .invalidSize
    | _ => throw .invalidValue

/-- What is kept in versions, with a pointer to the last one. -/
inductive VersionedData where
  | balances
  | nonces
  | multisigs
  | contracts
  | contractData
  | contractBalances
  | assetsSupply
  | assets
  deriving DecidableEq

namespace VersionedData

open SledStorage

def pointers : VersionedData → IVec
  | .balances => BALANCES
  | .nonces => NONCES
  | .multisigs => MULTISIG
  | .contracts => CONTRACTS
  | .contractData => CONTRACTS_DATA
  | .contractBalances => CONTRACTS_BALANCES
  | .assetsSupply => ASSETS_SUPPLY
  | .assets => ASSETS

def versions : VersionedData → IVec
  | .balances => VERSIONED_BALANCES
  | .nonces => VERSIONED_NONCES
  | .multisigs => VERSIONED_MULTISIGS
  | .contracts => VERSIONED_CONTRACTS
  | .contractData => VERSIONED_CONTRACTS_DATA
  | .contractBalances => VERSIONED_CONTRACTS_BALANCES
  | .assetsSupply => VERSIONED_ASSETS_SUPPLY
  | .assets => VERSIONED_ASSETS

def context : VersionedData → DiskContext
  | .balances => .versionedBalance
  | .nonces => .versionedNonce
  | .multisigs => .versionedMultisig
  | .contracts => .versionedContract
  | .contractData => .versionedContractData
  | .contractBalances => .contractBalance
  | .assetsSupply => .assetSupply
  | .assets => .asset

end VersionedData

namespace CachedStorage

open SledStorage (EXTRA PRUNED_TOPOHEIGHT TIPS TOP_TOPO_HEIGHT TOP_HEIGHT BLOCKS_COUNT BLOCKS_EXECUTION_ORDER_COUNT
  TXS_EXECUTED BLOCKS_EXECUTION_ORDER BLOCKS BLOCKS_AT_HEIGHT TOPO_BY_HASH HASH_AT_TOPO DIFFICULTY_COVARIANCE VERSIONED_ASSETS
  ASSETS REWARDS SUPPLY BURNED_SUPPLY DIFFICULTY TX_BLOCKS BALANCES VERSIONED_BALANCES REGISTRATIONS REGISTRATIONS_PREFIXED
  CONTRACTS_OUTPUTS TRANSACTIONS heightBytes Counter.tree Counter.key)

def count (counter : Counter) : Cached UInt64 := do return (← get).storage.counters.get counter

def storeCount (counter : Counter) (count : UInt64) : Cached PUnit := do
  write (.count counter count)
  let _ ← insertIntoDisk EXTRA (Counter.key counter) (Serializer.toBytes count)

def insertCounted (counter : Counter) (key value : IVec) : Cached PUnit := do
  let previous ← insertIntoDisk (Counter.tree counter) key value
  if previous.isNone then
    storeCount counter ((← count counter) + 1)

def removeCounted (counter : Counter) (key : IVec) : Cached PUnit := do
  let previous ← removeFromDiskWithoutReading (Counter.tree counter) key
  if previous then
    storeCount counter ((← count counter) - 1)

def addAsset (asset : Hash) (topoheight : UInt64) (data : IVec) : Cached PUnit := do
  let previous ← insertIntoDisk ASSETS (hashToBytes asset) (Serializer.toBytes topoheight)
  let _ ← insertIntoDisk VERSIONED_ASSETS (Serializer.toBytes topoheight ++ hashToBytes asset) data
  if previous.isNone then
    storeCount .assets ((← count .assets) + 1)
  changeCaches (·.change .assets (·.put asset topoheight))

def addBlockExecutionToOrder (hash : Hash) : Cached PUnit := do
  let position := (← get).storage.counters.blocksExecutionCount
  write .nextExecution
  let _ ← insertIntoDisk BLOCKS_EXECUTION_ORDER (hashToBytes hash) (Serializer.toBytes position)
  let _ ← insertIntoDisk EXTRA BLOCKS_EXECUTION_ORDER_COUNT (Serializer.toBytes position)

def swapBlocksExecutionsPositions (left right : Hash) : Cached PUnit := do
  let leftPosition ← loadFromDisk UInt64 BLOCKS_EXECUTION_ORDER (hashToBytes left) .searchBlockPositionInOrder
  let rightPosition ← loadFromDisk UInt64 BLOCKS_EXECUTION_ORDER (hashToBytes right) .searchBlockPositionInOrder
  let _ ← insertIntoDisk BLOCKS_EXECUTION_ORDER (hashToBytes left) (Serializer.toBytes rightPosition)
  let _ ← insertIntoDisk BLOCKS_EXECUTION_ORDER (hashToBytes right) (Serializer.toBytes leftPosition)

def storeTips (tips : Tips) : Cached PUnit := do
  let _ ← insertIntoDisk EXTRA TIPS (Serializer.toBytes tips)
  write (.storeTips tips)

def setPrunedTopoheight (topoheight : UInt64) : Cached PUnit := do
  write (.setPrunedTopoheight topoheight)
  let _ ← insertIntoDisk EXTRA PRUNED_TOPOHEIGHT (Serializer.toBytes topoheight)

/-- The pruned topoheight in memory, past any commit point. -/
def getPrunedTopoheight (c : CachedStorage) : Option UInt64 := c.storage.cache.prunedTopoheight

def clearCaches : Cached PUnit := do
  changeCaches Caches.clear
  write .reload

section Blocks

variable [Serializer BlockHeader] [Serializer Transaction] [Serializer VarUint]

def getTransaction (hash : Hash) : Cached Transaction := getCacheableData .transactions hash .getTransaction

def getBlockHeaderByHash (hash : Hash) : Cached BlockHeader := getCacheableData .blocks hash .getBlockHeaderByHash

def getTopoHeightForHash (hash : Hash) : Cached UInt64 := getCacheableData .topoByHash hash .getTopoHeightForHash

def getHashAtTopoHeight (topoheight : UInt64) : Cached Hash :=
  getCacheableData .hashAtTopo topoheight (.getBlockHashAtTopoHeight topoheight.toNat)

/-- This cache is used whatever the commit point holds. -/
def getPastBlocksForBlockHash (hash : Hash) : Cached (List Hash) := do
  match (← get).caches.pastBlocks with
  | some cache =>
    match cache.peek hash with
    | some tips =>
      changeCaches (·.changePastBlocks (·.touch hash))
      return tips
    | none =>
      let block ← getBlockHeaderByHash hash
      changeCaches (·.changePastBlocks (·.put hash block.tips))
      return block.tips
  | none => return (← getBlockHeaderByHash hash).tips

def setTopoHeightForBlock (hash : Hash) (topoheight : UInt64) : Cached PUnit := do
  let _ ← insertIntoDisk TOPO_BY_HASH (hashToBytes hash) (Serializer.toBytes topoheight)
  let _ ← insertIntoDisk HASH_AT_TOPO (Serializer.toBytes topoheight) (hashToBytes hash)
  changeCaches (·.change .topoByHash (·.put hash topoheight))
  changeCaches (·.change .hashAtTopo (·.put topoheight hash))

def isBlockTopologicalOrdered (hash : Hash) : Cached Bool :=
  tryCatch (do
    let topoheight ← getTopoHeightForHash hash
    let hashAtTopo ← getHashAtTopoHeight topoheight
    return hashAtTopo == hash) fun _ => return false

def getBlocksAtHeight (height : Nat) : Cached Tips :=
  loadFromDisk Tips BLOCKS_AT_HEIGHT (heightBytes height) (.blocksAtHeight height)

def setBlocksAtHeight (tips : Tips) (height : Nat) : Cached PUnit := do
  let _ ← insertIntoDisk BLOCKS_AT_HEIGHT (heightBytes height) (Serializer.toBytes tips)

def addBlockHashAtHeight (hash : Hash) (height : Nat) : Cached PUnit := do
  let tips ← if (← get).storage.containsData BLOCKS_AT_HEIGHT (heightBytes height) then getBlocksAtHeight height else pure []
  setBlocksAtHeight (Tips.insert tips hash) height

def removeBlockHashAtHeight (hash : Hash) (height : Nat) : Cached PUnit := do
  let tips := Tips.remove (← getBlocksAtHeight height) hash
  if tips.isEmpty then
    let _ ← removeFromDiskWithoutReading BLOCKS_AT_HEIGHT (heightBytes height)
  else
    setBlocksAtHeight tips height

def saveTransaction (stored : UInt64) (e : Hash × Transaction) : Cached UInt64 := do
  if (← get).containsDataCached .transactions e.1 then
    return stored
  else
    let _ ← insertIntoDisk TRANSACTIONS (hashToBytes e.1) (Serializer.toBytes e.2)
    return stored + 1

def saveBlock (block : BlockHeader) (txs : List Transaction) (difficulty p : VarUint) (hash : Hash) : Cached PUnit := do
  let txsCount ← (block.txsHashes.zip txs).foldlM saveTransaction 0
  if txsCount > 0 then
    storeCount .transactions ((← count .transactions) + txsCount)
  insertCounted .blocks (hashToBytes hash) (Serializer.toBytes block)
  let _ ← insertIntoDisk DIFFICULTY (hashToBytes hash) (Serializer.toBytes difficulty)
  let _ ← insertIntoDisk DIFFICULTY_COVARIANCE (hashToBytes hash) (Serializer.toBytes p)
  addBlockHashAtHeight hash block.height
  changeCaches (·.change .blocks (·.put hash block))

def deleteBlockWithHash (hash : Hash) : Cached (BlockHeader × List Transaction) := do
  let header : BlockHeader ← deleteCacheableData .blocks hash
  storeCount .blocks ((← count .blocks) - 1)
  let _ ← removeFromDiskWithoutReading DIFFICULTY (hashToBytes hash)
  let _ ← removeFromDiskWithoutReading DIFFICULTY_COVARIANCE (hashToBytes hash)
  removeBlockHashAtHeight hash header.height
  let transactions ← header.txsHashes.mapM getTransaction
  return (header, transactions)

def deleteTransaction (hash : Hash) : Cached Transaction := do
  let _ ← deleteData Tips TX_BLOCKS (hashToBytes hash)
  deleteCacheableData .transactions hash

def deleteTxOfBlock (hash : Hash) (txs : List (Hash × Transaction)) (txHash : Hash) : Cached (List (Hash × Transaction)) := do
  let shouldDelete ← if (← get).storage.containsData TX_BLOCKS (hashToBytes txHash) then do
      let blocks ← deleteData Tips TX_BLOCKS (hashToBytes txHash)
      let blocks := Tips.remove blocks hash
      let _ ← insertIntoDisk TX_BLOCKS (hashToBytes txHash) (Serializer.toBytes blocks)
      pure blocks.isEmpty
    else pure true
  if (← get).storage.containsData TXS_EXECUTED (hashToBytes txHash) then
    let _ ← removeFromDiskWithoutReading TXS_EXECUTED (hashToBytes txHash)
    let _ ← removeFromDiskWithoutReading CONTRACTS_OUTPUTS (hashToBytes txHash)
  if shouldDelete && (← get).containsDataCached .transactions txHash then
    let tx : Transaction ← deleteCacheableData .transactions txHash
    return txs ++ [(txHash, tx)]
  else
    return txs

def deleteBlockAtTopoheight (topoheight : UInt64) : Cached (Hash × BlockHeader × List (Hash × Transaction)) := do
  let hash : Hash ← deleteCacheableData .hashAtTopo topoheight
  let _ ← removeFromDiskWithoutReading BLOCKS_EXECUTION_ORDER (hashToBytes hash)
  let _ ← deleteCacheableData .topoByHash hash
  let block : BlockHeader ← deleteCacheableData .blocks hash
  let _ ← deleteData UInt64 SUPPLY (Serializer.toBytes topoheight)
  let _ ← deleteData UInt64 BURNED_SUPPLY (Serializer.toBytes topoheight)
  let _ ← deleteData UInt64 REWARDS (Serializer.toBytes topoheight)
  let _ ← deleteData VarUint DIFFICULTY (hashToBytes hash)
  let _ ← deleteCacheableData .cumulativeDifficulty hash
  let txs ← block.txsHashes.foldlM (deleteTxOfBlock hash) []
  if (← get).storage.containsData BLOCKS_AT_HEIGHT (heightBytes block.height) then
    removeBlockHashAtHeight hash block.height
  changeCaches (·.changePastBlocks (·.pop hash))
  return (hash, block, txs)

end Blocks

def deleteVersionAt (pointers versions : IVec) (topoheight : UInt64) (prefixedKey : IVec) : Cached PUnit := do
  match ← removeFromDisk (Option UInt64) versions prefixedKey with
  | none => throw .corruptedData
  | some prevTopo =>
    let key := prefixedKey.drop 8
    match ← loadOptionalFromDisk UInt64 pointers key with
    | none => pure ⟨⟩
    | some topoPointer =>
      if topoPointer ≥ topoheight then
        match prevTopo with
        | some prevTopo =>
          let _ ← insertIntoDisk pointers key (Serializer.toBytes prevTopo)
        | none =>
          let _ ← removeFromDiskWithoutReading pointers key

def deleteVersionedTreeAtTopoheight (data : VersionedData) (topoheight : UInt64) : Cached PUnit := do
  ((← get).storage.scanPrefix data.versions (Serializer.toBytes topoheight)).forM
    (deleteVersionAt data.pointers data.versions topoheight)

def deleteVersionsAbove (versions key : IVec) (topoheight : UInt64) (context : DiskContext) :
    Nat → Option UInt64 → Cached (Option UInt64)
  | _, none => pure none
  | 0, some _ => throw .endlessChain
  | fuel + 1, some prevTopo =>
    if prevTopo ≤ topoheight then pure (some prevTopo)
    else do
      match ← removeFromDisk (Option UInt64) versions (SledStorage.getVersionedKey key prevTopo) with
      | none => throw (.notFoundOnDisk context)
      | some prevVersion => deleteVersionsAbove versions key topoheight context fuel prevVersion

def deletePointerAbove (pointers versions : IVec) (topoheight : UInt64) (context : DiskContext) (e : IVec × IVec) :
    Cached PUnit := do
  let topo : UInt64 ← Exec.ofExcept ((Serializer.fromBytes e.2).mapError .errorOnReader)
  if topo > topoheight then
    let fuel := ((← get).storage.iterKeys versions).length
    match ← removeFromDisk (Option UInt64) versions (SledStorage.getVersionedKey e.1 topo) with
    | none => throw (.notFoundOnDisk context)
    | some prevVersion =>
      match ← deleteVersionsAbove versions e.1 topoheight context fuel prevVersion with
      | some topo =>
        let _ ← insertIntoDisk pointers e.1 (Serializer.toBytes topo)
      | none =>
        let _ ← removeFromDiskInternal pointers e.1

def deleteVersionedTreeAboveTopoheight (data : VersionedData) (topoheight : UInt64) : Cached PUnit := do
  ((← get).storage.iter data.pointers).forM (deletePointerAbove data.pointers data.versions topoheight data.context)

/-- The version above the threshold is written to the tree itself, whatever commit point is open. -/
def deleteVersionsBelow (versions key : IVec) (topoheight : UInt64) (context : DiskContext) :
    Nat → Bool → Option UInt64 → Cached PUnit
  | _, _, none => pure ⟨⟩
  | 0, _, some _ => throw .endlessChain
  | fuel + 1, true, some prevTopo => do
    let prevVersion ← removeFromDisk UInt64 versions (SledStorage.getVersionedKey key prevTopo)
    deleteVersionsBelow versions key topoheight context fuel true prevVersion
  | fuel + 1, false, some prevTopo => do
    let prevVersion ← loadFromDisk (Option UInt64) versions (SledStorage.getVersionedKey key prevTopo) context
    if prevVersion.any (· < topoheight) then
      let data ← loadFromDisk NoTransform versions (SledStorage.getVersionedKey key prevTopo) context
      write (.direct versions (SledStorage.getVersionedKey key prevTopo) (0 :: data.drop 9))
      deleteVersionsBelow versions key topoheight context fuel true prevVersion
    else
      deleteVersionsBelow versions key topoheight context fuel false prevVersion

def deletePointerBelow (versions : IVec) (topoheight : UInt64) (context : DiskContext) (e : IVec × IVec) : Cached PUnit := do
  let topo : UInt64 ← Exec.ofExcept ((Serializer.fromBytes e.2).mapError .errorOnReader)
  let prevVersion ← loadFromDisk (Option UInt64) versions (SledStorage.getVersionedKey e.1 topo) context
  let fuel := ((← get).storage.iterKeys versions).length
  deleteVersionsBelow versions e.1 topoheight context fuel (topo < topoheight) prevVersion

def deleteKeyBelow (versions : IVec) (topoheight : UInt64) (key : IVec) : Cached PUnit := do
  let topo : UInt64 ← Exec.ofExcept ((Serializer.fromBytes (key.take 8)).mapError .errorOnReader)
  if topo < topoheight then
    let _ ← removeFromDiskWithoutReading versions key

def deleteVersionedTreeBelowTopoheight (data : VersionedData) (topoheight : UInt64) (keepLast : Bool) : Cached PUnit := do
  if keepLast then
    ((← get).storage.iter data.pointers).forM (deletePointerBelow data.versions topoheight data.context)
  else
    ((← get).storage.iterKeys data.versions).forM (deleteKeyBelow data.versions topoheight)

def deleteBalancesBelow (key : IVec) : Nat → Bool → Option UInt64 → Cached PUnit
  | _, _, none => pure ⟨⟩
  | 0, _, some _ => throw .endlessChain
  | fuel + 1, true, some prevTopo => do
    let prevVersion ← removeFromDisk UInt64 VERSIONED_BALANCES (SledStorage.getVersionedKey key prevTopo)
    deleteBalancesBelow key fuel true prevVersion
  | fuel + 1, false, some prevTopo => do
    let (prevVersion, ty) ← loadFromDisk (Option UInt64 × BalanceType) VERSIONED_BALANCES
      (SledStorage.getVersionedKey key prevTopo) (.balanceAtTopoHeight prevTopo.toNat)
    deleteBalancesBelow key fuel ty.containsOutput prevVersion

def deleteBalancePointerBelow (e : IVec × IVec) : Cached PUnit := do
  let topo : UInt64 ← Exec.ofExcept ((Serializer.fromBytes e.2).mapError .errorOnReader)
  let prevVersion ← loadFromDisk (Option UInt64) VERSIONED_BALANCES (SledStorage.getVersionedKey e.1 topo)
    (.balanceAtTopoHeight topo.toNat)
  let fuel := ((← get).storage.iterKeys VERSIONED_BALANCES).length
  deleteBalancesBelow e.1 fuel false prevVersion

def deleteVersionedBalancesBelowTopoheight (topoheight : UInt64) (keepLast : Bool) : Cached PUnit := do
  if keepLast then
    ((← get).storage.iter BALANCES).forM deleteBalancePointerBelow
  else
    deleteVersionedTreeBelowTopoheight .balances topoheight keepLast

def deleteRegistrationAt (prefixedKey : IVec) : Cached PUnit := do
  let _ ← removeFromDiskWithoutReading REGISTRATIONS_PREFIXED prefixedKey
  let _ ← removeFromDiskWithoutReading REGISTRATIONS ((prefixedKey.drop 8).take 32)

def deleteVersionedRegistrationsAtTopoheight (topoheight : UInt64) : Cached PUnit := do
  ((← get).storage.scanPrefix REGISTRATIONS_PREFIXED (Serializer.toBytes topoheight)).forM deleteRegistrationAt

def deleteRegistrationAbove (topoheight : UInt64) (prefixedKey : IVec) : Cached PUnit := do
  let topo : UInt64 ← Exec.ofExcept ((Serializer.fromBytes (prefixedKey.take 8)).mapError .errorOnReader)
  if topo > topoheight then
    let _ ← removeFromDiskWithoutReading REGISTRATIONS_PREFIXED prefixedKey
    let _ ← removeFromDiskWithoutReading REGISTRATIONS (prefixedKey.drop 8)

def deleteVersionedRegistrationsAboveTopoheight (topoheight : UInt64) : Cached PUnit := do
  ((← get).storage.iterKeys REGISTRATIONS_PREFIXED).forM (deleteRegistrationAbove topoheight)

def deleteOrderAbove (topoheight : UInt64) (e : IVec × IVec) : Cached PUnit := do
  let topo : UInt64 ← Exec.ofExcept ((Serializer.fromBytes e.1).mapError .errorOnReader)
  if topo > topoheight then
    let _ : Hash ← Exec.ofExcept ((Serializer.fromBytes e.2).mapError .errorOnReader)
    let _ ← removeFromDiskWithoutReading HASH_AT_TOPO e.1
    let _ ← removeFromDiskWithoutReading TOPO_BY_HASH e.2

def deleteDagOrderAboveTopoheight (topoheight : UInt64) : Cached PUnit := do
  ((← get).storage.iter HASH_AT_TOPO).forM (deleteOrderAbove topoheight)

def clearVersionedDataCaches : Cached PUnit := changeCaches Caches.clearVersionedData

def deleteVersionedDataAtTopoheight (topoheight : UInt64) : Cached PUnit := do
  deleteVersionedTreeAtTopoheight .balances topoheight
  deleteVersionedTreeAtTopoheight .nonces topoheight
  deleteVersionedTreeAtTopoheight .multisigs topoheight
  deleteVersionedRegistrationsAtTopoheight topoheight
  deleteVersionedTreeAtTopoheight .contracts topoheight
  deleteVersionedTreeAtTopoheight .contractData topoheight
  deleteVersionedTreeAtTopoheight .assetsSupply topoheight
  if topoheight > 0 then
    deleteVersionedTreeAtTopoheight .assets topoheight

def deleteVersionedDataBelowTopoheight (topoheight : UInt64) (keepLast : Bool) : Cached PUnit := do
  deleteVersionedBalancesBelowTopoheight topoheight keepLast
  deleteVersionedTreeBelowTopoheight .nonces topoheight keepLast
  deleteVersionedTreeBelowTopoheight .multisigs topoheight keepLast
  deleteVersionedTreeBelowTopoheight .contracts topoheight keepLast
  deleteVersionedTreeBelowTopoheight .contractData topoheight keepLast
  deleteVersionedTreeBelowTopoheight .assetsSupply topoheight keepLast
  deleteVersionedTreeBelowTopoheight .assets topoheight keepLast
  clearVersionedDataCaches

def deleteVersionedDataAboveTopoheight (topoheight : UInt64) : Cached PUnit := do
  deleteVersionedTreeAboveTopoheight .balances topoheight
  deleteVersionedTreeAboveTopoheight .nonces topoheight
  deleteVersionedTreeAboveTopoheight .multisigs topoheight
  deleteVersionedRegistrationsAboveTopoheight topoheight
  deleteVersionedTreeAboveTopoheight .contracts topoheight
  deleteVersionedTreeAboveTopoheight .contractData topoheight
  deleteVersionedTreeAboveTopoheight .assetsSupply topoheight
  deleteVersionedTreeAboveTopoheight .assets topoheight
  deleteDagOrderAboveTopoheight topoheight
  clearVersionedDataCaches

section Rewind

variable [Serializer BlockHeader] [Serializer Transaction] [Serializer VarUint]

/-- Going down to a block that is alone at its height. -/
def searchSyncBlock (prunedTopoheight : TopoHeight) : TopoHeight → Cached TopoHeight
  | 0 => pure 0
  | lowestTopo + 1 =>
    if prunedTopoheight < lowestTopo + 1 then do
      let hash ← getHashAtTopoHeight (UInt64.ofNat (lowestTopo + 1))
      let header ← getBlockHeaderByHash hash
      let blocksAtHeight ← getBlocksAtHeight header.height
      if blocksAtHeight.length = 1 then return lowestTopo + 1
      else searchSyncBlock prunedTopoheight lowestTopo
    else pure (lowestTopo + 1)

def lowestTopoheight (prunedTopoheight topoheight : TopoHeight) (count : Nat) (untilTopoHeight : TopoHeight) :
    Cached TopoHeight := do
  let lowestTopo ← searchSyncBlock prunedTopoheight (topoheight - count)
  let safetyPrunedTopoheight := prunedTopoheight + PRUNE_SAFETY_LIMIT
  if prunedTopoheight ≠ 0 ∧ lowestTopo ≤ safetyPrunedTopoheight ∧ untilTopoHeight ≠ 0 then return safetyPrunedTopoheight
  else return lowestTopo

def popLoop (prunedTopoheight lowestTopo untilTopoHeight : TopoHeight) :
    TopoHeight → SledStorage.Rewound → Cached SledStorage.Rewound
  | 0, r => pure r
  | topoheight + 1, r =>
    if topoheight + 1 ≤ lowestTopo ∨ topoheight + 1 ≤ untilTopoHeight then pure r
    else do
      let (hash, block, blockTxs) ← deleteBlockAtTopoheight (UInt64.ofNat (topoheight + 1))
      deleteVersionedDataAtTopoheight (UInt64.ofNat (topoheight + 1))
      let txs := r.txs ++ blockTxs
      let tips := block.tips.foldl Tips.insert (Tips.remove r.tips hash)
      if topoheight + 1 ≤ prunedTopoheight then
        let genesis ← getHashAtTopoHeight 0
        let _ ← removeFromDiskWithoutReading EXTRA PRUNED_TOPOHEIGHT
        write .forgetPrunedTopoheight
        return { height := 0, topoheight := 0, tips := [genesis], txs, done := r.done }
      else
        let height := if block.height < r.height then block.height else r.height
        popLoop prunedTopoheight lowestTopo untilTopoHeight topoheight
          { height, topoheight, tips, txs, done := r.done + 1 }

/-- The tips without the blocks that have no place in the order. -/
def orderedTips (tips : Tips) : Cached Tips :=
  tips.foldlM (fun kept tip => do if ← isBlockTopologicalOrdered tip then return kept else return Tips.remove kept tip) tips

def popBlocks (height : Nat) (topoheight : TopoHeight) (blocksCount : Nat) (untilTopoHeight : TopoHeight) :
    Cached (Nat × TopoHeight × List (Hash × Transaction)) := do
  if topoheight < blocksCount then
    throw .notEnoughBlocks
  let prunedTopoheight := ((← get).getPrunedTopoheight.map UInt64.toNat).getD 0
  let lowestTopo ← lowestTopoheight prunedTopoheight topoheight blocksCount untilTopoHeight
  let tips ← orderedTips (← get).storage.counters.tipsCache
  let r ← popLoop prunedTopoheight lowestTopo untilTopoHeight topoheight { height, topoheight, tips, txs := [], done := 0 }
  clearCaches
  storeTips r.tips
  let _ ← insertIntoDisk EXTRA TOP_TOPO_HEIGHT (heightBytes r.topoheight)
  let _ ← insertIntoDisk EXTRA TOP_HEIGHT (heightBytes r.height)
  let _ ← insertIntoDisk EXTRA BLOCKS_COUNT (Serializer.toBytes ((← count .blocks) - r.done))
  return (r.height, r.topoheight, r.txs)

end Rewind

end CachedStorage

end Xelis.Storage
