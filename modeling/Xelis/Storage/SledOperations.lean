import Xelis.Storage.Pruning
import Xelis.Storage.Rewind
import Xelis.Storage.Snapshot

namespace Xelis.Storage

open Lib (Exec)

/-- Numbers of variable size, such as difficulties. -/
abbrev VarUint := Nat

instance hashSerializer : Serializer Hash where
  toBytes := hashToBytes
  fromBytes bytes := if bytes.length < 32 then .error .invalidSize else .ok (hashOfBytes (bytes.take 32))

/-- A byte tells whether a value follows. -/
instance optionSerializer {T : Type} [Serializer T] : Serializer (Option T) where
  toBytes
    | none => [0]
    | some value => 1 :: Serializer.toBytes value
  fromBytes
    | [] => .error .invalidSize
    | 0 :: _ => .ok none
    | 1 :: bytes => (Serializer.fromBytes bytes).map some
    | _ => .error .invalidValue

/-- Bytes that are read and written as they are. -/
instance noTransformSerializer : Serializer NoTransform where
  toBytes := id
  fromBytes bytes := .ok bytes

inductive Counter where
  | assets
  | accounts
  | transactions
  | blocks
  | contracts
  deriving DecidableEq

namespace CounterCache

def get (cache : CounterCache) : Counter → UInt64
  | .assets => cache.assetsCount
  | .accounts => cache.accountsCount
  | .transactions => cache.transactionsCount
  | .blocks => cache.blocksCount
  | .contracts => cache.contractsCount

def set (cache : CounterCache) (counter : Counter) (count : UInt64) : CounterCache :=
  match counter with
  | .assets => { cache with assetsCount := count }
  | .accounts => { cache with accountsCount := count }
  | .transactions => { cache with transactionsCount := count }
  | .blocks => { cache with blocksCount := count }
  | .contracts => { cache with contractsCount := count }

end CounterCache

namespace SledStorage

def TRANSACTIONS : IVec := "transactions".toUTF8.toList
def TXS_EXECUTED : IVec := "txs_executed".toUTF8.toList
def BLOCKS_EXECUTION_ORDER : IVec := "blocks_execution_order".toUTF8.toList
def BLOCKS : IVec := "blocks".toUTF8.toList
def BLOCKS_AT_HEIGHT : IVec := "blocks_at_height".toUTF8.toList
def TOPO_BY_HASH : IVec := "topo_at_hash".toUTF8.toList
def HASH_AT_TOPO : IVec := "hash_at_topo".toUTF8.toList
def CUMULATIVE_DIFFICULTY : IVec := "cumulative_difficulty".toUTF8.toList
def DIFFICULTY_COVARIANCE : IVec := "difficulty_covariance".toUTF8.toList
def ASSETS : IVec := "assets".toUTF8.toList
def VERSIONED_ASSETS : IVec := "versioned_assets".toUTF8.toList
def NONCES : IVec := "nonces".toUTF8.toList
def VERSIONED_NONCES : IVec := "versioned_nonces".toUTF8.toList
def REWARDS : IVec := "rewards".toUTF8.toList
def SUPPLY : IVec := "supply".toUTF8.toList
def BURNED_SUPPLY : IVec := "burned_supply".toUTF8.toList
def DIFFICULTY : IVec := "difficulty".toUTF8.toList
def TX_BLOCKS : IVec := "tx_blocks".toUTF8.toList
def BALANCES : IVec := "balances".toUTF8.toList
def VERSIONED_BALANCES : IVec := "versioned_balances".toUTF8.toList
def MULTISIG : IVec := "multisig".toUTF8.toList
def VERSIONED_MULTISIGS : IVec := "versioned_multisig".toUTF8.toList
def REGISTRATIONS : IVec := "registrations".toUTF8.toList
def REGISTRATIONS_PREFIXED : IVec := "registrations_prefixed".toUTF8.toList
def CONTRACTS : IVec := "contracts".toUTF8.toList
def VERSIONED_CONTRACTS : IVec := "versioned_contracts".toUTF8.toList
def CONTRACTS_DATA : IVec := "contracts_data".toUTF8.toList
def VERSIONED_CONTRACTS_DATA : IVec := "versioned_contracts_data".toUTF8.toList
def CONTRACTS_BALANCES : IVec := "contracts_balances".toUTF8.toList
def VERSIONED_CONTRACTS_BALANCES : IVec := "versioned_contracts_balances".toUTF8.toList
def CONTRACTS_OUTPUTS : IVec := "contracts_outputs".toUTF8.toList
def ASSETS_SUPPLY : IVec := "assets_supply".toUTF8.toList
def VERSIONED_ASSETS_SUPPLY : IVec := "versioned_assets_supply".toUTF8.toList
def TOP_TOPO_HEIGHT : IVec := "TOPO".toUTF8.toList
def TOP_HEIGHT : IVec := "TOPH".toUTF8.toList

/-- A program over the storage. What it did before an error stays. -/
abbrev Disk := Exec BlockchainError SledStorage

def insertDisk (tree key value : IVec) : Disk (Option IVec) := fun s =>
  let (previous, s) := s.insertIntoDisk tree key value
  .ok previous s

def removeFromDiskWithoutReading (tree key : IVec) : Disk Bool := fun s =>
  let (previous, s) := s.removeFromDiskInternal tree key
  .ok previous.isSome s

def removeFromDisk (T : Type) [Serializer T] (tree key : IVec) : Disk (Option T) := fun s =>
  match s.removeFromDiskInternal tree key with
  | (none, s) => .ok none s
  | (some bytes, s) =>
    match Serializer.fromBytes bytes with
    | .ok value => .ok (some value) s
    | .error e => .error (.errorOnReader e) s

def deleteCacheableData (T : Type) [Serializer T] (tree key : IVec) : Disk T := do
  match ← removeFromDisk T tree key with
  | some value => return value
  | none => throw (.notFoundOnDisk .deleteData)

def loadDisk (T : Type) [Serializer T] (tree key : IVec) (context : DiskContext) : Disk T := do
  Exec.ofExcept ((← get).loadFromDisk T tree key context)

def loadOptionalDisk (T : Type) [Serializer T] (tree key : IVec) : Disk (Option T) := do
  Exec.ofExcept ((← get).loadOptionalFromDiskInternal T tree key)

def heightBytes (n : Nat) : IVec := Serializer.toBytes (UInt64.ofNat n)

def Counter.tree : Counter → IVec
  | .assets => ASSETS
  | .accounts => NONCES
  | .transactions => TRANSACTIONS
  | .blocks => BLOCKS
  | .contracts => CONTRACTS

/-- Where a counter is kept on disk. -/
def Counter.key : Counter → IVec
  | .assets => ASSETS_COUNT
  | .accounts => ACCOUNTS_COUNT
  | .transactions => TXS_COUNT
  | .blocks => BLOCKS_COUNT
  | .contracts => CONTRACTS_COUNT

/-- The counters in use: those of the commit point if one is open. -/
def counters (s : SledStorage) : CounterCache :=
  match s.snapshot with
  | some snapshot => snapshot.cache
  | none => s.cache

def mapCounters (f : CounterCache → CounterCache) (s : SledStorage) : SledStorage :=
  match s.snapshot with
  | some snapshot => { s with snapshot := some { snapshot with cache := f snapshot.cache } }
  | none => { s with cache := f s.cache }

def count (counter : Counter) : Disk UInt64 := do return (← get).counters.get counter

def storeCount (counter : Counter) (count : UInt64) : Disk PUnit := do
  modify (mapCounters (·.set counter count))
  let _ ← insertDisk EXTRA (Counter.key counter) (Serializer.toBytes count)

def insertCounted (counter : Counter) (key value : IVec) : Disk PUnit := do
  let previous ← insertDisk (Counter.tree counter) key value
  if previous.isNone then
    storeCount counter ((← count counter) + 1)

def removeCounted (counter : Counter) (key : IVec) : Disk PUnit := do
  let previous ← removeFromDiskWithoutReading (Counter.tree counter) key
  if previous then
    storeCount counter ((← count counter) - 1)

def setLastTopoheightForNonce (key : PublicKey) (topoheight : TopoHeight) : Disk PUnit :=
  insertCounted .accounts (hashToBytes key) (heightBytes topoheight)

def deleteLastTopoheightForNonce (key : PublicKey) : Disk PUnit := removeCounted .accounts (hashToBytes key)

def setLastTopoheightForContract (hash : Hash) (topoheight : TopoHeight) : Disk PUnit :=
  insertCounted .contracts (hashToBytes hash) (heightBytes topoheight)

def deleteLastTopoheightForContract (hash : Hash) : Disk PUnit := removeCounted .contracts (hashToBytes hash)

def addAsset (asset : Hash) (topoheight : TopoHeight) (data : IVec) : Disk PUnit := do
  let previous ← insertDisk ASSETS (hashToBytes asset) (heightBytes topoheight)
  let _ ← insertDisk VERSIONED_ASSETS (heightBytes topoheight ++ hashToBytes asset) data
  if previous.isNone then
    storeCount .assets ((← count .assets) + 1)

def addBlockExecutionToOrder (hash : Hash) : Disk PUnit := do
  let position := (← get).counters.blocksExecutionCount
  modify (mapCounters (fun cache => { cache with blocksExecutionCount := cache.blocksExecutionCount + 1 }))
  let _ ← insertDisk BLOCKS_EXECUTION_ORDER (hashToBytes hash) (Serializer.toBytes position)
  let _ ← insertDisk EXTRA BLOCKS_EXECUTION_ORDER_COUNT (Serializer.toBytes position)

def swapBlocksExecutionsPositions (left right : Hash) : Disk PUnit := do
  let leftPosition ← loadDisk UInt64 BLOCKS_EXECUTION_ORDER (hashToBytes left) .searchBlockPositionInOrder
  let rightPosition ← loadDisk UInt64 BLOCKS_EXECUTION_ORDER (hashToBytes right) .searchBlockPositionInOrder
  let _ ← insertDisk BLOCKS_EXECUTION_ORDER (hashToBytes left) (Serializer.toBytes rightPosition)
  let _ ← insertDisk BLOCKS_EXECUTION_ORDER (hashToBytes right) (Serializer.toBytes leftPosition)

section Blocks

variable [Serializer BlockHeader] [Serializer Transaction] [Serializer VarUint]

def setBlocksAtHeight (tips : Tips) (height : Nat) : Disk PUnit := do
  let _ ← insertDisk BLOCKS_AT_HEIGHT (heightBytes height) (Serializer.toBytes tips)

def getBlocksAtHeight (height : Nat) : Disk Tips :=
  loadDisk Tips BLOCKS_AT_HEIGHT (heightBytes height) (.blocksAtHeight height)

def addBlockHashAtHeight (hash : Hash) (height : Nat) : Disk PUnit := do
  let tips ← if (← get).containsData BLOCKS_AT_HEIGHT (heightBytes height) then getBlocksAtHeight height else pure []
  setBlocksAtHeight (Tips.insert tips hash) height

def removeBlockHashAtHeight (hash : Hash) (height : Nat) : Disk PUnit := do
  let tips := Tips.remove (← getBlocksAtHeight height) hash
  if tips.isEmpty then
    let _ ← removeFromDiskWithoutReading BLOCKS_AT_HEIGHT (heightBytes height)
  else
    setBlocksAtHeight tips height

def saveTransaction (stored : UInt64) (e : Hash × Transaction) : Disk UInt64 := do
  if (← get).containsData TRANSACTIONS (hashToBytes e.1) then
    return stored
  else
    let _ ← insertDisk TRANSACTIONS (hashToBytes e.1) (Serializer.toBytes e.2)
    return stored + 1

def saveBlock (block : BlockHeader) (txs : List Transaction) (difficulty p : VarUint) (hash : Hash) : Disk PUnit := do
  let txsCount ← (block.txsHashes.zip txs).foldlM saveTransaction 0
  if txsCount > 0 then
    storeCount .transactions ((← count .transactions) + txsCount)
  insertCounted .blocks (hashToBytes hash) (Serializer.toBytes block)
  let _ ← insertDisk DIFFICULTY (hashToBytes hash) (Serializer.toBytes difficulty)
  let _ ← insertDisk DIFFICULTY_COVARIANCE (hashToBytes hash) (Serializer.toBytes p)
  addBlockHashAtHeight hash block.height

def deleteBlockWithHash (hash : Hash) : Disk (BlockHeader × List Transaction) := do
  let header ← deleteCacheableData BlockHeader BLOCKS (hashToBytes hash)
  storeCount .blocks ((← count .blocks) - 1)
  let _ ← removeFromDiskWithoutReading DIFFICULTY (hashToBytes hash)
  let _ ← removeFromDiskWithoutReading DIFFICULTY_COVARIANCE (hashToBytes hash)
  removeBlockHashAtHeight hash header.height
  let transactions ← header.txsHashes.mapM (fun tx => loadDisk Transaction TRANSACTIONS (hashToBytes tx) .getTransaction)
  return (header, transactions)

def deleteTransaction (hash : Hash) : Disk Transaction := do
  let _ ← deleteCacheableData Tips TX_BLOCKS (hashToBytes hash)
  deleteCacheableData Transaction TRANSACTIONS (hashToBytes hash)

def deleteTxOfBlock (hash : Hash) (txs : List (Hash × Transaction)) (txHash : Hash) : Disk (List (Hash × Transaction)) := do
  let shouldDelete ← if (← get).containsData TX_BLOCKS (hashToBytes txHash) then do
      let blocks ← deleteCacheableData Tips TX_BLOCKS (hashToBytes txHash)
      let blocks := Tips.remove blocks hash
      let _ ← insertDisk TX_BLOCKS (hashToBytes txHash) (Serializer.toBytes blocks)
      pure blocks.isEmpty
    else pure true
  if (← get).containsData TXS_EXECUTED (hashToBytes txHash) then
    let _ ← removeFromDiskWithoutReading TXS_EXECUTED (hashToBytes txHash)
    let _ ← removeFromDiskWithoutReading CONTRACTS_OUTPUTS (hashToBytes txHash)
  if shouldDelete && (← get).containsData TRANSACTIONS (hashToBytes txHash) then
    let tx ← deleteCacheableData Transaction TRANSACTIONS (hashToBytes txHash)
    return txs ++ [(txHash, tx)]
  else
    return txs

def deleteBlockAtTopoheight (topoheight : TopoHeight) : Disk (Hash × BlockHeader × List (Hash × Transaction)) := do
  let hash ← deleteCacheableData Hash HASH_AT_TOPO (heightBytes topoheight)
  let _ ← removeFromDiskWithoutReading BLOCKS_EXECUTION_ORDER (hashToBytes hash)
  let _ ← deleteCacheableData UInt64 TOPO_BY_HASH (hashToBytes hash)
  let block ← deleteCacheableData BlockHeader BLOCKS (hashToBytes hash)
  let _ ← deleteCacheableData UInt64 SUPPLY (heightBytes topoheight)
  let _ ← deleteCacheableData UInt64 BURNED_SUPPLY (heightBytes topoheight)
  let _ ← deleteCacheableData UInt64 REWARDS (heightBytes topoheight)
  let _ ← deleteCacheableData VarUint DIFFICULTY (hashToBytes hash)
  let _ ← deleteCacheableData VarUint CUMULATIVE_DIFFICULTY (hashToBytes hash)
  let txs ← block.txsHashes.foldlM (deleteTxOfBlock hash) []
  if (← get).containsData BLOCKS_AT_HEIGHT (heightBytes block.height) then
    removeBlockHashAtHeight hash block.height
  return (hash, block, txs)

end Blocks

def getVersionedKey (key : IVec) (topoheight : UInt64) : IVec := Serializer.toBytes topoheight ++ key

/-- One version of a deleted topoheight: its pointer goes back to the version before, or is removed. -/
def deleteVersionAt (pointers versions : IVec) (topoheight : UInt64) (prefixedKey : IVec) : Disk PUnit := do
  match ← removeFromDisk (Option UInt64) versions prefixedKey with
  | none => throw .corruptedData
  | some prevTopo =>
    let key := prefixedKey.drop 8
    match ← loadOptionalDisk UInt64 pointers key with
    | none => pure ⟨⟩
    | some topoPointer =>
      if topoPointer ≥ topoheight then
        match prevTopo with
        | some prevTopo =>
          let _ ← insertDisk pointers key (Serializer.toBytes prevTopo)
        | none =>
          let _ ← removeFromDiskWithoutReading pointers key

def deleteVersionedTreeAtTopoheight (pointers versions : IVec) (topoheight : UInt64) : Disk PUnit := do
  ((← get).scanPrefix versions (Serializer.toBytes topoheight)).forM (deleteVersionAt pointers versions topoheight)

/-- The versions above a topoheight, from `prevVersion` on: the first one that stays is given back. -/
def deleteVersionsAbove (versions key : IVec) (topoheight : UInt64) (context : DiskContext) :
    Nat → Option UInt64 → Disk (Option UInt64)
  | _, none => pure none
  | 0, some _ => throw .endlessChain
  | fuel + 1, some prevTopo =>
    if prevTopo ≤ topoheight then pure (some prevTopo)
    else do
      match ← removeFromDisk (Option UInt64) versions (getVersionedKey key prevTopo) with
      | none => throw (.notFoundOnDisk context)
      | some prevVersion => deleteVersionsAbove versions key topoheight context fuel prevVersion

def deletePointerAbove (pointers versions : IVec) (topoheight : UInt64) (context : DiskContext) (e : IVec × IVec) :
    Disk PUnit := do
  let topo : UInt64 ← Exec.ofExcept ((Serializer.fromBytes e.2).mapError .errorOnReader)
  if topo > topoheight then
    let fuel := ((← get).iterKeys versions).length
    match ← removeFromDisk (Option UInt64) versions (getVersionedKey e.1 topo) with
    | none => throw (.notFoundOnDisk context)
    | some prevVersion =>
      match ← deleteVersionsAbove versions e.1 topoheight context fuel prevVersion with
      | some topo =>
        let _ ← insertDisk pointers e.1 (Serializer.toBytes topo)
      | none =>
        let _ ← removeFromDiskWithoutReading pointers e.1

def deleteVersionedTreeAboveTopoheight (pointers versions : IVec) (topoheight : UInt64) (context : DiskContext) :
    Disk PUnit := do
  ((← get).iter pointers).forM (deletePointerAbove pointers versions topoheight context)

/-- A write to a tree itself, past any commit point. -/
def writeTree (tree key value : IVec) (s : SledStorage) : SledStorage :=
  { s with db := s.db.insert tree ((s.db.tree tree).insert key value) }

/-- Below the threshold the versions are removed, and what is left of the chain is read off their bytes. The version
above it is written to the tree itself, whatever commit point is open. -/
def deleteVersionsBelow (versions key : IVec) (topoheight : UInt64) (context : DiskContext) :
    Nat → Bool → Option UInt64 → Disk PUnit
  | _, _, none => pure ⟨⟩
  | 0, _, some _ => throw .endlessChain
  | fuel + 1, true, some prevTopo => do
    let prevVersion ← removeFromDisk UInt64 versions (getVersionedKey key prevTopo)
    deleteVersionsBelow versions key topoheight context fuel true prevVersion
  | fuel + 1, false, some prevTopo => do
    let prevVersion ← loadDisk (Option UInt64) versions (getVersionedKey key prevTopo) context
    if prevVersion.any (· < topoheight) then
      let data ← loadDisk NoTransform versions (getVersionedKey key prevTopo) context
      modify (writeTree versions (getVersionedKey key prevTopo) (0 :: data.drop 9))
      deleteVersionsBelow versions key topoheight context fuel true prevVersion
    else
      deleteVersionsBelow versions key topoheight context fuel false prevVersion

def deletePointerBelow (versions : IVec) (topoheight : UInt64) (context : DiskContext) (e : IVec × IVec) : Disk PUnit := do
  let topo : UInt64 ← Exec.ofExcept ((Serializer.fromBytes e.2).mapError .errorOnReader)
  let prevVersion ← loadDisk (Option UInt64) versions (getVersionedKey e.1 topo) context
  let fuel := ((← get).iterKeys versions).length
  deleteVersionsBelow versions e.1 topoheight context fuel (topo < topoheight) prevVersion

def deleteKeyBelow (versions : IVec) (topoheight : UInt64) (key : IVec) : Disk PUnit := do
  let topo : UInt64 ← Exec.ofExcept ((Serializer.fromBytes (key.take 8)).mapError .errorOnReader)
  if topo < topoheight then
    let _ ← removeFromDiskWithoutReading versions key

def deleteVersionedTreeBelowTopoheight (pointers versions : IVec) (topoheight : UInt64) (keepLast : Bool)
    (context : DiskContext) : Disk PUnit := do
  if keepLast then
    ((← get).iter pointers).forM (deletePointerBelow versions topoheight context)
  else
    ((← get).iterKeys versions).forM (deleteKeyBelow versions topoheight)

def deleteRegistrationAt (prefixedKey : IVec) : Disk PUnit := do
  let _ ← removeFromDiskWithoutReading REGISTRATIONS_PREFIXED prefixedKey
  let _ ← removeFromDiskWithoutReading REGISTRATIONS ((prefixedKey.drop 8).take 32)

def deleteVersionedRegistrationsAtTopoheight (topoheight : UInt64) : Disk PUnit := do
  ((← get).scanPrefix REGISTRATIONS_PREFIXED (Serializer.toBytes topoheight)).forM deleteRegistrationAt

def deleteVersionedDataAtTopoheight (topoheight : UInt64) : Disk PUnit := do
  deleteVersionedTreeAtTopoheight BALANCES VERSIONED_BALANCES topoheight
  deleteVersionedTreeAtTopoheight NONCES VERSIONED_NONCES topoheight
  deleteVersionedTreeAtTopoheight MULTISIG VERSIONED_MULTISIGS topoheight
  deleteVersionedRegistrationsAtTopoheight topoheight
  deleteVersionedTreeAtTopoheight CONTRACTS VERSIONED_CONTRACTS topoheight
  deleteVersionedTreeAtTopoheight CONTRACTS_DATA VERSIONED_CONTRACTS_DATA topoheight
  deleteVersionedTreeAtTopoheight ASSETS_SUPPLY VERSIONED_ASSETS_SUPPLY topoheight
  if topoheight > 0 then
    deleteVersionedTreeAtTopoheight ASSETS VERSIONED_ASSETS topoheight

section Rewind

variable [Serializer BlockHeader] [Serializer Transaction] [Serializer VarUint]

def storeTips (tips : Tips) : Disk PUnit := do
  let _ ← insertDisk EXTRA TIPS (Serializer.toBytes tips)
  modify (mapCounters (fun cache => { cache with tipsCache := tips }))

def setPrunedTopoheight (topoheight : UInt64) : Disk PUnit := do
  modify (mapCounters (fun cache => { cache with prunedTopoheight := some topoheight }))
  let _ ← insertDisk EXTRA PRUNED_TOPOHEIGHT (Serializer.toBytes topoheight)

def getHashAtTopoHeight (topoheight : TopoHeight) : Disk Hash :=
  loadDisk Hash HASH_AT_TOPO (heightBytes topoheight) (.getBlockHashAtTopoHeight topoheight)

def isBlockTopologicalOrdered (s : SledStorage) (hash : Hash) : Bool :=
  match s.loadFromDisk UInt64 TOPO_BY_HASH (hashToBytes hash) .getTopoHeightForHash with
  | .error _ => false
  | .ok topoheight =>
    match s.loadFromDisk Hash HASH_AT_TOPO (Serializer.toBytes topoheight) (.getBlockHashAtTopoHeight topoheight.toNat) with
    | .error _ => false
    | .ok hashAtTopo => hashAtTopo == hash

/-- Going down to a block that is alone at its height. -/
def searchSyncBlock (prunedTopoheight : TopoHeight) : TopoHeight → Disk TopoHeight
  | 0 => pure 0
  | lowestTopo + 1 =>
    if prunedTopoheight < lowestTopo + 1 then do
      let hash ← getHashAtTopoHeight (lowestTopo + 1)
      let header ← loadDisk BlockHeader BLOCKS (hashToBytes hash) .getBlockHeaderByHash
      let blocksAtHeight ← getBlocksAtHeight header.height
      if blocksAtHeight.length = 1 then return lowestTopo + 1
      else searchSyncBlock prunedTopoheight lowestTopo
    else pure (lowestTopo + 1)

def lowestTopoheight (prunedTopoheight topoheight : TopoHeight) (count : Nat) (untilTopoHeight : TopoHeight) :
    Disk TopoHeight := do
  let lowestTopo ← searchSyncBlock prunedTopoheight (topoheight - count)
  let safetyPrunedTopoheight := prunedTopoheight + PRUNE_SAFETY_LIMIT
  if prunedTopoheight ≠ 0 ∧ lowestTopo ≤ safetyPrunedTopoheight ∧ untilTopoHeight ≠ 0 then return safetyPrunedTopoheight
  else return lowestTopo

/-- What the rewinding loop carries. -/
structure Rewound where
  height : Nat
  topoheight : TopoHeight
  tips : Tips
  txs : List (Hash × Transaction)
  done : UInt64

def popLoop (prunedTopoheight lowestTopo untilTopoHeight : TopoHeight) : TopoHeight → Rewound → Disk Rewound
  | 0, r => pure r
  | topoheight + 1, r =>
    if topoheight + 1 ≤ lowestTopo ∨ topoheight + 1 ≤ untilTopoHeight then pure r
    else do
      let (hash, block, blockTxs) ← deleteBlockAtTopoheight (topoheight + 1)
      deleteVersionedDataAtTopoheight (UInt64.ofNat (topoheight + 1))
      let txs := r.txs ++ blockTxs
      let tips := block.tips.foldl Tips.insert (Tips.remove r.tips hash)
      if topoheight + 1 ≤ prunedTopoheight then
        let genesis ← getHashAtTopoHeight 0
        let _ ← removeFromDiskWithoutReading EXTRA PRUNED_TOPOHEIGHT
        modify (fun s => { s with cache := { s.cache with prunedTopoheight := none } })
        return { height := 0, topoheight := 0, tips := [genesis], txs, done := r.done }
      else
        let height := if block.height < r.height then block.height else r.height
        popLoop prunedTopoheight lowestTopo untilTopoHeight topoheight
          { height, topoheight, tips, txs, done := r.done + 1 }

def clearCaches : Disk PUnit := modify loadCacheFromDisk

/-- The new count of blocks is written to the disk only. -/
def popBlocks (height : Nat) (topoheight : TopoHeight) (blocksCount : Nat) (untilTopoHeight : TopoHeight) :
    Disk (Nat × TopoHeight × List (Hash × Transaction)) := do
  if topoheight < blocksCount then
    throw .notEnoughBlocks
  let s ← get
  let prunedTopoheight := (s.cache.prunedTopoheight.map UInt64.toNat).getD 0
  let lowestTopo ← lowestTopoheight prunedTopoheight topoheight blocksCount untilTopoHeight
  let tips := s.counters.tipsCache.filter (s.isBlockTopologicalOrdered ·)
  let r ← popLoop prunedTopoheight lowestTopo untilTopoHeight topoheight { height, topoheight, tips, txs := [], done := 0 }
  clearCaches
  storeTips r.tips
  let _ ← insertDisk EXTRA TOP_TOPO_HEIGHT (heightBytes r.topoheight)
  let _ ← insertDisk EXTRA TOP_HEIGHT (heightBytes r.height)
  let _ ← insertDisk EXTRA BLOCKS_COUNT (Serializer.toBytes ((← count .blocks) - r.done))
  return (r.height, r.topoheight, r.txs)

end Rewind

end SledStorage

end Xelis.Storage
