import Xelis.Common.Error

namespace Xelis.Storage

open Lib (FiniteMap)

/-- A sled tree is an ordered key/value map. -/
abbrev Tree := FiniteMap IVec IVec

/-- Pending writes of one tree: `none` marks a removed key. -/
structure Batch where
  writes : FiniteMap IVec (Option IVec)

namespace Batch

def default : Batch := ⟨∅⟩

def insert (b : Batch) (key value : IVec) : Option IVec × Batch :=
  (b.writes[key]?.join, ⟨b.writes.insert key (some value)⟩)

/-- The flag asks the caller to load the key from the disk. A vacant entry stays vacant. -/
def remove (b : Batch) (key : IVec) : (Option IVec × Bool) × Batch :=
  match b.writes[key]? with
  | some value => ((value, false), ⟨b.writes.insert key none⟩)
  | none => ((none, true), b)

end Batch

/-- Counters kept beside the trees. -/
structure CounterCache where
  assetsCount : UInt64 := 0
  accountsCount : UInt64 := 0
  transactionsCount : UInt64 := 0
  blocksCount : UInt64 := 0
  blocksExecutionCount : UInt64 := 0
  contractsCount : UInt64 := 0
  tipsCache : Tips := []
  prunedTopoheight : Option UInt64 := none
  deriving DecidableEq

/-- All the changes made since the snapshot was created. A dropped tree has no batch. -/
structure Snapshot where
  trees : FiniteMap IVec (Option Batch)
  cache : CounterCache

namespace Snapshot

def new (cache : CounterCache) : Snapshot := ⟨∅, cache⟩

def containsKey (s : Snapshot) (tree key : IVec) : Bool :=
  match s.trees[tree]? with
  | some (some batch) => batch.writes.contains key
  | some none => false
  | none => false

def containsKeyWithValue (s : Snapshot) (tree key : IVec) : Option Bool :=
  match s.trees[tree]? with
  | some (some batch) => batch.writes[key]?.map Option.isSome
  | some none => none
  | none => none

def loadOptionalFromDisk (T : Type) [Serializer T] (s : Snapshot) (tree key : IVec) :
    Except BlockchainError (Option T) :=
  let data := match s.trees[tree]? with
    | some (some batch) => batch.writes[key]?.join
    | some none => none
    | none => none
  match data with
  | some data => (Serializer.fromBytes data).mapError .errorOnReader |>.map some
  | none => .ok none

def insert (s : Snapshot) (tree key value : IVec) : Option IVec × Snapshot :=
  match s.trees[tree]?.getD (some Batch.default) with
  | some batch =>
    let (previous, batch) := batch.insert key value
    (previous, { s with trees := s.trees.insert tree (some batch) })
  | none =>
    let (previous, batch) := Batch.default.insert key value
    (previous, { s with trees := s.trees.insert tree (some batch) })

def remove (s : Snapshot) (tree key : IVec) : (Option IVec × Bool) × Snapshot :=
  match s.trees[tree]?.getD (some Batch.default) with
  | some batch =>
    let (result, batch) := batch.remove key
    (result, { s with trees := s.trees.insert tree (some batch) })
  | none => ((none, false), s)

def getValueSize (s : Snapshot) (tree key : IVec) : Option Nat :=
  match s.trees[tree]? with
  | some (some batch) => batch.writes[key]?.join.map List.length
  | some none => none
  | none => none

def scanPrefix (s : Snapshot) (name : IVec) (tree : Tree) (pre : IVec) : List IVec :=
  match s.trees[name]? with
  | some (some entries) =>
    let original := (tree.keys.filter (pre.isPrefixOf ·)).filter (fun k => !entries.writes.contains k)
    let changes := (entries.writes.toList.filter (fun e => e.2.isSome && pre.isPrefixOf e.1)).map Prod.fst
    changes ++ original
  | _ => tree.keys.filter (pre.isPrefixOf ·)

def iter (s : Snapshot) (name : IVec) (tree : Tree) : List (IVec × IVec) :=
  match s.trees[name]? with
  | some (some entries) =>
    let original := tree.toList.filter (fun e => !entries.writes.contains e.1)
    let changes := entries.writes.toList.filterMap (fun e => e.2.map (fun v => (e.1, v)))
    changes ++ original
  | _ => tree.toList

def iterKeys (s : Snapshot) (name : IVec) (tree : Tree) : List IVec :=
  match s.trees[name]? with
  | some (some entries) =>
    let original := tree.keys.filter (fun k => !entries.writes.contains k)
    let changes := entries.writes.toList.filterMap (fun e => e.2.map (fun _ => e.1))
    changes ++ original
  | _ => tree.keys

end Snapshot

/-- The trees of the database by name. Opening a missing tree creates an empty one. -/
abbrev Db := FiniteMap IVec Tree

namespace Db

def tree (db : Db) (name : IVec) : Tree := db[name]?.getD ∅

end Db

/-- The storage handle: the database, the open commit point if any, and the counters. -/
structure SledStorage where
  db : Db
  snapshot : Option Snapshot
  cache : CounterCache

namespace SledStorage

def loadOptionalFromDiskInternal (T : Type) [Serializer T] (s : SledStorage) (tree key : IVec) :
    Except BlockchainError (Option T) :=
  let fromTree : Except BlockchainError (Option T) :=
    match (s.db.tree tree)[key]? with
    | some bytes => (Serializer.fromBytes bytes).mapError .errorOnReader |>.map some
    | none => .ok none
  match s.snapshot with
  | some snapshot => if snapshot.containsKey tree key then snapshot.loadOptionalFromDisk T tree key else fromTree
  | none => fromTree

def loadFromDisk (T : Type) [Serializer T] (s : SledStorage) (tree key : IVec) (context : DiskContext) :
    Except BlockchainError T :=
  match s.loadOptionalFromDiskInternal T tree key with
  | .ok (some v) => .ok v
  | .ok none => .error (.notFoundOnDisk context)
  | .error e => .error e

def EXTRA : IVec := "extra".toUTF8.toList
def TIPS : IVec := "TIPS".toUTF8.toList
def PRUNED_TOPOHEIGHT : IVec := "PRUN".toUTF8.toList
def ASSETS_COUNT : IVec := "CAST".toUTF8.toList
def TXS_COUNT : IVec := "CTXS".toUTF8.toList
def BLOCKS_COUNT : IVec := "CBLK".toUTF8.toList
def ACCOUNTS_COUNT : IVec := "CACC".toUTF8.toList
def BLOCKS_EXECUTION_ORDER_COUNT : IVec := "EBLK".toUTF8.toList
def CONTRACTS_COUNT : IVec := "CCON".toUTF8.toList

/-- Counters found on disk replace the ones in memory; a missing or unreadable one is kept. -/
def loadCacheFromDisk (s : SledStorage) : SledStorage :=
  let count (key : IVec) (context : DiskContext) (current : UInt64) : UInt64 :=
    match s.loadFromDisk UInt64 EXTRA key context with
    | .ok n => n
    | .error _ => current
  { s with cache :=
    { tipsCache := match s.loadFromDisk Tips EXTRA TIPS .tips with
        | .ok tips => tips
        | .error _ => s.cache.tipsCache
      prunedTopoheight := match s.loadFromDisk UInt64 EXTRA PRUNED_TOPOHEIGHT .prunedTopoHeight with
        | .ok topoheight => some topoheight
        | .error _ => s.cache.prunedTopoheight
      assetsCount := count ASSETS_COUNT .assetsCount s.cache.assetsCount
      transactionsCount := count TXS_COUNT .txsCount s.cache.transactionsCount
      blocksCount := count BLOCKS_COUNT .blocksCount s.cache.blocksCount
      accountsCount := count ACCOUNTS_COUNT .accountsCount s.cache.accountsCount
      blocksExecutionCount :=
        count BLOCKS_EXECUTION_ORDER_COUNT .blocksExecutionOrderCount s.cache.blocksExecutionCount
      contractsCount := count CONTRACTS_COUNT .contractsCount s.cache.contractsCount } }

def containsData (s : SledStorage) (tree key : IVec) : Bool :=
  match s.snapshot.bind (·.containsKeyWithValue tree key) with
  | some v => v
  | none => (s.db.tree tree).contains key

def getSizeFromDisk (s : SledStorage) (tree key : IVec) : Except BlockchainError Nat :=
  let fromTree : Except BlockchainError Nat :=
    match (s.db.tree tree)[key]? with
    | some bytes => .ok bytes.length
    | none => .error (.notFoundOnDisk .dataLen)
  match s.snapshot with
  | some snapshot =>
    if snapshot.containsKey tree key then
      match snapshot.getValueSize tree key with
      | some size => .ok size
      | none => .error (.notFoundOnDisk .dataLen)
    else fromTree
  | none => fromTree

def scanPrefix (s : SledStorage) (tree pre : IVec) : List IVec :=
  match s.snapshot with
  | some snapshot => snapshot.scanPrefix tree (s.db.tree tree) pre
  | none => (s.db.tree tree).keys.filter (pre.isPrefixOf ·)

def iter (s : SledStorage) (tree : IVec) : List (IVec × IVec) :=
  match s.snapshot with
  | some snapshot => snapshot.iter tree (s.db.tree tree)
  | none => (s.db.tree tree).toList

def iterKeys (s : SledStorage) (tree : IVec) : List IVec :=
  match s.snapshot with
  | some snapshot => snapshot.iterKeys tree (s.db.tree tree)
  | none => (s.db.tree tree).keys

def removeFromDiskInternal (s : SledStorage) (tree key : IVec) : Option IVec × SledStorage :=
  match s.snapshot with
  | some snapshot =>
    let ((value, load), snapshot) := snapshot.remove tree key
    let value := if load then (s.db.tree tree)[key]? else value
    (value, { s with snapshot := some snapshot })
  | none =>
    let t := s.db.tree tree
    (t[key]?, { s with db := s.db.insert tree (t.erase key) })

def insertIntoDisk (s : SledStorage) (tree key value : IVec) : Option IVec × SledStorage :=
  match s.snapshot with
  | some snapshot =>
    let (previous, snapshot) := snapshot.insert tree key value
    (previous, { s with snapshot := some snapshot })
  | none =>
    let t := s.db.tree tree
    (t[key]?, { s with db := s.db.insert tree (t.insert key value) })

def startCommitPoint (s : SledStorage) : Except BlockchainError SledStorage :=
  match s.snapshot with
  | some _ => .error .commitPointAlreadyStarted
  | none => .ok { s with snapshot := some (Snapshot.new s.cache) }

/-- Applying one tree of the snapshot: its batch in key order, or a drop of the whole tree. -/
def applyBatch (db : Db) (name : IVec) : Option Batch → Db
  | some batch => db.insert name ((db.tree name).overlay batch.writes)
  | none => db.erase name

def endCommitPoint (s : SledStorage) (apply : Bool) : Except BlockchainError SledStorage :=
  match s.snapshot with
  | none => .error .commitPointNotStarted
  | some snapshot =>
    if apply then
      .ok { db := snapshot.trees.toList.foldl (fun db e => applyBatch db e.1 e.2) s.db
            snapshot := none
            cache := snapshot.cache }
    else .ok ({ s with snapshot := none }).loadCacheFromDisk

end SledStorage

end Xelis.Storage
