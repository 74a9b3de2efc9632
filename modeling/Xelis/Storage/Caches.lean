import Xelis.Lib.Lru
import Xelis.Storage.SledOperations

namespace Xelis.Storage

open Lib (Exec Lru)

/-- The caches that keep what a tree holds under a key. -/
inductive CacheName where
  | transactions
  | blocks
  | topoByHash
  | hashAtTopo
  | cumulativeDifficulty
  | assets
  deriving DecidableEq

namespace CacheName

def tree : CacheName → IVec
  | .transactions => SledStorage.TRANSACTIONS
  | .blocks => SledStorage.BLOCKS
  | .topoByHash => SledStorage.TOPO_BY_HASH
  | .hashAtTopo => SledStorage.HASH_AT_TOPO
  | .cumulativeDifficulty => SledStorage.CUMULATIVE_DIFFICULTY
  | .assets => SledStorage.ASSETS

def Key : CacheName → Type
  | .hashAtTopo => UInt64
  | _ => Hash

def Value : CacheName → Type
  | .transactions => Transaction
  | .blocks => BlockHeader
  | .topoByHash => UInt64
  | .hashAtTopo => Hash
  | .cumulativeDifficulty => VarUint
  | .assets => UInt64

instance : (name : CacheName) → DecidableEq name.Key
  | .transactions => inferInstanceAs (DecidableEq Hash)
  | .blocks => inferInstanceAs (DecidableEq Hash)
  | .topoByHash => inferInstanceAs (DecidableEq Hash)
  | .hashAtTopo => inferInstanceAs (DecidableEq UInt64)
  | .cumulativeDifficulty => inferInstanceAs (DecidableEq Hash)
  | .assets => inferInstanceAs (DecidableEq Hash)

def keyBytes : (name : CacheName) → name.Key → IVec
  | .transactions, hash => hashToBytes hash
  | .blocks, hash => hashToBytes hash
  | .topoByHash, hash => hashToBytes hash
  | .hashAtTopo, topoheight => u64Serializer.toBytes topoheight
  | .cumulativeDifficulty, hash => hashToBytes hash
  | .assets, hash => hashToBytes hash

instance valueSerializer [Serializer BlockHeader] [Serializer Transaction] [Serializer VarUint] :
    (name : CacheName) → Serializer name.Value
  | .transactions => inferInstanceAs (Serializer Transaction)
  | .blocks => inferInstanceAs (Serializer BlockHeader)
  | .topoByHash => inferInstanceAs (Serializer UInt64)
  | .hashAtTopo => hashSerializer
  | .cumulativeDifficulty => inferInstanceAs (Serializer VarUint)
  | .assets => inferInstanceAs (Serializer UInt64)

end CacheName

/-- The caches of a storage. One that is off is missing. -/
structure Caches where
  of : (name : CacheName) → Option (Lru name.Key name.Value)
  pastBlocks : Option (Lru Hash (List Hash))

namespace Caches

def change (name : CacheName) (f : Lru name.Key name.Value → Lru name.Key name.Value) (c : Caches) : Caches :=
  { c with of := Function.update c.of name ((c.of name).map f) }

def changePastBlocks (f : Lru Hash (List Hash) → Lru Hash (List Hash)) (c : Caches) : Caches :=
  { c with pastBlocks := c.pastBlocks.map f }

def clear (c : Caches) : Caches := ⟨fun name => (c.of name).map Lru.clear, c.pastBlocks.map Lru.clear⟩

def clearVersionedData (c : Caches) : Caches :=
  ((c.change .topoByHash Lru.clear).change .hashAtTopo Lru.clear).change .assets Lru.clear

end Caches

/-- A single write. What is kept in memory is written on its own. -/
inductive DiskWrite where
  | insert (tree key value : IVec)
  | remove (tree key : IVec)
  | count (counter : Counter) (n : UInt64)
  | nextExecution
  | storeTips (tips : Tips)
  | setPrunedTopoheight (topoheight : UInt64)
  | forgetPrunedTopoheight
  /-- Past any commit point. -/
  | direct (tree key value : IVec)
  /-- The counters are loaded from the disk. -/
  | reload
  deriving DecidableEq

namespace DiskWrite

open SledStorage

def apply : DiskWrite → SledStorage → SledStorage
  | .insert tree key value, s => (s.insertIntoDisk tree key value).2
  | .remove tree key, s => (s.removeFromDiskInternal tree key).2
  | .count counter n, s => mapCounters (·.set counter n) s
  | .nextExecution, s => mapCounters (fun cache => { cache with blocksExecutionCount := cache.blocksExecutionCount + 1 }) s
  | .storeTips tips, s => mapCounters (fun cache => { cache with tipsCache := tips }) s
  | .setPrunedTopoheight topoheight, s => mapCounters (fun cache => { cache with prunedTopoheight := some topoheight }) s
  | .forgetPrunedTopoheight, s => { s with cache := { s.cache with prunedTopoheight := none } }
  | .direct tree key value, s => writeTree tree key value s
  | .reload, s => s.loadCacheFromDisk

end DiskWrite

structure CachedStorage where
  storage : SledStorage
  caches : Caches
  written : List (SledStorage × DiskWrite)

namespace CachedStorage

/-- A program over the storage and its caches. What it did before an error stays. -/
abbrev Cached := Exec BlockchainError CachedStorage

def write (w : DiskWrite) : Cached PUnit := modify fun c =>
  { c with storage := w.apply c.storage, written := c.written ++ [(c.storage, w)] }

def changeCaches (f : Caches → Caches) : Cached PUnit := modify fun c => { c with caches := f c.caches }

def insertIntoDisk (tree key value : IVec) : Cached (Option IVec) := do
  let (previous, _) := (← get).storage.insertIntoDisk tree key value
  write (.insert tree key value)
  return previous

def removeFromDiskInternal (tree key : IVec) : Cached (Option IVec) := do
  let (previous, _) := (← get).storage.removeFromDiskInternal tree key
  write (.remove tree key)
  return previous

def removeFromDiskWithoutReading (tree key : IVec) : Cached Bool := do
  return (← removeFromDiskInternal tree key).isSome

def removeFromDisk (T : Type) [Serializer T] (tree key : IVec) : Cached (Option T) := do
  match ← removeFromDiskInternal tree key with
  | none => return none
  | some bytes => return some (← Exec.ofExcept ((Serializer.fromBytes bytes).mapError .errorOnReader))

def loadOptionalFromDisk (T : Type) [Serializer T] (tree key : IVec) : Cached (Option T) := do
  Exec.ofExcept ((← get).storage.loadOptionalFromDiskInternal T tree key)

def loadFromDisk (T : Type) [Serializer T] (tree key : IVec) (context : DiskContext) : Cached T := do
  Exec.ofExcept ((← get).storage.loadFromDisk T tree key context)

def deleteData (T : Type) [Serializer T] (tree key : IVec) : Cached T := do
  match ← removeFromDisk T tree key with
  | some value => return value
  | none => throw (.notFoundOnDisk .deleteData)

section Cacheable

variable [Serializer BlockHeader] [Serializer Transaction] [Serializer VarUint] (name : CacheName)

/-- A cache is not used for what the commit point holds. -/
def cacheFor (c : CachedStorage) (key : name.Key) : Option (Lru name.Key name.Value) :=
  (c.caches.of name).filter fun _ =>
    match c.storage.snapshot with
    | some snapshot => !snapshot.containsKey name.tree (name.keyBytes key)
    | none => true

def getCacheableData (key : name.Key) (context : DiskContext) : Cached name.Value := do
  match (← get).cacheFor name key with
  | some cache =>
    match cache.peek key with
    | some value =>
      changeCaches (·.change name (·.touch key))
      return value
    | none =>
      let value ← loadFromDisk name.Value name.tree (name.keyBytes key) context
      changeCaches (·.change name (·.put key value))
      return value
  | none => loadFromDisk name.Value name.tree (name.keyBytes key) context

def getOptionalCacheableData (key : name.Key) : Cached (Option name.Value) := do
  match (← get).cacheFor name key with
  | some cache =>
    match cache.peek key with
    | some value =>
      changeCaches (·.change name (·.touch key))
      return some value
    | none =>
      match ← loadOptionalFromDisk name.Value name.tree (name.keyBytes key) with
      | some value =>
        changeCaches (·.change name (·.put key value))
        return some value
      | none => return none
  | none => loadOptionalFromDisk name.Value name.tree (name.keyBytes key)

def deleteCacheableData (key : name.Key) : Cached name.Value := do
  let value ← deleteData name.Value name.tree (name.keyBytes key)
  changeCaches (·.change name (·.pop key))
  return value

omit [Serializer BlockHeader] [Serializer Transaction] [Serializer VarUint] in
def containsDataCached (c : CachedStorage) (key : name.Key) : Bool :=
  match c.storage.snapshot.bind (·.containsKeyWithValue name.tree (name.keyBytes key)) with
  | some v => v
  | none =>
    if (c.caches.of name).any (·.contains key) then true
    else (c.storage.db.tree name.tree).contains (name.keyBytes key)

end Cacheable

end CachedStorage

end Xelis.Storage
