import Xelis.Storage.CountedRuns
import Xelis.Storage.RollbackRuns

/-! A commit point that is thrown away: whatever was run under it, the storage answers as before it was started. -/

namespace Xelis.Storage

open Lib (Exec Lru)
open SledStorage (Visible decode)

/-- What is done to a storage under a commit point. Reading goes through the caches and changes them. -/
inductive CachedOperation where
  | insert (tree key value : IVec)
  | remove (tree key : IVec)
  | getCacheableData (name : CacheName) (key : name.Key) (context : DiskContext)
  | getOptionalCacheableData (name : CacheName) (key : name.Key)
  | getPastBlocksForBlockHash (hash : Hash)
  | setTopoHeightForBlock (hash : Hash) (topoheight : UInt64)
  | saveBlock (block : BlockHeader) (txs : List Transaction) (difficulty p : VarUint) (hash : Hash)
  | deleteBlockWithHash (hash : Hash)
  | deleteTransaction (hash : Hash)
  | deleteBlockAtTopoheight (topoheight : UInt64)
  | popBlocks (height : Nat) (topoheight : TopoHeight) (blocksCount : Nat) (untilTopoHeight : TopoHeight)
  | storeCount (counter : Counter) (count : UInt64)
  | insertCounted (counter : Counter) (key value : IVec)
  | removeCounted (counter : Counter) (key : IVec)
  | addAsset (asset : Hash) (topoheight : UInt64) (data : IVec)
  | addBlockExecutionToOrder (hash : Hash)
  | swapBlocksExecutionsPositions (left right : Hash)
  | storeTips (tips : Tips)
  | setPrunedTopoheight (topoheight : UInt64)
  | deleteVersionsAt (data : VersionedData) (topoheight : UInt64)
  | deleteVersionsAbove (data : VersionedData) (topoheight : UInt64)
  | deleteVersionsBelow (data : VersionedData) (topoheight : UInt64) (keepLast : Bool)
  | deleteBalancesBelow (topoheight : UInt64) (keepLast : Bool)
  | deleteRegistrationsAt (topoheight : UInt64)
  | deleteRegistrationsAbove (topoheight : UInt64)
  | deleteDagOrderAbove (topoheight : UInt64)
  | deleteVersionedDataAt (topoheight : UInt64)
  | deleteVersionedDataAbove (topoheight : UInt64)
  | deleteVersionedDataBelow (topoheight : UInt64) (keepLast : Bool)
  | clearCaches

namespace CachedStorage

def startCommitPoint : Cached PUnit := do
  let s ← Exec.ofExcept (← get).storage.startCommitPoint
  modify fun c => { c with storage := s }

/-- An applied snapshot brings its own caches, which were emptied by cloning and never filled. -/
def endCommitPoint (apply : Bool) : Cached PUnit := do
  let s ← Exec.ofExcept ((← get).storage.endCommitPoint apply)
  modify fun c => { c with storage := s, caches := c.caches.clear }

variable [Serializer BlockHeader] [Serializer Transaction] [Serializer VarUint]

def step (c : CachedStorage) : CachedOperation → CachedStorage
  | .insert tree key value => Exec.stateOf (insertIntoDisk tree key value c)
  | .remove tree key => Exec.stateOf (removeFromDiskInternal tree key c)
  | .getCacheableData name key context => Exec.stateOf (getCacheableData name key context c)
  | .getOptionalCacheableData name key => Exec.stateOf (getOptionalCacheableData name key c)
  | .getPastBlocksForBlockHash hash => Exec.stateOf (getPastBlocksForBlockHash hash c)
  | .setTopoHeightForBlock hash topoheight => Exec.stateOf (setTopoHeightForBlock hash topoheight c)
  | .saveBlock block txs difficulty p hash => Exec.stateOf (saveBlock block txs difficulty p hash c)
  | .deleteBlockWithHash hash => Exec.stateOf (deleteBlockWithHash hash c)
  | .deleteTransaction hash => Exec.stateOf (deleteTransaction hash c)
  | .deleteBlockAtTopoheight topoheight => Exec.stateOf (deleteBlockAtTopoheight topoheight c)
  | .popBlocks height topoheight blocksCount untilTopoHeight =>
    Exec.stateOf (popBlocks height topoheight blocksCount untilTopoHeight c)
  | .storeCount counter count => Exec.stateOf (storeCount counter count c)
  | .insertCounted counter key value => Exec.stateOf (insertCounted counter key value c)
  | .removeCounted counter key => Exec.stateOf (removeCounted counter key c)
  | .addAsset asset topoheight data => Exec.stateOf (addAsset asset topoheight data c)
  | .addBlockExecutionToOrder hash => Exec.stateOf (addBlockExecutionToOrder hash c)
  | .swapBlocksExecutionsPositions left right => Exec.stateOf (swapBlocksExecutionsPositions left right c)
  | .storeTips tips => Exec.stateOf (storeTips tips c)
  | .setPrunedTopoheight topoheight => Exec.stateOf (setPrunedTopoheight topoheight c)
  | .deleteVersionsAt data topoheight => Exec.stateOf (deleteVersionedTreeAtTopoheight data topoheight c)
  | .deleteVersionsAbove data topoheight => Exec.stateOf (deleteVersionedTreeAboveTopoheight data topoheight c)
  | .deleteVersionsBelow data topoheight keepLast =>
    Exec.stateOf (deleteVersionedTreeBelowTopoheight data topoheight keepLast c)
  | .deleteBalancesBelow topoheight keepLast => Exec.stateOf (deleteVersionedBalancesBelowTopoheight topoheight keepLast c)
  | .deleteRegistrationsAt topoheight => Exec.stateOf (deleteVersionedRegistrationsAtTopoheight topoheight c)
  | .deleteRegistrationsAbove topoheight => Exec.stateOf (deleteVersionedRegistrationsAboveTopoheight topoheight c)
  | .deleteDagOrderAbove topoheight => Exec.stateOf (deleteDagOrderAboveTopoheight topoheight c)
  | .deleteVersionedDataAt topoheight => Exec.stateOf (deleteVersionedDataAtTopoheight topoheight c)
  | .deleteVersionedDataAbove topoheight => Exec.stateOf (deleteVersionedDataAboveTopoheight topoheight c)
  | .deleteVersionedDataBelow topoheight keepLast =>
    Exec.stateOf (deleteVersionedDataBelowTopoheight topoheight keepLast c)
  | .clearCaches => Exec.stateOf (clearCaches c)

def after (c : CachedStorage) (ops : List CachedOperation) : CachedStorage := ops.foldl step c

/-- The writes that a run makes, each with the storage it is made on. -/
def writes (c : CachedStorage) (ops : List CachedOperation) : List (SledStorage × DiskWrite) :=
  (c.after ops).written.drop c.written.length

theorem step_leads (start : SledStorage) (c : CachedStorage) (op : CachedOperation) : Leads start c (c.step op) := by
  cases op with
  | insert tree key value => exact insertIntoDisk_leading _ _ _ c
  | remove tree key => exact removeFromDiskInternal_leading _ _ c
  | getCacheableData name key context => exact getCacheableData_leading _ _ _ c
  | getOptionalCacheableData name key => exact getOptionalCacheableData_leading _ _ c
  | getPastBlocksForBlockHash hash => exact getPastBlocksForBlockHash_leading _ c
  | setTopoHeightForBlock hash topoheight => exact setTopoHeightForBlock_leading _ _ c
  | saveBlock block txs difficulty p hash => exact saveBlock_leading _ _ _ _ _ c
  | deleteBlockWithHash hash => exact deleteBlockWithHash_leading _ c
  | deleteTransaction hash => exact deleteTransaction_leading _ c
  | deleteBlockAtTopoheight topoheight => exact deleteBlockAtTopoheight_leading _ c
  | popBlocks height topoheight blocksCount untilTopoHeight => exact popBlocks_leading _ _ _ _ c
  | storeCount counter count => exact storeCount_leading _ _ c
  | insertCounted counter key value => exact insertCounted_leading _ _ _ c
  | removeCounted counter key => exact removeCounted_leading _ _ c
  | addAsset asset topoheight data => exact addAsset_leading _ _ _ c
  | addBlockExecutionToOrder hash => exact addBlockExecutionToOrder_leading _ c
  | swapBlocksExecutionsPositions left right => exact swapBlocksExecutionsPositions_leading _ _ c
  | storeTips tips => exact storeTips_leading _ c
  | setPrunedTopoheight topoheight => exact setPrunedTopoheight_leading _ c
  | deleteVersionsAt data topoheight => exact deleteVersionedTreeAtTopoheight_leading _ _ c
  | deleteVersionsAbove data topoheight => exact deleteVersionedTreeAboveTopoheight_leading _ _ c
  | deleteVersionsBelow data topoheight keepLast => exact deleteVersionedTreeBelowTopoheight_leading _ _ _ c
  | deleteBalancesBelow topoheight keepLast => exact deleteVersionedBalancesBelowTopoheight_leading _ _ c
  | deleteRegistrationsAt topoheight => exact deleteVersionedRegistrationsAtTopoheight_leading _ c
  | deleteRegistrationsAbove topoheight => exact deleteVersionedRegistrationsAboveTopoheight_leading _ c
  | deleteDagOrderAbove topoheight => exact deleteDagOrderAboveTopoheight_leading _ c
  | deleteVersionedDataAt topoheight => exact deleteVersionedDataAtTopoheight_leading _ c
  | deleteVersionedDataAbove topoheight => exact deleteVersionedDataAboveTopoheight_leading _ c
  | deleteVersionedDataBelow topoheight keepLast => exact deleteVersionedDataBelowTopoheight_leading _ _ c
  | clearCaches => exact clearCaches_leading c

theorem after_leads (start : SledStorage) (c : CachedStorage) (ops : List CachedOperation) : Leads start c (c.after ops) := by
  induction ops generalizing c with
  | nil => exact Leads.refl c
  | cons op ops ih => exact Leads.trans _ _ _ (step_leads start c op) (ih (c.step op))

theorem after_append (c : CachedStorage) (done rest : List CachedOperation) :
    c.after (done ++ rest) = (c.after done).after rest :=
  List.foldl_append

/-- A run only adds to the record. -/
theorem written_after (c : CachedStorage) (ops : List CachedOperation) : (c.after ops).written = c.written ++ c.writes ops := by
  obtain ⟨ws, hws, -⟩ := (after_leads c.storage c ops).kept
  unfold writes
  rw [hws, List.drop_left]

theorem writes_append (c : CachedStorage) (done rest : List CachedOperation) :
    c.writes (done ++ rest) = c.writes done ++ (c.after done).writes rest := by
  have hall := written_after c (done ++ rest)
  rw [after_append, written_after (c.after done), written_after c, List.append_assoc] at hall
  exact (List.append_cancel_left hall).symm

section Answers

/-- The parents kept for a block are those of its header. -/
def PastFresh (c : CachedStorage) (hash : Hash) : Prop :=
  ∀ cache tips, c.caches.pastBlocks = some cache → cache.peek hash = some tips →
    ∃ header, c.storage.loadFromDisk BlockHeader SledStorage.BLOCKS (hashToBytes hash) .getBlockHeaderByHash = .ok header ∧
      header.tips = tips

def orNotFound {T : Type} (context : DiskContext) : Except BlockchainError (Option T) → Except BlockchainError T
  | .ok (some value) => .ok value
  | .ok none => .error (.notFoundOnDisk context)
  | .error e => .error e

/-- Every query of the storage reads what is visible. -/
structure Answers (x : Visible) (c : CachedStorage) : Prop where
  load : ∀ (T : Type) [Serializer T] (tree key : IVec),
    c.storage.loadOptionalFromDiskInternal T tree key = decode T (x.value tree key)
  contains : ∀ tree key, c.storage.containsData tree key = (x.value tree key).isSome
  size : ∀ tree key, c.storage.getSizeFromDisk tree key =
    match x.value tree key with
    | some bytes => .ok bytes.length
    | none => .error (.notFoundOnDisk .dataLen)
  scanPrefix : ∀ tree pre key, key ∈ c.storage.scanPrefix tree pre ↔ pre <+: key ∧ (x.value tree key).isSome
  iter : ∀ tree key value, (key, value) ∈ c.storage.iter tree ↔ x.value tree key = some value
  iterKeys : ∀ tree key, key ∈ c.storage.iterKeys tree ↔ (x.value tree key).isSome
  counts : ∀ counter, c.storage.counters.get counter = x.counters.get counter
  executions : c.storage.counters.blocksExecutionCount = x.counters.blocksExecutionCount
  tips : c.storage.counters.tipsCache = x.counters.tipsCache
  prunedTopoheight : c.getPrunedTopoheight = x.counters.prunedTopoheight
  cached : ∀ (name : CacheName) (key : name.Key) (context : DiskContext), answer (getCacheableData name key context c) =
    orNotFound context (decode name.Value (x.value name.tree (name.keyBytes key)))
  optional : ∀ (name : CacheName) (key : name.Key), answer (getOptionalCacheableData name key c) =
    decode name.Value (x.value name.tree (name.keyBytes key))
  containsCached : ∀ (name : CacheName) (key : name.Key),
    c.containsDataCached name key = (x.value name.tree (name.keyBytes key)).isSome
  pastBlocks : ∀ hash, c.PastFresh hash → answer (getPastBlocksForBlockHash hash c) =
    (answer (getBlockHeaderByHash hash c)).map BlockHeader.tips

variable {c c' : CachedStorage}

/-- A query for the parents of a block, when those that are kept are not outdated. -/
theorem answer_getPastBlocks (hfed : c.Fed) {hash : Hash} (hfresh : c.PastFresh hash) :
    answer (getPastBlocksForBlockHash hash c) = (answer (getBlockHeaderByHash hash c)).map BlockHeader.tips := by
  have hheader : answer (getBlockHeaderByHash hash c) =
      c.storage.loadFromDisk BlockHeader SledStorage.BLOCKS (hashToBytes hash) .getBlockHeaderByHash :=
    answer_getCacheableData hfed .blocks hash _
  have hload {f : BlockHeader → Cached (List Hash)} (hf : ∀ header c', answer (f header c') = .ok header.tips) :
      answer ((getBlockHeaderByHash hash >>= f) c) = (answer (getBlockHeaderByHash hash c)).map BlockHeader.tips := by
    rw [Exec.bind_apply]
    cases getBlockHeaderByHash hash c with
    | ok header c' => exact hf header c'
    | error e c' => rfl
  unfold getPastBlocksForBlockHash
  rw [Exec.bind_apply, Exec.get_apply]
  dsimp only
  cases hcache : c.caches.pastBlocks with
  | none => exact hload fun _ _ => rfl
  | some cache =>
    dsimp only
    cases hpeek : cache.peek hash with
    | none => exact hload fun _ _ => rfl
    | some tips =>
      obtain ⟨header, hstored, rfl⟩ := hfresh cache tips hcache hpeek
      rw [hheader, hstored]
      rfl

theorem answers_visible (hfed : c.Fed) : Answers c.storage.visible c where
  load T _ tree key := c.storage.loadOptional_eq_view tree key T
  contains tree key := c.storage.containsData_eq_view tree key
  size tree key := c.storage.getSizeFromDisk_eq_view tree key
  scanPrefix tree pre key := c.storage.mem_scanPrefix_iff tree key pre
  iter tree key value := c.storage.mem_iter_iff tree key value
  iterKeys tree key := c.storage.mem_iterKeys_iff tree key
  counts counter := by cases counter <;> rfl
  executions := rfl
  tips := rfl
  prunedTopoheight := rfl
  cached name key context := by
    rw [answer_getCacheableData hfed, SledStorage.loadFromDisk, SledStorage.loadOptional_eq_view]
    show _ = orNotFound context (decode name.Value (c.storage.view name.tree (name.keyBytes key)))
    rcases decode name.Value (c.storage.view name.tree (name.keyBytes key)) with e | _ | value <;> rfl
  optional name key := by
    rw [answer_getOptionalCacheableData hfed, SledStorage.loadOptional_eq_view]
    rfl
  containsCached name key := by
    rw [containsDataCached_eq hfed, SledStorage.containsData_eq_view]
    rfl
  pastBlocks hash hfresh := answer_getPastBlocks hfed hfresh

/-- The same storage below the caches, and the same answers through them. -/
structure AnswersAlike (c c' : CachedStorage) : Prop where
  storage : c'.storage = c.storage
  cached : ∀ (name : CacheName) (key : name.Key) (context : DiskContext),
    answer (getCacheableData name key context c') = answer (getCacheableData name key context c)
  optional : ∀ (name : CacheName) (key : name.Key),
    answer (getOptionalCacheableData name key c') = answer (getOptionalCacheableData name key c)
  containsCached : ∀ (name : CacheName) (key : name.Key), c'.containsDataCached name key = c.containsDataCached name key
  pastBlocks : ∀ hash, answer (getPastBlocksForBlockHash hash c') = answer (getPastBlocksForBlockHash hash c)

theorem answersAlike_of_storage (hstorage : c'.storage = c.storage) (hfed : c.Fed) (hfed' : c'.Fed)
    (hfresh : ∀ hash, c.PastFresh hash) (hfresh' : ∀ hash, c'.PastFresh hash) : AnswersAlike c c' where
  storage := hstorage
  cached name key context := by
    rw [answer_getCacheableData hfed', answer_getCacheableData hfed, hstorage]
  optional name key := by
    rw [(answers_visible hfed').optional, (answers_visible hfed).optional, hstorage]
  containsCached name key := by
    rw [(answers_visible hfed').containsCached, (answers_visible hfed).containsCached, hstorage]
  pastBlocks hash := by
    have hheader : answer (getBlockHeaderByHash hash c') = answer (getBlockHeaderByHash hash c) := by
      refine (answer_getCacheableData hfed' .blocks hash _).trans ?_
      rw [hstorage]
      exact (answer_getCacheableData hfed .blocks hash _).symm
    rw [answer_getPastBlocks hfed' (hfresh' hash), answer_getPastBlocks hfed (hfresh hash), hheader]

end Answers

section Rollback

variable {c : CachedStorage}

/-- The commit point is started, nothing is pending. -/
def opened (c : CachedStorage) : CachedStorage :=
  { c with storage := { c.storage with snapshot := some (Snapshot.new c.storage.cache) } }

section

omit [Serializer BlockHeader] [Serializer Transaction] [Serializer VarUint]

theorem startCommitPoint_apply (hclosed : c.storage.snapshot = none) : startCommitPoint c = .ok ⟨⟩ c.opened := by
  unfold startCommitPoint
  rw [Exec.bind_apply, Exec.get_apply]
  dsimp only
  rw [Exec.bind_apply, Exec.ofExcept_apply]
  unfold SledStorage.startCommitPoint
  rw [hclosed]
  rfl

theorem inside_opened (hclosed : c.storage.snapshot = none) (hloaded : c.storage.loadCacheFromDisk = c.storage) :
    c.opened.storage.Inside c.storage where
  opened := nofun
  ready snapshot hs := by
    cases hs
    exact Snapshot.noDrop_new _
  db := rfl
  restored := by
    have hbase : c.opened.storage.base = c.storage := by
      rcases c with ⟨⟨db, snapshot, cache⟩, caches, written⟩
      cases hclosed
      rfl
    unfold SledStorage.restored
    rw [hbase, hloaded]

theorem visible_opened (hclosed : c.storage.snapshot = none) : c.opened.storage.visible = c.storage.visible := by
  have hview (tree key : IVec) : c.opened.storage.view tree key = c.storage.view tree key := by
    simp only [SledStorage.view, opened, Snapshot.pending_new, Option.getD_none, hclosed]
  have hcounters : c.opened.storage.counters = c.storage.counters := by
    simp only [SledStorage.counters, opened, Snapshot.new, hclosed]
  exact DiskWrite.visible_eq hview hcounters rfl

end

theorem fed_opened (hclosed : c.storage.snapshot = none) (hfed : c.Fed) : c.opened.Fed := fun name cache hcache =>
  (hfed name cache hcache).mono fun _ _ hfits => .inr (hfits.resolve_left fun hheld => hheld.1 hclosed)

omit [Serializer BlockHeader] [Serializer Transaction] [Serializer VarUint] in
theorem endCommitPoint_apply {start : SledStorage} (hclosed : start.snapshot = none) (h : c.storage.Inside start) :
    endCommitPoint false c = .ok ⟨⟩ { c with storage := start, caches := c.caches.clear } := by
  have hbase : c.storage.base.loadCacheFromDisk = start := by
    rcases start with ⟨db, snapshot, cache⟩
    cases hclosed
    obtain ⟨-, -, rfl, rfl⟩ := h
    rfl
  obtain ⟨snapshot, hs⟩ := Option.ne_none_iff_exists'.mp h.opened
  have hend : c.storage.endCommitPoint false = .ok start := by
    unfold SledStorage.endCommitPoint
    rw [hs]
    exact congrArg Except.ok hbase
  unfold endCommitPoint
  rw [Exec.bind_apply, Exec.get_apply]
  dsimp only
  rw [Exec.bind_apply, Exec.ofExcept_apply, hend]
  rfl

omit [Serializer Transaction] [Serializer VarUint] in
theorem pastFresh_clear (c : CachedStorage) (hash : Hash) : ({ c with caches := c.caches.clear } : CachedStorage).PastFresh hash := by
  intro cache tips hcache hpeek
  obtain ⟨held, -, rfl⟩ := Option.map_eq_some_iff.mp hcache
  rw [Lru.peek_clear] at hpeek
  cases hpeek

/-- A commit point over a storage whose counters are those of its disk and whose caches agree with it, in which every write
meets its condition: every query sees what was written so far, and throwing the commit point away gives everything back. -/
theorem commitPoint_rolls_back (hclosed : c.storage.snapshot = none) (hloaded : c.storage.loadCacheFromDisk = c.storage)
    (hfed : c.Fed) (hfresh : ∀ hash, c.PastFresh hash) (ops : List CachedOperation)
    (hmeets : ∀ e ∈ c.opened.writes ops, e.2.Meets e.1) :
    startCommitPoint c = .ok ⟨⟩ c.opened ∧
    (∀ done rest, ops = done ++ rest →
      Answers ((c.opened.writes done).foldl (fun x e => e.2.effect x) c.storage.visible) (c.opened.after done)) ∧
    ∃ c', endCommitPoint false (c.opened.after ops) = .ok ⟨⟩ c' ∧ AnswersAlike c c' := by
  have hkept (done : List CachedOperation) (hdone : ∀ e ∈ c.opened.writes done, e.2.Meets e.1) :
      (c.opened.after done).storage.Inside c.storage ∧ (c.opened.after done).Fed ∧
        (c.opened.after done).storage.visible = (c.opened.writes done).foldl (fun x e => e.2.effect x) c.storage.visible := by
    obtain ⟨ws, hws, hkept⟩ := (after_leads c.storage c.opened done).kept
    rw [written_after, List.append_cancel_left_eq] at hws
    rw [← visible_opened hclosed, hws]
    exact hkept (hws ▸ hdone) (inside_opened hclosed hloaded) (fed_opened hclosed hfed)
  refine ⟨startCommitPoint_apply hclosed, fun done rest hops => ?_, ?_⟩
  · rw [hops, writes_append] at hmeets
    obtain ⟨-, hfed', hvisible⟩ := hkept done fun e he => hmeets e (List.mem_append_left _ he)
    rw [← hvisible]
    exact answers_visible hfed'
  · obtain ⟨hinside, -, -⟩ := hkept ops hmeets
    refine ⟨_, endCommitPoint_apply hclosed hinside, ?_⟩
    exact answersAlike_of_storage rfl hfed (Fed.clear ⟨c.storage, _, _⟩) hfresh (pastFresh_clear ⟨c.storage, _, _⟩)

end Rollback

end CachedStorage

section Samples

open CachedStorage

local instance : Serializer BlockHeader := SledStorage.unused BlockHeader
local instance : Serializer Transaction := SledStorage.unused Transaction
local instance : Serializer VarUint := SledStorage.unused VarUint

def cachedOver (s : SledStorage) : CachedStorage := ⟨s, ⟨fun _ => some ⟨4, []⟩, some ⟨4, []⟩⟩, []⟩

theorem cachedOver_fed (s : SledStorage) : (cachedOver s).Fed := by
  intro name cache hcache
  cases hcache
  exact Lru.all_clear _ ⟨4, []⟩

theorem cachedOver_fresh (s : SledStorage) (hash : Hash) : (cachedOver s).PastFresh hash := by
  intro cache tips hcache hpeek
  cases hcache
  cases hpeek

def assetRegistrations : List CachedOperation :=
  [.addAsset 9#256 0 [], .insertCounted .accounts (hashToBytes 7#256) (SledStorage.heightBytes 3), .storeTips [5#256],
    .getOptionalCacheableData .assets (9#256 : Hash)]

/-- Under the commit point the asset is counted; afterwards it is gone. -/
theorem registrations_rolled_back :
    ((cachedOver SledStorage.fresh).opened.after assetRegistrations).storage.counters.get .assets = 1 ∧
      ∃ c', endCommitPoint false ((cachedOver SledStorage.fresh).opened.after assetRegistrations) = .ok ⟨⟩ c' ∧
        AnswersAlike (cachedOver SledStorage.fresh) c' := by
  have hwrites : ((cachedOver SledStorage.fresh).opened.writes assetRegistrations).map Prod.snd =
      [.insert SledStorage.ASSETS (hashToBytes 9#256) (SledStorage.heightBytes 0),
        .insert SledStorage.VERSIONED_ASSETS (SledStorage.heightBytes 0 ++ hashToBytes 9#256) [],
        .count .assets 1, .insert SledStorage.EXTRA SledStorage.ASSETS_COUNT (Serializer.toBytes (1 : UInt64)),
        .insert SledStorage.NONCES (hashToBytes 7#256) (SledStorage.heightBytes 3),
        .count .accounts 1, .insert SledStorage.EXTRA SledStorage.ACCOUNTS_COUNT (Serializer.toBytes (1 : UInt64)),
        .insert SledStorage.EXTRA SledStorage.TIPS (Serializer.toBytes ([5#256] : Tips)), .storeTips [5#256]] := by
    decide +kernel
  have hmeets : ∀ e ∈ (cachedOver SledStorage.fresh).opened.writes assetRegistrations, e.2.Meets e.1 := by
    intro e he
    have hmem := List.mem_map_of_mem (f := Prod.snd) he
    rw [hwrites] at hmem
    simp only [List.mem_cons, List.not_mem_nil, or_false] at hmem
    rcases hmem with h | h | h | h | h | h | h | h | h
    all_goals
      rw [h]
      exact trivial
  refine ⟨by decide +kernel, ?_⟩
  exact (commitPoint_rolls_back rfl rfl (cachedOver_fed _) (cachedOver_fresh _) assetRegistrations hmeets).2.2

/-- The nonce of an account at the topoheights 5, 3 and 1. -/
def threeNonces : SledStorage :=
  let versioned (topoheight : UInt64) (previous : Option UInt64) (s : SledStorage) : SledStorage :=
    (s.insertIntoDisk SledStorage.VERSIONED_NONCES (SledStorage.getVersionedKey (hashToBytes 7#256) topoheight)
      (Serializer.toBytes previous ++ SledStorage.heightBytes 0)).2
  versioned 1 none (versioned 3 (some 1) (versioned 5 (some 3)
    (SledStorage.fresh.insertIntoDisk SledStorage.NONCES (hashToBytes 7#256) (SledStorage.heightBytes 5)).2))

/-- The link from the second nonce to the first is cut under the commit point, and stays cut. -/
theorem rollback_leaves_cut_link :
    ¬∃ c', endCommitPoint false ((cachedOver threeNonces).opened.after [.deleteVersionsBelow .nonces 2 true]) = .ok ⟨⟩ c' ∧
      AnswersAlike (cachedOver threeNonces) c' := by
  rintro ⟨c', hend, halike⟩
  have hcut : (Exec.stateOf (endCommitPoint false
      ((cachedOver threeNonces).opened.after [.deleteVersionsBelow .nonces 2 true]))).storage.loadOptionalFromDiskInternal
        (Option UInt64) SledStorage.VERSIONED_NONCES (SledStorage.getVersionedKey (hashToBytes 7#256) 3) = .ok (some none) := by
    decide +kernel
  have hlinked : threeNonces.loadOptionalFromDiskInternal
      (Option UInt64) SledStorage.VERSIONED_NONCES (SledStorage.getVersionedKey (hashToBytes 7#256) 3) = .ok (some (some 1)) := by
    decide +kernel
  rw [hend] at hcut
  have hsame := (congrArg (fun s : SledStorage => s.loadOptionalFromDiskInternal (Option UInt64) SledStorage.VERSIONED_NONCES
    (SledStorage.getVersionedKey (hashToBytes 7#256) 3)) halike.storage).symm.trans hcut
  exact absurd (hlinked.symm.trans hsame) (by simp)

end Samples

end Xelis.Storage
