import Xelis.Storage.CommitPoint
import Xelis.Storage.Encoding
import Xelis.Storage.SledOperations

namespace Xelis.Storage.SledStorage

open Lib (FiniteMap Exec)

variable {s s' : SledStorage}

/-- No tree of an open commit point is dropped. -/
def Ready (s : SledStorage) : Prop := ∀ snapshot, s.snapshot = some snapshot → snapshot.NoDrop

theorem nodup_iterKeys (s : SledStorage) (tree : IVec) : (s.iterKeys tree).Nodup := by
  have hdisk : (s.db.tree tree).keys.Nodup := Std.ExtTreeMap.nodup_keys
  unfold iterKeys
  rcases s.snapshot with _ | snapshot
  · exact hdisk
  · simp only [Snapshot.iterKeys]
    rcases snapshot.trees[tree]? with _ | _ | batch
    · exact hdisk
    · exact hdisk
    · refine List.nodup_append.mpr ⟨?_, hdisk.filter _, ?_⟩
      · have hkeys : batch.writes.toList.Pairwise (fun a b => a.1 ≠ b.1) := by
          have hnodup : (batch.writes.toList.map Prod.fst).Nodup := by
            rw [Std.ExtTreeMap.map_fst_toList_eq_keys]
            exact Std.ExtTreeMap.nodup_keys
          exact List.pairwise_map.mp hnodup
        refine List.Pairwise.filterMap _ ?_ hkeys
        rintro ⟨a, v⟩ ⟨b, w⟩ hne c hc d hd
        obtain ⟨-, -, rfl⟩ := Option.map_eq_some_iff.mp hc
        obtain ⟨-, -, rfl⟩ := Option.map_eq_some_iff.mp hd
        exact hne
      · intro a ha b hb hab
        subst hab
        obtain ⟨⟨key, value⟩, hmem, hvalue⟩ := List.mem_filterMap.mp ha
        obtain ⟨v, rfl, rfl⟩ := Option.map_eq_some_iff.mp hvalue
        have hcontains : batch.writes.contains key = true := by
          rw [Std.ExtTreeMap.contains_eq_isSome_getElem?, Std.ExtTreeMap.mem_toList_iff_getElem?_eq_some.mp hmem]
          rfl
        have hnot := (List.mem_filter.mp hb).2
        rw [hcontains] at hnot
        cases hnot

theorem nodup_scanPrefix (s : SledStorage) (tree pre : IVec) : (s.scanPrefix tree pre).Nodup := by
  have hdisk : ((s.db.tree tree).keys.filter (pre.isPrefixOf ·)).Nodup := Std.ExtTreeMap.nodup_keys.filter _
  unfold scanPrefix
  rcases s.snapshot with _ | snapshot
  · exact hdisk
  · simp only [Snapshot.scanPrefix]
    rcases snapshot.trees[tree]? with _ | _ | batch
    · exact hdisk
    · exact hdisk
    · refine List.nodup_append.mpr ⟨?_, hdisk.filter _, ?_⟩
      · have hnodup : (batch.writes.toList.map Prod.fst).Nodup := by
          rw [Std.ExtTreeMap.map_fst_toList_eq_keys]
          exact Std.ExtTreeMap.nodup_keys
        exact hnodup.sublist (List.filter_sublist.map Prod.fst)
      · intro a ha b hb hab
        subst hab
        obtain ⟨⟨key, value⟩, hmem, rfl⟩ := List.mem_map.mp ha
        have hcontains : batch.writes.contains key = true := by
          rw [Std.ExtTreeMap.contains_eq_isSome_getElem?,
            Std.ExtTreeMap.mem_toList_iff_getElem?_eq_some.mp (List.mem_filter.mp hmem).1]
          rfl
        have hnot := (List.mem_filter.mp hb).2
        rw [hcontains] at hnot
        cases hnot

/-- How many keys a tree has, for its readers. -/
def size (s : SledStorage) (tree : IVec) : Nat := (s.iterKeys tree).length

theorem size_congr {tree : IVec}
    (h : ∀ key, (s'.view tree key).isSome ↔ (s.view tree key).isSome) : s'.size tree = s.size tree := by
  refine List.Perm.length_eq ((List.perm_ext_iff_of_nodup (nodup_iterKeys _ _) (nodup_iterKeys _ _)).mpr fun key => ?_)
  rw [mem_iterKeys_iff, mem_iterKeys_iff, h]

theorem size_of_view {tree : IVec} (h : ∀ key, s'.view tree key = s.view tree key) : s'.size tree = s.size tree :=
  size_congr fun key => by rw [h]

theorem size_succ {tree key : IVec} (hnone : s.view tree key = none)
    (h : ∀ key', (s'.view tree key').isSome ↔ key' = key ∨ (s.view tree key').isSome) :
    s'.size tree = s.size tree + 1 := by
  have hfresh : key ∉ s.iterKeys tree := by
    rw [mem_iterKeys_iff, hnone]
    exact Bool.false_ne_true
  have hperm : (s'.iterKeys tree).Perm (key :: s.iterKeys tree) := by
    refine (List.perm_ext_iff_of_nodup (nodup_iterKeys _ _) (List.nodup_cons.mpr ⟨hfresh, nodup_iterKeys _ _⟩)).mpr ?_
    intro key'
    rw [mem_iterKeys_iff, h, List.mem_cons, mem_iterKeys_iff]
  exact hperm.length_eq

section Writes

variable {s : SledStorage} {tree key value : IVec}

/-- A key that a commit point has not seen yet is not on the disk. -/
def Exact (s : SledStorage) (tree key : IVec) : Prop :=
  ∀ snapshot, s.snapshot = some snapshot → (snapshot.pending tree key).isSome ∨ (s.db.tree tree)[key]? = none

theorem ready_insert (h : s.Ready) : (s.insertIntoDisk tree key value).2.Ready := by
  unfold insertIntoDisk
  intro snapshot' heq
  rcases hs : s.snapshot with _ | snapshot
  · rw [hs] at heq
    exact absurd heq (by simp)
  · rw [hs] at heq
    cases heq
    exact (Snapshot.insert_spec (h snapshot hs) tree key value).1

theorem ready_remove (h : s.Ready) : (s.removeFromDiskInternal tree key).2.Ready := by
  unfold removeFromDiskInternal
  intro snapshot' heq
  rcases hs : s.snapshot with _ | snapshot
  · rw [hs] at heq
    exact absurd heq (by simp)
  · rw [hs] at heq
    cases heq
    exact (Snapshot.remove_spec (h snapshot hs) tree key).1

theorem view_insert (h : s.Ready) (tree' key' : IVec) :
    (s.insertIntoDisk tree key value).2.view tree' key' =
      if tree = tree' ∧ key = key' then some value else s.view tree' key' := by
  rcases hs : s.snapshot with _ | snapshot
  · exact (view_step_direct hs (.insert tree key value)).2 tree' key'
  · simp only [insertIntoDisk, view, hs, (Snapshot.insert_spec (h snapshot hs) tree key value).2]
    split <;> simp

theorem view_remove (h : s.Ready) (hexact : s.Exact tree key) (tree' key' : IVec) :
    (s.removeFromDiskInternal tree key).2.view tree' key' =
      if tree = tree' ∧ key = key' then none else s.view tree' key' := by
  rcases hs : s.snapshot with _ | snapshot
  · exact (view_step_direct hs (.remove tree key)).2 tree' key'
  · simp only [removeFromDiskInternal, view, hs, (Snapshot.remove_spec (h snapshot hs) tree key).2]
    by_cases heq : tree = tree' ∧ key = key'
    · obtain ⟨rfl, rfl⟩ := heq
      rw [if_pos ⟨rfl, rfl⟩, if_pos ⟨rfl, rfl⟩]
      cases hpending : snapshot.pending tree key with
      | some w => rfl
      | none =>
        have hdisk := (hexact snapshot hs).resolve_left (by rw [hpending]; exact Bool.false_ne_true)
        simpa using hdisk
    · rw [if_neg heq, if_neg heq]

theorem view_remove_of_ne (h : s.Ready) {tree' key' : IVec} (hne : ¬(tree = tree' ∧ key = key')) :
    (s.removeFromDiskInternal tree key).2.view tree' key' = s.view tree' key' := by
  rcases hs : s.snapshot with _ | snapshot
  · exact ((view_step_direct hs (.remove tree key)).2 tree' key').trans (if_neg hne)
  · simp only [removeFromDiskInternal, view, hs, (Snapshot.remove_spec (h snapshot hs) tree key).2, if_neg hne]

theorem view_remove_or (h : s.Ready) (tree key tree' key' : IVec) :
    (s.removeFromDiskInternal tree key).2.view tree' key' = s.view tree' key' ∨
      (s.removeFromDiskInternal tree key).2.view tree' key' = none := by
  by_cases heq : tree = tree' ∧ key = key'
  · obtain ⟨rfl, rfl⟩ := heq
    rcases hs : s.snapshot with _ | snapshot
    · exact .inr (((view_step_direct hs (.remove tree key)).2 tree key).trans (if_pos ⟨rfl, rfl⟩))
    · simp only [removeFromDiskInternal, view, hs, (Snapshot.remove_spec (h snapshot hs) tree key).2]
      cases snapshot.pending tree key with
      | some w => exact .inr (by simp)
      | none => exact .inl (by simp)
  · exact .inl (view_remove_of_ne h heq)

theorem insert_previous (value : IVec) (h : s.Ready) (hexact : s.Exact tree key) :
    (s.insertIntoDisk tree key value).1 = s.view tree key := by
  unfold insertIntoDisk view
  rcases hs : s.snapshot with _ | snapshot
  · rfl
  · dsimp only
    have hprevious : (snapshot.insert tree key value).1 = (snapshot.pending tree key).join := by
      unfold Snapshot.insert Snapshot.pending
      rcases htree : snapshot.trees[tree]? with _ | _ | batch
      · rfl
      · exact absurd htree (h snapshot hs tree)
      · rfl
    rw [hprevious]
    rcases hexact snapshot hs with hpending | hdisk
    · obtain ⟨w, hw⟩ := Option.isSome_iff_exists.mp hpending
      rw [hw]
      rfl
    · cases hpending : snapshot.pending tree key with
      | some w => rfl
      | none => exact hdisk.symm

/-- A removal tells what its readers saw, also where it is not kept. -/
theorem remove_previous (h : s.Ready) : (s.removeFromDiskInternal tree key).1 = s.view tree key := by
  unfold removeFromDiskInternal view
  rcases hs : s.snapshot with _ | snapshot
  · rfl
  · dsimp only
    unfold Snapshot.remove Snapshot.pending
    rcases htree : snapshot.trees[tree]? with _ | _ | batch
    · rfl
    · exact absurd htree (h snapshot hs tree)
    · dsimp only [Option.getD_some]
      cases hw : batch.writes[key]? with
      | some w => simp [Batch.remove, hw]
      | none => simp [Batch.remove, hw]

end Writes

section Invariant

/-- What is kept both in memory and on the disk. -/
inductive Slot where
  | count (counter : Counter)
  | executions
  | tips
  | prunedTopoheight
  deriving DecidableEq

def Slot.key : Slot → IVec
  | .count counter => Counter.key counter
  | .executions => BLOCKS_EXECUTION_ORDER_COUNT
  | .tips => TIPS
  | .prunedTopoheight => PRUNED_TOPOHEIGHT

def Slot.bytes (cache : CounterCache) : Slot → Option IVec
  | .count counter => some (Serializer.toBytes (cache.get counter))
  | .executions => some (Serializer.toBytes cache.blocksExecutionCount)
  | .tips => some (Serializer.toBytes cache.tipsCache)
  | .prunedTopoheight => cache.prunedTopoheight.map Serializer.toBytes

def positionOf (s : SledStorage) (key : IVec) : Except BlockchainError UInt64 :=
  s.loadFromDisk UInt64 BLOCKS_EXECUTION_ORDER key .searchBlockPositionInOrder

def UniquePositions (s : SledStorage) : Prop :=
  ∀ key key' position, s.positionOf key = .ok position → s.positionOf key' = .ok position → key = key'

/-- The counters in use are the sizes of their trees, and what is on the disk of the cache is the same there. The order
of execution is part of it if `ordered`. -/
structure Counted (ordered : Prop) (s : SledStorage) : Prop where
  counts : ∀ counter, s.counters.get counter = UInt64.ofNat (s.size (Counter.tree counter))
  persisted : ∀ (slot : Slot) bytes, (slot = .executions → ordered) → s.view EXTRA slot.key = some bytes →
    slot.bytes s.counters = some bytes
  tips : s.counters.tipsCache.Nodup
  positions : ordered → s.UniquePositions

/-- The storage with its commit point thrown away. -/
def base (s : SledStorage) : SledStorage := { s with snapshot := none }

/-- Counted now, and again if the commit point is thrown away. -/
structure InStep (ordered : Prop) (s : SledStorage) : Prop where
  ready : s.Ready
  now : s.Counted ordered
  before : s.base.Counted ordered

variable {s s' s'' : SledStorage} {ordered : Prop}

theorem Counted.unordered (h : s.Counted ordered) : s.Counted False where
  counts := h.counts
  persisted slot bytes hslot := h.persisted slot bytes fun heq => (hslot heq).elim
  tips := h.tips
  positions := False.elim

theorem InStep.unordered (h : s.InStep ordered) : s.InStep False := ⟨h.ready, h.now.unordered, h.before.unordered⟩

/-- The trees that are looked at: those that are counted, and the order of execution. -/
inductive Part where
  | counted (counter : Counter)
  | order

def Part.tree : Part → IVec
  | .counted counter => Counter.tree counter
  | .order => BLOCKS_EXECUTION_ORDER

/-- The same counters and the same trees but for the parts in `changed`. -/
structure SameBut (changed : Part → Prop) (s s' : SledStorage) : Prop where
  ready : s'.Ready
  counters : s'.counters = s.counters
  persisted : ∀ slot : Slot, s'.view EXTRA slot.key = s.view EXTRA slot.key
  sizes : ∀ counter, ¬changed (.counted counter) → s'.size (Counter.tree counter) = s.size (Counter.tree counter)
  order : ¬changed .order → ∀ key, s'.view BLOCKS_EXECUTION_ORDER key = s.view BLOCKS_EXECUTION_ORDER key
  closed : s.snapshot = none → s'.snapshot = none
  before : s.snapshot ≠ none → s'.snapshot ≠ none ∧ ∀ ordered, s.base.Counted ordered → s'.base.Counted ordered

/-- What a write leaves alone, from any state that is ready. -/
def Keeps (changed : Part → Prop) (s s' : SledStorage) : Prop := s.Ready → SameBut changed s s'

variable {changed changed' : Part → Prop}

theorem Keeps.refl (changed : Part → Prop) (s : SledStorage) : Keeps changed s s :=
  fun h => ⟨h, rfl, fun _ => rfl, fun _ _ => rfl, fun _ _ => rfl, id, fun hopen => ⟨hopen, fun _ => id⟩⟩

theorem SameBut.trans (h : SameBut changed s s') (h' : SameBut changed s' s'') : SameBut changed s s'' := by
  refine ⟨h'.ready, h'.counters.trans h.counters, fun slot => (h'.persisted slot).trans (h.persisted slot),
    fun counter hnot => (h'.sizes counter hnot).trans (h.sizes counter hnot),
    fun hnot key => (h'.order hnot key).trans (h.order hnot key), fun hnone => h'.closed (h.closed hnone), fun hopen => ?_⟩
  obtain ⟨hopen', hbase⟩ := h.before hopen
  exact ⟨(h'.before hopen').1, fun ordered hcounted => (h'.before hopen').2 ordered (hbase ordered hcounted)⟩

theorem Keeps.trans (h : Keeps changed s s') (h' : Keeps changed s' s'') : Keeps changed s s'' :=
  fun hready => (h hready).trans (h' (h hready).ready)

theorem SameBut.mono (h : SameBut changed s s') (hsub : ∀ part, changed part → changed' part) : SameBut changed' s s' where
  ready := h.ready
  counters := h.counters
  persisted := h.persisted
  sizes counter hnot := h.sizes counter fun hchanged => hnot (hsub _ hchanged)
  order hnot := h.order fun hchanged => hnot (hsub _ hchanged)
  closed := h.closed
  before := h.before

/-- Nothing that is looked at has changed. -/
abbrev Quiet : SledStorage → SledStorage → Prop := Keeps fun _ => False

theorem positionOf_congr (h : ∀ key, s'.view BLOCKS_EXECUTION_ORDER key = s.view BLOCKS_EXECUTION_ORDER key) (key : IVec) :
    s'.positionOf key = s.positionOf key := by
  unfold positionOf loadFromDisk
  rw [loadOptional_eq_view, loadOptional_eq_view, h]

theorem uniquePositions_congr (h : ∀ key, s'.view BLOCKS_EXECUTION_ORDER key = s.view BLOCKS_EXECUTION_ORDER key)
    (hunique : s.UniquePositions) : s'.UniquePositions := by
  intro key key' position hkey hkey'
  rw [positionOf_congr h] at hkey hkey'
  exact hunique key key' position hkey hkey'

theorem Counted.congr (h : s.Counted ordered) (hcounters : s'.counters = s.counters)
    (hsizes : ∀ counter, UInt64.ofNat (s'.size (Counter.tree counter)) = UInt64.ofNat (s.size (Counter.tree counter)))
    (hpersisted : ∀ slot : Slot, s'.view EXTRA slot.key = s.view EXTRA slot.key)
    (horder : ordered → s'.UniquePositions) : s'.Counted ordered where
  counts counter := by rw [hcounters, hsizes, h.counts]
  persisted slot bytes hslot hbytes := by
    rw [hpersisted] at hbytes
    rw [hcounters, h.persisted slot bytes hslot hbytes]
  tips := by rw [hcounters]; exact h.tips
  positions := horder

/-- Without a commit point the storage is what is left when it is thrown away. -/
theorem base_eq (h : s.snapshot = none) : s.base = s := by
  unfold base
  rw [← h]

theorem InStep.of_counted (h : s.InStep ordered) (hsame : SameBut changed s s') (hnow : s'.Counted ordered) :
    s'.InStep ordered := by
  refine ⟨hsame.ready, hnow, ?_⟩
  by_cases hopen : s.snapshot = none
  · rw [base_eq (hsame.closed hopen)]
    exact hnow
  · exact (hsame.before hopen).2 ordered h.before

theorem InStep.of_sizes (h : s.InStep ordered) (hsame : SameBut changed s s')
    (hsizes : ∀ counter, UInt64.ofNat (s'.size (Counter.tree counter)) = UInt64.ofNat (s.size (Counter.tree counter)))
    (hpositions : ordered → s'.UniquePositions) : s'.InStep ordered :=
  h.of_counted hsame (h.now.congr hsame.counters hsizes hsame.persisted hpositions)

theorem InStep.same (h : s.InStep ordered) (hsame : SameBut (fun _ => False) s s') : s'.InStep ordered :=
  h.of_sizes hsame (fun counter => congrArg UInt64.ofNat (hsame.sizes counter id))
    fun hordered => uniquePositions_congr (hsame.order id) (h.now.positions hordered)

theorem InStep.quiet (h : s.InStep ordered) (hquiet : Quiet s s') : s'.InStep ordered := h.same (hquiet h.ready)

end Invariant

section Frames

theorem tree_injective {a b : Counter} (h : Counter.tree a = Counter.tree b) : a = b := by
  revert h
  cases a <;> cases b <;> decide +kernel

theorem tree_ne_order (counter : Counter) : Counter.tree counter ≠ BLOCKS_EXECUTION_ORDER := by
  cases counter <;> decide +kernel

theorem tree_ne_extra (part : Part) : part.tree ≠ EXTRA := by
  cases part with
  | counted counter => cases counter <;> decide +kernel
  | order => decide +kernel

theorem key_injective {a b : Slot} (h : a.key = b.key) : a = b := by
  cases a with
  | count c =>
    cases b with
    | count d => revert h; cases c <;> cases d <;> decide +kernel
    | executions => revert h; cases c <;> decide +kernel
    | tips => revert h; cases c <;> decide +kernel
    | prunedTopoheight => revert h; cases c <;> decide +kernel
  | executions =>
    cases b with
    | count d => revert h; cases d <;> decide +kernel
    | executions => rfl
    | tips => revert h; decide +kernel
    | prunedTopoheight => revert h; decide +kernel
  | tips =>
    cases b with
    | count d => revert h; cases d <;> decide +kernel
    | executions => revert h; decide +kernel
    | tips => rfl
    | prunedTopoheight => revert h; decide +kernel
  | prunedTopoheight =>
    cases b with
    | count d => revert h; cases d <;> decide +kernel
    | executions => revert h; decide +kernel
    | tips => revert h; decide +kernel
    | prunedTopoheight => rfl

/-- Neither a tree that is looked at nor the one that holds the counters. -/
def Outside (tree : IVec) : Prop :=
  tree ≠ ASSETS ∧ tree ≠ NONCES ∧ tree ≠ TRANSACTIONS ∧ tree ≠ BLOCKS ∧ tree ≠ CONTRACTS ∧ tree ≠ BLOCKS_EXECUTION_ORDER ∧
    tree ≠ EXTRA

instance (tree : IVec) : Decidable (Outside tree) := inferInstanceAs (Decidable (_ ∧ _))

theorem Outside.tree {tree : IVec} (h : Outside tree) (part : Part) : part.tree ≠ tree := by
  obtain ⟨hassets, hnonces, htransactions, hblocks, hcontracts, horder, -⟩ := h
  cases part with
  | order => exact Ne.symm horder
  | counted counter =>
    cases counter with
    | assets => exact Ne.symm hassets
    | accounts => exact Ne.symm hnonces
    | transactions => exact Ne.symm htransactions
    | blocks => exact Ne.symm hblocks
    | contracts => exact Ne.symm hcontracts

theorem Outside.extra {tree : IVec} (h : Outside tree) : tree ≠ EXTRA := h.2.2.2.2.2.2

/-- Trees that blocks and assets are written to and that nothing counts. -/
def uncountedTrees : List IVec :=
  [BLOCKS_AT_HEIGHT, TOPO_BY_HASH, HASH_AT_TOPO, DIFFICULTY, DIFFICULTY_COVARIANCE, TX_BLOCKS, VERSIONED_ASSETS]

theorem outside_uncounted : ∀ tree ∈ uncountedTrees, Outside tree := by
  decide +kernel

variable {s : SledStorage} {tree key value : IVec}

theorem counters_insert : (s.insertIntoDisk tree key value).2.counters = s.counters := by
  unfold insertIntoDisk counters
  rcases hs : s.snapshot with _ | snapshot
  · simp
  · simp only [Snapshot.insert]
    split <;> rfl

theorem counters_remove : (s.removeFromDiskInternal tree key).2.counters = s.counters := by
  unfold removeFromDiskInternal counters
  rcases hs : s.snapshot with _ | snapshot
  · simp
  · simp only [Snapshot.remove]
    split <;> rfl

theorem snapshot_insert : (s.insertIntoDisk tree key value).2.snapshot = none ↔ s.snapshot = none := by
  unfold insertIntoDisk
  rcases s.snapshot with _ | snapshot <;> simp

theorem snapshot_remove : (s.removeFromDiskInternal tree key).2.snapshot = none ↔ s.snapshot = none := by
  unfold removeFromDiskInternal
  rcases s.snapshot with _ | snapshot <;> simp

theorem base_insert (h : s.snapshot ≠ none) : (s.insertIntoDisk tree key value).2.base = s.base := by
  unfold insertIntoDisk
  rcases hs : s.snapshot with _ | snapshot
  · exact absurd hs h
  · rfl

theorem base_remove (h : s.snapshot ≠ none) : (s.removeFromDiskInternal tree key).2.base = s.base := by
  unfold removeFromDiskInternal
  rcases hs : s.snapshot with _ | snapshot
  · exact absurd hs h
  · rfl

variable {changed : Part → Prop}

theorem insert_keeps (htree : ∀ part : Part, part.tree = tree → changed part)
    (hkey : tree = EXTRA → ∀ slot : Slot, slot.key ≠ key) : Keeps changed s (s.insertIntoDisk tree key value).2 := by
  intro hready
  have hview {tree' key' : IVec} (hne : ¬(tree = tree' ∧ key = key')) :
      (s.insertIntoDisk tree key value).2.view tree' key' = s.view tree' key' := by
    rw [view_insert hready, if_neg hne]
  refine ⟨ready_insert hready, counters_insert, fun slot => hview ?_, fun counter hnot => size_congr fun key' => ?_,
    fun hnot key' => hview ?_, snapshot_insert.mpr, fun hopen => ⟨fun hnone => hopen (snapshot_insert.mp hnone), ?_⟩⟩
  · rintro ⟨heq, hsame⟩
    exact hkey heq slot hsame.symm
  · rw [hview]
    rintro ⟨heq, -⟩
    exact hnot (htree (.counted counter) heq.symm)
  · rintro ⟨heq, -⟩
    exact hnot (htree .order heq.symm)
  · rw [base_insert hopen]
    exact fun _ => id

theorem remove_keeps (htree : ∀ part : Part, part.tree = tree → changed part)
    (hkey : tree = EXTRA → ∀ slot : Slot, slot.key ≠ key) : Keeps changed s (s.removeFromDiskInternal tree key).2 := by
  intro hready
  refine ⟨ready_remove hready, counters_remove, fun slot => view_remove_of_ne hready ?_,
    fun counter hnot => size_congr fun key' => ?_, fun hnot key' => view_remove_of_ne hready ?_, snapshot_remove.mpr,
    fun hopen => ⟨fun hnone => hopen (snapshot_remove.mp hnone), ?_⟩⟩
  · rintro ⟨heq, hsame⟩
    exact hkey heq slot hsame.symm
  · rw [view_remove_of_ne hready]
    rintro ⟨heq, -⟩
    exact hnot (htree (.counted counter) heq.symm)
  · rintro ⟨heq, -⟩
    exact hnot (htree .order heq.symm)
  · rw [base_remove hopen]
    exact fun _ => id

theorem writeTree_quiet (houtside : Outside tree) : Quiet s (writeTree tree key value s) := by
  have htrees (other : IVec) (hne : tree ≠ other) : (writeTree tree key value s).db.tree other = s.db.tree other := by
    unfold writeTree Db.tree
    dsimp only
    rw [FiniteMap.getElem?_insert_of_ne _ _ hne]
  have hview (other key' : IVec) (hne : tree ≠ other) : (writeTree tree key value s).view other key' = s.view other key' := by
    unfold view
    rw [htrees other hne]
    rfl
  have hpart (part : Part) : tree ≠ part.tree := Ne.symm (houtside.tree part)
  intro hready
  refine ⟨hready, rfl, fun slot => hview _ _ houtside.extra,
    fun counter _ => size_of_view fun key' => hview _ _ (hpart (.counted counter)),
    fun _ key' => hview _ _ (hpart .order), id, fun hopen => ⟨hopen, fun ordered h => ?_⟩⟩
  · -- The disk under the commit point is written too, beside what is looked at.
    have hbase (other key' : IVec) (hne : tree ≠ other) :
        (writeTree tree key value s).base.view other key' = s.base.view other key' := by
      show ((writeTree tree key value s).db.tree other)[key']? = (s.db.tree other)[key']?
      rw [htrees other hne]
    refine h.congr rfl (fun counter => congrArg UInt64.ofNat (size_of_view fun key' => hbase _ _ (hpart (.counted counter))))
      (fun slot => hbase _ _ houtside.extra) fun hordered => ?_
    exact uniquePositions_congr (fun key' => hbase _ _ (hpart .order)) (h.positions hordered)

theorem insert_quiet (h : Outside tree) : Quiet s (s.insertIntoDisk tree key value).2 :=
  insert_keeps (fun part heq => h.tree part heq) fun heq => absurd heq h.extra

theorem remove_quiet (h : Outside tree) : Quiet s (s.removeFromDiskInternal tree key).2 :=
  remove_keeps (fun part heq => h.tree part heq) fun heq => absurd heq h.extra

end Frames

section Programs

variable {α : Type} {tree key value : IVec}

/-- The program changes nothing that is counted. -/
abbrev Silent (x : Disk α) : Prop := Exec.Moves Quiet x

theorem quiet_trans (a b c : SledStorage) (h : Quiet a b) (h' : Quiet b c) : Quiet a c := Keeps.trans h h'

variable {β : Type}

theorem Silent.bind {x : Disk α} {f : α → Disk β} (hx : Silent x) (hf : ∀ a, Silent (f a)) : Silent (x >>= f) :=
  Exec.Moves.bind quiet_trans hx hf

theorem Silent.pure (a : α) : Silent (pure a : Disk α) := fun s => Keeps.refl _ s

theorem Silent.throw (e : BlockchainError) : Silent (throw e : Disk α) := fun s => Keeps.refl _ s

theorem Silent.get : Silent (get : Disk SledStorage) := fun s => Keeps.refl _ s

theorem Silent.forM (xs : List β) {f : β → Disk PUnit} (h : ∀ b ∈ xs, Silent (f b)) : Silent (xs.forM f) :=
  Exec.Moves.forM (Keeps.refl _) quiet_trans xs h

theorem Silent.ofExcept (x : Except BlockchainError α) : Silent (Exec.ofExcept x : Disk α) := by
  cases x with
  | ok a => exact Silent.pure a
  | error e => exact Silent.throw e

theorem Silent.mapM (xs : List β) {f : β → Disk α} (h : ∀ b ∈ xs, Silent (f b)) : Silent (xs.mapM f) :=
  Exec.Moves.mapM (Keeps.refl _) quiet_trans xs h

theorem Silent.inStep {x : Disk α} (h : Silent x) {ordered : Prop} (hs : s.InStep ordered) :
    (Exec.stateOf (x s)).InStep ordered :=
  hs.quiet (h s)

theorem insertDisk_silent (h : Outside tree) : Silent (insertDisk tree key value) := fun _ => insert_quiet h

theorem insertDisk_extra_silent (h : ∀ slot : Slot, slot.key ≠ key) : Silent (insertDisk EXTRA key value) := by
  intro s
  exact insert_keeps (fun part heq => absurd heq (tree_ne_extra part)) fun _ => h

theorem removeFromDiskWithoutReading_silent (h : Outside tree) : Silent (removeFromDiskWithoutReading tree key) :=
  fun _ => remove_quiet h

theorem stateOf_removeFromDisk (T : Type) [Serializer T] (s : SledStorage) :
    Exec.stateOf (removeFromDisk T tree key s) = (s.removeFromDiskInternal tree key).2 := by
  unfold removeFromDisk
  obtain ⟨previous, s'⟩ := s.removeFromDiskInternal tree key
  cases previous with
  | none => rfl
  | some bytes =>
    dsimp only
    cases (Serializer.fromBytes bytes : Except ReaderError T) <;> rfl

theorem removeFromDisk_silent (T : Type) [Serializer T] (h : Outside tree) : Silent (removeFromDisk T tree key) := by
  intro s
  rw [stateOf_removeFromDisk]
  exact remove_quiet h

theorem deleteCacheableData_silent (T : Type) [Serializer T] (h : Outside tree) : Silent (deleteCacheableData T tree key) := by
  refine (removeFromDisk_silent T h).bind fun removed => ?_
  cases removed with
  | some value => exact Silent.pure _
  | none => exact Silent.throw _

theorem loadDisk_silent (T : Type) [Serializer T] (context : DiskContext) : Silent (loadDisk T tree key context) :=
  Silent.get.bind fun _ => Silent.ofExcept _

end Programs

section Counting

variable {s s' : SledStorage} {ordered : Prop} {changed : Part → Prop}

theorem get_set (cache : CounterCache) (counter other : Counter) (n : UInt64) :
    (cache.set counter n).get other = if counter = other then n else cache.get other := by
  cases counter <;> cases other <;> rfl

theorem bytes_set (cache : CounterCache) (counter : Counter) (n : UInt64) {slot : Slot} (h : slot ≠ .count counter) :
    slot.bytes (cache.set counter n) = slot.bytes cache := by
  cases slot with
  | count other =>
    have hne : counter ≠ other := fun heq => h (heq ▸ rfl)
    show some _ = some _
    rw [get_set, if_neg hne]
  | executions => cases counter <;> rfl
  | tips => cases counter <;> rfl
  | prunedTopoheight => cases counter <;> rfl

theorem tips_set (cache : CounterCache) (counter : Counter) (n : UInt64) :
    (cache.set counter n).tipsCache = cache.tipsCache := by
  cases counter <;> rfl

section MapCounters

variable (f : CounterCache → CounterCache)

theorem view_mapCounters (tree key : IVec) : (mapCounters f s).view tree key = s.view tree key := by
  unfold mapCounters view
  rcases hs : s.snapshot with _ | snapshot
  · simp
  · rfl

theorem counters_mapCounters : (mapCounters f s).counters = f s.counters := by
  unfold mapCounters counters
  rcases hs : s.snapshot with _ | snapshot
  · simp
  · rfl

theorem ready_mapCounters (h : s.Ready) : (mapCounters f s).Ready := by
  unfold mapCounters
  intro snapshot' heq
  rcases hs : s.snapshot with _ | snapshot
  · rw [hs] at heq
    exact absurd heq (by simp)
  · rw [hs] at heq
    cases heq
    exact h snapshot hs

theorem snapshot_mapCounters : (mapCounters f s).snapshot = none ↔ s.snapshot = none := by
  unfold mapCounters
  rcases s.snapshot with _ | snapshot <;> simp

theorem base_mapCounters (h : s.snapshot ≠ none) : (mapCounters f s).base = s.base := by
  unfold mapCounters
  rcases hs : s.snapshot with _ | snapshot
  · exact absurd hs h
  · rfl

/-- Whether the cache or the disk is written first makes no difference. -/
theorem mapCounters_insert (tree key value : IVec) :
    mapCounters f (s.insertIntoDisk tree key value).2 = ((mapCounters f s).insertIntoDisk tree key value).2 := by
  unfold mapCounters insertIntoDisk
  rcases hs : s.snapshot with _ | snapshot
  · simp
  · simp only [Snapshot.insert]
    split <;> rfl

end MapCounters

theorem store_inStep (slot : Slot) (h : s.InStep ordered) (hsame : SameBut changed s s') {f : CounterCache → CounterCache}
    {bytes : IVec} (hbytes : (slot = .executions → ordered) → slot.bytes (f s.counters) = some bytes)
    (hothers : ∀ other : Slot, other ≠ slot → other.bytes (f s.counters) = other.bytes s.counters)
    (hcounts : ∀ counter, (f s.counters).get counter = UInt64.ofNat (s'.size (Counter.tree counter)))
    (htips : (f s.counters).tipsCache.Nodup) (hpositions : ordered → s'.UniquePositions) :
    ((mapCounters f s').insertIntoDisk EXTRA slot.key bytes).2.InStep ordered := by
  have hready := ready_mapCounters f hsame.ready
  have hview (tree key : IVec) : ((mapCounters f s').insertIntoDisk EXTRA slot.key bytes).2.view tree key =
      if EXTRA = tree ∧ slot.key = key then some bytes else s'.view tree key := by
    rw [view_insert hready, view_mapCounters]
  have hpart (part : Part) (key : IVec) :
      ((mapCounters f s').insertIntoDisk EXTRA slot.key bytes).2.view part.tree key = s'.view part.tree key := by
    rw [hview, if_neg]
    rintro ⟨heq, -⟩
    exact tree_ne_extra part heq.symm
  have hcounters : ((mapCounters f s').insertIntoDisk EXTRA slot.key bytes).2.counters = f s.counters := by
    rw [counters_insert, counters_mapCounters, hsame.counters]
  have hnow : ((mapCounters f s').insertIntoDisk EXTRA slot.key bytes).2.Counted ordered := by
    refine ⟨fun counter => ?_, fun other bytes' hother hread => ?_, ?_, fun hordered => ?_⟩
    · rw [hcounters, hcounts]
      exact congrArg UInt64.ofNat (size_of_view (hpart (.counted counter))).symm
    · rw [hview] at hread
      rw [hcounters]
      by_cases heq : other = slot
      · subst heq
        rw [if_pos ⟨rfl, rfl⟩] at hread
        rw [hbytes hother, hread]
      · rw [if_neg fun hkey => heq (key_injective hkey.2).symm, hsame.persisted] at hread
        rw [hothers other heq]
        exact h.now.persisted other bytes' hother hread
    · rw [hcounters]
      exact htips
    · exact uniquePositions_congr (hpart .order) (hpositions hordered)
  refine ⟨ready_insert hready, hnow, ?_⟩
  by_cases hopen : s.snapshot = none
  · rw [base_eq (snapshot_insert.mpr ((snapshot_mapCounters _).mpr (hsame.closed hopen)))]
    exact hnow
  · obtain ⟨hopen', hbase⟩ := hsame.before hopen
    rw [base_insert fun hnone => hopen' ((snapshot_mapCounters _).mp hnone), base_mapCounters _ hopen']
    exact hbase ordered h.before

variable {counter : Counter}

abbrev SameButOne (counter : Counter) (s s' : SledStorage) : Prop := SameBut (· = .counted counter) s s'

theorem SameBut.positions (hsame : SameButOne counter s s') (h : s.InStep ordered) : ordered → s'.UniquePositions :=
  fun hordered => uniquePositions_congr (hsame.order nofun) (h.now.positions hordered)

theorem storeCount_apply (counter : Counter) (n : UInt64) (s : SledStorage) :
    storeCount counter n s = .ok ⟨⟩
      ((mapCounters (·.set counter n) s).insertIntoDisk EXTRA (Counter.key counter) (Serializer.toBytes n)).2 := rfl

theorem storeCount_inStep (h : s.InStep ordered) (hsame : SameButOne counter s s') {n : UInt64}
    (hn : n = UInt64.ofNat (s'.size (Counter.tree counter))) : (Exec.stateOf (storeCount counter n s')).InStep ordered := by
  rw [storeCount_apply]
  refine store_inStep (.count counter) h hsame (fun _ => ?_) (fun other hne => bytes_set _ _ _ hne)
    (fun other => ?_) ?_ (hsame.positions h)
  · show some _ = _
    rw [get_set, if_pos rfl]
  · rw [get_set]
    by_cases heq : counter = other
    · subst heq
      rw [if_pos rfl, hn]
    · rw [if_neg heq, h.now.counts, hsame.sizes other fun hcounted => heq (Part.counted.inj hcounted).symm]
  · rw [tips_set]
    exact h.now.tips

theorem InStep.of_size (h : s.InStep ordered) (hsame : SameButOne counter s s')
    (hsize : UInt64.ofNat (s'.size (Counter.tree counter)) = UInt64.ofNat (s.size (Counter.tree counter))) :
    s'.InStep ordered := by
  refine h.of_sizes hsame (fun other => ?_) (hsame.positions h)
  by_cases heq : other = counter
  · rw [heq]
    exact hsize
  · exact congrArg UInt64.ofNat (hsame.sizes other fun hcounted => heq (Part.counted.inj hcounted))

theorem tree_eq_counted {part : Part} (h : part.tree = Counter.tree counter) : part = .counted counter := by
  cases part with
  | counted other => exact congrArg Part.counted (tree_injective h)
  | order => exact absurd h.symm (tree_ne_order counter)

variable (s) (counter) (key value : IVec)

theorem insert_sameBut (hready : s.Ready) : SameButOne counter s (s.insertIntoDisk (Counter.tree counter) key value).2 :=
  insert_keeps (fun _ => tree_eq_counted) (fun heq => absurd heq (tree_ne_extra (.counted counter))) hready

theorem remove_sameBut (hready : s.Ready) : SameButOne counter s (s.removeFromDiskInternal (Counter.tree counter) key).2 :=
  remove_keeps (fun _ => tree_eq_counted) (fun heq => absurd heq (tree_ne_extra (.counted counter))) hready

theorem size_insert (hready : s.Ready) (tree : IVec) :
    (s.insertIntoDisk tree key value).2.size tree = s.size tree + if (s.view tree key).isNone then 1 else 0 := by
  have hview (key' : IVec) : ((s.insertIntoDisk tree key value).2.view tree key').isSome ↔
      key' = key ∨ (s.view tree key').isSome := by
    rw [view_insert hready]
    by_cases hkey : key = key'
    · simp [hkey]
    · simp [hkey, Ne.symm hkey]
  cases hnone : s.view tree key with
  | none => exact size_succ hnone hview
  | some held =>
    refine size_congr fun key' => ?_
    rw [hview]
    refine ⟨fun h => h.elim ?_ id, .inr⟩
    rintro rfl
    rw [hnone]
    rfl

theorem size_remove (hready : s.Ready) {tree : IVec} (hexact : s.Exact tree key) :
    (s.removeFromDiskInternal tree key).2.size tree + (if (s.view tree key).isSome then 1 else 0) = s.size tree := by
  have hview (key' : IVec) : (s.view tree key').isSome ↔
      key' = key ∧ (s.view tree key).isSome ∨ ((s.removeFromDiskInternal tree key).2.view tree key').isSome := by
    rw [view_remove hready hexact]
    by_cases hkey : key = key'
    · subst hkey
      simp
    · simp [hkey, Ne.symm hkey]
  cases hsome : s.view tree key with
  | none =>
    refine (size_congr fun key' => ?_).symm
    rw [hview, hsome]
    simp
  | some held =>
    have hgone : (s.removeFromDiskInternal tree key).2.view tree key = none := by
      rw [view_remove hready hexact, if_pos ⟨rfl, rfl⟩]
    refine (size_succ hgone fun key' => ?_).symm
    rw [hview, hsome]
    simp

theorem insertCounted_apply : insertCounted counter key value s =
    if (s.insertIntoDisk (Counter.tree counter) key value).1.isNone then
      storeCount counter ((s.insertIntoDisk (Counter.tree counter) key value).2.counters.get counter + 1)
        (s.insertIntoDisk (Counter.tree counter) key value).2
    else .ok ⟨⟩ (s.insertIntoDisk (Counter.tree counter) key value).2 := by
  show (if (s.insertIntoDisk (Counter.tree counter) key value).1.isNone then _ else _ : Disk PUnit)
    (s.insertIntoDisk (Counter.tree counter) key value).2 = _
  split <;> rfl

theorem removeCounted_apply : removeCounted counter key s =
    if (s.removeFromDiskInternal (Counter.tree counter) key).1.isSome then
      storeCount counter ((s.removeFromDiskInternal (Counter.tree counter) key).2.counters.get counter - 1)
        (s.removeFromDiskInternal (Counter.tree counter) key).2
    else .ok ⟨⟩ (s.removeFromDiskInternal (Counter.tree counter) key).2 := by
  show (if (s.removeFromDiskInternal (Counter.tree counter) key).1.isSome then _ else _ : Disk PUnit)
    (s.removeFromDiskInternal (Counter.tree counter) key).2 = _
  split <;> rfl

variable {s key}

theorem insertCounted_inStep (h : s.InStep ordered) (hexact : s.Exact (Counter.tree counter) key) :
    (Exec.stateOf (insertCounted counter key value s)).InStep ordered := by
  have hsame := insert_sameBut s counter key value h.ready
  have hsize := size_insert s key value h.ready (Counter.tree counter)
  rw [insertCounted_apply, insert_previous value h.ready hexact]
  by_cases hnone : (s.view (Counter.tree counter) key).isNone = true
  · rw [if_pos hnone]
    rw [if_pos hnone] at hsize
    refine storeCount_inStep h hsame ?_
    rw [hsize, hsame.counters, h.now.counts, UInt64.ofNat_add]
    rfl
  · rw [if_neg hnone]
    rw [if_neg hnone, Nat.add_zero] at hsize
    exact h.of_size hsame (congrArg UInt64.ofNat hsize)

theorem removeCounted_inStep (h : s.InStep ordered) (hexact : s.Exact (Counter.tree counter) key) :
    (Exec.stateOf (removeCounted counter key s)).InStep ordered := by
  have hsame := remove_sameBut s counter key h.ready
  have hsize := size_remove s key h.ready hexact
  rw [removeCounted_apply, remove_previous h.ready]
  by_cases hsome : (s.view (Counter.tree counter) key).isSome = true
  · rw [if_pos hsome]
    rw [if_pos hsome] at hsize
    refine storeCount_inStep h hsame ?_
    rw [hsame.counters, h.now.counts, ← hsize, UInt64.ofNat_add]
    exact UInt64.add_sub_cancel _ _
  · rw [if_neg hsome]
    rw [if_neg hsome, Nat.add_zero] at hsize
    exact h.of_size hsame (congrArg UInt64.ofNat hsize)

end Counting

end Xelis.Storage.SledStorage
