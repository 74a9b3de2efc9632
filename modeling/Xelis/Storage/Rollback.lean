import Xelis.Storage.CachedOperations
import Xelis.Storage.Counters

/-! Writes under a commit point: what the queries see of them, and what is left of them when it is thrown away. -/

namespace Xelis.Storage

variable {s' : SledStorage}

namespace SledStorage

/-- What the queries read: the values of the trees, and what is kept in memory. The pruned topoheight is not the one of the
commit point. -/
structure Visible where
  value : IVec → IVec → Option IVec
  counters : CounterCache

def visible (s : SledStorage) : Visible :=
  ⟨s.view, { s.counters with prunedTopoheight := s.cache.prunedTopoheight }⟩

/-- The counters in memory once the commit point is thrown away. -/
def restored (s : SledStorage) : CounterCache := s.base.loadCacheFromDisk.cache

/-- The commit point holds the key. -/
def Touched (s : SledStorage) (tree key : IVec) : Prop :=
  ∀ snapshot, s.snapshot = some snapshot → snapshot.containsKey tree key = true

/-- Under a commit point that would give `start` back. -/
structure Inside (s start : SledStorage) : Prop where
  opened : s.snapshot ≠ none
  ready : s.Ready
  db : s.db = start.db
  restored : s.restored = start.cache

theorem counters_of_snapshot {s : SledStorage} (hopened : s.snapshot ≠ none) (h : s'.snapshot = s.snapshot) :
    s'.counters = s.counters := by
  unfold counters
  rw [h]
  cases hs : s.snapshot with
  | none => exact absurd hs hopened
  | some snapshot => rfl

theorem snapshot_insertIntoDisk (s : SledStorage) (tree key value : IVec) :
    (s.insertIntoDisk tree key value).2.snapshot = s.snapshot.map fun snapshot => (snapshot.insert tree key value).2 := by
  unfold insertIntoDisk
  cases s.snapshot <;> rfl

theorem snapshot_removeFromDisk (s : SledStorage) (tree key : IVec) :
    (s.removeFromDiskInternal tree key).2.snapshot = s.snapshot.map fun snapshot => (snapshot.remove tree key).2 := by
  unfold removeFromDiskInternal
  cases s.snapshot <;> rfl

end SledStorage

namespace Snapshot

theorem containsKey_insert (s : Snapshot) (tree key value : IVec) : (s.insert tree key value).2.containsKey tree key = true := by
  unfold insert containsKey
  cases s.trees[tree]?.getD (some Batch.default) with
  | none => simp [Batch.insert]
  | some batch => simp [Batch.insert]

variable {tree' key' : IVec}

theorem containsKey_insert_of {s : Snapshot} (tree key value : IVec)
    (h : s.containsKey tree' key' = true) : (s.insert tree key value).2.containsKey tree' key' = true := by
  unfold containsKey at h
  rcases ht : s.trees[tree']? with _ | _ | batch
  · rw [ht] at h
    cases h
  · rw [ht] at h
    cases h
  · rw [ht] at h
    unfold insert containsKey
    by_cases htree : tree = tree'
    · subst htree
      rw [ht]
      simpa [Batch.insert] using .inr h
    · cases s.trees[tree]?.getD (some Batch.default) with
      | none => simpa [Lib.FiniteMap.getElem?_insert_of_ne _ _ htree, ht] using h
      | some opened => simpa [Lib.FiniteMap.getElem?_insert_of_ne _ _ htree, ht] using h

theorem containsKey_remove_of {s : Snapshot} (tree key : IVec)
    (h : s.containsKey tree' key' = true) : (s.remove tree key).2.containsKey tree' key' = true := by
  have hkept := h
  unfold containsKey at h
  rcases ht : s.trees[tree']? with _ | _ | batch
  · rw [ht] at h
    cases h
  · rw [ht] at h
    cases h
  · rw [ht] at h
    unfold remove
    by_cases htree : tree = tree'
    · subst htree
      rw [ht]
      unfold containsKey Batch.remove
      cases hwrite : batch.writes[key]? with
      | none => simpa [hwrite] using h
      | some value => simpa [hwrite] using .inr h
    · cases s.trees[tree]?.getD (some Batch.default) with
      | none => exact hkept
      | some opened => simpa [containsKey, Lib.FiniteMap.getElem?_insert_of_ne _ _ htree, ht] using h

end Snapshot

namespace DiskWrite

open SledStorage

/-- What the queries are to see of a write. -/
def effect : DiskWrite → Visible → Visible
  | .insert tree key value, x =>
    { x with value := fun tree' key' => if tree = tree' ∧ key = key' then some value else x.value tree' key' }
  | .remove tree key, x =>
    { x with value := fun tree' key' => if tree = tree' ∧ key = key' then none else x.value tree' key' }
  | .count counter n, x => { x with counters := x.counters.set counter n }
  | .nextExecution, x =>
    { x with counters := { x.counters with blocksExecutionCount := x.counters.blocksExecutionCount + 1 } }
  | .storeTips tips, x => { x with counters := { x.counters with tipsCache := tips } }
  | .setPrunedTopoheight topoheight, x => { x with counters := { x.counters with prunedTopoheight := some topoheight } }
  | .forgetPrunedTopoheight, x => { x with counters := { x.counters with prunedTopoheight := none } }
  | .direct tree key value, x =>
    { x with value := fun tree' key' => if tree = tree' ∧ key = key' then some value else x.value tree' key' }
  | .reload, x => x

/-- From which storages a write under a commit point is seen, and can be taken back. -/
def Meets : DiskWrite → SledStorage → Prop
  | .remove tree key, s => s.Exact tree key
  | .setPrunedTopoheight topoheight, s => s.cache.prunedTopoheight = some topoheight
  | .forgetPrunedTopoheight, s => (DiskWrite.forgetPrunedTopoheight.apply s).restored = s.restored
  | .direct _ _ _, _ => False
  | .reload, s =>
    s.loadCacheFromDisk.restored = s.restored ∧ s.loadCacheFromDisk.cache.prunedTopoheight = s.cache.prunedTopoheight
  | _, _ => True

variable {start s : SledStorage} {tree key value : IVec} (w : DiskWrite)

theorem touched_insert (s : SledStorage) (tree key value : IVec) : (apply (.insert tree key value) s).Touched tree key := by
  intro snapshot' hs'
  obtain ⟨snapshot, -, rfl⟩ := Option.map_eq_some_iff.mp ((snapshot_insertIntoDisk s tree key value).symm.trans hs')
  exact snapshot.containsKey_insert tree key value

theorem touched_mapCounters (f : CounterCache → CounterCache) (h : s.Touched tree key) : (mapCounters f s).Touched tree key := by
  unfold mapCounters
  rcases hs : s.snapshot with _ | snapshot
  · intro snapshot' hs'
    exact absurd hs' (by simp)
  · intro snapshot' hs'
    cases hs'
    exact h snapshot hs

theorem touched_apply (h : s.Touched tree key) : (w.apply s).Touched tree key := by
  cases w with
  | insert tree' key' value =>
    intro snapshot' hs'
    obtain ⟨snapshot, hs, rfl⟩ := Option.map_eq_some_iff.mp ((snapshot_insertIntoDisk s tree' key' value).symm.trans hs')
    exact Snapshot.containsKey_insert_of _ _ _ (h snapshot hs)
  | remove tree' key' =>
    intro snapshot' hs'
    obtain ⟨snapshot, hs, rfl⟩ := Option.map_eq_some_iff.mp ((snapshot_removeFromDisk s tree' key').symm.trans hs')
    exact Snapshot.containsKey_remove_of _ _ (h snapshot hs)
  | count counter n => exact touched_mapCounters _ h
  | nextExecution => exact touched_mapCounters _ h
  | storeTips tips => exact touched_mapCounters _ h
  | setPrunedTopoheight topoheight => exact touched_mapCounters _ h
  | forgetPrunedTopoheight => exact h
  | direct tree' key' value => exact h
  | reload => exact h

variable {w}

theorem inside_of_base (h : s.Inside start) (hopened : s'.snapshot ≠ none) (hready : s'.Ready)
    (hbase : s'.base = s.base) : s'.Inside start where
  opened := hopened
  ready := hready
  db := (congrArg SledStorage.db hbase).trans h.db
  restored := (congrArg (·.loadCacheFromDisk.cache) hbase).trans h.restored

theorem inside_mapCounters (f : CounterCache → CounterCache) (h : s.Inside start) : (mapCounters f s).Inside start :=
  inside_of_base h (fun hnone => h.opened ((snapshot_mapCounters f).mp hnone)) (ready_mapCounters f h.ready)
    (base_mapCounters f h.opened)

/-- A write that meets the condition is taken back with the rest. -/
theorem inside_apply (h : s.Inside start) (hw : w.Meets s) : (w.apply s).Inside start := by
  cases w with
  | insert tree key value =>
    exact inside_of_base h (fun hnone => h.opened (snapshot_insert.mp hnone)) (ready_insert h.ready) (base_insert h.opened)
  | remove tree key =>
    exact inside_of_base h (fun hnone => h.opened (snapshot_remove.mp hnone)) (ready_remove h.ready) (base_remove h.opened)
  | count counter n => exact inside_mapCounters (·.set counter n) h
  | nextExecution => exact inside_mapCounters (fun cache => { cache with blocksExecutionCount := cache.blocksExecutionCount + 1 }) h
  | storeTips tips => exact inside_mapCounters (fun cache => { cache with tipsCache := tips }) h
  | setPrunedTopoheight topoheight => exact inside_mapCounters (fun cache => { cache with prunedTopoheight := some topoheight }) h
  | forgetPrunedTopoheight => exact ⟨h.opened, h.ready, h.db, hw.trans h.restored⟩
  | direct tree key value => exact hw.elim
  | reload => exact ⟨h.opened, h.ready, h.db, hw.1.trans h.restored⟩

theorem visible_mapCounters (f : CounterCache → CounterCache) (hopened : s.snapshot ≠ none) :
    (mapCounters f s).visible = ⟨s.view, { f s.counters with prunedTopoheight := s.cache.prunedTopoheight }⟩ := by
  have hcache : (mapCounters f s).cache = s.cache := by
    unfold mapCounters
    rcases hs : s.snapshot with _ | snapshot
    · exact absurd hs hopened
    · rfl
  have hview : (mapCounters f s).view = s.view := by
    funext tree key
    exact view_mapCounters f tree key
  unfold visible
  rw [hview, hcache, counters_mapCounters]

theorem visible_eq {value : IVec → IVec → Option IVec} (hview : ∀ tree key, s'.view tree key = value tree key)
    (hcounters : s'.counters = s.counters) (hpruned : s'.cache.prunedTopoheight = s.cache.prunedTopoheight) :
    s'.visible = { s.visible with value } := by
  have hvalue : s'.view = value := by
    funext tree key
    exact hview tree key
  unfold visible
  rw [hvalue, hcounters, hpruned]

theorem visible_apply (h : s.Inside start) (hw : w.Meets s) : (w.apply s).visible = w.effect s.visible := by
  have hset (cache : CounterCache) (counter : Counter) (n : UInt64) (pruned : Option UInt64) :
      { cache.set counter n with prunedTopoheight := pruned } = { cache with prunedTopoheight := pruned }.set counter n := by
    cases counter <;> rfl
  cases w with
  | insert tree key value =>
    refine visible_eq (view_insert h.ready) counters_insert ?_
    exact congrArg (·.cache.prunedTopoheight) (base_insert h.opened)
  | remove tree key =>
    refine visible_eq (view_remove h.ready hw) counters_remove ?_
    exact congrArg (·.cache.prunedTopoheight) (base_remove h.opened)
  | count counter n =>
    refine (visible_mapCounters _ h.opened).trans ?_
    rw [hset]
    rfl
  | nextExecution => exact visible_mapCounters _ h.opened
  | storeTips tips => exact visible_mapCounters _ h.opened
  | setPrunedTopoheight topoheight =>
    refine (visible_mapCounters _ h.opened).trans ?_
    rw [show s.cache.prunedTopoheight = some topoheight from hw]
    rfl
  | forgetPrunedTopoheight =>
    have hcounters : (DiskWrite.forgetPrunedTopoheight.apply s).counters = s.counters := counters_of_snapshot h.opened rfl
    unfold visible
    rw [hcounters]
    rfl
  | direct tree key value => exact hw.elim
  | reload => exact visible_eq (fun _ _ => rfl) (counters_of_snapshot h.opened rfl) hw.2

end DiskWrite

end Xelis.Storage
