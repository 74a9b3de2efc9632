import Mathlib.Data.List.Induction
import Xelis.Storage.Snapshot

namespace Xelis.Storage

open Lib (FiniteMap)

variable {snapshot : Snapshot}

namespace Snapshot

/-- The pending write of a key: `none` when untouched, `some none` for a tombstone. -/
def pending (s : Snapshot) (tree key : IVec) : Option (Option IVec) :=
  match s.trees[tree]? with
  | some (some batch) => batch.writes[key]?
  | _ => none

theorem containsKey_eq_pending (s : Snapshot) (tree key : IVec) :
    s.containsKey tree key = (s.pending tree key).isSome := by
  unfold containsKey pending
  rcases s.trees[tree]? with _ | _ | batch
  · rfl
  · rfl
  · exact Std.ExtTreeMap.isSome_getElem?_eq_contains.symm

theorem containsKeyWithValue_eq_pending (s : Snapshot) (tree key : IVec) :
    s.containsKeyWithValue tree key = (s.pending tree key).map Option.isSome := by
  unfold containsKeyWithValue pending
  rcases s.trees[tree]? with _ | _ | batch <;> rfl

theorem getValueSize_eq_pending (s : Snapshot) (tree key : IVec) :
    s.getValueSize tree key = (s.pending tree key).join.map List.length := by
  unfold getValueSize pending
  rcases s.trees[tree]? with _ | _ | batch <;> rfl

def NoDrop (s : Snapshot) : Prop := ∀ tree : IVec, s.trees[tree]? ≠ some none

theorem noDrop_new (cache : CounterCache) : (new cache).NoDrop := by
  intro tree h
  simp [new] at h

theorem pending_new (cache : CounterCache) (tree key : IVec) : (new cache).pending tree key = none := by
  simp [new, pending]

private theorem pending_set_batch (s : Snapshot) (tree : IVec) (batch : Batch) (tree' key' : IVec) :
    ({ s with trees := s.trees.insert tree (some batch) } : Snapshot).pending tree' key' =
      if tree = tree' then batch.writes[key']? else s.pending tree' key' := by
  unfold pending
  by_cases ht : tree = tree'
  · subst ht
    simp
  · simp [ht, FiniteMap.getElem?_insert_of_ne _ _ ht]

variable {s : Snapshot}

private theorem noDrop_set_batch (h : s.NoDrop) (tree : IVec) (batch : Batch) :
    ({ s with trees := s.trees.insert tree (some batch) } : Snapshot).NoDrop := by
  intro tree' hd
  by_cases ht : tree = tree'
  · subst ht
    simp at hd
  · rw [FiniteMap.getElem?_insert_of_ne _ _ ht] at hd
    exact h tree' hd

private theorem opened_batch (h : s.NoDrop) (tree : IVec) :
    ∃ batch, s.trees[tree]?.getD (some Batch.default) = some batch ∧
      ∀ key, batch.writes[key]? = s.pending tree key := by
  rcases ht : s.trees[tree]? with _ | _ | batch
  · exact ⟨Batch.default, rfl, by simp [pending, ht, Batch.default]⟩
  · exact absurd ht (h tree)
  · exact ⟨batch, rfl, by simp [pending, ht]⟩

theorem insert_spec (h : s.NoDrop) (tree key value : IVec) :
    (s.insert tree key value).2.NoDrop ∧ ∀ tree' key', (s.insert tree key value).2.pending tree' key' =
      if tree = tree' ∧ key = key' then some (some value) else s.pending tree' key' := by
  obtain ⟨batch, hb, hw⟩ := opened_batch h tree
  have hs : (s.insert tree key value).2 =
      { s with trees := s.trees.insert tree (some (batch.insert key value).2) } := by
    simp [insert, hb]
  rw [hs]
  refine ⟨noDrop_set_batch h tree _, fun tree' key' => ?_⟩
  rw [pending_set_batch]
  by_cases ht : tree = tree'
  · subst ht
    by_cases hk : key = key'
    · subst hk
      simp [Batch.insert]
    · simp [Batch.insert, hk, hw, FiniteMap.getElem?_insert_of_ne _ _ hk]
  · simp [ht]

theorem remove_spec (h : s.NoDrop) (tree key : IVec) :
    (s.remove tree key).2.NoDrop ∧ ∀ tree' key', (s.remove tree key).2.pending tree' key' =
      if tree = tree' ∧ key = key' then (s.pending tree key).map (fun _ => none) else s.pending tree' key' := by
  obtain ⟨batch, hb, hw⟩ := opened_batch h tree
  have hs : (s.remove tree key).2 =
      { s with trees := s.trees.insert tree (some (batch.remove key).2) } := by
    simp [remove, hb]
  rw [hs]
  refine ⟨noDrop_set_batch h tree _, fun tree' key' => ?_⟩
  rw [pending_set_batch]
  by_cases ht : tree = tree'
  · subst ht
    unfold Batch.remove
    rw [hw key]
    rcases hp : s.pending tree key with _ | old
    · by_cases hk : key = key'
      · subst hk
        simp [hw, hp]
      · simp [hk, hw]
    · by_cases hk : key = key'
      · subst hk
        simp
      · simp [hk, hw, FiniteMap.getElem?_insert_of_ne _ _ hk]
  · simp [ht]

end Snapshot

namespace SledStorage

/-- The value a reader sees at a key, through the open commit point if there is one. -/
def view (s : SledStorage) (tree key : IVec) : Option IVec :=
  match s.snapshot with
  | some snapshot => (snapshot.pending tree key).getD (s.db.tree tree)[key]?
  | none => (s.db.tree tree)[key]?

def decode (T : Type) [Serializer T] : Option IVec → Except BlockchainError (Option T)
  | some bytes => (Serializer.fromBytes bytes).mapError .errorOnReader |>.map some
  | none => .ok none

section Reads

variable (s : SledStorage) (tree key : IVec)

theorem loadOptional_eq_view (T : Type) [Serializer T] :
    s.loadOptionalFromDiskInternal T tree key = decode T (s.view tree key) := by
  unfold loadOptionalFromDiskInternal view
  rcases hs : s.snapshot with _ | snapshot
  · cases (s.db.tree tree)[key]? <;> rfl
  · simp only [Snapshot.containsKey_eq_pending, Snapshot.loadOptionalFromDisk]
    unfold Snapshot.pending
    rcases snapshot.trees[tree]? with _ | _ | batch
    · cases (s.db.tree tree)[key]? <;> rfl
    · cases (s.db.tree tree)[key]? <;> rfl
    · rcases hw : batch.writes[key]? with _ | _ | v
      · cases (s.db.tree tree)[key]? <;> simp [hw] <;> rfl
      · simp [hw, decode]
      · simp [hw, decode]

theorem containsData_eq_view : s.containsData tree key = (s.view tree key).isSome := by
  unfold containsData view
  rcases s.snapshot with _ | snapshot
  · exact Std.ExtTreeMap.isSome_getElem?_eq_contains.symm
  · simp only [Option.bind_some, Snapshot.containsKeyWithValue_eq_pending]
    rcases snapshot.pending tree key with _ | w
    · exact Std.ExtTreeMap.isSome_getElem?_eq_contains.symm
    · rfl

theorem getSizeFromDisk_eq_view : s.getSizeFromDisk tree key =
    match s.view tree key with
    | some bytes => .ok bytes.length
    | none => .error (.notFoundOnDisk .dataLen) := by
  unfold getSizeFromDisk view
  rcases s.snapshot with _ | snapshot
  · rfl
  · simp only [Snapshot.containsKey_eq_pending, Snapshot.getValueSize_eq_pending]
    rcases snapshot.pending tree key with _ | _ | w <;> rfl

private theorem mem_keys_iff_view (t : Tree) : key ∈ t.keys ↔ t[key]?.isSome := by
  rw [Std.ExtTreeMap.mem_keys, Std.ExtTreeMap.mem_iff_isSome_getElem?]

private theorem mem_batch_keys (t : Tree) (batch : Batch) :
    ((∃ v, (key, some v) ∈ batch.writes.toList) ∨ (key ∈ t.keys ∧ (!batch.writes.contains key) = true)) ↔
      (batch.writes[key]?.getD t[key]?).isSome := by
  rw [mem_keys_iff_view, ← Std.ExtTreeMap.isSome_getElem?_eq_contains]
  simp only [Std.ExtTreeMap.mem_toList_iff_getElem?_eq_some]
  rcases batch.writes[key]? with _ | _ | v <;> simp

theorem mem_scanPrefix_iff (pre : IVec) :
    key ∈ s.scanPrefix tree pre ↔ pre <+: key ∧ (s.view tree key).isSome := by
  unfold scanPrefix view
  rcases s.snapshot with _ | snapshot
  · simp [and_comm]
  · simp only [Snapshot.scanPrefix, Snapshot.pending]
    rcases snapshot.trees[tree]? with _ | _ | batch
    · simp [and_comm]
    · simp [and_comm]
    · simp only [← mem_batch_keys]
      simp only [List.mem_append, List.mem_map, List.mem_filter, Bool.and_eq_true, List.isPrefixOf_iff_prefix,
        Prod.exists, exists_and_right, exists_eq_right, Option.isSome_iff_exists]
      constructor
      · rintro (⟨w, hw, ⟨v, rfl⟩, hp⟩ | ⟨⟨hk, hp⟩, hn⟩)
        · exact ⟨hp, Or.inl ⟨v, hw⟩⟩
        · exact ⟨hp, Or.inr ⟨hk, hn⟩⟩
      · rintro ⟨hp, ⟨v, hw⟩ | ⟨hk, hn⟩⟩
        · exact Or.inl ⟨some v, hw, ⟨v, rfl⟩, hp⟩
        · exact Or.inr ⟨⟨hk, hp⟩, hn⟩

theorem mem_iterKeys_iff : key ∈ s.iterKeys tree ↔ (s.view tree key).isSome := by
  unfold iterKeys view
  rcases s.snapshot with _ | snapshot
  · exact mem_keys_iff_view key _
  · simp only [Snapshot.iterKeys, Snapshot.pending]
    rcases snapshot.trees[tree]? with _ | _ | batch
    · exact mem_keys_iff_view key _
    · exact mem_keys_iff_view key _
    · simp only [← mem_batch_keys]
      simp

theorem mem_iter_keys_iff : key ∈ (s.iter tree).map Prod.fst ↔ (s.view tree key).isSome := by
  unfold iter view
  have htree : ∀ t : Tree, key ∈ t.toList.map Prod.fst ↔ t[key]?.isSome := by
    intro t
    simp
  rcases s.snapshot with _ | snapshot
  · exact htree _
  · simp only [Snapshot.iter, Snapshot.pending]
    rcases snapshot.trees[tree]? with _ | _ | batch
    · exact htree _
    · exact htree _
    · have hdisk : (∃ v, (s.db.tree tree)[key]? = some v) ↔ key ∈ s.db.tree tree := by
        rw [Std.ExtTreeMap.mem_iff_isSome_getElem?, Option.isSome_iff_exists]
      simp only [← mem_batch_keys]
      simp [Std.ExtTreeMap.mem_toList_iff_getElem?_eq_some, hdisk]

theorem mem_iter_iff (value : IVec) : (key, value) ∈ s.iter tree ↔ s.view tree key = some value := by
  unfold iter view
  rcases s.snapshot with _ | snapshot
  · exact Std.ExtTreeMap.mem_toList_iff_getElem?_eq_some
  · simp only [Snapshot.iter, Snapshot.pending]
    rcases snapshot.trees[tree]? with _ | _ | batch
    · exact Std.ExtTreeMap.mem_toList_iff_getElem?_eq_some
    · exact Std.ExtTreeMap.mem_toList_iff_getElem?_eq_some
    · simp only [List.mem_append, List.mem_filterMap, List.mem_filter, Std.ExtTreeMap.mem_toList_iff_getElem?_eq_some,
        Prod.exists, Option.map_eq_some_iff, Prod.mk.injEq, ← Std.ExtTreeMap.isSome_getElem?_eq_contains]
      constructor
      · rintro (⟨k, w, hw, v, rfl, rfl, rfl⟩ | ⟨hdisk, hfree⟩)
        · rw [hw]
          rfl
        · have hnone : batch.writes[key]? = none := by
            rcases hw : batch.writes[key]? with _ | w
            · rfl
            · rw [hw] at hfree
              cases hfree
          rw [hnone]
          exact hdisk
      · intro hview
        rcases hw : batch.writes[key]? with _ | w
        · rw [hw] at hview
          exact .inr ⟨hview, by simp⟩
        · rw [hw] at hview
          exact .inl ⟨key, w, hw, value, hview, rfl, rfl⟩

end Reads

/-- Two storages answer every read primitive alike. -/
structure ReadsAgree (a b : SledStorage) : Prop where
  load : ∀ (T : Type) [Serializer T] (tree key : IVec),
    a.loadOptionalFromDiskInternal T tree key = b.loadOptionalFromDiskInternal T tree key
  contains : ∀ tree key, a.containsData tree key = b.containsData tree key
  size : ∀ tree key, a.getSizeFromDisk tree key = b.getSizeFromDisk tree key
  scanPrefix : ∀ tree pre key, key ∈ a.scanPrefix tree pre ↔ key ∈ b.scanPrefix tree pre
  iter : ∀ tree key, key ∈ (a.iter tree).map Prod.fst ↔ key ∈ (b.iter tree).map Prod.fst
  iterKeys : ∀ tree key, key ∈ a.iterKeys tree ↔ key ∈ b.iterKeys tree

variable {a b s d : SledStorage}

theorem readsAgree_of_view (h : ∀ tree key, a.view tree key = b.view tree key) :
    ReadsAgree a b where
  load T _ tree key := by rw [loadOptional_eq_view, loadOptional_eq_view, h]
  contains tree key := by rw [containsData_eq_view, containsData_eq_view, h]
  size tree key := by rw [getSizeFromDisk_eq_view, getSizeFromDisk_eq_view, h]
  scanPrefix tree pre key := by rw [mem_scanPrefix_iff, mem_scanPrefix_iff, h]
  iter tree key := by rw [mem_iter_keys_iff, mem_iter_keys_iff, h]
  iterKeys tree key := by rw [mem_iterKeys_iff, mem_iterKeys_iff, h]

/-- One storage write made between the start and the end of a commit point. -/
inductive WriteOp where
  | insert (tree key value : IVec)
  | remove (tree key : IVec)
  deriving DecidableEq

def step (s : SledStorage) : WriteOp → SledStorage
  | .insert tree key value => (s.insertIntoDisk tree key value).2
  | .remove tree key => (s.removeFromDiskInternal tree key).2

def run (s : SledStorage) (ops : List WriteOp) : SledStorage := ops.foldl step s

theorem run_concat (s : SledStorage) (ops : List WriteOp) (op : WriteOp) :
    s.run (ops ++ [op]) = (s.run ops).step op := by
  simp [run]

/-- A run under a commit point: the database is untouched and a key is pending once it was inserted. -/
structure CommitPointOpen (db : Db) (ops : List WriteOp) (s : SledStorage) (snapshot : Snapshot) : Prop where
  db_eq : s.db = db
  snapshot_eq : s.snapshot = some snapshot
  noDrop : snapshot.NoDrop
  pending_iff : ∀ tree key, (snapshot.pending tree key).isSome ↔ ∃ value, WriteOp.insert tree key value ∈ ops

theorem CommitPointOpen.step {db : Db} {ops : List WriteOp} {s : SledStorage} {snapshot : Snapshot}
    (h : CommitPointOpen db ops s snapshot) (op : WriteOp) :
    ∃ snapshot', CommitPointOpen db (ops ++ [op]) (s.step op) snapshot' := by
  cases op with
  | insert tree key value =>
    obtain ⟨hd, hp⟩ := Snapshot.insert_spec h.noDrop tree key value
    refine ⟨(snapshot.insert tree key value).2, ?_, ?_, hd, fun tree' key' => ?_⟩
    · simp only [SledStorage.step, insertIntoDisk, h.snapshot_eq, h.db_eq]
    · simp only [SledStorage.step, insertIntoDisk, h.snapshot_eq]
    · have hold := h.pending_iff tree' key'
      rw [hp]
      split
      · rename_i heq
        obtain ⟨rfl, rfl⟩ := heq
        simp
      · rename_i hne
        rw [hold]
        constructor
        · rintro ⟨v, hv⟩
          exact ⟨v, List.mem_append_left _ hv⟩
        · rintro ⟨v, hv⟩
          simp only [List.mem_append, List.mem_singleton, WriteOp.insert.injEq] at hv
          rcases hv with hv | ⟨rfl, rfl, rfl⟩
          · exact ⟨v, hv⟩
          · exact absurd ⟨rfl, rfl⟩ hne
  | remove tree key =>
    obtain ⟨hd, hp⟩ := Snapshot.remove_spec h.noDrop tree key
    refine ⟨(snapshot.remove tree key).2, ?_, ?_, hd, fun tree' key' => ?_⟩
    · simp only [SledStorage.step, removeFromDiskInternal, h.snapshot_eq, h.db_eq]
    · simp only [SledStorage.step, removeFromDiskInternal, h.snapshot_eq]
    · have hsame : ((snapshot.remove tree key).2.pending tree' key').isSome =
          (snapshot.pending tree' key').isSome := by
        rw [hp]
        split
        · rename_i heq
          obtain ⟨rfl, rfl⟩ := heq
          simp
        · rfl
      rw [hsame, h.pending_iff]
      simp

variable {db : Db}

theorem CommitPointOpen.run (h : CommitPointOpen db [] s snapshot) (ops : List WriteOp) :
    ∃ snapshot', CommitPointOpen db ops (s.run ops) snapshot' := by
  induction ops using List.reverseRecOn with
  | nil => exact ⟨snapshot, h⟩
  | append_singleton ops op ih =>
    obtain ⟨snapshot', h'⟩ := ih
    rw [run_concat]
    exact h'.step op

private theorem tree_insert (db : Db) (name name' : IVec) (t : Tree) :
    Db.tree (db.insert name t) name' = if name = name' then t else db.tree name' := by
  unfold Db.tree
  by_cases hn : name = name'
  · subst hn
    simp
  · simp [hn, FiniteMap.getElem?_insert_of_ne _ _ hn]

theorem view_step_direct (h : s.snapshot = none) (op : WriteOp) :
    (s.step op).snapshot = none ∧ ∀ tree' key', (s.step op).view tree' key' =
      match op with
      | .insert tree key value => if tree = tree' ∧ key = key' then some value else s.view tree' key'
      | .remove tree key => if tree = tree' ∧ key = key' then none else s.view tree' key' := by
  cases op with
  | insert tree key value =>
    simp only [step, insertIntoDisk, view, h, true_and]
    intro tree' key'
    rw [tree_insert]
    by_cases ht : tree = tree'
    · subst ht
      by_cases hk : key = key'
      · subst hk
        simp
      · simp [hk, FiniteMap.getElem?_insert_of_ne _ _ hk]
    · simp [ht]
  | remove tree key =>
    simp only [step, removeFromDiskInternal, view, h, true_and]
    intro tree' key'
    rw [tree_insert]
    by_cases ht : tree = tree'
    · subst ht
      by_cases hk : key = key'
      · subst hk
        simp
      · simp [hk, FiniteMap.getElem?_erase_of_ne _ hk]
    · simp [ht]

variable {ops more : List WriteOp}

theorem CommitPointOpen.view_step (h : CommitPointOpen db ops s snapshot) (op : WriteOp) (tree' key' : IVec) :
    (s.step op).view tree' key' =
      match op with
      | .insert tree key value => if tree = tree' ∧ key = key' then some value else s.view tree' key'
      | .remove tree key =>
        if tree = tree' ∧ key = key' ∧ (snapshot.pending tree key).isSome then none else s.view tree' key' := by
  cases op with
  | insert tree key value =>
    simp only [SledStorage.step, insertIntoDisk, view, h.snapshot_eq,
      (Snapshot.insert_spec h.noDrop tree key value).2]
    split <;> simp
  | remove tree key =>
    simp only [SledStorage.step, removeFromDiskInternal, view, h.snapshot_eq,
      (Snapshot.remove_spec h.noDrop tree key).2]
    by_cases heq : tree = tree' ∧ key = key'
    · obtain ⟨rfl, rfl⟩ := heq
      cases snapshot.pending tree key <;> simp
    · have hne : ¬(tree = tree' ∧ key = key' ∧ (snapshot.pending tree key).isSome = true) :=
        fun hc => heq ⟨hc.1, hc.2.1⟩
      rw [if_neg heq, if_neg hne]

/-- Every removed key was inserted earlier in the run, or is not on disk. -/
def RemovesCovered (db : Db) (ops : List WriteOp) : Prop :=
  ∀ pre tree key post, ops = pre ++ WriteOp.remove tree key :: post → key ∈ db.tree tree →
    ∃ value, WriteOp.insert tree key value ∈ pre

theorem RemovesCovered.of_append (h : RemovesCovered db (ops ++ more)) : RemovesCovered db ops := by
  intro pre tree key post heq hk
  exact h pre tree key (post ++ more) (by simp [heq]) hk

theorem CommitPointOpen.view_run (h : CommitPointOpen d.db [] s snapshot) (hd : d.snapshot = none) (ops : List WriteOp)
    (hc : RemovesCovered d.db ops) :
    (d.run ops).snapshot = none ∧ ∀ tree key, (s.run ops).view tree key = (d.run ops).view tree key := by
  induction ops using List.reverseRecOn with
  | nil =>
    refine ⟨hd, fun tree key => ?_⟩
    have hp : snapshot.pending tree key = none := by
      rw [← Option.not_isSome_iff_eq_none, h.pending_iff]
      simp
    show s.view tree key = d.view tree key
    simp [view, h.snapshot_eq, hd, h.db_eq, hp]
  | append_singleton ops op ih =>
    obtain ⟨hnone, hview⟩ := ih hc.of_append
    obtain ⟨snap, hopen⟩ := h.run ops
    obtain ⟨hnone', hstep⟩ := view_step_direct hnone op
    rw [run_concat, run_concat]
    refine ⟨hnone', fun tree' key' => ?_⟩
    rw [hopen.view_step op, hstep]
    cases op with
    | insert tree key value => simp only [hview]
    | remove tree key =>
      simp only [hview]
      by_cases heq : tree = tree' ∧ key = key'
      · obtain ⟨rfl, rfl⟩ := heq
        by_cases hs : (snap.pending tree key).isSome
        · simp [hs]
        · -- not pending, so the key is not on disk either and both readers see nothing
          have hmem : key ∉ d.db.tree tree := fun hk =>
            hs ((hopen.pending_iff tree key).mpr (hc ops tree key [] (by simp) hk))
          have hv : (s.run ops).view tree key = none := by
            simp only [view, hopen.snapshot_eq, hopen.db_eq]
            rw [Option.not_isSome_iff_eq_none.mp hs]
            simpa using hmem
          simp [← hview, hv]
      · have hne : ¬(tree = tree' ∧ key = key' ∧ (snap.pending tree key).isSome = true) :=
          fun hc => heq ⟨hc.1, hc.2.1⟩
        rw [if_neg heq, if_neg hne]

private theorem applyBatch_eq_write (db : Db) (name : IVec) (batch : Option Batch) :
    applyBatch db name batch =
      FiniteMap.write db name (batch.map (fun b => (db[name]?.getD ∅).overlay b.writes)) := by
  cases batch <;> rfl

theorem view_commit (hs : s.snapshot = some snapshot) (hdrop : snapshot.NoDrop) :
    ∃ s', s.endCommitPoint true = .ok s' ∧ s'.snapshot = none ∧ s'.cache = snapshot.cache ∧
      ∀ tree key, (s'.db.tree tree)[key]? = s.view tree key := by
  let final := FiniteMap.merge (fun (b : Option Batch) (cur : Option Tree) =>
    b.map (fun b => (cur.getD ∅).overlay b.writes)) s.db snapshot.trees
  refine ⟨⟨final, none, snapshot.cache⟩, ?_, rfl, rfl, fun tree key => ?_⟩
  · simp only [endCommitPoint, hs, applyBatch_eq_write]
    rfl
  · simp only [view, hs, Snapshot.pending, Db.tree, final, FiniteMap.getElem?_merge]
    rcases ht : snapshot.trees[tree]? with _ | _ | batch
    · rfl
    · exact absurd ht (hdrop tree)
    · simp [FiniteMap.getElem?_overlay]

def CommitPointRefines (db : Db) (cache : CounterCache) (ops : List WriteOp) : Prop :=
  let direct : SledStorage := ⟨db, none, cache⟩
  ∃ s, direct.startCommitPoint = .ok s ∧
    (∀ pre post, ops = pre ++ post → ReadsAgree (s.run pre) (direct.run pre)) ∧
    ∃ s', (s.run ops).endCommitPoint true = .ok s' ∧ ∀ tree, s'.db.tree tree = (direct.run ops).db.tree tree

private theorem commitPointOpen_start (db : Db) (cache : CounterCache) :
    CommitPointOpen db [] ⟨db, some (Snapshot.new cache), cache⟩ (Snapshot.new cache) where
  db_eq := rfl
  snapshot_eq := rfl
  noDrop := Snapshot.noDrop_new cache
  pending_iff tree key := by simp [Snapshot.pending_new]

private theorem refines_of_covered (db : Db) (cache : CounterCache) (ops : List WriteOp)
    (hc : RemovesCovered db ops) : CommitPointRefines db cache ops := by
  have hopen := commitPointOpen_start db cache
  refine ⟨_, rfl, ?_, ?_⟩
  · rintro pre post rfl
    exact readsAgree_of_view (hopen.view_run (d := ⟨db, none, cache⟩) rfl pre hc.of_append).2
  · obtain ⟨snap, hrun⟩ := hopen.run ops
    obtain ⟨s', hs', -, -, hview⟩ := view_commit hrun.snapshot_eq hrun.noDrop
    obtain ⟨hnone, hagree⟩ := hopen.view_run (d := ⟨db, none, cache⟩) rfl ops hc
    refine ⟨s', hs', fun tree => Std.ExtTreeMap.ext_getElem? fun key => ?_⟩
    rw [hview, hagree, view, hnone]

private theorem covered_of_refines (db : Db) (cache : CounterCache) (ops : List WriteOp)
    (h : CommitPointRefines db cache ops) : RemovesCovered db ops := by
  intro pre tree key post heq hk
  obtain ⟨s, hs, hreads, -⟩ := h
  obtain rfl : (⟨db, some (Snapshot.new cache), cache⟩ : SledStorage) = s := by
    simpa [startCommitPoint] using hs
  have hopen := commitPointOpen_start db cache
  obtain ⟨snap, hrun⟩ := hopen.run pre
  rw [← hrun.pending_iff]
  by_contra hs
  -- the key is still on disk for the readers of the commit point, and gone for the direct run
  have hagree := (hreads (pre ++ [.remove tree key]) post (by simp [heq])).contains tree key
  have hdirect : ((⟨db, none, cache⟩ : SledStorage).run pre).snapshot = none := by
    clear heq hreads hk hrun hs hagree
    induction pre using List.reverseRecOn with
    | nil => rfl
    | append_singleton pre op ih =>
      rw [run_concat]
      exact (view_step_direct ih op).1
  rw [containsData_eq_view, containsData_eq_view, run_concat, run_concat, hrun.view_step,
    (view_step_direct hdirect _).2] at hagree
  simp only [true_and, hs, if_false, and_self, if_true, Option.isSome_none] at hagree
  simp only [view, hrun.snapshot_eq, hrun.db_eq, Option.not_isSome_iff_eq_none.mp hs, Option.getD_none] at hagree
  rw [Std.ExtTreeMap.mem_iff_isSome_getElem?, hagree] at hk
  cases hk

/-- A commit point refines the direct run exactly when no write removes a key that is only on disk. -/
theorem commit_point_refines_iff (db : Db) (cache : CounterCache) (ops : List WriteOp) :
    CommitPointRefines db cache ops ↔ RemovesCovered db ops :=
  ⟨covered_of_refines db cache ops, refines_of_covered db cache ops⟩

/-- A removal of a key that is only on disk is lost by the commit point. -/
theorem commit_point_loses_removal :
    ¬CommitPointRefines ((∅ : Db).insert [1] ((∅ : Tree).insert [2] [3])) {} [.remove [1] [2]] := by
  intro h
  obtain ⟨value, hv⟩ := covered_of_refines _ _ _ h [] [1] [2] [] rfl (by decide +kernel)
  cases hv

end SledStorage

end Xelis.Storage
