import Mathlib.Data.List.Perm.Subperm

/-! Places in an ordered list: what is left of it behind a number of elements. -/

namespace Xelis.Lib

variable {α : Type} {r : α → α → Prop} {l : List α}

theorem nodup_of_ordered (hasymm : ∀ a b, r a b → ¬r b a) (hl : l.Pairwise r) : l.Nodup := by
  refine hl.imp ?_
  rintro a b hab rfl
  exact hasymm a a hab hab

variable {before behind ahead : List α} {x : α}

/-- What stands before an element of an ordered list is what the order puts before it. -/
theorem filter_before [DecidableRel r] (hasymm : ∀ a b, r a b → ¬r b a)
    (hl : (before ++ x :: behind).Pairwise r) : (before ++ x :: behind).filter (fun a => r a x) = before := by
  obtain ⟨-, hx, hacross⟩ := List.pairwise_append.mp hl
  obtain ⟨hbehind, -⟩ := List.pairwise_cons.mp hx
  have hself : ¬r x x := fun h => hasymm x x h h
  have hkept : before.filter (fun a => r a x) = before :=
    List.filter_eq_self.mpr fun a ha => decide_eq_true (hacross a ha x List.mem_cons_self)
  have hdropped : (x :: behind).filter (fun a => r a x) = [] := by
    refine List.filter_eq_nil_iff.mpr fun a ha => ?_
    rw [decide_eq_true_eq]
    rcases List.mem_cons.mp ha with rfl | ha
    · exact hself
    · exact hasymm x a (hbehind a ha)
  rw [List.filter_append, hkept, hdropped, List.append_nil]

variable {n : Nat}

/-- An element is behind the first `n` ones exactly where at least `n` elements are ordered before it. -/
theorem mem_drop_iff [DecidableRel r] (hasymm : ∀ a b, r a b → ¬r b a) (hl : l.Pairwise r) (hx : x ∈ l) :
    x ∈ l.drop n ↔ n ≤ (l.filter fun a => r a x).length := by
  obtain ⟨before, behind, rfl⟩ := List.append_of_mem hx
  rw [filter_before hasymm hl]
  constructor
  · intro hmem
    refine Nat.le_of_not_lt fun hlt => ?_
    obtain ⟨k, rfl⟩ : ∃ k, n = before.length + (k + 1) := ⟨n - before.length - 1, by omega⟩
    rw [List.drop_length_add_append, List.drop_succ_cons] at hmem
    have hself := (List.pairwise_cons.mp (List.pairwise_append.mp hl).2.1).1 x (List.mem_of_mem_drop hmem)
    exact hasymm x x hself hself
  · intro hle
    rw [List.drop_append_of_le_length hle]
    exact List.mem_append_right _ List.mem_cons_self

theorem mem_drop_of_ahead [DecidableRel r] (hasymm : ∀ a b, r a b → ¬r b a) (hl : l.Pairwise r) (hx : x ∈ l)
    (hnodup : ahead.Nodup) (hahead : ∀ a ∈ ahead, a ∈ l ∧ r a x) (hn : n ≤ ahead.length) : x ∈ l.drop n := by
  have hsubset : ahead ⊆ l.filter fun a => r a x := fun a ha =>
    List.mem_filter.mpr ⟨(hahead a ha).1, decide_eq_true (hahead a ha).2⟩
  exact (mem_drop_iff hasymm hl hx).mpr (Nat.le_trans hn (List.subperm_of_subset hnodup hsubset).length_le)

theorem not_mem_drop_of_ahead [DecidableRel r] (hasymm : ∀ a b, r a b → ¬r b a) (hl : l.Pairwise r) (hx : x ∈ l)
    (hahead : ∀ a ∈ l, r a x → a ∈ ahead) (hn : ahead.length < n) : x ∉ l.drop n := by
  intro hmem
  have hsubset : (l.filter fun a => r a x) ⊆ ahead := fun a ha =>
    hahead a (List.mem_filter.mp ha).1 (of_decide_eq_true (List.mem_filter.mp ha).2)
  have hle := (List.subperm_of_subset ((nodup_of_ordered hasymm hl).filter _) hsubset).length_le
  exact absurd (Nat.le_trans ((mem_drop_iff hasymm hl hx).mp hmem) hle) (Nat.not_le.mpr hn)

end Xelis.Lib
