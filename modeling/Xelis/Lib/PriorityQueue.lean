import Mathlib.Algebra.BigOperators.Group.Multiset.Basic
import Mathlib.Order.Basic

/-! Priority queues, and sequences merged by taking the greatest of their first values. -/

namespace Xelis.Lib

/-- A queue that gives back a value with the greatest key. Which one of several it gives is left open. -/
structure BinaryHeap (α : Type) {κ : Type} [LE κ] (key : α → κ) where
  Queue : Type
  empty : Queue
  push : Queue → α → Queue
  pop : Queue → Option (α × Queue)
  contents : Queue → Multiset α
  contents_empty : contents empty = 0
  contents_push : ∀ q a, contents (push q a) = a ::ₘ contents q
  pop_none : ∀ q, pop q = none → contents q = 0
  pop_some : ∀ q a q', pop q = some (a, q') → contents q = a ::ₘ contents q' ∧ ∀ b ∈ contents q', key b ≤ key a

namespace BinaryHeap

variable {α κ : Type}

def extend [LE κ] {key : α → κ} (heap : BinaryHeap α key) (q : heap.Queue) (as : List α) : heap.Queue := as.foldl heap.push q

theorem contents_extend [LE κ] {key : α → κ} (heap : BinaryHeap α key) (q : heap.Queue) (as : List α) :
    heap.contents (heap.extend q as) = heap.contents q + as := by
  induction as generalizing q with
  | nil => rw [extend, List.foldl_nil, Multiset.coe_nil, add_zero]
  | cons a as ih =>
    show heap.contents (heap.extend (heap.push q a) as) = _
    rw [ih, heap.contents_push, ← Multiset.cons_coe, Multiset.cons_add, Multiset.add_cons]

section ListHeap

variable [LinearOrder κ] (key : α → κ)

/-- The first one of the greatest values, and the other values. -/
def popGreatest : List α → Option (α × List α)
  | [] => none
  | a :: as =>
    match popGreatest as with
    | none => some (a, [])
    | some (b, rest) => if key b ≤ key a then some (a, b :: rest) else some (b, a :: rest)

theorem popGreatest_none {as : List α} (h : popGreatest key as = none) : as = [] := by
  cases as with
  | nil => rfl
  | cons a as =>
    rw [popGreatest] at h
    split at h
    · cases h
    · split at h <;> cases h

theorem popGreatest_some {as rest : List α} {a : α} (h : popGreatest key as = some (a, rest)) :
    as.Perm (a :: rest) ∧ ∀ b ∈ rest, key b ≤ key a := by
  induction as generalizing a rest with
  | nil => cases h
  | cons c as ih =>
    rw [popGreatest] at h
    split at h
    · rename_i hnone
      cases h
      rw [popGreatest_none key hnone]
      exact ⟨List.Perm.refl _, fun b hb => nomatch hb⟩
    · rename_i b others hsome
      obtain ⟨hperm, hle⟩ := ih hsome
      split at h
      · rename_i hkey
        cases h
        refine ⟨hperm.cons c, fun d hd => ?_⟩
        rcases List.mem_cons.mp hd with rfl | hd
        · exact hkey
        · exact (hle d hd).trans hkey
      · rename_i hkey
        cases h
        refine ⟨(hperm.cons c).trans (List.Perm.swap _ _ _), fun d hd => ?_⟩
        rcases List.mem_cons.mp hd with rfl | hd
        · exact (not_le.mp hkey).le
        · exact hle d hd

/-- A list from which the first one of the greatest values is taken. -/
def listHeap : BinaryHeap α key where
  Queue := List α
  empty := []
  push as a := a :: as
  pop := popGreatest key
  contents as := as
  contents_empty := rfl
  contents_push _ _ := rfl
  pop_none as h := by rw [popGreatest_none key h, Multiset.coe_nil]
  pop_some as a rest h :=
    ⟨(Multiset.coe_eq_coe.mpr (popGreatest_some key h).1).trans (Multiset.cons_coe a rest).symm, (popGreatest_some key h).2⟩

end ListHeap

end BinaryHeap

section Merge

variable {α κ : Type} [LE κ]

/-- The sequences are merged into one: each time the first value of one of them is taken, a greatest one. -/
inductive Merges (key : α → κ) : Multiset (List α) → List α → Prop
  | done {seqs : Multiset (List α)} (h : ∀ g ∈ seqs, g = []) : Merges key seqs []
  | pick {a : α} {g : List α} {seqs : Multiset (List α)} {l : List α} (hgreatest : ∀ b g', b :: g' ∈ seqs → key b ≤ key a)
      (h : Merges key (g ::ₘ seqs) l) : Merges key ((a :: g) ::ₘ seqs) (a :: l)

namespace Merges

variable {key : α → κ} {seqs : Multiset (List α)} {l : List α}

/-- An empty sequence does not matter. -/
theorem cons_nil (h : Merges key seqs l) : Merges key ([] ::ₘ seqs) l := by
  induction h with
  | done h =>
    refine done fun g hg => ?_
    rcases Multiset.mem_cons.mp hg with rfl | hg
    · rfl
    · exact h g hg
  | pick hgreatest _ ih =>
    rw [Multiset.cons_swap] at ih ⊢
    refine pick (fun b g' hb => ?_) ih
    rcases Multiset.mem_cons.mp hb with hb | hb
    · cases hb
    · exact hgreatest b g' hb

/-- Every value is taken once. -/
theorem eq_sum (h : Merges key seqs l) : (l : Multiset α) = (seqs.map fun g : List α => (g : Multiset α)).sum := by
  induction h with
  | @done seqs h =>
    have hzero : ∀ m ∈ seqs.map (fun g : List α => (g : Multiset α)), m = 0 := by
      intro m hm
      obtain ⟨g, hg, rfl⟩ := Multiset.mem_map.mp hm
      rw [h g hg, Multiset.coe_nil]
    rw [Multiset.sum_eq_zero hzero, Multiset.coe_nil]
  | pick _ _ ih =>
    rw [Multiset.map_cons, Multiset.sum_cons] at ih ⊢
    rw [← Multiset.cons_coe, ih, ← Multiset.cons_coe, Multiset.cons_add]

theorem perm {groups : List (List α)} (h : Merges key groups l) : l.Perm groups.flatten := by
  have hsum := h.eq_sum
  rw [Multiset.map_coe, Multiset.sum_coe] at hsum
  apply Multiset.coe_eq_coe.mp
  rw [hsum]
  clear h hsum
  induction groups with
  | nil => rfl
  | cons g groups ih => rw [List.map_cons, List.sum_cons, ih, List.flatten_cons, Multiset.coe_add]

variable {p : α → Bool} {h : List α} {others : Multiset (List α)}

/-- The values of a kind that stand in one sequence are taken in its order. -/
theorem filter_eq (hmerges : Merges key seqs l) (hseqs : seqs = h ::ₘ others) (hothers : ∀ g ∈ others, ∀ a ∈ g, p a = false) :
    l.filter p = h.filter p := by
  induction hmerges generalizing h others with
  | done hempty => rw [hempty h (hseqs ▸ Multiset.mem_cons_self h others)]
  | @pick a g seqs l _ _ ih =>
    rcases Multiset.cons_eq_cons.mp hseqs with ⟨rfl, rfl⟩ | ⟨-, rest, rfl, rfl⟩
    · rw [List.filter_cons, List.filter_cons, ih rfl hothers]
    · have ha : p a = false := hothers _ (Multiset.mem_cons_self _ _) a List.mem_cons_self
      rw [List.filter_cons_of_neg (by rw [ha]; exact Bool.false_ne_true)]
      refine ih (Multiset.cons_swap _ _ _) fun g' hg' b hb => ?_
      rcases Multiset.mem_cons.mp hg' with rfl | hg'
      · exact hothers _ (Multiset.mem_cons_self _ _) b (List.mem_cons_of_mem a hb)
      · exact hothers g' (Multiset.mem_cons_of_mem hg') b hb

/-- What is taken is as great as the first value of the kind that is left. -/
theorem greatest {κ : Type} [Preorder κ] {key : α → κ} (hmerges : Merges key seqs l) (hseqs : seqs = h ::ₘ others)
    (hh : ∀ a ∈ h, p a = true) (hothers : ∀ g ∈ others, ∀ a ∈ g, p a = false) {before after rest : List α} {a b : α}
    (hl : l = before ++ a :: after) (hb : (a :: after).filter p = b :: rest) : key b ≤ key a := by
  induction hmerges generalizing h others before with
  | done hempty =>
    cases before <;> cases hl
  | @pick c g seqs l hgreatest hmerges ih =>
    cases before with
    | nil =>
      cases hl
      have hfilter := filter_eq (pick hgreatest hmerges) hseqs hothers
      rw [hb, List.filter_eq_self.mpr hh] at hfilter
      subst hfilter
      rcases Multiset.cons_eq_cons.mp hseqs with ⟨hsame, -⟩ | ⟨-, rest', rfl, -⟩
      · cases hsame
        exact le_rfl
      · exact hgreatest b rest (Multiset.mem_cons_self _ _)
    | cons d before =>
      cases hl
      rcases Multiset.cons_eq_cons.mp hseqs with ⟨rfl, rfl⟩ | ⟨-, rest', rfl, rfl⟩
      · exact ih rfl (fun a ha => hh a (List.mem_cons_of_mem _ ha)) hothers rfl
      · refine ih (Multiset.cons_swap _ _ _) hh (fun g' hg' b hb => ?_) rfl
        rcases Multiset.mem_cons.mp hg' with rfl | hg'
        · exact hothers _ (Multiset.mem_cons_self _ _) b (List.mem_cons_of_mem _ hb)
        · exact hothers g' (Multiset.mem_cons_of_mem hg') b hb

end Merges

end Merge

end Xelis.Lib
