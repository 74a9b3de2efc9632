import Mathlib.Algebra.BigOperators.Group.Finset.Basic
import Mathlib.Data.Fintype.BigOperators

/-! Books: what each of finitely many holders has of each asset, and what they have together. -/

namespace Xelis.Lib

/-- The amount every holder has of every asset. -/
abbrev Book (K A M : Type) := K → A → M

namespace Book

variable {K A M : Type} [DecidableEq K] [DecidableEq A] [AddCommMonoid M]

def single (k : K) (a : A) (m : M) : Book K A M := fun k' a' => if k' = k ∧ a' = a then m else 0

/-- One entry gains `m`. -/
def add (b : Book K A M) (k : K) (a : A) (m : M) : Book K A M :=
  fun k' a' => b k' a' + if k' = k ∧ a' = a then m else 0

/-- All the entries of one holder are replaced. -/
def setRow (b : Book K A M) (k : K) (row : A → M) : Book K A M := fun k' => if k' = k then row else b k'

variable [Fintype K]

def total (b : Book K A M) (a : A) : M := ∑ k, b k a

theorem total_add (b : Book K A M) (k : K) (a : A) (m : M) (a' : A) :
    (b.add k a m).total a' = b.total a' + if a' = a then m else 0 := by
  unfold total add
  rw [Finset.sum_add_distrib]
  congr 1
  by_cases h : a' = a
  · simp [h]
  · simp [h]

omit [DecidableEq A] in
/-- Replacing a row trades its old entry for the new one. -/
theorem total_setRow (b : Book K A M) (k : K) (row : A → M) (a : A) :
    (b.setRow k row).total a + b k a = b.total a + row a := by
  have hsplit := fun f : K → M => Finset.sum_erase_add Finset.univ f (Finset.mem_univ k)
  have hrest : ∑ x ∈ Finset.univ.erase k, b.setRow k row x a = ∑ x ∈ Finset.univ.erase k, b x a := by
    refine Finset.sum_congr rfl fun x hx => ?_
    rw [setRow, if_neg (Finset.ne_of_mem_erase hx)]
  have hk : b.setRow k row k a = row a := by rw [setRow, if_pos rfl]
  unfold total
  rw [← hsplit (fun x => b.setRow k row x a), ← hsplit (fun x => b x a), hrest, hk]
  exact add_right_comm _ _ _

end Book

end Xelis.Lib
