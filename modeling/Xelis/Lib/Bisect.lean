import Mathlib.Data.List.Range

/-! The first position of a range where something holds. -/

namespace Xelis.Lib

/-- The first position from `lo` on and before `hi` where something holds. -/
def firstIn (p : Nat → Bool) (lo hi : Nat) : Option Nat := (List.range' lo (hi - lo)).find? p

variable {p : Nat → Bool} {lo mid hi : Nat}

theorem firstIn_eq_none : firstIn p lo hi = none ↔ ∀ i, lo ≤ i → i < hi → p i = false := by
  rw [firstIn, List.find?_eq_none]
  constructor
  · intro h i hlo hhi
    exact Bool.eq_false_iff.mpr (h i (List.mem_range'_1.mpr ⟨hlo, by omega⟩))
  · intro h i hi
    obtain ⟨hlo, hhi⟩ := List.mem_range'_1.mp hi
    rw [h i hlo (by omega)]
    exact Bool.false_ne_true

theorem firstIn_eq_some {i : Nat} :
    firstIn p lo hi = some i ↔ p i = true ∧ lo ≤ i ∧ i < hi ∧ ∀ j, lo ≤ j → j < i → p j = false := by
  rw [firstIn, List.find?_range'_eq_some, List.mem_range'_1]
  constructor
  · rintro ⟨hp, ⟨hlo, hhi⟩, hfirst⟩
    exact ⟨hp, hlo, by omega, fun j hj hji => by simpa using hfirst j hj hji⟩
  · rintro ⟨hp, hlo, hhi, hfirst⟩
    exact ⟨hp, ⟨hlo, by omega⟩, fun j hj hji => by simpa using hfirst j hj hji⟩

theorem firstIn_isSome : (firstIn p lo hi).isSome ↔ ∃ i, p i = true ∧ lo ≤ i ∧ i < hi := by
  rw [← Option.ne_none_iff_isSome, Ne, firstIn_eq_none]
  constructor
  · intro h
    by_contra hnone
    refine h fun i hlo hhi => ?_
    exact Bool.eq_false_iff.mpr fun hp => hnone ⟨i, hp, hlo, hhi⟩
  · rintro ⟨i, hp, hlo, hhi⟩ hnone
    rw [hnone i hlo hhi] at hp
    cases hp

/-- Nothing is missed by starting after a part where it does not hold. -/
theorem firstIn_skip (hle : lo ≤ mid) (hnone : ∀ i, lo ≤ i → i < mid → p i = false) : firstIn p lo hi = firstIn p mid hi := by
  cases hfirst : firstIn p mid hi with
  | none =>
    rw [firstIn_eq_none] at hfirst ⊢
    intro i hlo hhi
    rcases Nat.lt_or_ge i mid with hlt | hge
    · exact hnone i hlo hlt
    · exact hfirst i hge hhi
  | some k =>
    rw [firstIn_eq_some] at hfirst ⊢
    obtain ⟨hp, hk, hhi, hbefore⟩ := hfirst
    refine ⟨hp, Nat.le_trans hle hk, hhi, fun j hlo hj => ?_⟩
    rcases Nat.lt_or_ge j mid with hlt | hge
    · exact hnone j hlo hlt
    · exact hbefore j hge hj

/-- Nothing is missed by ending before a part where it does not hold. -/
theorem firstIn_cut (hle : mid ≤ hi) (hnone : ∀ i, mid ≤ i → i < hi → p i = false) : firstIn p lo hi = firstIn p lo mid := by
  cases hfirst : firstIn p lo mid with
  | none =>
    rw [firstIn_eq_none] at hfirst ⊢
    intro i hlo hhi
    rcases Nat.lt_or_ge i mid with hlt | hge
    · exact hfirst i hlo hlt
    · exact hnone i hge hhi
  | some k =>
    rw [firstIn_eq_some] at hfirst ⊢
    obtain ⟨hp, hk, hmid, hbefore⟩ := hfirst
    exact ⟨hp, hk, Nat.lt_of_lt_of_le hmid hle, hbefore⟩

theorem firstIn_of_holds (hlo : lo ≤ mid) (hhi : mid < hi) (hmid : p mid = true) :
    firstIn p lo hi = (firstIn p lo mid).or (some mid) := by
  cases hfirst : firstIn p lo mid with
  | none =>
    rw [firstIn_eq_none] at hfirst
    exact firstIn_eq_some.mpr ⟨hmid, hlo, hhi, hfirst⟩
  | some k =>
    rw [firstIn_eq_some] at hfirst
    obtain ⟨hp, hk, hkmid, hbefore⟩ := hfirst
    exact firstIn_eq_some.mpr ⟨hp, hk, Nat.lt_trans hkmid hhi, hbefore⟩

end Xelis.Lib
