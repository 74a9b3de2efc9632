import Mathlib.Data.Nat.Notation
import Mathlib.Order.Nat

/-! The greatest one of several values, found in one pass that starts from nothing. -/

namespace Xelis.Lib.Greatest

variable {α : Type} (worth : α → Nat)

/-- A value takes the place of the one before when it is worth more. -/
def keep (best : Nat × Option α) (a : α) : Nat × Option α := if best.1 < worth a then (worth a, some a) else best

/-- What is kept is one of those that were seen, and none of them was worth more. -/
structure Of (seen : List α) (best : Nat × Option α) : Prop where
  le : ∀ a ∈ seen, worth a ≤ best.1
  selected : ∀ a, best.2 = some a → a ∈ seen ∧ worth a = best.1
  nothing : best.2 = none → best.1 = 0

variable {worth} {seen as : List α} {best : Nat × Option α}

theorem Of.start : Of worth [] (0, none) := ⟨nofun, nofun, fun _ => rfl⟩

theorem Of.step (h : Of worth seen best) (a : α) : Of worth (seen ++ [a]) (keep worth best a) := by
  unfold keep
  split
  · rename_i hlt
    refine ⟨fun b hb => ?_, fun b hb => ?_, nofun⟩
    · rcases List.mem_append.mp hb with hb | hb
      · exact (h.le b hb).trans hlt.le
      · exact Nat.le_of_eq (congrArg worth (List.mem_singleton.mp hb))
    · obtain rfl : a = b := Option.some.inj hb
      exact ⟨List.mem_append_right _ List.mem_cons_self, rfl⟩
  · rename_i hle
    refine ⟨fun b hb => ?_, fun b hb => ?_, h.nothing⟩
    · rcases List.mem_append.mp hb with hb | hb
      · exact h.le b hb
      · rw [List.mem_singleton.mp hb]
        exact Nat.le_of_not_lt hle
    · exact ⟨List.mem_append_left _ (h.selected b hb).1, (h.selected b hb).2⟩

theorem Of.foldl (h : Of worth seen best) (as : List α) : Of worth (seen ++ as) (as.foldl (keep worth) best) := by
  induction as generalizing seen best with
  | nil => rwa [List.append_nil]
  | cons a as ih =>
    rw [List.foldl_cons, ← List.singleton_append, ← List.append_assoc]
    exact ih (h.step a)

theorem foldl_keep (as : List α) : Of worth as (as.foldl (keep worth) (0, none)) := Of.start.foldl as

theorem foldl_keep_eq_none : (as.foldl (keep worth) (0, none)).2 = none ↔ ∀ a ∈ as, worth a = 0 := by
  have hof : Of worth as (as.foldl (keep worth) (0, none)) := foldl_keep as
  constructor
  · intro hnone a ha
    exact Nat.eq_zero_of_le_zero ((hof.le a ha).trans (hof.nothing hnone).le)
  · intro hzero
    have hstays (bs : List α) (hbs : ∀ b ∈ bs, worth b = 0) : bs.foldl (keep worth) (0, none) = (0, none) := by
      induction bs with
      | nil => rfl
      | cons b bs ih =>
        rw [List.foldl_cons, keep, hbs b List.mem_cons_self, if_neg (Nat.lt_irrefl 0)]
        exact ih fun c hc => hbs c (List.mem_cons_of_mem _ hc)
    rw [hstays as hzero]

end Xelis.Lib.Greatest
