import Mathlib.Data.List.Nodup
import Mathlib.Data.List.Perm.Basic

/-! Sets that remember the order in which their elements were inserted. -/

namespace Xelis.Lib

/-- Distinct elements in insertion order. -/
@[ext]
structure IndexSet (α : Type) where
  elems : List α
  nodup : elems.Nodup
  deriving DecidableEq

namespace IndexSet

variable {α : Type}

def empty : IndexSet α := ⟨[], List.nodup_nil⟩

def single (a : α) : IndexSet α := ⟨[a], List.nodup_singleton a⟩

def getIndex (s : IndexSet α) (i : Nat) : Option α := s.elems[i]?

def isEmpty (s : IndexSet α) : Bool := s.elems.isEmpty

/-- An element that is present keeps its place. -/
def insert [DecidableEq α] (s : IndexSet α) (a : α) : IndexSet α where
  elems := if a ∈ s.elems then s.elems else s.elems ++ [a]
  nodup := by
    split
    · exact s.nodup
    · rename_i h
      exact s.nodup.append (List.nodup_singleton a) (by simpa using h)

def extend [DecidableEq α] (s : IndexSet α) (as : List α) : IndexSet α := as.foldl insert s

/-- Removal that keeps the order of what is left. -/
def shiftRemove [DecidableEq α] (s : IndexSet α) (a : α) : IndexSet α := ⟨s.elems.erase a, s.nodup.erase a⟩

def retain (s : IndexSet α) (keep : α → Bool) : IndexSet α := ⟨s.elems.filter keep, s.nodup.filter keep⟩

/-- What is left of a list when its last element takes the place of the one at `i`. -/
def swapRemoved (l : List α) (i : Nat) : List α :=
  match (l.drop (i + 1)).getLast? with
  | none => l.take i
  | some last => l.take i ++ last :: (l.drop (i + 1)).dropLast

theorem swapRemoved_perm (l : List α) (i : Nat) : (swapRemoved l i).Perm (l.eraseIdx i) := by
  rw [swapRemoved, List.eraseIdx_eq_take_drop_succ]
  cases h : (l.drop (i + 1)).getLast? with
  | none =>
    rw [List.getLast?_eq_none_iff.mp h, List.append_nil]
  | some last =>
    have hlast : (l.drop (i + 1)).dropLast ++ [last] = l.drop (i + 1) := by
      obtain ⟨rest, hrest⟩ := List.getLast?_eq_some_iff.mp h
      rw [hrest, List.dropLast_concat]
    have hmove : (last :: (l.drop (i + 1)).dropLast).Perm (l.drop (i + 1)) := by
      simpa only [hlast] using (List.perm_append_singleton last (l.drop (i + 1)).dropLast).symm
    exact hmove.append_left (l.take i)

/-- Removal by index: the last element takes the free place. -/
def swapRemoveIndex (s : IndexSet α) (i : Nat) : Option α × IndexSet α :=
  match s.elems[i]? with
  | none => (none, s)
  | some a => (some a, ⟨swapRemoved s.elems i, (swapRemoved_perm s.elems i).nodup_iff.mpr (s.nodup.eraseIdx i)⟩)

variable {s : IndexSet α}

theorem elems_insert_of_not_mem [DecidableEq α] {a : α} (h : a ∉ s.elems) :
    (s.insert a).elems = s.elems ++ [a] := if_neg h

theorem insert_of_mem [DecidableEq α] {a : α} (h : a ∈ s.elems) : s.insert a = s :=
  IndexSet.ext (if_pos h)

theorem mem_insert [DecidableEq α] {a b : α} : b ∈ (s.insert a).elems ↔ b ∈ s.elems ∨ b = a := by
  by_cases h : a ∈ s.elems
  · rw [insert_of_mem h]
    exact ⟨.inl, fun hb => hb.elim id (fun heq => heq ▸ h)⟩
  · rw [elems_insert_of_not_mem h, List.mem_append, List.mem_singleton]

theorem length_extend_le [DecidableEq α] (s : IndexSet α) (as : List α) :
    (s.extend as).elems.length ≤ s.elems.length + as.length := by
  induction as generalizing s with
  | nil => exact Nat.le_refl _
  | cons a as ih =>
    have hinsert : (s.insert a).elems.length ≤ s.elems.length + 1 := by
      unfold insert
      split <;> simp
    have hrest : ((s.insert a).extend as).elems.length ≤ (s.insert a).elems.length + as.length := ih (s.insert a)
    show ((s.insert a).extend as).elems.length ≤ s.elems.length + (as.length + 1)
    omega

theorem elems_extend [DecidableEq α] (s : IndexSet α) {as : List α} (h : as.Nodup) :
    (s.extend as).elems = s.elems ++ as.filter (· ∉ s.elems) := by
  induction as generalizing s with
  | nil => simp [extend]
  | cons a as ih =>
    obtain ⟨hnot, hnodup⟩ := List.nodup_cons.mp h
    show ((s.insert a).extend as).elems = _
    rw [ih (s.insert a) hnodup]
    by_cases ha : a ∈ s.elems
    · rw [insert_of_mem ha]
      simp [ha]
    · rw [elems_insert_of_not_mem ha, List.filter_cons_of_pos (by rwa [decide_eq_true_eq]), List.append_assoc]
      refine congrArg (s.elems ++ a :: ·) (List.filter_congr (fun b hb => ?_))
      have hne : b ≠ a := fun heq => hnot (heq ▸ hb)
      simp [hne]

end IndexSet

end Xelis.Lib
