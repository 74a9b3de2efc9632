import Mathlib.Logic.Function.Basic

/-! The versions of one value over time, with a pointer to the last one. -/

namespace Xelis.Lib

/-- The versions of a value, each at its time, and the time of the last one. -/
@[ext] structure History (V : Type) where
  last : Option Nat
  version : Nat → Option V

namespace History

variable {V : Type}

/-- A new last version. -/
def push (h : History V) (t : Nat) (v : V) : History V := ⟨some t, Function.update h.version t (some v)⟩

/-- A new last version, or none. -/
def extend (h : History V) (t : Nat) : Option V → History V
  | none => h
  | some v => h.push t v

/-- Nothing is known at a time or after it. -/
structure Below (h : History V) (t : Nat) : Prop where
  last : ∀ l, h.last = some l → l < t
  version : ∀ u, t ≤ u → h.version u = none

section Writes

variable (h : History V) (t : Nat) (v : V)

@[simp] theorem last_push : (h.push t v).last = some t := rfl

@[simp] theorem version_push_self : (h.push t v).version t = some v := Function.update_self ..

variable {u t' : Nat}

theorem version_push_of_ne (hu : u ≠ t) : (h.push t v).version u = h.version u := Function.update_of_ne hu ..

@[simp] theorem extend_none : h.extend t none = h := rfl

@[simp] theorem extend_some : h.extend t (some v) = h.push t v := rfl

variable {h t}

theorem Below.mono (hb : h.Below t) (hle : t ≤ t') : h.Below t' where
  last l hl := Nat.lt_of_lt_of_le (hb.last l hl) hle
  version u hu := hb.version u (Nat.le_trans hle hu)

theorem Below.push (hb : h.Below t) (hu : u < t) (v : V) : (h.push u v).Below t where
  last l hl := by
    rw [last_push, Option.some.injEq] at hl
    rw [← hl]
    exact hu
  version w hw := by
    rw [version_push_of_ne _ _ _ (Nat.ne_of_gt (Nat.lt_of_lt_of_le hu hw))]
    exact hb.version w hw

theorem Below.extend (hb : h.Below t) (hu : u < t) (entry : Option V) : (h.extend u entry).Below t := by
  cases entry with
  | none => exact hb
  | some v => exact hb.push hu v

end Writes

end History

end Xelis.Lib
