import Mathlib.Algebra.Ring.Nat

/-! Unsigned arithmetic of a fixed width, with the outcomes that stop a program. -/

namespace Xelis.Lib.Uint

/-- What stops a checked operation. -/
inductive Fault where
  | overflow
  | underflow
  | divisionByZero
  deriving DecidableEq, Repr

section Operations

variable (w : Nat)

def add (a b : Nat) : Except Fault Nat := if a + b < 2 ^ w then .ok (a + b) else .error .overflow

def mul (a b : Nat) : Except Fault Nat := if a * b < 2 ^ w then .ok (a * b) else .error .overflow

def sub (a b : Nat) : Except Fault Nat := if b ≤ a then .ok (a - b) else .error .underflow

def div (a b : Nat) : Except Fault Nat := if b = 0 then .error .divisionByZero else .ok (a / b)

/-- The bits that leave the width are lost. -/
def shl (a s : Nat) : Nat := a * 2 ^ s % 2 ^ w

def shr (a s : Nat) : Nat := a / 2 ^ s

end Operations

variable {w a b s : Nat}

theorem add_eq (h : a + b < 2 ^ w) : add w a b = .ok (a + b) := if_pos h

theorem mul_eq (h : a * b < 2 ^ w) : mul w a b = .ok (a * b) := if_pos h

theorem sub_eq (h : b ≤ a) : sub a b = .ok (a - b) := if_pos h

theorem div_eq (h : 0 < b) : div a b = .ok (a / b) := if_neg (Nat.ne_of_gt h)

theorem shl_eq (h : a * 2 ^ s < 2 ^ w) : shl w a s = a * 2 ^ s := Nat.mod_eq_of_lt h

theorem shr_eq : shr a s = a / 2 ^ s := rfl

/-- A program goes on with the result of an operation that does not stop it. -/
theorem bind_of_ok {α β : Type} {x : Except Fault α} {a : α} (h : x = .ok a) (f : α → Except Fault β) :
    (x >>= f) = f a := by
  rw [h]
  rfl

end Xelis.Lib.Uint
