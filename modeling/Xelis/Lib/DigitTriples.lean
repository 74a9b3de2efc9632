import Mathlib.Tactic.Common
import Mathlib.Data.Nat.Basic

/-! Numbers written with three digits, of which the second and the third are counted from the digit before them. -/

namespace Xelis.Lib.DigitTriples

def digits (W n : Nat) : List Nat :=
  let a := n % W
  let b := (n / W + a) % W
  let c := (n / W / W + b) % W
  [a, b, c]

/-- The number with the given digits. -/
def value (W a b c : Nat) : Nat := a + W * ((W - a + b) % W) + W * W * ((W - b + c) % W)

variable {W a b c d n : Nat}

/-- A digit that is counted from another one is found again. -/
theorem offset_add (ha : a < W) (hd : d < W) : (W - a + (d + a) % W) % W = d := by
  rcases Nat.lt_or_ge (d + a) W with hlt | hge
  · rw [Nat.mod_eq_of_lt hlt, show W - a + (d + a) = d + W by omega, Nat.add_mod_right, Nat.mod_eq_of_lt hd]
  · rw [Nat.mod_eq_sub_mod hge, Nat.mod_eq_of_lt (by omega : d + a - W < W), show W - a + (d + a - W) = d by omega,
      Nat.mod_eq_of_lt hd]

theorem add_offset (ha : a < W) (hb : b < W) : ((W - a + b) % W + a) % W = b := by
  rw [Nat.mod_add_mod, show W - a + b + a = b + W by omega, Nat.add_mod_right, Nat.mod_eq_of_lt hb]

theorem value_lt (ha : a < W) : value W a b c < W * W * W := by
  have hW : 0 < W := by omega
  have hsecond : (W - a + b) % W + 1 ≤ W := Nat.mod_lt _ hW
  have hthird : (W - b + c) % W + 1 ≤ W := Nat.mod_lt _ hW
  calc value W a b c < W + W * ((W - a + b) % W) + W * W * ((W - b + c) % W) := by
        rw [value]
        omega
    _ = W * ((W - a + b) % W + 1) + W * W * ((W - b + c) % W) := by rw [Nat.mul_add, Nat.mul_one, Nat.add_comm W]
    _ ≤ W * W + W * W * ((W - b + c) % W) := Nat.add_le_add_right (Nat.mul_le_mul_left W hsecond) _
    _ = W * W * ((W - b + c) % W + 1) := by rw [Nat.mul_add, Nat.mul_one, Nat.add_comm]
    _ ≤ W * W * W := Nat.mul_le_mul_left _ hthird

theorem value_mod (ha : a < W) : value W a b c % W = a := by
  rw [value, Nat.mul_assoc, Nat.add_mul_mod_self_left, Nat.add_mul_mod_self_left, Nat.mod_eq_of_lt ha]

theorem value_div (ha : a < W) : value W a b c / W = (W - a + b) % W + W * ((W - b + c) % W) := by
  have hW : 0 < W := by omega
  rw [value, Nat.mul_assoc, Nat.add_assoc, ← Nat.mul_add, Nat.add_mul_div_left _ _ hW, Nat.div_eq_of_lt ha, Nat.zero_add]

theorem digits_value (ha : a < W) (hb : b < W) (hc : c < W) : digits W (value W a b c) = [a, b, c] := by
  have hW : 0 < W := by omega
  have hsecond : ((W - a + b) % W + W * ((W - b + c) % W) + a) % W = b := by
    rw [Nat.add_right_comm, Nat.add_mul_mod_self_left, add_offset ha hb]
  have hthird : ((W - a + b) % W + W * ((W - b + c) % W)) / W = (W - b + c) % W := by
    rw [Nat.add_mul_div_left _ _ hW, Nat.div_eq_of_lt (Nat.mod_lt _ hW), Nat.zero_add]
  simp only [digits, value_mod ha, value_div ha, hsecond, hthird, add_offset hb hc]

theorem lt_of_mem_digits (hW : 0 < W) {i : Nat} (hi : i ∈ digits W n) : i < W := by
  simp only [digits, List.mem_cons, List.not_mem_nil, or_false] at hi
  rcases hi with rfl | rfl | rfl <;> exact Nat.mod_lt _ hW

theorem value_digits (hW : 0 < W) (hn : n < W * W * W) :
    value W (n % W) ((n / W + n % W) % W) ((n / W / W + (n / W + n % W) % W) % W) = n := by
  have hhigh : n / W / W < W := by
    rw [Nat.div_div_eq_div_mul]
    exact Nat.div_lt_of_lt_mul hn
  have hsecond : (W - n % W + (n / W + n % W) % W) % W = n / W % W := by
    rw [← Nat.mod_add_mod (n / W), offset_add (Nat.mod_lt _ hW) (Nat.mod_lt _ hW)]
  rw [value, hsecond, offset_add (Nat.mod_lt _ hW) hhigh, Nat.mul_assoc, Nat.add_assoc, ← Nat.mul_add,
    Nat.mod_add_div, Nat.mod_add_div]

end Xelis.Lib.DigitTriples
