import Mathlib.Data.List.Basic
import Mathlib.Tactic.Ring

/-! Big-endian encodings of numbers as lists of base 256 digits. -/

namespace Xelis.Lib

/-- The lowest `w` base 256 digits of a number, most significant first. -/
def digitsBE : Nat → Nat → List Nat
  | 0, _ => []
  | w + 1, n => digitsBE w (n / 256) ++ [n % 256]

@[simp] theorem length_digitsBE (w n : Nat) : (digitsBE w n).length = w := by
  induction w generalizing n with
  | zero => rfl
  | succ w ih => simp [digitsBE, ih]

variable {w n m a b : Nat}

theorem digitsBE_inj (h : digitsBE w n = digitsBE w m) : n % 256 ^ w = m % 256 ^ w := by
  induction w generalizing n m with
  | zero => simp [Nat.mod_one]
  | succ w ih =>
    obtain ⟨hhigh, hlow⟩ := List.append_inj h (by simp)
    have hdiv := ih hhigh
    have hmod : n % 256 = m % 256 := by simpa using hlow
    rw [pow_succ', Nat.mod_mul, Nat.mod_mul, hmod, hdiv]

/-- Eight digits whose first one is not reduced: exact below `2 ^ 64` and injective on all numbers. -/
def toBeBytes (n : Nat) : List Nat := n / 256 ^ 7 :: digitsBE 7 n

@[simp] theorem length_toBeBytes (n : Nat) : (toBeBytes n).length = 8 := by
  simp [toBeBytes]

theorem toBeBytes_injective : Function.Injective toBeBytes := by
  intro n m h
  obtain ⟨hhigh, hlow⟩ := List.cons.inj h
  rw [← Nat.div_add_mod n (256 ^ 7), ← Nat.div_add_mod m (256 ^ 7), hhigh, digitsBE_inj hlow]

def bitVecBytes {w : Nat} (h : BitVec (8 * w)) : List Nat := digitsBE w h.toNat

theorem bitVecBytes_injective : Function.Injective (bitVecBytes (w := w)) := by
  intro a b h
  have hmod := digitsBE_inj h
  have hw : 256 ^ w = 2 ^ (8 * w) := by rw [pow_mul]; norm_num
  rw [hw, Nat.mod_eq_of_lt a.isLt, Nat.mod_eq_of_lt b.isLt] at hmod
  exact BitVec.eq_of_toNat_eq hmod

/-- The number with the given digits, the most significant one first. -/
def ofDigitsBE (digits : List Nat) : Nat := digits.foldl (fun acc d => acc * 256 + d) 0

theorem ofDigitsBE_digitsBE (w n : Nat) : ofDigitsBE (digitsBE w n) = n % 256 ^ w := by
  induction w generalizing n with
  | zero => simp [digitsBE, ofDigitsBE, Nat.mod_one]
  | succ w ih =>
    have hlast : ofDigitsBE (digitsBE w (n / 256) ++ [n % 256]) = ofDigitsBE (digitsBE w (n / 256)) * 256 + n % 256 := by
      unfold ofDigitsBE
      rw [List.foldl_append]
      rfl
    rw [digitsBE, hlast, ih, pow_succ', Nat.mod_mul]
    ring

theorem digitsBE_cons (w n : Nat) : digitsBE (w + 1) n = n / 256 ^ w % 256 :: digitsBE w n := by
  induction w generalizing n with
  | zero => simp [digitsBE]
  | succ w ih =>
    rw [digitsBE, ih, digitsBE, Nat.div_div_eq_div_mul, ← pow_succ']
    rfl

theorem mod_le_of_compare_digitsBE {u v : List Nat}
    (h : compare (digitsBE w a ++ u) (digitsBE w b ++ v) = .lt) : a % 256 ^ w ≤ b % 256 ^ w := by
  induction w with
  | zero => simp [Nat.mod_one]
  | succ w ih =>
    rw [digitsBE_cons, digitsBE_cons, List.cons_append, List.cons_append, List.compare_cons_cons, Ordering.then_eq_lt] at h
    rw [Nat.mod_pow_succ, Nat.mod_pow_succ]
    rcases h with hlt | ⟨heq, hrest⟩
    · have hdigit := Nat.compare_eq_lt.mp hlt
      have ha : a % 256 ^ w < 256 ^ w := Nat.mod_lt _ (Nat.pow_pos (by decide))
      calc a % 256 ^ w + 256 ^ w * (a / 256 ^ w % 256) ≤ 256 ^ w * (a / 256 ^ w % 256 + 1) := by rw [Nat.mul_succ]; omega
        _ ≤ 256 ^ w * (b / 256 ^ w % 256) := Nat.mul_le_mul_left _ hdigit
        _ ≤ _ := Nat.le_add_left _ _
    · rw [Nat.compare_eq_eq.mp heq]
      exact Nat.add_le_add_right (ih hrest) _

theorem le_of_compare_toBeBytes {u v : List Nat} (h : compare (toBeBytes a ++ u) (toBeBytes b ++ v) = .lt) : a ≤ b := by
  unfold toBeBytes at h
  rw [List.cons_append, List.cons_append, List.compare_cons_cons, Ordering.then_eq_lt] at h
  rcases h with hlt | ⟨heq, hrest⟩
  · exact Nat.le_of_lt (Nat.lt_of_div_lt_div (Nat.compare_eq_lt.mp hlt))
  · rw [← Nat.div_add_mod a (256 ^ 7), ← Nat.div_add_mod b (256 ^ 7), Nat.compare_eq_eq.mp heq]
    exact Nat.add_le_add_left (mod_le_of_compare_digitsBE hrest) _

theorem foldl_digits (acc : Nat) (digits : List Nat) :
    digits.foldl (fun acc d => acc * 256 + d) acc = acc * 256 ^ digits.length + ofDigitsBE digits := by
  induction digits generalizing acc with
  | nil => simp [ofDigitsBE]
  | cons d digits ih =>
    unfold ofDigitsBE
    rw [List.foldl_cons, List.foldl_cons, ih, ih (0 * 256 + d), List.length_cons, pow_succ']
    ring

theorem ofDigitsBE_toBeBytes (n : Nat) : ofDigitsBE (toBeBytes n) = n := by
  have hhead : ofDigitsBE (toBeBytes n) = n / 256 ^ 7 * 256 ^ (digitsBE 7 n).length + ofDigitsBE (digitsBE 7 n) := by
    rw [← foldl_digits, ofDigitsBE, toBeBytes, List.foldl_cons, Nat.zero_mul, Nat.zero_add]
  rw [hhead, length_digitsBE, ofDigitsBE_digitsBE, Nat.mul_comm]
  exact Nat.div_add_mod n (256 ^ 7)

theorem ofNat_ofDigitsBE (h : BitVec (8 * w)) : BitVec.ofNat (8 * w) (ofDigitsBE (bitVecBytes h)) = h := by
  have hlt : h.toNat < 256 ^ w := by
    have hw : 256 ^ w = 2 ^ (8 * w) := by rw [pow_mul]; norm_num
    rw [hw]
    exact h.isLt
  rw [bitVecBytes, ofDigitsBE_digitsBE, Nat.mod_eq_of_lt hlt, BitVec.ofNat_toNat, BitVec.setWidth_eq]

end Xelis.Lib
