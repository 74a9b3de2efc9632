import Mathlib.Data.List.Induction
import Mathlib.Tactic.Ring

/-! Numbers written in groups of bits, and the sums of groups that a linear checksum makes. -/

namespace Xelis.Lib

variable {xs ys : List UInt8}

section Groups

/-- The number whose groups of `w` bits are given, most significant first. -/
def ofGroups (w : Nat) (xs : List UInt8) : Nat := xs.foldl (fun acc x => acc * 2 ^ w + x.toNat) 0

/-- Every group has at most `w` bits. -/
def Grouped (w : Nat) (xs : List UInt8) : Prop := ∀ x ∈ xs, x.toNat < 2 ^ w

variable {w : Nat}

@[simp] theorem ofGroups_nil (w : Nat) : ofGroups w [] = 0 := rfl

@[simp] theorem ofGroups_concat (w : Nat) (xs : List UInt8) (x : UInt8) :
    ofGroups w (xs ++ [x]) = ofGroups w xs * 2 ^ w + x.toNat := by
  simp [ofGroups]

theorem Grouped.concat_iff {x : UInt8} : Grouped w (xs ++ [x]) ↔ Grouped w xs ∧ x.toNat < 2 ^ w := by
  simp [Grouped, or_imp, forall_and]

theorem grouped_bytes (xs : List UInt8) : Grouped 8 xs := fun x _ => x.toNat_lt

theorem ofGroups_lt (h : Grouped w xs) : ofGroups w xs < 2 ^ (w * xs.length) := by
  induction xs using List.reverseRecOn with
  | nil => exact Nat.one_pos
  | append_singleton xs x ih =>
    obtain ⟨hxs, hx⟩ := Grouped.concat_iff.mp h
    rw [ofGroups_concat, List.length_append, List.length_singleton, Nat.mul_succ, pow_add]
    calc ofGroups w xs * 2 ^ w + x.toNat
        < ofGroups w xs * 2 ^ w + 2 ^ w := Nat.add_lt_add_left hx _
      _ = (ofGroups w xs + 1) * 2 ^ w := by ring
      _ ≤ 2 ^ (w * xs.length) * 2 ^ w := Nat.mul_le_mul_right _ (ih hxs)

theorem two_pow_xor_eq_add {b : Nat} (h : b < 2 ^ w) (a : Nat) : 2 ^ w * a ^^^ b = 2 ^ w * a + b := by
  rw [Nat.two_pow_add_eq_or_of_lt h]
  apply Nat.eq_of_testBit_eq
  intro i
  rw [Nat.testBit_xor, Nat.testBit_or, Nat.testBit_two_pow_mul]
  by_cases hi : w ≤ i
  · have hlow : b.testBit i = false := Nat.testBit_lt_two_pow (Nat.lt_of_lt_of_le h (Nat.pow_le_pow_right Nat.two_pos hi))
    rw [hlow, Bool.xor_false, Bool.or_false]
  · rw [decide_eq_false hi, Bool.false_and, Bool.false_xor, Bool.false_or]

theorem ofGroups_injective (hxs : Grouped w xs) (hys : Grouped w ys) (hlen : xs.length = ys.length)
    (h : ofGroups w xs = ofGroups w ys) : xs = ys := by
  induction xs using List.reverseRecOn generalizing ys with
  | nil => exact (List.length_eq_zero_iff.mp hlen.symm).symm
  | append_singleton xs x ih =>
    induction ys using List.reverseRecOn with
    | nil => simp at hlen
    | append_singleton ys y =>
      obtain ⟨hxs, hx⟩ := Grouped.concat_iff.mp hxs
      obtain ⟨hys, hy⟩ := Grouped.concat_iff.mp hys
      rw [ofGroups_concat, ofGroups_concat] at h
      have hlow : x.toNat = y.toNat := by
        have hmod := congrArg (· % 2 ^ w) h
        simpa only [Nat.mul_add_mod', Nat.mod_eq_of_lt hx, Nat.mod_eq_of_lt hy] using hmod
      have hhigh : ofGroups w xs = ofGroups w ys := by
        rw [hlow] at h
        exact Nat.eq_of_mul_eq_mul_right (Nat.two_pow_pos w) (Nat.add_right_cancel h)
      rw [UInt8.toNat.inj hlow, ih hxs hys (by simpa using hlen) hhigh]

end Groups

section Checksum

variable {n : Nat} (L : BitVec n → BitVec n)

/-- The state of a checksum after the values: each step mixes the state and adds the value without carry. -/
def checksum (s : BitVec n) (vs : List (BitVec n)) : BitVec n := vs.foldl (fun s v => L s ^^^ v) s

theorem checksum_append (s : BitVec n) (vs ws : List (BitVec n)) : checksum L s (vs ++ ws) = checksum L (checksum L s vs) ws :=
  List.foldl_append

/-- The mixing keeps sums. -/
def Additive : Prop := ∀ a b, L (a ^^^ b) = L a ^^^ L b

variable {L}

/-- Values add to what zeros in their place would give. -/
theorem Additive.checksum_eq (h : Additive L) (s : BitVec n) (vs : List (BitVec n)) :
    checksum L s vs = checksum L s (List.replicate vs.length 0) ^^^ checksum L 0 vs := by
  induction vs using List.reverseRecOn with
  | nil => exact (BitVec.xor_zero).symm
  | append_singleton vs v ih =>
    have hlast : ∀ t, checksum L t (vs ++ [v]) = L (checksum L t vs) ^^^ v := fun t => checksum_append L t vs [v]
    have hzeros : checksum L s (List.replicate (vs ++ [v]).length 0) = L (checksum L s (List.replicate vs.length 0)) := by
      rw [List.length_append, List.length_singleton, List.replicate_succ', checksum_append]
      exact BitVec.xor_zero
    rw [hlast, hlast, hzeros, ih, h, BitVec.xor_assoc]

/-- Two states stay apart by what the mixing makes of their difference, whatever values follow. -/
theorem Additive.checksum_xor (h : Additive L) (a b : BitVec n) (vs : List (BitVec n)) :
    checksum L a vs ^^^ checksum L b vs = L^[vs.length] (a ^^^ b) := by
  induction vs generalizing a b with
  | nil => rfl
  | cons v vs ih =>
    have hstep : (L a ^^^ v) ^^^ (L b ^^^ v) = L (a ^^^ b) := by
      rw [h, BitVec.xor_assoc, BitVec.xor_comm (L b) v, ← BitVec.xor_assoc v v, BitVec.xor_self, BitVec.zero_xor]
    rw [List.length_cons, Function.iterate_succ_apply, ← hstep]
    exact ih (L a ^^^ v) (L b ^^^ v)

/-- A mixing without a kernel never makes a difference vanish. -/
theorem iterate_ne_zero (Small : BitVec n → Prop) (hkept : ∀ s, Small (L s)) (hkernel : ∀ s, Small s → L s = 0 → s = 0) (k : Nat)
    {d : BitVec n} (hd : Small d) (hne : d ≠ 0) : L^[k] d ≠ 0 := by
  induction k generalizing d with
  | zero => exact hne
  | succ k ih =>
    rw [Function.iterate_succ_apply]
    exact ih (hkept d) fun hzero => hne (hkernel d hd hzero)

theorem checksum_groups {w bound : Nat} (hshift : ∀ s : BitVec n, s.toNat < 2 ^ bound → L s = s <<< w) (hbits : bound + w ≤ n)
    (hxs : Grouped w xs) (hlen : w * xs.length ≤ bound + w) :
    (checksum L 0 (xs.map (fun x => BitVec.ofNat n x.toNat))).toNat = ofGroups w xs := by
  induction xs using List.reverseRecOn with
  | nil => rfl
  | append_singleton xs x ih =>
    obtain ⟨hxs, hx⟩ := Grouped.concat_iff.mp hxs
    rw [List.length_append, List.length_singleton, Nat.mul_succ] at hlen
    have hsmall : ofGroups w xs < 2 ^ bound :=
      Nat.lt_of_lt_of_le (ofGroups_lt hxs) (Nat.pow_le_pow_right Nat.two_pos (by omega))
    have ih := ih hxs (by omega)
    rw [List.map_append, checksum_append]
    show (L _ ^^^ BitVec.ofNat n x.toNat).toNat = _
    have hfits : ofGroups w xs * 2 ^ w + x.toNat < 2 ^ n := by
      calc ofGroups w xs * 2 ^ w + x.toNat
          < (ofGroups w xs + 1) * 2 ^ w := by rw [Nat.add_mul, Nat.one_mul]; exact Nat.add_lt_add_left hx _
        _ ≤ 2 ^ bound * 2 ^ w := Nat.mul_le_mul_right _ hsmall
        _ = 2 ^ (bound + w) := (pow_add 2 bound w).symm
        _ ≤ 2 ^ n := Nat.pow_le_pow_right Nat.two_pos hbits
    rw [hshift _ (by rw [ih]; exact hsmall), BitVec.toNat_xor, BitVec.toNat_shiftLeft, ih, BitVec.toNat_ofNat, Nat.shiftLeft_eq,
      Nat.mod_eq_of_lt (Nat.lt_of_le_of_lt (Nat.le_add_right _ _) hfits),
      Nat.mod_eq_of_lt (Nat.lt_of_le_of_lt (Nat.le_add_left _ _) hfits), ofGroups_concat, Nat.mul_comm]
    exact two_pow_xor_eq_add hx _

end Checksum

end Xelis.Lib
