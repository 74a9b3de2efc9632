import Mathlib.Algebra.Order.Ring.Nat
import Mathlib.Tactic.Linarith
import Mathlib.Tactic.Ring

/-! A Kalman filter of one variable in fixed point numbers, without a bound on their size. -/

namespace Xelis.Lib.Kalman

/-- The covariance after the prediction, for an estimate `x` with the process noise `q`. -/
def predicted (q x p : Nat) : Nat := x * q + p

/-- The gain, as a part of the scale `L`. The measurement `z` counts with the noise `2 * z * L`. -/
def gain (L z P : Nat) : Nat := P * L / (P + z * L * 2 + 1)

/-- The estimate moves towards the measurement by the gain. -/
def estimate (L z x K : Nat) : Nat :=
  if x * L ≤ z * L then (x * L + K * (z * L - x * L) / L) / L else (x * L - K * (x * L - z * L) / L) / L

def covariance (L K P : Nat) : Nat := (L - K) * P / L

variable {L z x P K : Nat}

theorem gain_lt (hL : 0 < L) : gain L z P < L := by
  unfold gain
  rw [Nat.div_lt_iff_lt_mul (Nat.succ_pos _)]
  nlinarith [Nat.zero_le (z * L * 2)]

theorem estimate_between (hL : 0 < L) (hK : K ≤ L) : min z x ≤ estimate L z x K ∧ estimate L z x K ≤ max z x := by
  unfold estimate
  by_cases hle : x ≤ z
  · have hscaled : x * L ≤ z * L := Nat.mul_le_mul_right L hle
    have hstep : K * (z * L - x * L) / L ≤ z * L - x * L :=
      Nat.div_le_of_le_mul (Nat.mul_le_mul_right _ hK)
    rw [if_pos hscaled, min_eq_right hle, max_eq_left hle, Nat.le_div_iff_mul_le hL]
    refine ⟨Nat.le_add_right _ _, Nat.div_le_of_le_mul ?_⟩
    rw [Nat.mul_comm L z]
    omega
  · have hlt : z < x := Nat.lt_of_not_le hle
    have hscaled : z * L < x * L := Nat.mul_lt_mul_of_pos_right hlt hL
    have hstep : K * (x * L - z * L) / L ≤ x * L - z * L :=
      Nat.div_le_of_le_mul (Nat.mul_le_mul_right _ hK)
    rw [if_neg (Nat.not_le.mpr hscaled), min_eq_left hlt.le, max_eq_right hlt.le, Nat.le_div_iff_mul_le hL]
    refine ⟨by omega, Nat.div_le_of_le_mul ?_⟩
    rw [Nat.mul_comm L x]
    exact Nat.sub_le _ _

theorem covariance_le (hL : 0 < L) : covariance L (gain L z P) P ≤ z * L * 2 + 1 + P / L := by
  have hround : P * L < (gain L z P + 1) * (P + z * L * 2 + 1) := by
    have hdiv := Nat.lt_div_mul_add (a := P * L) (Nat.succ_pos (P + z * L * 2))
    unfold gain
    linarith
  have hgain : gain L z P + 1 ≤ L := gain_lt hL
  have hnoise : (gain L z P + 1) * (z * L * 2 + 1) ≤ L * (z * L * 2 + 1) := Nat.mul_le_mul_right _ hgain
  have hproduct : (L - gain L z P) * P ≤ P + (z * L * 2 + 1) * L := by
    rw [Nat.sub_mul, Nat.sub_le_iff_le_add]
    linarith
  calc covariance L (gain L z P) P
      ≤ (P + (z * L * 2 + 1) * L) / L := Nat.div_le_div_right hproduct
    _ = z * L * 2 + 1 + P / L := by rw [Nat.add_mul_div_right _ _ hL, Nat.add_comm]

end Xelis.Lib.Kalman
