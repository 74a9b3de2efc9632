import Xelis.Blockchain.Ordering
import Xelis.Lib.Kalman

/-! The difficulty of the next block: a Kalman filter over the hashrate, in 256 bits. -/

namespace Xelis.Blockchain

open Lib.Uint (Fault shl shr bind_of_ok)

/-- Numbers of 256 bits. -/
abbrev VarUint := Nat

namespace VarUint

def add : VarUint → VarUint → Except Fault VarUint := Lib.Uint.add 256
def sub : VarUint → VarUint → Except Fault VarUint := Lib.Uint.sub
def mul : VarUint → VarUint → Except Fault VarUint := Lib.Uint.mul 256
def div : VarUint → VarUint → Except Fault VarUint := Lib.Uint.div

end VarUint

/-- The estimate after the measurement, kept unsigned. -/
def updateEstimate (z xEstPrev k shift : VarUint) : Except Fault VarUint :=
  if xEstPrev ≤ z then do
    let innovation ← VarUint.sub z xEstPrev
    let weighted ← VarUint.mul k innovation
    VarUint.add xEstPrev (shr weighted shift)
  else do
    let innovation ← VarUint.sub xEstPrev z
    let weighted ← VarUint.mul k innovation
    VarUint.sub xEstPrev (shr weighted shift)

def kalmanFilter (z xEstPrev pPrev shift leftShift processNoiseCovar : VarUint) : Except Fault (VarUint × VarUint) := do
  let z ← VarUint.mul z leftShift
  let r ← VarUint.mul z 2
  let xEstPrev ← VarUint.mul xEstPrev leftShift
  let noise ← VarUint.mul xEstPrev processNoiseCovar
  let pPred ← VarUint.add (shr noise shift) pPrev
  let total ← VarUint.add pPred r
  let total ← VarUint.add total 1
  let k ← VarUint.div (shl 256 pPred shift) total
  let xEstNew ← updateEstimate z xEstPrev k shift
  let rest ← VarUint.sub leftShift k
  let weighted ← VarUint.mul rest pPred
  return (shr xEstNew shift, shr weighted shift)

namespace V1

def SHIFT : Nat := 32
def LEFT_SHIFT : VarUint := 2 ^ SHIFT
def PROCESS_NOISE_COVAR : VarUint := 2 ^ SHIFT / 100 * 5
def P : VarUint := LEFT_SHIFT

def calculateDifficulty (solveTime : Nat) (previousDifficulty p minimumDifficulty : VarUint) :
    Except Fault (VarUint × VarUint) := do
  let z ← VarUint.div previousDifficulty solveTime
  let xEstPrev ← VarUint.div previousDifficulty BLOCK_TIME_MILLIS
  let (xEstNew, pNew) ← kalmanFilter z xEstPrev p SHIFT LEFT_SHIFT PROCESS_NOISE_COVAR
  let difficulty ← VarUint.mul xEstNew BLOCK_TIME_MILLIS
  if difficulty < minimumDifficulty then
    return (minimumDifficulty, P)
  return (difficulty, pNew)

end V1

namespace V2

def SHIFT : Nat := 20
def LEFT_SHIFT : VarUint := 2 ^ SHIFT
def PROCESS_NOISE_COVAR : VarUint := 2 ^ SHIFT * SHIFT / MILLIS_PER_SECOND
def P : VarUint := LEFT_SHIFT

def calculateDifficulty (solveTime : Nat) (previousDifficulty p minimumDifficulty : VarUint) :
    Except Fault (VarUint × VarUint) := do
  let hashes ← VarUint.mul previousDifficulty MILLIS_PER_SECOND
  let z ← VarUint.div hashes solveTime
  let xEstPrev ← VarUint.div hashes BLOCK_TIME_MILLIS
  let (xEstNew, pNew) ← kalmanFilter z xEstPrev p SHIFT LEFT_SHIFT PROCESS_NOISE_COVAR
  let scaled ← VarUint.mul xEstNew BLOCK_TIME_MILLIS
  let difficulty ← VarUint.div scaled MILLIS_PER_SECOND
  if difficulty < minimumDifficulty then
    return (minimumDifficulty, P)
  return (difficulty, pNew)

end V2

/-- The solve time wraps around when the blocks are not in the order of their timestamps. -/
def calculateDifficulty (parentTimestamp timestamp : UInt64) (previousDifficulty p minimumDifficulty : VarUint)
    (version : BlockVersion) : Except Fault (VarUint × VarUint) :=
  let solveTime := max (timestamp - parentTimestamp).toNat 1
  match version with
  | .v0 => V1.calculateDifficulty solveTime previousDifficulty p minimumDifficulty
  | _ => V2.calculateDifficulty solveTime previousDifficulty p minimumDifficulty

def getCovarianceP : BlockVersion → VarUint
  | .v0 => V1.P
  | _ => V2.P

example : kalmanFilter 300 1 V1.P V1.SHIFT V1.LEFT_SHIFT V1.PROCESS_NOISE_COVAR = .ok (1, 4501837440) := by decide +kernel

section Filter

variable {z x p shift q : Nat}
variable {a b : VarUint}

theorem VarUint.add_eq (h : a + b < 2 ^ 256) : VarUint.add a b = .ok (a + b) := Lib.Uint.add_eq h

theorem VarUint.sub_eq (h : b ≤ a) : VarUint.sub a b = .ok (a - b) := Lib.Uint.sub_eq h

theorem VarUint.mul_eq (h : a * b < 2 ^ 256) : VarUint.mul a b = .ok (a * b) := Lib.Uint.mul_eq h

theorem VarUint.div_eq (h : 0 < b) : VarUint.div a b = .ok (a / b) := Lib.Uint.div_eq h

theorem updateEstimate_eq {k L : Nat} (hk : k ≤ 2 ^ shift) (hL : L = 2 ^ shift) (hz : L * (z * L) < 2 ^ 256)
    (hx : L * (x * L) < 2 ^ 256) :
    ∃ scaled, updateEstimate (z * L) (x * L) k shift = .ok scaled ∧ shr scaled shift = Lib.Kalman.estimate L z x k := by
  subst hL
  have hpos : 0 < 2 ^ shift := Nat.two_pow_pos shift
  unfold updateEstimate Lib.Kalman.estimate
  by_cases hle : x * 2 ^ shift ≤ z * 2 ^ shift
  · have hweighted : k * (z * 2 ^ shift - x * 2 ^ shift) < 2 ^ 256 :=
      Nat.lt_of_le_of_lt (Nat.mul_le_mul hk (Nat.sub_le _ _)) hz
    have hstep : k * (z * 2 ^ shift - x * 2 ^ shift) / 2 ^ shift ≤ z * 2 ^ shift - x * 2 ^ shift :=
      Nat.div_le_of_le_mul (Nat.mul_le_mul_right _ hk)
    have hzlt : z * 2 ^ shift < 2 ^ 256 := Nat.lt_of_le_of_lt (Nat.le_mul_of_pos_left _ hpos) hz
    have hsum : x * 2 ^ shift + shr (k * (z * 2 ^ shift - x * 2 ^ shift)) shift < 2 ^ 256 := by
      rw [Lib.Uint.shr_eq]
      omega
    rw [if_pos hle, if_pos hle]
    refine ⟨_, ?_, rfl⟩
    simp only [bind, Except.bind, VarUint.sub_eq hle, VarUint.mul_eq hweighted, VarUint.add_eq hsum]
    rfl
  · have hlt : z * 2 ^ shift ≤ x * 2 ^ shift := (Nat.lt_of_not_le hle).le
    have hweighted : k * (x * 2 ^ shift - z * 2 ^ shift) < 2 ^ 256 :=
      Nat.lt_of_le_of_lt (Nat.mul_le_mul hk (Nat.sub_le _ _)) hx
    have hstep : k * (x * 2 ^ shift - z * 2 ^ shift) / 2 ^ shift ≤ x * 2 ^ shift - z * 2 ^ shift :=
      Nat.div_le_of_le_mul (Nat.mul_le_mul_right _ hk)
    have hrest : shr (k * (x * 2 ^ shift - z * 2 ^ shift)) shift ≤ x * 2 ^ shift := by
      rw [Lib.Uint.shr_eq]
      omega
    rw [if_neg hle, if_neg hle]
    refine ⟨_, ?_, rfl⟩
    simp only [bind, Except.bind, VarUint.sub_eq hlt, VarUint.mul_eq hweighted, VarUint.sub_eq hrest]
    rfl

/-- Within these sizes nothing leaves the 256 bits, and the filter is the one without a bound. -/
theorem kalmanFilter_eq (hshift : shift ≤ 32) (hz : z < 2 ^ 138) (hx : x < 2 ^ 138) (hp : p < 2 ^ 162)
    (hq : q ≤ 2 ^ shift) :
    kalmanFilter z x p shift (2 ^ shift) q =
      .ok (Lib.Kalman.estimate (2 ^ shift) z x (Lib.Kalman.gain (2 ^ shift) z (Lib.Kalman.predicted q x p)),
        Lib.Kalman.covariance (2 ^ shift) (Lib.Kalman.gain (2 ^ shift) z (Lib.Kalman.predicted q x p))
          (Lib.Kalman.predicted q x p)) := by
  have hL : 2 ^ shift ≤ 2 ^ 32 := Nat.pow_le_pow_right (by decide) hshift
  have hpos : 0 < 2 ^ shift := Nat.two_pow_pos shift
  have hzL : z * 2 ^ shift < 2 ^ 138 * 2 ^ 32 := Nat.mul_lt_mul_of_lt_of_le hz hL (by decide)
  have hxL : x * 2 ^ shift < 2 ^ 138 * 2 ^ 32 := Nat.mul_lt_mul_of_lt_of_le hx hL (by decide)
  have hxq : x * q < 2 ^ 138 * 2 ^ 32 := Nat.mul_lt_mul_of_lt_of_le hx (Nat.le_trans hq hL) (by decide)
  have hnoise : x * 2 ^ shift * q < 2 ^ 138 * 2 ^ 32 * 2 ^ 32 :=
    Nat.mul_lt_mul_of_lt_of_le hxL (Nat.le_trans hq hL) (by decide)
  have hcancel : shr (x * 2 ^ shift * q) shift = x * q := by
    rw [Lib.Uint.shr_eq, Nat.mul_right_comm, Nat.mul_div_cancel _ hpos]
  have hP : Lib.Kalman.predicted q x p < 2 ^ 171 := by
    unfold Lib.Kalman.predicted
    omega
  have hPL : Lib.Kalman.predicted q x p * 2 ^ shift < 2 ^ 171 * 2 ^ 32 :=
    Nat.mul_lt_mul_of_lt_of_le hP hL (by decide)
  have hgain : Lib.Kalman.gain (2 ^ shift) z (Lib.Kalman.predicted q x p) ≤ 2 ^ shift := (Lib.Kalman.gain_lt hpos).le
  have hzLL : 2 ^ shift * (z * 2 ^ shift) < 2 ^ 256 := by
    calc 2 ^ shift * (z * 2 ^ shift) ≤ 2 ^ 32 * (2 ^ 138 * 2 ^ 32) := Nat.mul_le_mul hL hzL.le
      _ < 2 ^ 256 := by decide
  have hxLL : 2 ^ shift * (x * 2 ^ shift) < 2 ^ 256 := by
    calc 2 ^ shift * (x * 2 ^ shift) ≤ 2 ^ 32 * (2 ^ 138 * 2 ^ 32) := Nat.mul_le_mul hL hxL.le
      _ < 2 ^ 256 := by decide
  obtain ⟨scaled, hupdate, hscaled⟩ := updateEstimate_eq hgain rfl hzLL hxLL
  have hweighted : (2 ^ shift - Lib.Kalman.gain (2 ^ shift) z (Lib.Kalman.predicted q x p)) *
      Lib.Kalman.predicted q x p < 2 ^ 256 := by
    calc (2 ^ shift - Lib.Kalman.gain (2 ^ shift) z (Lib.Kalman.predicted q x p)) * Lib.Kalman.predicted q x p
        ≤ 2 ^ 32 * 2 ^ 171 := Nat.mul_le_mul (Nat.le_trans (Nat.sub_le _ _) hL) hP.le
      _ < 2 ^ 256 := by decide
  have hpred : VarUint.add (shr (x * 2 ^ shift * q) shift) p = .ok (Lib.Kalman.predicted q x p) := by
    rw [hcancel]
    exact VarUint.add_eq (Nat.lt_trans hP (by decide))
  have hdiv : VarUint.div (shl 256 (Lib.Kalman.predicted q x p) shift)
      (Lib.Kalman.predicted q x p + z * 2 ^ shift * 2 + 1) =
        .ok (Lib.Kalman.gain (2 ^ shift) z (Lib.Kalman.predicted q x p)) := by
    rw [Lib.Uint.shl_eq (Nat.lt_trans hPL (by decide))]
    exact VarUint.div_eq (Nat.succ_pos _)
  have h₁ : z * 2 ^ shift < 2 ^ 256 := Nat.lt_trans hzL (by decide)
  have h₂ : z * 2 ^ shift * 2 < 2 ^ 256 := by omega
  have h₃ : x * 2 ^ shift < 2 ^ 256 := Nat.lt_trans hxL (by decide)
  have h₄ : x * 2 ^ shift * q < 2 ^ 256 := Nat.lt_trans hnoise (by decide)
  have h₅ : Lib.Kalman.predicted q x p + z * 2 ^ shift * 2 < 2 ^ 256 := by omega
  have h₆ : Lib.Kalman.predicted q x p + z * 2 ^ shift * 2 + 1 < 2 ^ 256 := by omega
  simp only [kalmanFilter, bind, Except.bind, pure, Except.pure, VarUint.mul_eq h₁, VarUint.mul_eq h₂,
    VarUint.mul_eq h₃, VarUint.mul_eq h₄, hpred, VarUint.add_eq h₅, VarUint.add_eq h₆, hdiv, hupdate, hscaled,
    VarUint.sub_eq hgain, VarUint.mul_eq hweighted]
  rfl

end Filter

section Bounds

def observedHashrate (version : BlockVersion) (solveTime difficulty : Nat) : Nat :=
  match version with
  | .v0 => difficulty / solveTime
  | _ => difficulty * MILLIS_PER_SECOND / solveTime

def previousHashrate (version : BlockVersion) (difficulty : Nat) : Nat :=
  observedHashrate version BLOCK_TIME_MILLIS difficulty

def filterShift : BlockVersion → Nat
  | .v0 => V1.SHIFT
  | _ => V2.SHIFT

def processNoise : BlockVersion → Nat
  | .v0 => V1.PROCESS_NOISE_COVAR
  | _ => V2.PROCESS_NOISE_COVAR

/-- The filter in numbers without a bound. -/
def unboundedFilter (version : BlockVersion) (z x p : Nat) : Nat × Nat :=
  let L := 2 ^ filterShift version
  let P := Lib.Kalman.predicted (processNoise version) x p
  (Lib.Kalman.estimate L z x (Lib.Kalman.gain L z P), Lib.Kalman.covariance L (Lib.Kalman.gain L z P) P)

variable {version : BlockVersion} {solveTime d p : Nat}

theorem observedHashrate_lt (version : BlockVersion) (solveTime : Nat) (hd : d < 2 ^ 128) :
    observedHashrate version solveTime d < 2 ^ 138 ∧
      observedHashrate version solveTime d * 2 ^ filterShift version * 2 + 1 < 2 ^ 161 := by
  have hle : ∀ n : Nat, n / solveTime ≤ n := fun n => Nat.div_le_self n solveTime
  cases version with
  | v0 =>
    have hz := hle d
    simp only [observedHashrate, filterShift, V1.SHIFT]
    omega
  | v1 | v2 | v3 =>
    have hz := hle (d * MILLIS_PER_SECOND)
    simp only [observedHashrate, filterShift, V2.SHIFT, MILLIS_PER_SECOND] at hz ⊢
    omega

theorem predicted_lt (version : BlockVersion) (hd : d < 2 ^ 128) (hp : p < 2 ^ 162) :
    Lib.Kalman.predicted (processNoise version) (previousHashrate version d) p < 2 ^ 163 := by
  cases version with
  | v0 =>
    have hx : d / BLOCK_TIME_MILLIS ≤ d := Nat.div_le_self _ _
    simp only [Lib.Kalman.predicted, processNoise, previousHashrate, observedHashrate, V1.PROCESS_NOISE_COVAR, V1.SHIFT]
      at hx ⊢
    omega
  | v1 | v2 | v3 =>
    have hx : d * MILLIS_PER_SECOND / BLOCK_TIME_MILLIS ≤ d * MILLIS_PER_SECOND := Nat.div_le_self _ _
    simp only [Lib.Kalman.predicted, processNoise, previousHashrate, observedHashrate, V2.PROCESS_NOISE_COVAR, V2.SHIFT,
      MILLIS_PER_SECOND] at hx ⊢
    omega

/-- A covariance within the bound is followed by one within the bound. -/
theorem unboundedFilter_covariance_lt (hd : d < 2 ^ 128) (hp : p < 2 ^ 162) :
    (unboundedFilter version (observedHashrate version solveTime d) (previousHashrate version d) p).2 < 2 ^ 162 := by
  have hnoise := (observedHashrate_lt version solveTime hd).2
  have hpredicted := predicted_lt version hd hp
  have hrounded : Lib.Kalman.predicted (processNoise version) (previousHashrate version d) p / 2 ^ filterShift version ≤
      Lib.Kalman.predicted (processNoise version) (previousHashrate version d) p / 2 ^ 20 := by
    refine Nat.div_le_div_left (Nat.pow_le_pow_right (by decide) ?_) (by decide)
    cases version with
    | v0 => decide
    | v1 | v2 | v3 => decide
  have hcovariance := Lib.Kalman.covariance_le (z := observedHashrate version solveTime d)
    (P := Lib.Kalman.predicted (processNoise version) (previousHashrate version d) p)
    (Nat.two_pow_pos (filterShift version))
  unfold unboundedFilter
  dsimp only
  omega

def filterOf (version : BlockVersion) (z x p : VarUint) : Except Fault (VarUint × VarUint) :=
  match version with
  | .v0 => kalmanFilter z x p V1.SHIFT V1.LEFT_SHIFT V1.PROCESS_NOISE_COVAR
  | _ => kalmanFilter z x p V2.SHIFT V2.LEFT_SHIFT V2.PROCESS_NOISE_COVAR

def difficultyForHashrate (version : BlockVersion) (hashrate : Nat) : Nat :=
  match version with
  | .v0 => hashrate * BLOCK_TIME_MILLIS
  | _ => hashrate * BLOCK_TIME_MILLIS / MILLIS_PER_SECOND

theorem filterOf_eq {z x : Nat} (hz : z < 2 ^ 138) (hx : x < 2 ^ 138) (hp : p < 2 ^ 162) :
    filterOf version z x p = .ok (unboundedFilter version z x p) := by
  cases version with
  | v0 => exact kalmanFilter_eq (by decide) hz hx hp (by decide)
  | v1 | v2 | v3 => exact kalmanFilter_eq (by decide) hz hx hp (by decide)

theorem unboundedFilter_between (version : BlockVersion) (z x p : Nat) :
    min z x ≤ (unboundedFilter version z x p).1 ∧ (unboundedFilter version z x p).1 ≤ max z x :=
  Lib.Kalman.estimate_between (Nat.two_pow_pos _) (Lib.Kalman.gain_lt (Nat.two_pow_pos _)).le

/-- The difficulty for a result of the filter, which starts again at the minimum. -/
def notBelow (version : BlockVersion) (minimum : Nat) (result : Nat × Nat) : Nat × Nat :=
  if difficultyForHashrate version result.1 < minimum then (minimum, getCovarianceP version)
  else (difficultyForHashrate version result.1, result.2)

def filtered (version : BlockVersion) (solveTime d p : Nat) : Nat × Nat :=
  unboundedFilter version (observedHashrate version solveTime d) (previousHashrate version d) p

theorem filtered_lt (version : BlockVersion) (solveTime p : Nat) (hd : d < 2 ^ 128) :
    (filtered version solveTime d p).1 < 2 ^ 138 := by
  have hz := (observedHashrate_lt version solveTime hd).1
  have hx := (observedHashrate_lt version BLOCK_TIME_MILLIS hd).1
  exact Nat.lt_of_le_of_lt (unboundedFilter_between version _ _ p).2 (max_lt hz hx)

theorem kalmanFilter_v0 (z x p : Nat) :
    kalmanFilter z x p V1.SHIFT V1.LEFT_SHIFT V1.PROCESS_NOISE_COVAR = filterOf .v0 z x p := rfl

theorem kalmanFilter_later (hversion : version ≠ .v0) (z x p : Nat) :
    kalmanFilter z x p V2.SHIFT V2.LEFT_SHIFT V2.PROCESS_NOISE_COVAR = filterOf version z x p := by
  cases version with
  | v0 => exact absurd rfl hversion
  | v1 | v2 | v3 => rfl

theorem observedHashrate_later (hversion : version ≠ .v0) (solveTime d : Nat) :
    d * MILLIS_PER_SECOND / solveTime = observedHashrate version solveTime d := by
  cases version with
  | v0 => exact absurd rfl hversion
  | v1 | v2 | v3 => rfl

theorem difficultyForHashrate_v0 (hashrate : Nat) : difficultyForHashrate .v0 hashrate = hashrate * BLOCK_TIME_MILLIS := rfl

theorem difficultyForHashrate_later (hversion : version ≠ .v0) (hashrate : Nat) :
    difficultyForHashrate version hashrate = hashrate * BLOCK_TIME_MILLIS / MILLIS_PER_SECOND := by
  cases version with
  | v0 => exact absurd rfl hversion
  | v1 | v2 | v3 => rfl

theorem getCovarianceP_later (hversion : version ≠ .v0) : V2.P = getCovarianceP version := by
  cases version with
  | v0 => exact absurd rfl hversion
  | v1 | v2 | v3 => rfl

/-- The steps are taken one after the other: a unification of the whole would compute with the constants. -/
theorem V1.calculateDifficulty_eq (hsolve : 0 < solveTime) (hd : d < 2 ^ 128) (hp : p < 2 ^ 162) (minimum : Nat) :
    V1.calculateDifficulty solveTime d p minimum = .ok (notBelow .v0 minimum (filtered .v0 solveTime d p)) := by
  have hz : d / solveTime < 2 ^ 138 := (observedHashrate_lt .v0 solveTime hd).1
  have hx : d / BLOCK_TIME_MILLIS < 2 ^ 138 := (observedHashrate_lt .v0 BLOCK_TIME_MILLIS hd).1
  have hfilter : filterOf .v0 (d / solveTime) (d / BLOCK_TIME_MILLIS) p = .ok (filtered .v0 solveTime d p) :=
    filterOf_eq hz hx hp
  have hestimate := filtered_lt .v0 solveTime p hd
  have hscaled : (filtered .v0 solveTime d p).1 * BLOCK_TIME_MILLIS < 2 ^ 256 := by
    unfold BLOCK_TIME_MILLIS MILLIS_PER_SECOND
    omega
  have hblock : 0 < BLOCK_TIME_MILLIS := by decide
  unfold V1.calculateDifficulty notBelow
  rw [difficultyForHashrate_v0, bind_of_ok (VarUint.div_eq hsolve), bind_of_ok (VarUint.div_eq hblock), kalmanFilter_v0,
    bind_of_ok hfilter]
  generalize filtered .v0 solveTime d p = result at hscaled ⊢
  obtain ⟨xEstNew, pNew⟩ := result
  dsimp only at hscaled ⊢
  rw [bind_of_ok (VarUint.mul_eq hscaled)]
  by_cases hlow : xEstNew * BLOCK_TIME_MILLIS < minimum
  · rw [if_pos hlow, if_pos hlow]
    rfl
  · rw [if_neg hlow, if_neg hlow]
    rfl

theorem V2.calculateDifficulty_eq (hversion : version ≠ .v0) (hsolve : 0 < solveTime) (hd : d < 2 ^ 128)
    (hp : p < 2 ^ 162) (minimum : Nat) :
    V2.calculateDifficulty solveTime d p minimum =
      .ok (notBelow version minimum (filtered version solveTime d p)) := by
  have hhashes : d * MILLIS_PER_SECOND < 2 ^ 256 := by
    unfold MILLIS_PER_SECOND
    omega
  have hfilter : filterOf version (d * MILLIS_PER_SECOND / solveTime) (d * MILLIS_PER_SECOND / BLOCK_TIME_MILLIS) p =
      .ok (filtered version solveTime d p) := by
    rw [observedHashrate_later hversion, observedHashrate_later hversion]
    exact filterOf_eq (observedHashrate_lt version _ hd).1 (observedHashrate_lt version _ hd).1 hp
  have hestimate := filtered_lt version solveTime p hd
  have hscaled : (filtered version solveTime d p).1 * BLOCK_TIME_MILLIS < 2 ^ 256 := by
    unfold BLOCK_TIME_MILLIS MILLIS_PER_SECOND
    omega
  have hblock : 0 < BLOCK_TIME_MILLIS := by decide
  have hsecond : 0 < MILLIS_PER_SECOND := by decide
  unfold V2.calculateDifficulty notBelow
  rw [difficultyForHashrate_later hversion, bind_of_ok (VarUint.mul_eq hhashes), bind_of_ok (VarUint.div_eq hsolve),
    bind_of_ok (VarUint.div_eq hblock), kalmanFilter_later hversion, bind_of_ok hfilter, getCovarianceP_later hversion]
  generalize filtered version solveTime d p = result at hscaled ⊢
  obtain ⟨xEstNew, pNew⟩ := result
  dsimp only at hscaled ⊢
  rw [bind_of_ok (VarUint.mul_eq hscaled), bind_of_ok (VarUint.div_eq hsecond)]
  by_cases hlow : xEstNew * BLOCK_TIME_MILLIS / MILLIS_PER_SECOND < minimum
  · rw [if_pos hlow, if_pos hlow]
    rfl
  · rw [if_neg hlow, if_neg hlow]
    rfl

/-- Nothing leaves the 256 bits: the difficulty is the one that numbers without a bound would give. -/
theorem calculateDifficulty_eq (parentTimestamp timestamp : UInt64) (version : BlockVersion) (minimum : Nat)
    (hd : d < 2 ^ 128) (hp : p < 2 ^ 162) :
    calculateDifficulty parentTimestamp timestamp d p minimum version =
      .ok (notBelow version minimum (filtered version (max (timestamp - parentTimestamp).toNat 1) d p)) := by
  have hsolve : 0 < max (timestamp - parentTimestamp).toNat 1 := Nat.lt_of_lt_of_le Nat.one_pos (le_max_right _ _)
  cases version with
  | v0 => exact V1.calculateDifficulty_eq hsolve hd hp minimum
  | v1 | v2 | v3 => exact V2.calculateDifficulty_eq (by decide) hsolve hd hp minimum

theorem notBelow_covariance_lt (version : BlockVersion) (solveTime minimum : Nat) (hd : d < 2 ^ 128) (hp : p < 2 ^ 162) :
    (notBelow version minimum (filtered version solveTime d p)).2 < 2 ^ 162 := by
  have hinitial : getCovarianceP version < 2 ^ 162 := by
    cases version with
    | v0 => decide
    | v1 | v2 | v3 => decide
  unfold notBelow
  by_cases hlow : difficultyForHashrate version (filtered version solveTime d p).1 < minimum
  · rw [if_pos hlow]
    exact hinitial
  · rw [if_neg hlow]
    exact unboundedFilter_covariance_lt hd hp

theorem le_notBelow (version : BlockVersion) (minimum : Nat) (result : Nat × Nat) :
    minimum ≤ (notBelow version minimum result).1 := by
  unfold notBelow
  by_cases hlow : difficultyForHashrate version result.1 < minimum
  · rw [if_pos hlow]
  · rw [if_neg hlow]
    exact Nat.le_of_not_lt hlow

/-- The difficulty is computed without a fault, from an estimate between the two hashrates and not below the minimum,
and the covariance keeps its bound. -/
theorem calculateDifficulty_bounds (parentTimestamp timestamp : UInt64) (version : BlockVersion) (minimum : Nat)
    (hd : d < 2 ^ 128) (hp : p < 2 ^ 162) :
    ∃ solveTime z x estimate covariance difficulty p' : Nat,
      solveTime = max (timestamp - parentTimestamp).toNat 1 ∧
      z = observedHashrate version solveTime d ∧ x = previousHashrate version d ∧
      filterOf version z x p = .ok (estimate, covariance) ∧
      (estimate, covariance) = unboundedFilter version z x p ∧ min z x ≤ estimate ∧ estimate ≤ max z x ∧
      calculateDifficulty parentTimestamp timestamp d p minimum version = .ok (difficulty, p') ∧
      (difficulty, p') = notBelow version minimum (estimate, covariance) ∧ minimum ≤ difficulty ∧ p' < 2 ^ 162 := by
  refine ⟨_, _, _, _, _, _, _, rfl, rfl, rfl, ?_, rfl, ?_, ?_, calculateDifficulty_eq _ _ _ _ hd hp, rfl, ?_, ?_⟩
  · exact filterOf_eq (observedHashrate_lt version _ hd).1 (observedHashrate_lt version _ hd).1 hp
  · exact (unboundedFilter_between version _ _ p).1
  · exact (unboundedFilter_between version _ _ p).2
  · exact le_notBelow version minimum _
  · exact notBelow_covariance_lt version _ minimum hd hp

theorem calculateDifficulty_bounds_minimum : ∃ difficulty p' : Nat,
    calculateDifficulty 5000 15000 300000 V1.P 300000 .v0 = .ok (difficulty, p') ∧ 300000 ≤ difficulty ∧ p' < 2 ^ 162 := by
  obtain ⟨_, _, _, _, _, difficulty, p', -, -, -, -, -, -, -, hrun, -, hmin, hp'⟩ :=
    calculateDifficulty_bounds (d := 300000) (p := V1.P) 5000 15000 .v0 300000 (by decide) (by decide)
  exact ⟨difficulty, p', hrun, hmin, hp'⟩

structure SolvedBlock where
  parentTimestamp : UInt64
  timestamp : UInt64
  difficulty : Nat
  minimum : Nat
  version : BlockVersion

def nextCovariance (p : Nat) (b : SolvedBlock) : Except Fault Nat :=
  (calculateDifficulty b.parentTimestamp b.timestamp b.difficulty p b.minimum b.version).map Prod.snd

theorem covariance_along_chain (blocks : List SolvedBlock) (hblocks : ∀ b ∈ blocks, b.difficulty < 2 ^ 128) (hp : p < 2 ^ 162) :
    ∃ p', blocks.foldlM nextCovariance p = .ok p' ∧ p' < 2 ^ 162 := by
  induction blocks generalizing p with
  | nil => exact ⟨p, rfl, hp⟩
  | cons b blocks ih =>
    have hd := hblocks b List.mem_cons_self
    have hnext := congrArg (·.map Prod.snd) (calculateDifficulty_eq b.parentTimestamp b.timestamp b.version b.minimum hd hp)
    obtain ⟨p', hrest, hp'⟩ := ih (fun c hc => hblocks c (List.mem_cons_of_mem _ hc)) (notBelow_covariance_lt b.version _ b.minimum hd hp)
    exact ⟨p', by rw [List.foldlM_cons, nextCovariance, hnext]; exact hrest, hp'⟩

end Bounds

end Xelis.Blockchain
