import Xelis.Common.Serializer
import Xelis.Lib.BitGroups
import Xelis.Lib.Exec

namespace Xelis.Wire

open Lib (ofGroups Grouped checksum Additive)

def CHARSET : List Char := "qpzry9x8gf2tvdw0s3jn54khce6mua7l".toList

def GENERATOR : List (BitVec 32) := [0x3b6a57b2, 0x26508e6d, 0x1ea119fa, 0x3d4233dd, 0x2a1462b3]

def SEPARATOR : Char := ':'

inductive Bech32Error where
  | invalidDataRange (data bits : Nat)
  | illegalZeroPadding
  | nonZeroPadding
  | hrpEmpty
  | hrpInvalidCharacter (character : UInt8)
  | hrpMixCase
  | invalidValue (value : UInt8) (max : Nat)
  | separatorNotFound
  | separatorInvalidPosition (position : Nat)
  | invalidPrefix (got expected : String)
  | invalidChecksum
  | invalidIndex (index : Nat)
  deriving DecidableEq

/-- The case mappings of the standard library, of which only ASCII text matters. -/
structure CaseMapping where
  toUppercase : String → String
  toLowercase : String → String
  uppercase_ascii : ∀ s, (∀ c ∈ s.toList, c.toNat < 128) → toUppercase s = s.toUpper
  lowercase_ascii : ∀ s, (∀ c ∈ s.toList, c.toNat < 128) → toLowercase s = s.toLower

def okOrElse {ε α : Type} (e : ε) : Option α → Except ε α
  | some x => .ok x
  | none => .error e

variable {hrp : String} {data c out xs ys values : List UInt8}

def polymodStep (chk : BitVec 32) (value : UInt8) : BitVec 32 :=
  let top := chk >>> 25
  GENERATOR.zipIdx.foldl (fun chk item => if (top >>> item.2) &&& 1#32 = 1#32 then chk ^^^ item.1 else chk)
    (((chk &&& 0x1ffffff) <<< 5) ^^^ BitVec.ofNat 32 value.toNat)

/-- Compute a checksum for a vector of u8. -/
def polymod (values : List UInt8) : BitVec 32 := values.foldl polymodStep 1

def charBytes (cs : List Char) : List UInt8 := cs.flatMap String.utf8EncodeChar

/-- Expand a human readable part into a vector of u8. -/
def hrpExpand (hrp : String) : List UInt8 :=
  (charBytes hrp.toList).map (fun c : UInt8 => c >>> 5) ++ [0] ++ (charBytes hrp.toList).map (fun c : UInt8 => c &&& 31)

def verifyChecksum (hrp : String) (data : List UInt8) : Bool := polymod (hrpExpand hrp ++ data) == 1

def createChecksum (hrp : String) (data : List UInt8) : List UInt8 :=
  let polymod := polymod (hrpExpand hrp ++ data ++ List.replicate 6 0) ^^^ 1
  (List.range 6).map (fun i => UInt8.ofNat ((polymod >>> (5 * (5 - i))) &&& 31).toNat)

/-- The generator, if its bit is set in the top. -/
def pick (top item : BitVec 32) (i : Nat) : BitVec 32 := if top.getLsbD i then item else 0

/-- The state that is mixed, before the value is added. -/
def mix (chk : BitVec 32) : BitVec 32 :=
  ((chk &&& 0x1ffffff) <<< 5) ^^^ (pick (chk >>> 25) 0x3b6a57b2 0 ^^^ (pick (chk >>> 25) 0x26508e6d 1 ^^^
    (pick (chk >>> 25) 0x1ea119fa 2 ^^^ (pick (chk >>> 25) 0x3d4233dd 3 ^^^ pick (chk >>> 25) 0x2a1462b3 4))))

theorem bit_set (top : BitVec 32) (i : Nat) : (top >>> i) &&& 1#32 = 1#32 ↔ top.getLsbD i = true := by
  rw [BitVec.and_one_eq_setWidth_ofBool_getLsbD, BitVec.getLsbD_ushiftRight, Nat.add_zero]
  cases top.getLsbD i <;> decide

theorem polymodStep_eq (chk : BitVec 32) (value : UInt8) : polymodStep chk value = mix chk ^^^ BitVec.ofNat 32 value.toNat := by
  have hadd : ∀ (c : Bool) (x g : BitVec 32), (if c = true then x ^^^ g else x) = x ^^^ (if c = true then g else 0) := by
    intro c x g
    cases c
    · exact BitVec.xor_zero.symm
    · rfl
  simp only [polymodStep, GENERATOR, List.zipIdx_cons, List.zipIdx_nil, List.foldl_cons, List.foldl_nil, bit_set, hadd, mix, pick,
    Nat.zero_add]
  ac_rfl

theorem pick_xor (a b item : BitVec 32) (i : Nat) : pick (a ^^^ b) item i = pick a item i ^^^ pick b item i := by
  simp only [pick, BitVec.getLsbD_xor]
  cases a.getLsbD i <;> cases b.getLsbD i <;> simp

theorem xor_and (a b m : BitVec 32) : (a ^^^ b) &&& m = (a &&& m) ^^^ (b &&& m) := by
  ext i hi
  simp only [BitVec.getElem_and, BitVec.getElem_xor]
  cases a[i] <;> cases b[i] <;> cases m[i] <;> rfl

theorem mix_additive : Additive mix := by
  intro a b
  simp only [mix, BitVec.ushiftRight_xor_distrib, pick_xor, xor_and, BitVec.shiftLeft_xor_distrib]
  ac_rfl

theorem mix_small (s : BitVec 32) (h : s.toNat < 2 ^ 25) : mix s = s <<< 5 := by
  have htop : s >>> 25 = 0 := by
    apply BitVec.eq_of_toNat_eq
    rw [BitVec.toNat_ushiftRight, Nat.shiftRight_eq_div_pow, Nat.div_eq_of_lt h]
    rfl
  have hlow : s &&& 0x1ffffff = s := by
    apply BitVec.eq_of_toNat_eq
    rw [BitVec.toNat_and]
    exact (Nat.and_two_pow_sub_one_eq_mod s.toNat 25).trans (Nat.mod_eq_of_lt h)
  have hnone : ∀ item i, pick 0 item i = 0 := by
    intro item i
    exact if_neg (by simp)
  simp only [mix, htop, hlow, hnone]
  simp

theorem mix_lt (s : BitVec 32) : (mix s).toNat < 2 ^ 30 := by
  have hshift : ((s &&& 0x1ffffff) <<< 5).toNat < 2 ^ 30 := by
    have hlow : (s &&& 0x1ffffff).toNat = s.toNat % 2 ^ 25 := by
      rw [BitVec.toNat_and]
      exact Nat.and_two_pow_sub_one_eq_mod s.toNat 25
    rw [BitVec.toNat_shiftLeft, hlow, Nat.shiftLeft_eq]
    omega
  have hpick : ∀ top item i, item.toNat < 2 ^ 30 → (pick top item i).toNat < 2 ^ 30 := by
    intro top item i hitem
    unfold pick
    split
    · exact hitem
    · decide
  simp only [mix, BitVec.toNat_xor]
  refine Nat.xor_lt_two_pow hshift (Nat.xor_lt_two_pow (hpick _ _ _ (by decide)) (Nat.xor_lt_two_pow (hpick _ _ _ (by decide))
    (Nat.xor_lt_two_pow (hpick _ _ _ (by decide)) (Nat.xor_lt_two_pow (hpick _ _ _ (by decide)) (hpick _ _ _ (by decide))))))

theorem polymod_eq (values : List UInt8) : polymod values = checksum mix 1 (values.map (fun v => BitVec.ofNat 32 v.toNat)) := by
  unfold polymod checksum
  rw [List.foldl_map]
  exact congrArg (fun f => List.foldl f 1 values) (funext fun chk => funext fun v => polymodStep_eq chk v)

theorem polymod_concat (values : List UInt8) (value : UInt8) :
    polymod (values ++ [value]) = mix (polymod values) ^^^ BitVec.ofNat 32 value.toNat := by
  unfold polymod
  rw [List.foldl_append]
  exact polymodStep_eq _ value

theorem polymod_lt (values : List UInt8) : (polymod (values ++ [0])).toNat < 2 ^ 30 := by
  rw [polymod_concat, BitVec.toNat_xor]
  exact Nat.xor_lt_two_pow (mix_lt _) (by decide)

def sixGroups (p : BitVec 32) : List UInt8 := (List.range 6).map (fun i => UInt8.ofNat ((p >>> (5 * (5 - i))) &&& 31).toNat)

theorem group_toNat (p : BitVec 32) (k : Nat) : (UInt8.ofNat ((p >>> k) &&& 31).toNat).toNat = p.toNat / 2 ^ k % 32 := by
  have hlow : ((p >>> k) &&& 31).toNat = p.toNat / 2 ^ k % 32 := by
    rw [BitVec.toNat_and, BitVec.toNat_ushiftRight, Nat.shiftRight_eq_div_pow]
    exact Nat.and_two_pow_sub_one_eq_mod _ 5
  rw [hlow, UInt8.toNat_ofNat']
  omega

theorem sixGroups_grouped (p : BitVec 32) : Grouped 5 (sixGroups p) := by
  intro x hx
  obtain ⟨i, -, rfl⟩ := List.mem_map.mp hx
  rw [group_toNat]
  exact Nat.mod_lt _ (by decide)

theorem ofGroups_sixGroups {p : BitVec 32} (h : p.toNat < 2 ^ 30) : ofGroups 5 (sixGroups p) = p.toNat := by
  simp only [sixGroups, List.range_succ, List.range_zero, List.nil_append, List.cons_append, List.map_cons, List.map_nil, ofGroups,
    List.foldl_cons, List.foldl_nil, group_toNat]
  omega

theorem verifyChecksum_append (hc : Grouped 5 c) (hlen : c.length = 6) :
    verifyChecksum hrp (data ++ c) = true ↔ c = createChecksum hrp data := by
  have hsplit : ∀ vs : List UInt8, polymod (hrpExpand hrp ++ data ++ vs) =
      checksum mix (polymod (hrpExpand hrp ++ data)) (vs.map (fun v => BitVec.ofNat 32 v.toNat)) := by
    intro vs
    rw [polymod_eq, polymod_eq, List.map_append, Lib.checksum_append]
  have hzeros : (List.replicate 6 (0 : UInt8)).map (fun v => BitVec.ofNat 32 v.toNat) = List.replicate 6 0 := by decide
  have hpacked : (checksum mix 0 (c.map (fun v => BitVec.ofNat 32 v.toNat))).toNat = ofGroups 5 c :=
    Lib.checksum_groups mix_small (by decide) hc (by rw [hlen])
  have hzeroed : polymod (hrpExpand hrp ++ (data ++ c)) =
      polymod (hrpExpand hrp ++ data ++ List.replicate 6 0) ^^^ checksum mix 0 (c.map (fun v => BitVec.ofNat 32 v.toNat)) := by
    rw [← List.append_assoc, hsplit, hsplit, mix_additive.checksum_eq, List.length_map, hlen, hzeros]
  have hlt : (polymod (hrpExpand hrp ++ data ++ List.replicate 6 0) ^^^ 1).toNat < 2 ^ 30 := by
    rw [show List.replicate 6 (0 : UInt8) = List.replicate 5 0 ++ [0] from rfl, ← List.append_assoc, BitVec.toNat_xor]
    exact Nat.xor_lt_two_pow (polymod_lt _) (by decide)
  have hcreate : createChecksum hrp data = sixGroups (polymod (hrpExpand hrp ++ data ++ List.replicate 6 0) ^^^ 1) := rfl
  rw [verifyChecksum, hzeroed, beq_iff_eq, hcreate]
  revert hlt
  generalize polymod (hrpExpand hrp ++ data ++ List.replicate 6 0) = p
  intro hlt
  constructor
  · intro hone
    have hsame : checksum mix 0 (c.map (fun v => BitVec.ofNat 32 v.toNat)) = p ^^^ 1 := by
      rw [← hone, ← BitVec.xor_assoc, BitVec.xor_self, BitVec.zero_xor]
    refine Lib.ofGroups_injective hc (sixGroups_grouped _) (by rw [hlen]; rfl) ?_
    rw [ofGroups_sixGroups hlt, ← hpacked, hsame]
  · intro hsix
    have hsame : checksum mix 0 (c.map (fun v => BitVec.ofNat 32 v.toNat)) = p ^^^ 1 := by
      apply BitVec.eq_of_toNat_eq
      rw [hpacked, hsix, ofGroups_sixGroups hlt]
    rw [hsame, ← BitVec.xor_assoc, BitVec.xor_self, BitVec.zero_xor]

variable {v : UInt8} {acc bits w n i : Nat}

section Bits

/-- The `while` loop over the bits at hand. -/
def emitGroups (toBits acc bits : Nat) (result : List UInt8) : Nat × List UInt8 :=
  if toBits ≤ bits ∧ 0 < toBits then
    emitGroups toBits acc (bits - toBits) (result ++ [UInt8.ofNat ((acc >>> (bits - toBits)) &&& (2 ^ toBits - 1))])
  else (bits, result)
  termination_by bits

/-- The accumulator of 16 bits, the number of bits at hand, and the groups so far. -/
structure Regroup where
  acc : Nat
  bits : Nat
  result : List UInt8

def convertStep (fromBits toBits : Nat) (s : Regroup) (v : UInt8) : Except Bech32Error Regroup :=
  if v.toNat >>> fromBits ≠ 0 then .error (.invalidDataRange v.toNat fromBits) else
  let acc := ((s.acc <<< fromBits) % 2 ^ 16) ||| v.toNat
  let (bits, result) := emitGroups toBits acc (s.bits + fromBits) s.result
  .ok { acc, bits, result }

def convertBits (data : List UInt8) (fromBits toBits : Nat) (pad : Bool) : Except Bech32Error (List UInt8) := do
  let s ← data.foldlM (convertStep fromBits toBits) { acc := 0, bits := 0, result := [] }
  let last := ((s.acc <<< (toBits - s.bits)) % 2 ^ 16) &&& (2 ^ toBits - 1)
  if pad then
    if s.bits > 0 then return s.result ++ [UInt8.ofNat last] else return s.result
  else if s.bits ≥ fromBits then throw .illegalZeroPadding
  else if last ≠ 0 then throw .nonZeroPadding
  else return s.result

variable {fromBits toBits : Nat}

theorem emitGroups_spec (hpos : 0 < toBits) (hbyte : toBits ≤ 8) (acc bits : Nat) (result : List UInt8) (h : Grouped toBits result) :
    (emitGroups toBits acc bits result).1 < toBits ∧ Grouped toBits (emitGroups toBits acc bits result).2 ∧
      toBits * result.length + bits =
        toBits * (emitGroups toBits acc bits result).2.length + (emitGroups toBits acc bits result).1 ∧
      ofGroups toBits result * 2 ^ bits + acc % 2 ^ bits =
        ofGroups toBits (emitGroups toBits acc bits result).2 * 2 ^ (emitGroups toBits acc bits result).1 +
          acc % 2 ^ (emitGroups toBits acc bits result).1 := by
  fun_induction emitGroups toBits acc bits result with
  | case1 bits result hcase ih =>
    have hgroup : acc >>> (bits - toBits) &&& 2 ^ toBits - 1 = acc / 2 ^ (bits - toBits) % 2 ^ toBits := by
      rw [Nat.and_two_pow_sub_one_eq_mod, Nat.shiftRight_eq_div_pow]
    have hlt : acc / 2 ^ (bits - toBits) % 2 ^ toBits < 2 ^ toBits := Nat.mod_lt _ (Nat.two_pow_pos _)
    have hbytes : (UInt8.ofNat (acc >>> (bits - toBits) &&& 2 ^ toBits - 1)).toNat = acc / 2 ^ (bits - toBits) % 2 ^ toBits := by
      rw [hgroup, UInt8.toNat_ofNat']
      exact Nat.mod_eq_of_lt (Nat.lt_of_lt_of_le hlt (Nat.pow_le_pow_right Nat.two_pos hbyte))
    obtain ⟨hleft, hgrouped, hlen, hvalue⟩ := ih (Lib.Grouped.concat_iff.mpr ⟨h, by rw [hbytes]; exact hlt⟩)
    refine ⟨hleft, hgrouped, ?_, ?_⟩
    · rw [List.length_append, List.length_singleton, Nat.mul_succ] at hlen
      omega
    · rw [← hvalue, Lib.ofGroups_concat, hbytes]
      have hsplit : 2 ^ bits = 2 ^ (bits - toBits) * 2 ^ toBits := by
        rw [← pow_add, Nat.sub_add_cancel hcase.1]
      rw [hsplit, Nat.mod_mul]
      ring
  | case2 bits result hcase => exact ⟨by omega, h, rfl, rfl⟩

/-- The groups and the bits at hand make the number of the values so far. -/
structure Regrouped (fromBits toBits : Nat) (data : List UInt8) (s : Regroup) : Prop where
  bits : s.bits < toBits
  grouped : Grouped toBits s.result
  length : fromBits * data.length = toBits * s.result.length + s.bits
  value : ofGroups fromBits data = ofGroups toBits s.result * 2 ^ s.bits + s.acc % 2 ^ s.bits

theorem convertStep_ok (hpos : 0 < toBits) (hbyte : toBits ≤ 8) (hfrom : fromBits ≤ 8) {s : Regroup}
    (h : Regrouped fromBits toBits data s) (hv : v.toNat < 2 ^ fromBits) :
    ∃ s', convertStep fromBits toBits s v = .ok s' ∧ Regrouped fromBits toBits (data ++ [v]) s' := by
  have hrange : v.toNat >>> fromBits = 0 := by
    rw [Nat.shiftRight_eq_div_pow]
    exact Nat.div_eq_of_lt hv
  have hacc : ((s.acc <<< fromBits) % 2 ^ 16 ||| v.toNat) % 2 ^ (s.bits + fromBits) = s.acc % 2 ^ s.bits * 2 ^ fromBits + v.toNat := by
    have hwide : 2 ^ 16 = 2 ^ fromBits * 2 ^ (16 - fromBits) := by
      rw [← pow_add, Nat.add_sub_cancel' (by omega)]
    have hlow : s.acc % 2 ^ (16 - fromBits) % 2 ^ s.bits = s.acc % 2 ^ s.bits := by
      have hbits := h.bits
      exact Nat.mod_mod_of_dvd _ (pow_dvd_pow 2 (by omega))
    have hdiv : ∀ q, (2 ^ fromBits * q + v.toNat) / 2 ^ fromBits = q := by
      intro q
      rw [Nat.mul_add_div (Nat.two_pow_pos _), Nat.div_eq_of_lt hv, Nat.add_zero]
    rw [Nat.shiftLeft_eq, Nat.mul_comm s.acc, hwide, Nat.mul_mod_mul_left, ← Nat.two_pow_add_eq_or_of_lt hv, Nat.add_comm s.bits,
      pow_add, Nat.mod_mul, hdiv, Nat.mul_add_mod, Nat.mod_eq_of_lt hv, hlow]
    ring
  have hspec := emitGroups_spec hpos hbyte ((s.acc <<< fromBits) % 2 ^ 16 ||| v.toNat) (s.bits + fromBits) s.result h.grouped
  obtain ⟨hbits, hgrouped, hlen, hvalue⟩ := hspec
  refine ⟨_, by rw [convertStep, if_neg (not_not.mpr hrange)], hbits, hgrouped, ?_, ?_⟩
  · rw [List.length_append, List.length_singleton, Nat.mul_succ, h.length]
    exact (Nat.add_assoc _ _ _).trans hlen
  · rw [Lib.ofGroups_concat, h.value]
    refine Eq.trans ?_ hvalue
    rw [hacc, pow_add]
    ring

theorem convert_regrouped (hpos : 0 < toBits) (hbyte : toBits ≤ 8) (hfrom : fromBits ≤ 8) (h : Grouped fromBits data) :
    ∃ s, data.foldlM (convertStep fromBits toBits) { acc := 0, bits := 0, result := [] } = .ok s ∧ Regrouped fromBits toBits data s := by
  induction data using List.reverseRecOn with
  | nil => exact ⟨_, rfl, hpos, (fun _ hx => nomatch hx), by simp, by simp⟩
  | append_singleton data v ih =>
    obtain ⟨hdata, hv⟩ := Lib.Grouped.concat_iff.mp h
    obtain ⟨s, hs, hregrouped⟩ := ih hdata
    obtain ⟨s', hs', hregrouped'⟩ := convertStep_ok hpos hbyte hfrom hregrouped hv
    refine ⟨s', ?_, hregrouped'⟩
    rw [List.foldlM_append, hs]
    show (convertStep fromBits toBits s v >>= Pure.pure) = _
    rw [hs']
    rfl

theorem last_group (hbyte : toBits ≤ 8) (hbits : bits < toBits) :
    ((acc <<< (toBits - bits)) % 2 ^ 16) &&& (2 ^ toBits - 1) = acc % 2 ^ bits * 2 ^ (toBits - bits) := by
  have hsplit : 2 ^ toBits = 2 ^ bits * 2 ^ (toBits - bits) := by
    rw [← pow_add, Nat.add_sub_cancel' (Nat.le_of_lt hbits)]
  rw [Nat.and_two_pow_sub_one_eq_mod, Nat.mod_mod_of_dvd _ (pow_dvd_pow 2 (by omega)), Nat.shiftLeft_eq, hsplit, Nat.mul_mod_mul_right]

/-- With padding: the number is filled up with zeros to a whole group. -/
theorem convertBits_pad (hpos : 0 < toBits) (hbyte : toBits ≤ 8) (hfrom : fromBits ≤ 8) (h : Grouped fromBits data) :
    ∃ out p, convertBits data fromBits toBits true = .ok out ∧ Grouped toBits out ∧ p < toBits ∧
      fromBits * data.length + p = toBits * out.length ∧ ofGroups toBits out = ofGroups fromBits data * 2 ^ p := by
  obtain ⟨s, hs, hregrouped⟩ := convert_regrouped hpos hbyte hfrom h
  have hbits := hregrouped.bits
  unfold convertBits
  rw [hs]
  by_cases hmore : s.bits > 0
  · refine ⟨s.result ++ [UInt8.ofNat (s.acc % 2 ^ s.bits * 2 ^ (toBits - s.bits))], toBits - s.bits, ?_, ?_, by omega, ?_, ?_⟩
    · show (if s.bits > 0 then _ else _) = _
      rw [if_pos hmore, last_group hbyte hbits]
      rfl
    all_goals
      have hsplit : 2 ^ toBits = 2 ^ s.bits * 2 ^ (toBits - s.bits) := by
        rw [← pow_add, Nat.add_sub_cancel' (Nat.le_of_lt hbits)]
      have hlt : s.acc % 2 ^ s.bits * 2 ^ (toBits - s.bits) < 2 ^ toBits := by
        rw [hsplit]
        exact Nat.mul_lt_mul_of_pos_right (Nat.mod_lt _ (Nat.two_pow_pos _)) (Nat.two_pow_pos _)
      have hbytes : (UInt8.ofNat (s.acc % 2 ^ s.bits * 2 ^ (toBits - s.bits))).toNat = s.acc % 2 ^ s.bits * 2 ^ (toBits - s.bits) := by
        rw [UInt8.toNat_ofNat']
        exact Nat.mod_eq_of_lt (Nat.lt_of_lt_of_le hlt (Nat.pow_le_pow_right Nat.two_pos hbyte))
    · exact Lib.Grouped.concat_iff.mpr ⟨hregrouped.grouped, by rw [hbytes]; exact hlt⟩
    · rw [hregrouped.length, List.length_append, List.length_singleton, Nat.mul_succ]
      omega
    · rw [Lib.ofGroups_concat, hbytes, hregrouped.value, hsplit]
      ring
  · have hzero : s.bits = 0 := by omega
    refine ⟨s.result, 0, ?_, hregrouped.grouped, hpos, ?_, ?_⟩
    · show (if s.bits > 0 then _ else _) = _
      rw [if_neg hmore]
      rfl
    · rw [hregrouped.length, hzero, Nat.add_zero]
    · rw [hregrouped.value, hzero, pow_zero, Nat.mod_one, Nat.add_zero, Nat.mul_one, Nat.mul_one]

/-- Without padding: what is left over is less than a value, and zero. -/
theorem convertBits_ok_iff (hpos : 0 < toBits) (hbyte : toBits ≤ 8) (hfrom : fromBits ≤ toBits)
    (h : Grouped fromBits data) :
    convertBits data fromBits toBits false = .ok out ↔ Grouped toBits out ∧ ∃ b < fromBits,
      fromBits * data.length = toBits * out.length + b ∧ ofGroups fromBits data = ofGroups toBits out * 2 ^ b := by
  obtain ⟨s, hs, hregrouped⟩ := convert_regrouped hpos hbyte (by omega) h
  have hbits := hregrouped.bits
  have hconvert : convertBits data fromBits toBits false =
      if s.bits ≥ fromBits then .error .illegalZeroPadding
      else if s.acc % 2 ^ s.bits * 2 ^ (toBits - s.bits) ≠ 0 then .error .nonZeroPadding else .ok s.result := by
    unfold convertBits
    rw [hs, ← last_group hbyte hbits]
    rfl
  rw [hconvert]
  constructor
  · intro hout
    split at hout
    · cases hout
    · split at hout
      · cases hout
      · rename_i hfew hlast
        cases hout
        have hacc : s.acc % 2 ^ s.bits = 0 := by
          rcases Nat.mul_eq_zero.mp (not_not.mp hlast) with hacc | hpow
          · exact hacc
          · exact absurd hpow (Nat.two_pow_pos _).ne'
        refine ⟨hregrouped.grouped, s.bits, Nat.lt_of_not_le hfew, hregrouped.length, ?_⟩
        rw [hregrouped.value, hacc, Nat.add_zero]
  · rintro ⟨hgrouped, b, hb, hlen, hvalue⟩
    have hsame := hlen.symm.trans hregrouped.length
    have hb' : b = s.bits := by
      have hmod := congrArg (· % toBits) hsame
      simpa only [Nat.mul_add_mod, Nat.mod_eq_of_lt (Nat.lt_of_lt_of_le hb hfrom), Nat.mod_eq_of_lt hbits] using hmod
    subst hb'
    have hcount : out.length = s.result.length := Nat.eq_of_mul_eq_mul_left hpos (Nat.add_right_cancel hsame)
    have hvalues := hvalue.symm.trans hregrouped.value
    have hacc : s.acc % 2 ^ s.bits = 0 := by
      have hmod := congrArg (· % 2 ^ s.bits) hvalues
      simpa only [Nat.mul_mod_left, Nat.mul_add_mod', Nat.mod_mod] using hmod.symm
    rw [hacc, Nat.add_zero] at hvalues
    have hresult : s.result = out :=
      (Lib.ofGroups_injective hgrouped hregrouped.grouped hcount (Nat.eq_of_mul_eq_mul_right (Nat.two_pow_pos _) hvalues)).symm
    rw [if_neg (Nat.not_le_of_lt hb), hacc, Nat.zero_mul, if_neg (not_not.mpr rfl), hresult]

end Bits

section Text

variable (case : CaseMapping)

def checkHrp (hrp : String) : Except Bech32Error Unit :=
  (charBytes hrp.toList).forM (fun value => if value < 33 ∨ value > 126 then .error (.hrpInvalidCharacter value) else .ok ())

def encodeValue (value : UInt8) : Except Bech32Error Char :=
  if value.toNat > CHARSET.length then .error (.invalidValue value CHARSET.length)
  else okOrElse (.invalidIndex value.toNat) CHARSET[value.toNat]?

/-- Encode a human readable part and data into a bech32 string. All its bytes are ASCII, so that they are UTF-8. -/
def encode (hrp : String) (data : List UInt8) : Except Bech32Error String := do
  if hrp.toList = [] then throw .hrpEmpty
  checkHrp hrp
  if case.toUppercase hrp ≠ hrp ∧ case.toLowercase hrp ≠ hrp then throw .hrpMixCase
  let hrp := case.toLowercase hrp
  let values ← (data ++ createChecksum hrp data).mapM encodeValue
  return String.ofList (hrp.toList ++ SEPARATOR :: values)

def rfindSeparator : List Char → Option (List Char × List Char)
  | [] => none
  | c :: cs =>
    match rfindSeparator cs with
    | some (before, after) => some (c :: before, after)
    | none => if c = SEPARATOR then some ([], cs) else none

def utf8Len (cs : List Char) : Nat := (cs.map Char.utf8Size).sum

def decodeValues (cs : List Char) : Nat → Nat → Except Bech32Error (List UInt8)
  | 0, _ => .ok []
  | n + 1, i => do
    let c ← okOrElse (.invalidIndex i) cs[i]?
    let value ← okOrElse (.hrpInvalidCharacter (UInt8.ofNat c.toNat)) (CHARSET.idxOf? c)
    let rest ← decodeValues cs n (i + 1)
    return UInt8.ofNat value :: rest

/-- Decode a bech32 string into a human readable part and data part. The index of a character is taken for its position
in bytes. -/
def decode (bech : String) : Except Bech32Error (String × List UInt8) := do
  if case.toUppercase bech ≠ bech ∧ case.toLowercase bech ≠ bech then throw .hrpMixCase
  let (before, _) ← okOrElse .separatorNotFound (rfindSeparator bech.toList)
  let pos := utf8Len before
  let len := utf8Len bech.toList
  if pos < 1 ∨ pos + 7 > len then throw (.separatorInvalidPosition pos)
  let hrp := String.ofList before
  checkHrp hrp
  let data ← decodeValues bech.toList (len - (pos + 1)) (pos + 1)
  if !verifyChecksum hrp data then throw .invalidChecksum
  return (hrp, data.take (data.length - 6))

def charOf (value : UInt8) : Char := CHARSET.getD value.toNat SEPARATOR

def bech32Text (hrp : String) (data : List UInt8) : String :=
  String.ofList (hrp.toList ++ SEPARATOR :: (data ++ createChecksum hrp data).map charOf)

theorem charset_length : CHARSET.length = 32 := by decide

theorem createChecksum_grouped (hrp : String) (data : List UInt8) : Grouped 5 (createChecksum hrp data) := sixGroups_grouped _

theorem length_createChecksum (hrp : String) (data : List UInt8) : (createChecksum hrp data).length = 6 := rfl

theorem Grouped.append (hxs : Grouped w xs) (hys : Grouped w ys) : Grouped w (xs ++ ys) :=
  fun x hx => (List.mem_append.mp hx).elim (hxs x) (hys x)

theorem idxOf_charOf (h : v.toNat < 2 ^ 5) : CHARSET.idxOf? (charOf v) = some v.toNat := by
  have hall : ∀ n < 2 ^ 5, CHARSET.idxOf? (CHARSET.getD n SEPARATOR) = some n := by decide
  exact hall v.toNat h

theorem charOf_ok (h : v.toNat < 2 ^ 5) : encodeValue v = .ok (charOf v) := by
  have hlen := charset_length
  have hget : CHARSET[v.toNat]? = some (charOf v) := by
    rw [charOf, List.getD_eq_getElem?_getD, List.getElem?_eq_getElem (by omega)]
    rfl
  rw [encodeValue, if_neg (by omega), hget]
  rfl

theorem charOf_plain (h : v.toNat < 2 ^ 5) :
    charOf v ≠ SEPARATOR ∧ (charOf v).toLower = charOf v ∧ (charOf v).toNat < 128 ∧ (charOf v).utf8Size = 1 := by
  have hall : ∀ n < 2 ^ 5, CHARSET.getD n SEPARATOR ≠ SEPARATOR ∧ (CHARSET.getD n SEPARATOR).toLower = CHARSET.getD n SEPARATOR ∧
      (CHARSET.getD n SEPARATOR).toNat < 128 ∧ (CHARSET.getD n SEPARATOR).utf8Size = 1 := by decide
  exact hall v.toNat h

theorem charOf_of_idxOf {c : Char} (h : CHARSET.idxOf? c = some n) : n < 2 ^ 5 ∧ charOf (UInt8.ofNat n) = c := by
  have hlen := charset_length
  obtain ⟨hlt, hget, -⟩ := List.findIdx?_eq_some_iff_getElem.mp h
  refine ⟨by omega, ?_⟩
  have hbyte : (UInt8.ofNat n).toNat = n := by
    rw [UInt8.toNat_ofNat']
    omega
  rw [charOf, hbyte, List.getD_eq_getElem?_getD, List.getElem?_eq_getElem hlt]
  exact beq_iff_eq.mp hget

variable {cs before after : List Char}

theorem decodeValues_ok_iff :
    decodeValues cs n i = .ok data ↔
      Grouped 5 data ∧ data.length = n ∧ i + n ≤ max i cs.length ∧ (cs.drop i).take n = data.map charOf := by
  induction n generalizing i data with
  | zero =>
    rw [decodeValues, Except.ok.injEq]
    constructor
    · rintro rfl
      exact ⟨(fun _ hx => nomatch hx), rfl, by omega, rfl⟩
    · rintro ⟨-, hlen, -⟩
      exact (List.length_eq_zero_iff.mp hlen).symm
  | succ n ih =>
    rw [decodeValues]
    by_cases hi : i < cs.length
    · have hdrop : (cs.drop i).take (n + 1) = cs[i] :: (cs.drop (i + 1)).take n := by
        rw [List.drop_eq_getElem_cons hi, List.take_succ_cons]
      rw [List.getElem?_eq_getElem hi, hdrop]
      show (okOrElse _ (CHARSET.idxOf? cs[i]) >>= fun value => decodeValues cs n (i + 1) >>= fun rest =>
        Pure.pure (UInt8.ofNat value :: rest)) = _ ↔ _
      cases hvalue : CHARSET.idxOf? cs[i] with
      | none =>
        constructor
        · intro h
          cases h
        · rintro ⟨hgrouped, hlen, -, hmap⟩
          cases data with
          | nil => cases hlen
          | cons v data =>
            rw [List.map_cons] at hmap
            obtain ⟨hhead, -⟩ := List.cons.inj hmap
            rw [hhead, idxOf_charOf (hgrouped v List.mem_cons_self)] at hvalue
            cases hvalue
      | some value =>
        obtain ⟨hlt, hchar⟩ := charOf_of_idxOf hvalue
        have hbyte : (UInt8.ofNat value).toNat = value := by
          rw [UInt8.toNat_ofNat']
          omega
        show (decodeValues cs n (i + 1) >>= fun rest => Pure.pure (UInt8.ofNat value :: rest)) = _ ↔ _
        constructor
        · intro h
          cases hrest : decodeValues cs n (i + 1) with
          | error e =>
            rw [hrest] at h
            cases h
          | ok rest =>
            rw [hrest] at h
            cases h
            obtain ⟨hgrouped, rfl, hfits, hmap⟩ := ih.mp hrest
            refine ⟨fun x hx => ?_, rfl, by omega, by rw [List.map_cons, hchar, hmap]⟩
            rcases List.mem_cons.mp hx with rfl | hx
            · rw [hbyte]
              exact hlt
            · exact hgrouped x hx
        · rintro ⟨hgrouped, hlen, hfits, hmap⟩
          cases data with
          | nil => cases hlen
          | cons v data =>
            rw [List.map_cons] at hmap
            obtain ⟨hhead, htail⟩ := List.cons.inj hmap
            have hv : UInt8.ofNat value = v := by
              rw [hhead, idxOf_charOf (hgrouped v List.mem_cons_self)] at hvalue
              rw [← Option.some.inj hvalue, UInt8.ofNat_toNat]
            have hrest : decodeValues cs n (i + 1) = .ok data :=
              ih.mpr ⟨fun x hx => hgrouped x (List.mem_cons_of_mem v hx), Nat.succ.inj hlen, by omega, htail⟩
            rw [hrest, hv]
            rfl
    · rw [List.getElem?_eq_none (Nat.le_of_not_lt hi)]
      constructor
      · intro h
        cases h
      · rintro ⟨-, hlen, hfits, -⟩
        omega

theorem rfindSeparator_some (h : rfindSeparator cs = some (before, after)) : cs = before ++ SEPARATOR :: after := by
  induction cs generalizing before with
  | nil => cases h
  | cons c cs ih =>
    rw [rfindSeparator] at h
    cases hfind : rfindSeparator cs with
    | some found =>
      rw [hfind] at h
      cases h
      rw [ih hfind, List.cons_append]
    | none =>
      rw [hfind] at h
      dsimp only at h
      split at h
      · rename_i hc
        cases h
        rw [hc, List.nil_append]
      · cases h

theorem rfindSeparator_none (h : SEPARATOR ∉ cs) : rfindSeparator cs = none := by
  induction cs with
  | nil => rfl
  | cons c cs ih =>
    rw [List.mem_cons, not_or] at h
    rw [rfindSeparator, ih h.2]
    exact if_neg (Ne.symm h.1)

theorem rfindSeparator_append (h : SEPARATOR ∉ after) :
    rfindSeparator (before ++ SEPARATOR :: after) = some (before, after) := by
  induction before with
  | nil =>
    rw [List.nil_append, rfindSeparator, rfindSeparator_none h]
    rfl
  | cons c before ih => rw [List.cons_append, rfindSeparator, ih]

theorem utf8Len_append (cs ds : List Char) : utf8Len (cs ++ ds) = utf8Len cs + utf8Len ds := by
  rw [utf8Len, List.map_append, List.sum_append, utf8Len, utf8Len]

theorem length_le_utf8Len (cs : List Char) : cs.length ≤ utf8Len cs := by
  induction cs with
  | nil => exact Nat.le_refl _
  | cons c cs ih =>
    have hpos := c.utf8Size_pos
    rw [utf8Len, List.map_cons, List.sum_cons, List.length_cons]
    rw [utf8Len] at ih
    omega

theorem utf8Len_charOf (h : Grouped 5 values) : utf8Len (values.map charOf) = values.length := by
  induction values with
  | nil => rfl
  | cons v values ih =>
    have hv := (charOf_plain (h v List.mem_cons_self)).2.2.2
    have ih := ih fun x hx => h x (List.mem_cons_of_mem v hx)
    rw [utf8Len] at ih ⊢
    rw [List.map_cons, List.map_cons, List.sum_cons, ih, hv, List.length_cons, Nat.add_comm]

/-- A prefix of small ASCII letters. -/
structure PlainHrp (hrp : String) : Prop where
  checked : checkHrp hrp = .ok ()
  nonempty : 0 < hrp.toList.length
  ascii : utf8Len hrp.toList = hrp.toList.length
  small : ∀ c ∈ hrp.toList, c.toLower = c ∧ c.toNat < 128

theorem toLower_eq (s : String) : s.toLower = s.map Char.toLower := rfl

theorem small_of_all {hrp : String} (h : hrp.toList.all (fun c => decide (c.toLower = c ∧ c.toNat < 128)) = true) :
    ∀ c ∈ hrp.toList, c.toLower = c ∧ c.toNat < 128 :=
  fun c hc => of_decide_eq_true (List.all_eq_true.mp h c hc)

def valuesText (hrp : String) (values : List UInt8) : String := String.ofList (hrp.toList ++ SEPARATOR :: values.map charOf)

theorem valuesText_lower (h : PlainHrp hrp) (hvalues : Grouped 5 values) :
    case.toLowercase (valuesText hrp values) = valuesText hrp values := by
  have hplain : ∀ c ∈ (valuesText hrp values).toList, c.toLower = c ∧ c.toNat < 128 := by
    intro c hc
    rw [valuesText, String.toList_ofList, List.mem_append, List.mem_cons] at hc
    rcases hc with hc | rfl | hc
    · exact h.small c hc
    · decide
    · obtain ⟨v, hv, rfl⟩ := List.mem_map.mp hc
      have hchar := charOf_plain (hvalues v hv)
      exact ⟨hchar.2.1, hchar.2.2.1⟩
  rw [case.lowercase_ascii _ fun c hc => (hplain c hc).2]
  apply String.toList_injective
  rw [toLower_eq, String.toList_map, List.map_congr_left fun c hc => (hplain c hc).1, List.map_id']

theorem hrp_lower (h : PlainHrp hrp) : case.toLowercase hrp = hrp := by
  rw [case.lowercase_ascii _ fun c hc => (h.small c hc).2]
  apply String.toList_injective
  rw [toLower_eq, String.toList_map, List.map_congr_left fun c hc => (h.small c hc).1, List.map_id']

theorem mapM_encodeValue (h : Grouped 5 values) : values.mapM encodeValue = .ok (values.map charOf) := by
  induction values with
  | nil => rfl
  | cons v values ih =>
    rw [List.mapM_cons, charOf_ok (h v List.mem_cons_self), ih fun x hx => h x (List.mem_cons_of_mem v hx)]
    rfl

theorem encode_eq (h : PlainHrp hrp) (hdata : Grouped 5 data) : encode case hrp data = .ok (bech32Text hrp data) := by
  have hvalues := mapM_encodeValue (Grouped.append hdata (createChecksum_grouped hrp data))
  unfold encode
  rw [if_neg (List.length_pos_iff.mp h.nonempty), h.checked, hrp_lower case h, if_neg fun hmixed => hmixed.2 rfl]
  show (List.mapM encodeValue (data ++ createChecksum hrp data) >>= _) = _
  rw [hvalues]
  rfl

theorem ok_bind {ε α β : Type} (a : α) (f : α → Except ε β) : (Except.ok a >>= f) = f a := rfl

/-- What is decoded once the separator is found. -/
def decodeParts (s : String) (before : List Char) : Except Bech32Error (String × List UInt8) :=
  if utf8Len before < 1 ∨ utf8Len before + 7 > utf8Len s.toList then .error (.separatorInvalidPosition (utf8Len before)) else
  checkHrp (String.ofList before) >>= fun _ =>
  decodeValues s.toList (utf8Len s.toList - (utf8Len before + 1)) (utf8Len before + 1) >>= fun data =>
  if !verifyChecksum (String.ofList before) data then .error .invalidChecksum
  else .ok (String.ofList before, data.take (data.length - 6))

theorem decode_eq (s : String) : decode case s =
    if case.toUppercase s ≠ s ∧ case.toLowercase s ≠ s then .error .hrpMixCase
    else okOrElse .separatorNotFound (rfindSeparator s.toList) >>= fun found => decodeParts s found.1 := by
  unfold decode
  split
  · rfl
  · refine congrArg (okOrElse Bech32Error.separatorNotFound (rfindSeparator s.toList) >>= ·) (funext fun found => ?_)
    obtain ⟨before, after⟩ := found
    dsimp only
    unfold decodeParts
    split
    · rfl
    · refine congrArg (checkHrp (String.ofList before) >>= ·) (funext fun _ => ?_)
      refine congrArg (decodeValues _ _ _ >>= ·) (funext fun data => ?_)
      split
      · rfl
      · rfl

/-- Behind a plain prefix the checksum decides over characters of the set. -/
theorem decode_valuesText (h : PlainHrp hrp) (hvalues : Grouped 5 values) (hsix : 6 ≤ values.length) :
    decode case (valuesText hrp values) =
      if verifyChecksum hrp values then .ok (hrp, values.take (values.length - 6)) else .error .invalidChecksum := by
  have hlist : (valuesText hrp values).toList = hrp.toList ++ SEPARATOR :: values.map charOf := String.toList_ofList
  have hfind : rfindSeparator (valuesText hrp values).toList = some (hrp.toList, values.map charOf) := by
    rw [hlist]
    refine rfindSeparator_append fun hmem => ?_
    obtain ⟨v, hv, hsep⟩ := List.mem_map.mp hmem
    exact (charOf_plain (hvalues v hv)).1 hsep
  have hlen : utf8Len (valuesText hrp values).toList = hrp.toList.length + 1 + values.length := by
    rw [hlist, List.append_cons, utf8Len_append, utf8Len_append, utf8Len_charOf hvalues, h.ascii]
    rfl
  have hdecoded : decodeValues (valuesText hrp values).toList values.length (hrp.toList.length + 1) = .ok values := by
    refine decodeValues_ok_iff.mpr ⟨hvalues, rfl, ?_, ?_⟩
    · rw [hlist]
      simp only [List.length_append, List.length_cons, List.length_map]
      omega
    · rw [hlist, List.append_cons, List.drop_left' (by rw [List.length_append, List.length_singleton])]
      exact List.take_of_length_le (by rw [List.length_map])
  rw [decode_eq, valuesText_lower case h hvalues, if_neg fun hmixed => hmixed.2 rfl, hfind, okOrElse, ok_bind, decodeParts, hlen,
    h.ascii, if_neg (by have := h.nonempty; omega), String.ofList_toList, h.checked, ok_bind,
    show hrp.toList.length + 1 + values.length - (hrp.toList.length + 1) = values.length by omega, hdecoded, ok_bind]
  cases verifyChecksum hrp values with
  | true => rfl
  | false => rfl

theorem decode_bech32Text (h : PlainHrp hrp) (hdata : Grouped 5 data) :
    decode case (bech32Text hrp data) = .ok (hrp, data) := by
  have hall := Grouped.append hdata (createChecksum_grouped hrp data)
  have hcount : (data ++ createChecksum hrp data).length = data.length + 6 := List.length_append
  have hchecksum : verifyChecksum hrp (data ++ createChecksum hrp data) = true :=
    (verifyChecksum_append (createChecksum_grouped hrp data) rfl).mpr rfl
  have hdecode := decode_valuesText case h hall (by omega)
  rwa [if_pos hchecksum, hcount, Nat.add_sub_cancel, List.take_left] at hdecode

theorem decode_ok {s : String} (hhrp : utf8Len hrp.toList = hrp.toList.length)
    (h : decode case s = .ok (hrp, data)) : s = bech32Text hrp data ∧ Grouped 5 data := by
  rw [decode_eq] at h
  split at h
  · cases h
  · obtain ⟨found, hfind, hparts⟩ := Lib.Exec.except_bind_ok h
    cases hsome : rfindSeparator s.toList with
    | none =>
      rw [hsome] at hfind
      cases hfind
    | some parts =>
      obtain ⟨before, after⟩ := parts
      rw [hsome] at hfind
      cases hfind
      dsimp only at hparts
      unfold decodeParts at hparts
      split at hparts
      · cases hparts
      · rename_i hposition
        obtain ⟨_, -, hparts⟩ := Lib.Exec.except_bind_ok hparts
        obtain ⟨all, hall, hparts⟩ := Lib.Exec.except_bind_ok hparts
        split at hparts
        · cases hparts
        · rename_i hchecksum
          obtain ⟨rfl, rfl⟩ := Prod.mk.inj (Except.ok.inj hparts)
          rw [String.toList_ofList] at hhrp
          have hlist := rfindSeparator_some hsome
          obtain ⟨hgrouped, hlen, hfits, hmap⟩ := decodeValues_ok_iff.mp hall
          have hbytes : utf8Len s.toList = before.length + 1 + utf8Len after := by
            rw [hlist, List.append_cons, utf8Len_append, utf8Len_append, hhrp]
            rfl
          have hchars : s.toList.length = before.length + 1 + after.length := by
            rw [hlist, List.length_append, List.length_cons]
            omega
          have hle := length_le_utf8Len after
          rw [hhrp] at hlen hfits hmap hposition
          have hcount : utf8Len s.toList - (before.length + 1) = after.length := by omega
          rw [hcount] at hlen hmap
          have hafter : all.map charOf = after := by
            rw [← hmap, hlist, List.append_cons, List.drop_left' (by rw [List.length_append, List.length_singleton])]
            exact List.take_of_length_le (Nat.le_refl _)
          have hsix : (all.drop (all.length - 6)).length = 6 := by
            rw [List.length_drop]
            omega
          have hlast : Grouped 5 (all.drop (all.length - 6)) := fun x hx => hgrouped x (List.mem_of_mem_drop hx)
          have hsum : all.drop (all.length - 6) = createChecksum (String.ofList before) (all.take (all.length - 6)) := by
            refine (verifyChecksum_append hlast hsix).mp ?_
            rw [List.take_append_drop]
            simpa using hchecksum
          refine ⟨?_, fun x hx => hgrouped x (List.mem_of_mem_take hx)⟩
          apply String.toList_injective
          rw [bech32Text, String.toList_ofList, String.toList_ofList, ← hsum, List.take_append_drop, hafter, hlist]

end Text

end Xelis.Wire
