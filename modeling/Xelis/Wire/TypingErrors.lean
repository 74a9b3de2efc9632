import Mathlib.Data.BitVec
import Xelis.Wire.AddressString

namespace Xelis.Wire

open Lib (Grouped checksum)

/-- One character was replaced by another one of the set, or two different neighbours were swapped. -/
inductive Typo : List Char → List Char → Prop
  | replaced (before after : List Char) {c d : Char} (hd : d ∈ CHARSET) (hne : c ≠ d) : Typo (before ++ c :: after) (before ++ d :: after)
  | swapped (before after : List Char) {c d : Char} (hne : c ≠ d) : Typo (before ++ c :: d :: after) (before ++ d :: c :: after)

def picked (top : BitVec 32) : BitVec 32 :=
  pick top 0x3b6a57b2 0 ^^^ (pick top 0x26508e6d 1 ^^^ (pick top 0x1ea119fa 2 ^^^ (pick top 0x3d4233dd 3 ^^^ pick top 0x2a1462b3 4)))

theorem picked_low (n : Nat) (h : n < 2 ^ 5) (hlow : picked (BitVec.ofNat 32 n) &&& 31#32 = 0) : n = 0 := by
  have hall : ∀ n < 2 ^ 5, picked (BitVec.ofNat 32 n) &&& 31#32 = 0 → n = 0 := by decide +kernel
  exact hall n h hlow

theorem mix_eq_zero (s : BitVec 32) (h : s.toNat < 2 ^ 30) (hmix : mix s = 0) : s = 0 := by
  have htop : (s >>> 25).toNat = s.toNat / 2 ^ 25 := by rw [BitVec.toNat_ushiftRight, Nat.shiftRight_eq_div_pow]
  have hlow : picked (s >>> 25) &&& 31#32 = 0 := by
    have hshift : ((s &&& 0x1ffffff) <<< 5) &&& 31#32 = 0 := by
      apply BitVec.eq_of_toNat_eq
      rw [BitVec.toNat_and, BitVec.toNat_shiftLeft, Nat.shiftLeft_eq]
      refine (Nat.and_two_pow_sub_one_eq_mod _ 5).trans ?_
      show _ = 0
      omega
    have hsum : mix s &&& 31#32 = (((s &&& 0x1ffffff) <<< 5) &&& 31#32) ^^^ (picked (s >>> 25) &&& 31#32) := xor_and _ _ _
    rw [hmix, hshift] at hsum
    simpa using hsum.symm
  have hnone : s.toNat / 2 ^ 25 = 0 := by
    refine picked_low _ (by omega) ?_
    rwa [← htop, BitVec.ofNat_toNat, BitVec.setWidth_eq]
  have hsmall : s.toNat < 2 ^ 25 := by omega
  rw [mix_small s hsmall] at hmix
  have hnat := congrArg BitVec.toNat hmix
  rw [BitVec.toNat_shiftLeft, Nat.shiftLeft_eq] at hnat
  apply BitVec.eq_of_toNat_eq
  show s.toNat = 0
  have hzero : s.toNat * 2 ^ 5 % 2 ^ 32 = 0 := hnat
  omega

theorem mix_iterate_ne_zero (k : Nat) {d : BitVec 32} (hd : d.toNat < 2 ^ 30) (hne : d ≠ 0) : mix^[k] d ≠ 0 :=
  Lib.iterate_ne_zero (fun s => s.toNat < 2 ^ 30) mix_lt mix_eq_zero k hd hne

variable {xs ys values data : List UInt8}

section Differences

variable {hrp : String} {before after : List UInt8} {x y : UInt8}

theorem polymod_append (values vs : List UInt8) :
    polymod (values ++ vs) = checksum mix (polymod values) (vs.map (fun v => BitVec.ofNat 32 v.toNat)) := by
  rw [polymod_eq, polymod_eq, List.map_append, Lib.checksum_append]

/-- Values after which the states differ do not pass both. -/
theorem verifyChecksum_apart (hlt : (polymod (hrpExpand hrp ++ xs) ^^^ polymod (hrpExpand hrp ++ ys)).toNat < 2 ^ 30)
    (hne : polymod (hrpExpand hrp ++ xs) ≠ polymod (hrpExpand hrp ++ ys)) (h : verifyChecksum hrp (xs ++ after) = true) :
    verifyChecksum hrp (ys ++ after) = false := by
  rw [verifyChecksum, beq_iff_eq, ← List.append_assoc, polymod_append] at h
  rw [verifyChecksum, beq_eq_false_iff_ne, ← List.append_assoc, polymod_append]
  intro hsame
  have hdiff := mix_additive.checksum_xor (polymod (hrpExpand hrp ++ xs)) (polymod (hrpExpand hrp ++ ys))
    (after.map (fun v => BitVec.ofNat 32 v.toNat))
  rw [h, hsame, BitVec.xor_self] at hdiff
  exact mix_iterate_ne_zero _ hlt (fun hzero => hne (BitVec.xor_eq_zero_iff.mp hzero)) hdiff.symm

theorem value_xor (hx : x.toNat < 2 ^ 5) (hy : y.toNat < 2 ^ 5) (hne : x ≠ y) :
    (BitVec.ofNat 32 x.toNat ^^^ BitVec.ofNat 32 y.toNat).toNat < 2 ^ 5 ∧ BitVec.ofNat 32 x.toNat ^^^ BitVec.ofNat 32 y.toNat ≠ 0 := by
  have hvalue : ∀ v : UInt8, v.toNat < 2 ^ 5 → (BitVec.ofNat 32 v.toNat).toNat = v.toNat := by
    intro v hv
    rw [BitVec.toNat_ofNat]
    omega
  constructor
  · rw [BitVec.toNat_xor, hvalue x hx, hvalue y hy]
    exact Nat.xor_lt_two_pow hx hy
  · intro hzero
    have hsame := congrArg BitVec.toNat (BitVec.xor_eq_zero_iff.mp hzero)
    rw [hvalue x hx, hvalue y hy] at hsame
    exact hne (UInt8.toNat.inj hsame)

theorem xor_same_right (a b m : BitVec 32) : (m ^^^ a) ^^^ (m ^^^ b) = a ^^^ b := by
  rw [BitVec.xor_comm m a, BitVec.xor_assoc, ← BitVec.xor_assoc m m b, BitVec.xor_self, BitVec.zero_xor]

theorem verifyChecksum_replaced (hx : x.toNat < 2 ^ 5) (hy : y.toNat < 2 ^ 5) (hne : x ≠ y)
    (h : verifyChecksum hrp (before ++ x :: after) = true) : verifyChecksum hrp (before ++ y :: after) = false := by
  obtain ⟨hlt, hnonzero⟩ := value_xor hx hy hne
  rw [List.append_cons] at h ⊢
  have hdiff : polymod (hrpExpand hrp ++ (before ++ [x])) ^^^ polymod (hrpExpand hrp ++ (before ++ [y])) =
      BitVec.ofNat 32 x.toNat ^^^ BitVec.ofNat 32 y.toNat := by
    rw [← List.append_assoc, ← List.append_assoc, polymod_concat, polymod_concat, xor_same_right]
  refine verifyChecksum_apart ?_ ?_ h
  · rw [hdiff]
    omega
  · intro hsame
    rw [hsame, BitVec.xor_self] at hdiff
    exact hnonzero hdiff.symm

/-- A difference and the same difference one place later do not cancel. -/
theorem mix_xor_self {d : BitVec 32} (hd : d.toNat < 2 ^ 5) (hne : d ≠ 0) : mix d ^^^ d ≠ 0 := by
  rw [mix_small d (by omega)]
  intro hzero
  have hsame := congrArg BitVec.toNat (BitVec.xor_eq_zero_iff.mp hzero)
  rw [BitVec.toNat_shiftLeft, Nat.shiftLeft_eq] at hsame
  apply hne
  apply BitVec.eq_of_toNat_eq
  show d.toNat = 0
  omega

theorem verifyChecksum_swapped (hx : x.toNat < 2 ^ 5) (hy : y.toNat < 2 ^ 5) (hne : x ≠ y)
    (h : verifyChecksum hrp (before ++ x :: y :: after) = true) : verifyChecksum hrp (before ++ y :: x :: after) = false := by
  obtain ⟨hlt, hnonzero⟩ := value_xor hx hy hne
  have hsplit : ∀ a b : UInt8, before ++ a :: b :: after = (before ++ [a] ++ [b]) ++ after := by simp
  rw [hsplit] at h ⊢
  have hdiff : polymod (hrpExpand hrp ++ (before ++ [x] ++ [y])) ^^^ polymod (hrpExpand hrp ++ (before ++ [y] ++ [x])) =
      mix (BitVec.ofNat 32 x.toNat ^^^ BitVec.ofNat 32 y.toNat) ^^^ (BitVec.ofNat 32 x.toNat ^^^ BitVec.ofNat 32 y.toNat) := by
    simp only [← List.append_assoc, polymod_concat]
    rw [mix_additive, mix_additive, mix_additive]
    generalize mix (mix (polymod (hrpExpand hrp ++ before))) = m
    generalize mix (BitVec.ofNat 32 x.toNat) = a
    generalize mix (BitVec.ofNat 32 y.toNat) = b
    calc m ^^^ a ^^^ BitVec.ofNat 32 y.toNat ^^^ (m ^^^ b ^^^ BitVec.ofNat 32 x.toNat)
        = (m ^^^ (a ^^^ BitVec.ofNat 32 y.toNat)) ^^^ (m ^^^ (b ^^^ BitVec.ofNat 32 x.toNat)) := by
          rw [BitVec.xor_assoc m a, BitVec.xor_assoc m b]
      _ = (a ^^^ BitVec.ofNat 32 y.toNat) ^^^ (b ^^^ BitVec.ofNat 32 x.toNat) := xor_same_right _ _ _
      _ = a ^^^ b ^^^ (BitVec.ofNat 32 x.toNat ^^^ BitVec.ofNat 32 y.toNat) := by ac_rfl
  refine verifyChecksum_apart ?_ ?_ h
  · rw [hdiff, BitVec.toNat_xor]
    exact Nat.xor_lt_two_pow (mix_lt _) (by omega)
  · intro hsame
    rw [hsame, BitVec.xor_self] at hdiff
    exact mix_xor_self hlt hnonzero hdiff.symm

end Differences

section Text

variable (case : CaseMapping)

theorem exists_charOf {d : Char} (hd : d ∈ CHARSET) : ∃ y : UInt8, y.toNat < 2 ^ 5 ∧ charOf y = d := by
  obtain ⟨n, hn⟩ := Option.isSome_iff_exists.mp (List.isSome_idxOf?.mpr hd)
  obtain ⟨hlt, hchar⟩ := charOf_of_idxOf hn
  refine ⟨UInt8.ofNat n, ?_, hchar⟩
  rw [UInt8.toNat_ofNat']
  omega

variable {hrp s : String}

theorem typo_values {typed : List Char} (hvalues : Grouped 5 values)
    (hchecksum : verifyChecksum hrp values = true) (h : Typo (values.map charOf) typed) :
    ∃ values', typed = values'.map charOf ∧ Grouped 5 values' ∧ values'.length = values.length ∧ verifyChecksum hrp values' = false := by
  generalize hchars : values.map charOf = chars at h
  cases h with
  | replaced before after hd hne =>
    obtain ⟨pre, rest, rfl, rfl, hrest⟩ := List.map_eq_append_iff.mp hchars
    obtain ⟨x, post, rfl, rfl, rfl⟩ := List.map_eq_cons_iff.mp hrest
    obtain ⟨y, hy, rfl⟩ := exists_charOf hd
    have hx : x.toNat < 2 ^ 5 := hvalues x (by simp)
    refine ⟨pre ++ y :: post, by simp, fun v hv => ?_, by simp, verifyChecksum_replaced hx hy (fun h => hne (h ▸ rfl)) hchecksum⟩
    rcases List.mem_append.mp hv with hv | hv
    · exact hvalues v (by simp [hv])
    · rcases List.mem_cons.mp hv with rfl | hv
      · exact hy
      · exact hvalues v (by simp [hv])
  | swapped before after hne =>
    obtain ⟨pre, rest, rfl, rfl, hrest⟩ := List.map_eq_append_iff.mp hchars
    obtain ⟨x, tail, rfl, rfl, htail⟩ := List.map_eq_cons_iff.mp hrest
    obtain ⟨y, post, rfl, rfl, rfl⟩ := List.map_eq_cons_iff.mp htail
    have hx : x.toNat < 2 ^ 5 := hvalues x (by simp)
    have hy : y.toNat < 2 ^ 5 := hvalues y (by simp)
    have hperm : (pre ++ y :: x :: post).Perm (pre ++ x :: y :: post) := (List.Perm.swap x y post).append_left pre
    exact ⟨pre ++ y :: x :: post, by simp, fun v hv => hvalues v (hperm.mem_iff.mp hv), hperm.length_eq,
      verifyChecksum_swapped hx hy (fun h => hne (h ▸ rfl)) hchecksum⟩

/-- Bytes that a prefix may have are those of ASCII characters. -/
theorem utf8EncodeChar_printable (c : Char) :
    (∀ value ∈ String.utf8EncodeChar c, ¬ (value < 33 ∨ value > 126)) ↔ 33 ≤ c.toNat ∧ c.toNat ≤ 126 := by
  have hbyte : ∀ n : Nat, n < 2 ^ 8 → ((UInt8.ofNat n < 33 ∨ UInt8.ofNat n > 126) ↔ (n < 33 ∨ 126 < n)) := by
    intro n hn
    have hnat : (UInt8.ofNat n).toNat = n := by
      rw [UInt8.toNat_ofNat']
      exact Nat.mod_eq_of_lt hn
    rw [UInt8.lt_iff_toNat_lt, gt_iff_lt, UInt8.lt_iff_toNat_lt, hnat]
    rfl
  unfold String.utf8EncodeChar
  show _ ↔ 33 ≤ c.val.toNat ∧ c.val.toNat ≤ 126
  generalize c.val.toNat = v
  dsimp only
  split
  · simp only [List.forall_mem_singleton]
    rw [hbyte v (by omega)]
    omega
  · -- the first byte of every longer encoding has its top bits set
    have hlarge : ¬ (33 ≤ v ∧ v ≤ 126) := by omega
    split
    · refine iff_of_false (fun h => h _ List.mem_cons_self ((hbyte _ (by omega)).mpr (by omega))) hlarge
    · split
      · refine iff_of_false (fun h => h _ List.mem_cons_self ((hbyte _ (by omega)).mpr (by omega))) hlarge
      · refine iff_of_false (fun h => h _ List.mem_cons_self ((hbyte _ (by omega)).mpr (by omega))) hlarge

def checkHrpByte (value : UInt8) : Except Bech32Error Unit :=
  if value < 33 ∨ value > 126 then .error (.hrpInvalidCharacter value) else .ok ()

theorem forM_checkHrpByte (bytes : List UInt8) :
    bytes.forM checkHrpByte = .ok () ↔ ∀ value ∈ bytes, ¬ (value < 33 ∨ value > 126) := by
  induction bytes with
  | nil => exact iff_of_true rfl (fun _ h => nomatch h)
  | cons value bytes ih =>
    have hcons : (value :: bytes).forM checkHrpByte = (checkHrpByte value >>= fun _ => bytes.forM checkHrpByte) := rfl
    rw [hcons, List.forall_mem_cons, checkHrpByte]
    by_cases hvalue : value < 33 ∨ value > 126
    · rw [if_pos hvalue]
      exact iff_of_false (fun h => nomatch h) (fun h => h.1 hvalue)
    · rw [if_neg hvalue]
      exact ih.trans (and_iff_right hvalue).symm

theorem checkHrp_ok_iff (hrp : String) : checkHrp hrp = .ok () ↔ ∀ c ∈ hrp.toList, 33 ≤ c.toNat ∧ c.toNat ≤ 126 := by
  refine (forM_checkHrpByte (charBytes hrp.toList)).trans ?_
  unfold charBytes
  simp only [List.mem_flatMap, forall_exists_index, and_imp, ← utf8EncodeChar_printable]
  exact ⟨fun h c hc value hv => h value c hc hv, fun h value c hc hv => h c hc value hv⟩

theorem toLower_printable {c : Char} (h : 33 ≤ c.toNat ∧ c.toNat ≤ 126) :
    33 ≤ c.toLower.toNat ∧ c.toLower.toNat ≤ 126 ∧ c.toLower.toLower = c.toLower := by
  have hall : ∀ n < 127, 33 ≤ n → 33 ≤ (Char.ofNat n).toLower.toNat ∧ (Char.ofNat n).toLower.toNat ≤ 126 ∧
      (Char.ofNat n).toLower.toLower = (Char.ofNat n).toLower := by decide +kernel
  have hc := hall c.toNat (by omega) h.1
  rwa [Char.ofNat_toNat] at hc

theorem plainHrp_lower (hnonempty : hrp.toList ≠ []) (hchecked : checkHrp hrp = .ok ()) :
    PlainHrp (case.toLowercase hrp) := by
  have hprintable := (checkHrp_ok_iff hrp).mp hchecked
  have hlower : case.toLowercase hrp = hrp.toLower := case.lowercase_ascii hrp fun c hc => by have := hprintable c hc; omega
  have hlist : (case.toLowercase hrp).toList = hrp.toList.map Char.toLower := by rw [hlower, toLower_eq, String.toList_map]
  have hsmall : ∀ c ∈ (case.toLowercase hrp).toList, 33 ≤ c.toNat ∧ c.toNat ≤ 126 ∧ c.toLower = c := by
    intro c hc
    rw [hlist] at hc
    obtain ⟨d, hd, rfl⟩ := List.mem_map.mp hc
    exact toLower_printable (hprintable d hd)
  refine ⟨(checkHrp_ok_iff _).mpr fun c hc => ⟨(hsmall c hc).1, (hsmall c hc).2.1⟩, ?_, ?_, fun c hc => ?_⟩
  · rw [hlist, List.length_map]
    exact List.length_pos_iff.mpr hnonempty
  · have hone : ∀ cs : List Char, (∀ c ∈ cs, c.toNat ≤ 126) → utf8Len cs = cs.length := by
      intro cs hcs
      induction cs with
      | nil => rfl
      | cons c cs ih =>
        have hsize : c.utf8Size = 1 := Char.utf8Size_eq_one_iff.mpr (by
          have := hcs c List.mem_cons_self
          rw [UInt32.le_iff_toNat_le]
          show c.toNat ≤ 127
          omega)
        have hrest := ih fun d hd => hcs d (List.mem_cons_of_mem c hd)
        rw [utf8Len] at hrest ⊢
        rw [List.map_cons, List.sum_cons, hsize, hrest, List.length_cons, Nat.add_comm]
    exact hone _ fun c hc => (hsmall c hc).2.1
  · have := hsmall c hc
    exact ⟨this.2.2, by omega⟩

theorem encodeValue_ok {chars : List Char} (h : values.mapM encodeValue = .ok chars) {v : UInt8}
    (hv : v ∈ values) : v.toNat < 2 ^ 5 := by
  induction values generalizing chars with
  | nil => exact absurd hv List.not_mem_nil
  | cons w values ih =>
    rw [List.mapM_cons] at h
    obtain ⟨c, hc, h⟩ := Lib.Exec.except_bind_ok h
    obtain ⟨cs, hcs, -⟩ := Lib.Exec.except_bind_ok h
    rcases List.mem_cons.mp hv with rfl | hv
    · unfold encodeValue at hc
      split at hc
      · cases hc
      · by_contra hlarge
        rw [List.getElem?_eq_none (by rw [charset_length]; omega)] at hc
        cases hc
    · exact ih hcs hv

theorem encode_ok (h : encode case hrp data = .ok s) :
    PlainHrp (case.toLowercase hrp) ∧ Grouped 5 data ∧ s = bech32Text (case.toLowercase hrp) data := by
  unfold encode at h
  by_cases hempty : hrp.toList = []
  · rw [if_pos hempty] at h
    cases h
  rw [if_neg hempty] at h
  obtain ⟨⟨⟩, hchecked, h⟩ := Lib.Exec.except_bind_ok h
  have hplain := plainHrp_lower case hempty hchecked
  by_cases hmixed : case.toUppercase hrp ≠ hrp ∧ case.toLowercase hrp ≠ hrp
  · rw [if_pos hmixed] at h
    cases h
  rw [if_neg hmixed] at h
  obtain ⟨values, hvalues, h⟩ := Lib.Exec.except_bind_ok h
  have hdata : Grouped 5 data := fun v hv => encodeValue_ok hvalues (List.mem_append_left _ hv)
  rw [mapM_encodeValue (Grouped.append hdata (createChecksum_grouped _ data))] at hvalues
  cases hvalues
  cases h
  exact ⟨hplain, hdata, rfl⟩

/-- What is encoded is decoded, and with a typing error behind the separator it fails at the checksum. -/
theorem typo_detected {hrp s : String} {data : List UInt8} (h : encode case hrp data = .ok s) :
    decode case s = .ok (case.toLowercase hrp, data) ∧
    ∃ chars, s.toList = (case.toLowercase hrp).toList ++ SEPARATOR :: chars ∧ chars.length = data.length + 6 ∧
      ∀ typed, Typo chars typed →
        decode case (String.ofList ((case.toLowercase hrp).toList ++ SEPARATOR :: typed)) = .error .invalidChecksum := by
  obtain ⟨hplain, hdata, rfl⟩ := encode_ok case h
  generalize case.toLowercase hrp = lower at hplain ⊢
  have hall := Grouped.append hdata (createChecksum_grouped lower data)
  have hchecksum : verifyChecksum lower (data ++ createChecksum lower data) = true :=
    (verifyChecksum_append (createChecksum_grouped lower data) rfl).mpr rfl
  refine ⟨decode_bech32Text case hplain hdata, (data ++ createChecksum lower data).map charOf, String.toList_ofList, ?_, fun typed htypo => ?_⟩
  · rw [List.length_map, List.length_append, length_createChecksum]
  · obtain ⟨values', rfl, hgrouped, hlen, hfails⟩ := typo_values hall hchecksum htypo
    have hsix : 6 ≤ values'.length := by
      rw [hlen, List.length_append, length_createChecksum]
      omega
    have hdecode := decode_valuesText case hplain hgrouped hsix
    rwa [hfails] at hdecode

/-- A text whose first character is mistyped. -/
theorem typo_detected_sample : ∃ s typed, encode Address.asciiCase "xel" [1, 2] = .ok s ∧
    decode Address.asciiCase (String.ofList ((Address.asciiCase.toLowercase "xel").toList ++ SEPARATOR :: typed)) = .error .invalidChecksum := by
  have hchecked : checkHrp "xel" = .ok () := by decide +kernel
  have hplain : PlainHrp "xel" := ⟨hchecked, by decide +kernel, by decide +kernel, small_of_all (by decide +kernel)⟩
  have hdata : Grouped 5 [1, 2] := List.forall_mem_cons.mpr ⟨by decide, List.forall_mem_singleton.mpr (by decide)⟩
  have hencode := encode_eq Address.asciiCase hplain hdata
  obtain ⟨-, chars, -, hlen, htypo⟩ := typo_detected Address.asciiCase hencode
  cases chars with
  | nil => cases hlen
  | cons c after =>
    have hother : ∃ d ∈ CHARSET, c ≠ d := by
      by_cases hc : c = 'q'
      · exact ⟨'p', by decide, by rw [hc]; decide⟩
      · exact ⟨'q', by decide, hc⟩
    obtain ⟨d, hd, hne⟩ := hother
    exact ⟨_, d :: after, hencode, htypo _ (.replaced [] after hd hne)⟩

end Text

end Xelis.Wire
