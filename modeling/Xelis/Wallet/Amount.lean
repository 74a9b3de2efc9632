import Mathlib.Tactic.Common
import Xelis.Common.Serializer

namespace Xelis.Wallet

open Nat (ofDigitChars toDigits)

/-- The white space of Unicode. -/
def isWhitespace (c : Char) : Bool :=
  let n := c.toNat
  decide (9 ≤ n ∧ n ≤ 13) || n == 0x20 || n == 0x85 || n == 0xA0 || n == 0x1680 || decide (0x2000 ≤ n ∧ n ≤ 0x200A) || n == 0x2028 ||
    n == 0x2029 || n == 0x202F || n == 0x205F || n == 0x3000

def trim (text : List Char) : List Char := ((text.dropWhile isWhitespace).reverse.dropWhile isWhitespace).reverse

/-- At least one digit and nothing else. -/
def Digits (text : List Char) : Prop := text ≠ [] ∧ ∀ c ∈ text, c.isDigit = true

instance (text : List Char) : Decidable (Digits text) :=
  decidable_of_iff (text ≠ [] ∧ text.all Char.isDigit = true) (and_congr_right fun _ => List.all_eq_true)

/-- The text without a plus in front of it. -/
def unsigned : List Char → List Char
  | '+' :: text => text
  | text => text

/-- The standard library's parser of numbers of 64 bits: a plus may stand in front. -/
def parseU64 (text : List Char) : Option Nat :=
  if Digits (unsigned text) ∧ ofDigitChars 10 (unsigned text) 0 < U64_RANGE then some (ofDigitChars 10 (unsigned text) 0) else none

/-- The panic of arithmetic that does not fit, in a build that checks it. -/
structure AmountOverflow where
  deriving DecidableEq

/-- The decimals that are read: as many characters of the part behind the first dot as there are decimals, zeros in place
of missing ones. -/
def decimalsOf (coinDecimals : Nat) (parts : List (List Char)) : List Char :=
  (parts.head?.getD ['0'] ++ List.replicate coinDecimals '0').take coinDecimals

def fromCoin (overflowChecks : Bool) (value : String) (coinDecimals : Nat) : Except AmountOverflow (Option Nat) :=
  match (trim value.toList).splitOn '.' with
  | [] => .ok none
  | whole :: parts =>
    match parseU64 whole with
    | none => .ok none
    | some value =>
      if 0 < coinDecimals then
        match parseU64 (decimalsOf coinDecimals parts) with
        | none => .ok none
        | some decimalsValue =>
          if overflowChecks && decide (U64_RANGE ≤ 10 ^ coinDecimals ∨ U64_RANGE ≤ value * 10 ^ coinDecimals + decimalsValue) then .error {}
          else .ok (some ((value * 10 ^ coinDecimals + decimalsValue) % U64_RANGE))
      else if parts.head?.isSome then .ok none
      else .ok (some value)

/-- A plain decimal number with at most `d` decimals, and its amount in units of the last decimal. -/
inductive Plain (d : Nat) : List Char → Nat → Prop
  | whole {ds : List Char} (hds : Digits ds) : Plain d ds (ofDigitChars 10 ds 0 * 10 ^ d)
  | fraction {ds fs : List Char} (hds : Digits ds) (hfs : ∀ c ∈ fs, c.isDigit = true) (hlen : fs.length ≤ d) :
    Plain d (ds ++ '.' :: fs) (ofDigitChars 10 ds 0 * 10 ^ d + ofDigitChars 10 fs 0 * 10 ^ (d - fs.length))

/-- The amount that is read is the one the text stands for; there is none when the text is no amount of 64 bits. -/
def ReadsExactly (overflowChecks : Bool) (value : String) (d : Nat) : Prop :=
  ∃ result, fromCoin overflowChecks value d = .ok result ∧
    ∀ n, result = some n ↔ Plain d (trim value.toList) n ∧ n < U64_RANGE

/-- The pieces that are read are numbers, but the text is no amount: a plus, a second dot, more decimals than there are, or
an amount above 64 bits. Without decimals: a plus, or an amount with a dot at its end, which is refused. -/
def Misread (d : Nat) (text : List Char) : Prop :=
  ∃ whole parts, text.splitOn '.' = whole :: parts ∧ (parseU64 whole).isSome = true ∧
    if d = 0 then whole.head? = some '+' ∧ parts = [] ∨ whole.head? ≠ some '+' ∧ parts = [[]]
    else (parseU64 (decimalsOf d parts)).isSome = true ∧
      (whole.head? = some '+' ∨ (∃ fs ∈ parts.head?, fs.head? = some '+' ∨ d < fs.length) ∨ 1 < parts.length ∨
        U64_RANGE ≤ ofDigitChars 10 (unsigned whole) 0 * 10 ^ d + ofDigitChars 10 (unsigned (decimalsOf d parts)) 0)

/-- The exact decimal rendering: the whole coins, and behind a dot as many digits as there are decimals. -/
def render (d n : Nat) : List Char :=
  toDigits 10 (n / 10 ^ d) ++
    if d = 0 then [] else '.' :: (List.replicate (d - (toDigits 10 (n % 10 ^ d)).length) '0' ++ toDigits 10 (n % 10 ^ d))

section Pieces

variable {d n v : Nat} {text whole fs : List Char} {parts : List (List Char)}

theorem isDigit_ne_dot {c : Char} (h : c.isDigit = true) : c ≠ '.' := by
  rintro rfl
  exact absurd h (by decide)

theorem unsigned_of_head (h : text.head? ≠ some '+') : unsigned text = text := by
  unfold unsigned
  split
  · exact absurd rfl h
  · rfl

theorem Digits.head_ne (h : Digits text) : text.head? ≠ some '+' := by
  intro hhead
  obtain ⟨rest, rfl⟩ := List.head?_eq_some_iff.mp hhead
  exact absurd (h.2 '+' List.mem_cons_self) (by decide)

theorem parseU64_eq_some_iff : parseU64 text = some v ↔
    Digits (unsigned text) ∧ v = ofDigitChars 10 (unsigned text) 0 ∧ v < U64_RANGE := by
  unfold parseU64
  split
  · rename_i h
    constructor
    · intro hv
      cases hv
      exact ⟨h.1, rfl, h.2⟩
    · rintro ⟨-, rfl, -⟩
      rfl
  · rename_i h
    refine ⟨nofun, ?_⟩
    rintro ⟨hdigits, rfl, hlt⟩
    exact absurd ⟨hdigits, hlt⟩ h

theorem Digits.not_mem_dot (h : ∀ c ∈ text, c.isDigit = true) : '.' ∉ text :=
  fun hmem => isDigit_ne_dot (h '.' hmem) rfl

theorem plain_iff (hsplit : text.splitOn '.' = whole :: parts) : Plain d text n ↔
    Digits whole ∧ (parts = [] ∧ n = ofDigitChars 10 whole 0 * 10 ^ d ∨
      ∃ fs, parts = [fs] ∧ (∀ c ∈ fs, c.isDigit = true) ∧ fs.length ≤ d ∧
        n = ofDigitChars 10 whole 0 * 10 ^ d + ofDigitChars 10 fs 0 * 10 ^ (d - fs.length)) := by
  constructor
  · intro h
    cases h with
    | whole hds =>
      rw [List.splitOn_eq_singleton (Digits.not_mem_dot hds.2)] at hsplit
      cases hsplit
      exact ⟨hds, .inl ⟨rfl, rfl⟩⟩
    | fraction hds hfs hlen =>
      rw [List.splitOn_append_cons_self_of_not_mem (Digits.not_mem_dot hds.2), List.splitOn_eq_singleton (Digits.not_mem_dot hfs)] at hsplit
      cases hsplit
      exact ⟨hds, .inr ⟨_, rfl, hfs, hlen, rfl⟩⟩
  · have htext : ['.'].intercalate (text.splitOn '.') = text := List.intercalate_splitOn '.'
    rw [hsplit] at htext
    rintro ⟨hds, ⟨rfl, rfl⟩ | ⟨fs, rfl, hfs, hlen, rfl⟩⟩
    · rw [← htext]
      simpa [List.intercalate] using Plain.whole hds
    · rw [← htext]
      simpa [List.intercalate] using Plain.fraction hds hfs hlen

theorem ofDigitChars_lt (h : ∀ c ∈ text, c.isDigit = true) : ofDigitChars 10 text 0 < 10 ^ text.length := by
  induction text using List.reverseRecOn with
  | nil => simp
  | append_singleton text c ih =>
    have hdigit : c.toNat - '0'.toNat < 10 := by
      have hc := h c (by simp)
      rw [Char.isDigit, Bool.and_eq_true, decide_eq_true_eq, decide_eq_true_eq] at hc
      have hle : c.toNat ≤ 57 := hc.2
      show c.toNat - 48 < 10
      omega
    have hrest := ih fun c' hc' => h c' (by simp [hc'])
    rw [Nat.ofDigitChars_append, Nat.ofDigitChars_cons, Nat.ofDigitChars_nil, List.length_append, List.length_singleton, pow_succ]
    omega

theorem length_decimalsOf (d : Nat) (parts : List (List Char)) : (decimalsOf d parts).length = d := by
  rw [decimalsOf, List.length_take, List.length_append, List.length_replicate]
  omega

theorem decimalsOf_cons (hlen : fs.length ≤ d) (rest : List (List Char)) :
    decimalsOf d (fs :: rest) = fs ++ List.replicate (d - fs.length) '0' := by
  rw [decimalsOf, List.head?_cons, Option.getD_some, List.take_append, List.take_of_length_le hlen, List.take_replicate]
  congr 2
  omega

theorem decimalsOf_nil (d : Nat) : decimalsOf d [] = List.replicate d '0' := by
  rw [decimalsOf, List.head?_nil, Option.getD_none, List.singleton_append, ← List.replicate_succ, List.take_replicate]
  congr 1
  omega

/-- The part behind the dot, if there is one, is made of no more digits than there are decimals. -/
def Fits (d : Nat) (parts : List (List Char)) : Prop :=
  parts = [] ∨ ∃ fs, parts = [fs] ∧ (∀ c ∈ fs, c.isDigit = true) ∧ fs.length ≤ d

theorem Fits.digits (hd : 0 < d) (h : Fits d parts) : Digits (decimalsOf d parts) := by
  refine ⟨List.ne_nil_of_length_pos (by rw [length_decimalsOf]; exact hd), ?_⟩
  rcases h with rfl | ⟨fs, rfl, hfs, hlen⟩
  · rw [decimalsOf_nil]
    intro c hc
    rw [List.eq_of_mem_replicate hc]
    decide
  · rw [decimalsOf_cons hlen]
    intro c hc
    rcases List.mem_append.mp hc with hc | hc
    · exact hfs c hc
    · rw [List.eq_of_mem_replicate hc]
      decide

theorem plain_iff_decimals (hsplit : text.splitOn '.' = whole :: parts) : Plain d text n ↔
    Digits whole ∧ Fits d parts ∧ n = ofDigitChars 10 whole 0 * 10 ^ d + ofDigitChars 10 (decimalsOf d parts) 0 := by
  rw [plain_iff hsplit]
  refine and_congr_right fun _ => ?_
  have hvalue : ∀ fs : List Char, fs.length ≤ d →
      ofDigitChars 10 (decimalsOf d [fs]) 0 = ofDigitChars 10 fs 0 * 10 ^ (d - fs.length) := by
    intro fs hlen
    rw [decimalsOf_cons hlen, Nat.ofDigitChars_append, Nat.ofDigitChars_replicate_zero, Nat.mul_comm]
  have hzero : ofDigitChars 10 (decimalsOf d []) 0 = 0 := by
    rw [decimalsOf_nil, Nat.ofDigitChars_replicate_zero, Nat.mul_zero]
  constructor
  · rintro (⟨rfl, rfl⟩ | ⟨fs, rfl, hfs, hlen, rfl⟩)
    · exact ⟨.inl rfl, by rw [hzero, Nat.add_zero]⟩
    · exact ⟨.inr ⟨fs, rfl, hfs, hlen⟩, by rw [hvalue fs hlen]⟩
  · rintro ⟨rfl | ⟨fs, rfl, hfs, hlen⟩, rfl⟩
    · exact .inl ⟨rfl, by rw [hzero, Nat.add_zero]⟩
    · exact .inr ⟨fs, rfl, hfs, hlen, by rw [hvalue fs hlen]⟩

theorem fits_iff (hdecimals : Digits (unsigned (decimalsOf d parts))) :
    Fits d parts ↔ ¬ ((∃ fs ∈ parts.head?, fs.head? = some '+' ∨ d < fs.length) ∨ 1 < parts.length) := by
  cases parts with
  | nil => simp [Fits]
  | cons fs rest =>
    have hhead : (∃ fs' ∈ (fs :: rest).head?, fs'.head? = some '+' ∨ d < fs'.length) ↔ fs.head? = some '+' ∨ d < fs.length := by simp
    rw [hhead, not_or, not_or]
    constructor
    · rintro (hnil | ⟨fs', heq, hfs, hlen⟩)
      · cases hnil
      · cases heq
        refine ⟨⟨fun hplus => ?_, Nat.not_lt.mpr hlen⟩, by simp⟩
        obtain ⟨tail, rfl⟩ := List.head?_eq_some_iff.mp hplus
        exact absurd (hfs '+' List.mem_cons_self) (by decide)
    · rintro ⟨⟨hplus, hlen⟩, hone⟩
      obtain rfl : rest = [] := by
        cases rest with
        | nil => rfl
        | cons _ _ => simp at hone
      have hle := Nat.not_lt.mp hlen
      refine .inr ⟨fs, rfl, fun c hc => ?_, hle⟩
      rw [decimalsOf_cons hle] at hdecimals
      have hunsigned : unsigned (fs ++ List.replicate (d - fs.length) '0') = fs ++ List.replicate (d - fs.length) '0' := by
        refine unsigned_of_head ?_
        cases fs with
        | nil => exact absurd hc List.not_mem_nil
        | cons _ _ => exact hplus
      rw [hunsigned] at hdecimals
      exact hdecimals.2 c (List.mem_append_left _ hc)

theorem misread_iff (hsplit : text.splitOn '.' = whole :: parts) : Misread d text ↔ (parseU64 whole).isSome = true ∧
    if d = 0 then whole.head? = some '+' ∧ parts = [] ∨ whole.head? ≠ some '+' ∧ parts = [[]]
    else (parseU64 (decimalsOf d parts)).isSome = true ∧
      (whole.head? = some '+' ∨ (∃ fs ∈ parts.head?, fs.head? = some '+' ∨ d < fs.length) ∨ 1 < parts.length ∨
        U64_RANGE ≤ ofDigitChars 10 (unsigned whole) 0 * 10 ^ d + ofDigitChars 10 (unsigned (decimalsOf d parts)) 0) := by
  constructor
  · rintro ⟨whole', parts', hsplit', h⟩
    cases hsplit.symm.trans hsplit'
    exact h
  · exact fun h => ⟨whole, parts, hsplit, h⟩

theorem Digits.unsigned_eq (h : Digits text) : unsigned text = text :=
  unsigned_of_head h.head_ne

theorem digits_iff_head (h : Digits (unsigned text)) : Digits text ↔ text.head? ≠ some '+' :=
  ⟨Digits.head_ne, fun hhead => by rwa [unsigned_of_head hhead] at h⟩

theorem parseU64_of_digits (h : Digits text) (hlt : ofDigitChars 10 text 0 < U64_RANGE) :
    parseU64 text = some (ofDigitChars 10 text 0) := by
  rw [parseU64_eq_some_iff, h.unsigned_eq]
  exact ⟨h, rfl, hlt⟩

theorem pow_lt_range (hd : d ≤ 18) : 10 ^ d < U64_RANGE :=
  (Nat.pow_le_pow_right (by decide) hd).trans_lt (by decide)

end Pieces

section Reading

variable {overflowChecks : Bool} {value : String} {d m n v w : Nat} {text whole : List Char} {parts : List (List Char)}

theorem plain_unique (hm : Plain d text m) (hn : Plain d text n) : m = n := by
  cases hsplit : text.splitOn '.' with
  | nil => exact absurd hsplit (List.splitOn_ne_nil _ _)
  | cons whole parts =>
    rw [((plain_iff_decimals hsplit).mp hm).2.2, ((plain_iff_decimals hsplit).mp hn).2.2]

theorem readsExactly_none (h : fromCoin overflowChecks value d = .ok none) :
    ReadsExactly overflowChecks value d ↔ ∀ n, Plain d (trim value.toList) n → U64_RANGE ≤ n := by
  constructor
  · rintro ⟨result, hresult, hexact⟩ n hplain
    obtain rfl : none = result := Except.ok.inj (h.symm.trans hresult)
    by_contra hlt
    exact nomatch (hexact n).mpr ⟨hplain, Nat.not_le.mp hlt⟩
  · intro hlarge
    refine ⟨none, h, fun n => ⟨nofun, ?_⟩⟩
    rintro ⟨hplain, hlt⟩
    exact absurd (hlarge n hplain) (Nat.not_le.mpr hlt)

theorem readsExactly_some (h : fromCoin overflowChecks value d = .ok (some m)) :
    ReadsExactly overflowChecks value d ↔ Plain d (trim value.toList) m ∧ m < U64_RANGE := by
  constructor
  · rintro ⟨result, hresult, hexact⟩
    obtain rfl : some m = result := Except.ok.inj (h.symm.trans hresult)
    exact (hexact m).mp rfl
  · rintro ⟨hplain, hlt⟩
    refine ⟨some m, h, fun n => ⟨fun heq => ?_, fun hn => ?_⟩⟩
    · cases heq
      exact ⟨hplain, hlt⟩
    · rw [plain_unique hplain hn.1]

theorem not_readsExactly_error {e : AmountOverflow} (h : fromCoin overflowChecks value d = .error e) :
    ¬ ReadsExactly overflowChecks value d := by
  rintro ⟨result, hresult, -⟩
  rw [h] at hresult
  cases hresult

/-- Without a number in front of the dot nothing is read, and there is no amount of 64 bits. -/
theorem readsExactly_of_whole (hsplit : (trim value.toList).splitOn '.' = whole :: parts) (hwhole : parseU64 whole = none) :
    ReadsExactly overflowChecks value d := by
  refine (readsExactly_none (by rw [fromCoin, hsplit]; simp only [hwhole])).mpr fun n hplain => ?_
  obtain ⟨hdigits, -, rfl⟩ := (plain_iff_decimals hsplit).mp hplain
  by_contra hlt
  have hv : ofDigitChars 10 whole 0 ≤ ofDigitChars 10 whole 0 * 10 ^ d := Nat.le_mul_of_pos_right _ (Nat.pow_pos (by decide))
  rw [parseU64_of_digits hdigits (by omega)] at hwhole
  cases hwhole

/-- Without decimals: the text is one number, without a sign, or more than one piece, and not a number with a dot behind it. -/
theorem readsExactly_zero (hsplit : (trim value.toList).splitOn '.' = whole :: parts) (hwhole : parseU64 whole = some v) :
    ReadsExactly overflowChecks value 0 ↔ ¬ (whole.head? = some '+' ∧ parts = [] ∨ whole.head? ≠ some '+' ∧ parts = [[]]) := by
  obtain ⟨hdigits, hv, hlt⟩ := parseU64_eq_some_iff.mp hwhole
  have hplain := fun n => plain_iff_decimals (d := 0) (n := n) hsplit
  have hnone : ofDigitChars 10 (decimalsOf 0 parts) 0 = 0 := by
    rw [List.eq_nil_of_length_eq_zero (length_decimalsOf 0 parts), Nat.ofDigitChars_nil]
  cases parts with
  | nil =>
    have hresult : fromCoin overflowChecks value 0 = .ok (some v) := by
      rw [fromCoin, hsplit]
      simp [hwhole]
    rw [readsExactly_some hresult, hplain, digits_iff_head hdigits, hnone]
    constructor
    · rintro ⟨⟨hhead, -⟩, -⟩
      simp [hhead]
    · intro hnot
      have hhead : whole.head? ≠ some '+' := fun hplus => hnot (.inl ⟨hplus, rfl⟩)
      refine ⟨⟨hhead, .inl rfl, ?_⟩, hlt⟩
      rw [hv, unsigned_of_head hhead, pow_zero, Nat.mul_one, Nat.add_zero]
  | cons fs rest =>
    have hresult : fromCoin overflowChecks value 0 = .ok none := by
      rw [fromCoin, hsplit]
      simp [hwhole]
    rw [readsExactly_none hresult]
    constructor
    · rintro hlarge (⟨-, hnil⟩ | ⟨hhead, hone⟩)
      · cases hnil
      · cases hone
        have hfits : Fits 0 [[]] := .inr ⟨[], rfl, fun _ h => absurd h List.not_mem_nil, Nat.le_refl 0⟩
        have := hlarge _ ((hplain _).mpr ⟨(digits_iff_head hdigits).mpr hhead, hfits, rfl⟩)
        rw [hnone, pow_zero, Nat.mul_one, Nat.add_zero, ← unsigned_of_head hhead, ← hv] at this
        exact absurd hlt (Nat.not_lt.mpr this)
    · intro hnot n hn
      obtain ⟨hwholeDigits, hfits, -⟩ := (hplain n).mp hn
      refine absurd (.inr ⟨hwholeDigits.head_ne, ?_⟩) hnot
      rcases hfits with hnil | ⟨fs', heq, -, hlen⟩
      · cases hnil
      · rw [heq, List.eq_nil_of_length_eq_zero (Nat.le_zero.mp hlen)]

theorem readsExactly_of_decimals (hpos : 0 < d) (hd : d ≤ 18) (hsplit : (trim value.toList).splitOn '.' = whole :: parts)
    (hwhole : parseU64 whole = some v) (hdecimals : parseU64 (decimalsOf d parts) = none) :
    ReadsExactly overflowChecks value d := by
  refine (readsExactly_none (by rw [fromCoin, hsplit]; simp only [hwhole, if_pos hpos, hdecimals])).mpr fun n hplain => ?_
  have hdigits := ((plain_iff_decimals hsplit).mp hplain).2.1.digits hpos
  have hlt := ofDigitChars_lt hdigits.2
  rw [length_decimalsOf] at hlt
  rw [parseU64_of_digits hdigits (hlt.trans (pow_lt_range hd))] at hdecimals
  cases hdecimals

theorem readsExactly_numbers (hpos : 0 < d) (hd : d ≤ 18) (hsplit : (trim value.toList).splitOn '.' = whole :: parts)
    (hwhole : parseU64 whole = some v) (hdecimals : parseU64 (decimalsOf d parts) = some w) :
    ReadsExactly overflowChecks value d ↔ Digits whole ∧ Fits d parts ∧ v * 10 ^ d + w < U64_RANGE := by
  obtain ⟨-, hv, -⟩ := parseU64_eq_some_iff.mp hwhole
  obtain ⟨-, hw, -⟩ := parseU64_eq_some_iff.mp hdecimals
  have hsum : ∀ n, Plain d (trim value.toList) n ↔ Digits whole ∧ Fits d parts ∧ n = v * 10 ^ d + w := by
    intro n
    rw [plain_iff_decimals hsplit]
    refine and_congr_right fun hdigits => and_congr_right fun hfits => ?_
    rw [hv, hw, hdigits.unsigned_eq, (hfits.digits hpos).unsigned_eq]
  have hpow := Nat.not_le.mpr (pow_lt_range hd)
  have hstep : fromCoin overflowChecks value d = if overflowChecks && decide (U64_RANGE ≤ 10 ^ d ∨ U64_RANGE ≤ v * 10 ^ d + w) then .error {}
      else .ok (some ((v * 10 ^ d + w) % U64_RANGE)) := by
    rw [fromCoin, hsplit]
    simp only [hwhole, if_pos hpos, hdecimals]
  by_cases hfit : v * 10 ^ d + w < U64_RANGE
  · have hresult : fromCoin overflowChecks value d = .ok (some (v * 10 ^ d + w)) := by
      rw [hstep, decide_eq_false (by simp [hpow, hfit]), Bool.and_false, if_neg Bool.false_ne_true, Nat.mod_eq_of_lt hfit]
    rw [readsExactly_some hresult, hsum]
    simp [hfit]
  · refine iff_of_false ?_ fun h => hfit h.2.2
    cases hchecks : overflowChecks && decide (U64_RANGE ≤ 10 ^ d ∨ U64_RANGE ≤ v * 10 ^ d + w) with
    | true =>
      rw [hchecks, if_pos rfl] at hstep
      exact not_readsExactly_error hstep
    | false =>
      rw [hchecks, if_neg Bool.false_ne_true] at hstep
      rw [readsExactly_some hstep, hsum]
      rintro ⟨⟨-, -, heq⟩, hlt⟩
      exact hfit (heq ▸ hlt)

end Reading

section Rendering

variable {d n : Nat}

theorem digits_toDigits (n : Nat) : Digits (toDigits 10 n) :=
  ⟨Nat.toDigits_ne_nil, fun _ hc => Nat.isDigit_of_mem_toDigits (by decide) (by decide) hc⟩

theorem isDigit_not_whitespace {c : Char} (h : c.isDigit = true) : isWhitespace c = false := by
  rw [Char.isDigit, Bool.and_eq_true, decide_eq_true_eq, decide_eq_true_eq] at h
  have hge : 48 ≤ c.toNat := h.1
  have hle : c.toNat ≤ 57 := h.2
  simp only [isWhitespace, Bool.or_eq_false_iff, decide_eq_false_iff_not, beq_eq_false_iff_ne]
  omega

theorem trim_of_plain {text : List Char} (h : ∀ c ∈ text, isWhitespace c = false) : trim text = text := by
  have hdrop : ∀ cs : List Char, (∀ c ∈ cs, isWhitespace c = false) → cs.dropWhile isWhitespace = cs := by
    intro cs hcs
    cases cs with
    | nil => rfl
    | cons c cs => rw [List.dropWhile_cons, hcs c List.mem_cons_self, if_neg Bool.false_ne_true]
  rw [trim, hdrop text h, hdrop text.reverse (fun c hc => h c (List.mem_reverse.mp hc)), List.reverse_reverse]

/-- A plain number is read right, apart from one with a dot at its end where there are no decimals. -/
theorem fromCoin_of_plain (overflowChecks : Bool) {value : String} (hd : d ≤ 18) (hplain : Plain d (trim value.toList) n)
    (hlt : n < U64_RANGE) (hdot : d = 0 → '.' ∉ trim value.toList) : fromCoin overflowChecks value d = .ok (some n) := by
  have hexact : ReadsExactly overflowChecks value d := by
    cases hsplit : (trim value.toList).splitOn '.' with
    | nil => exact absurd hsplit (List.splitOn_ne_nil _ _)
    | cons whole parts =>
      obtain ⟨hdigits, hfits, rfl⟩ := (plain_iff_decimals hsplit).mp hplain
      have hv : ofDigitChars 10 whole 0 ≤ ofDigitChars 10 whole 0 * 10 ^ d := Nat.le_mul_of_pos_right _ (Nat.pow_pos (by decide))
      have hwhole := parseU64_of_digits hdigits (by omega)
      rcases Nat.eq_zero_or_pos d with rfl | hpos
      · rw [List.splitOn_eq_singleton (hdot rfl)] at hsplit
        cases hsplit
        refine (readsExactly_zero (List.splitOn_eq_singleton (hdot rfl)) hwhole).mpr ?_
        simp [hdigits.head_ne]
      · exact (readsExactly_numbers hpos hd hsplit hwhole
          (parseU64_of_digits (hfits.digits hpos) (by omega))).mpr ⟨hdigits, hfits, hlt⟩
  obtain ⟨result, hresult, hvalue⟩ := hexact
  rw [hresult, (hvalue n).mpr ⟨hplain, hlt⟩]

theorem plain_render (d n : Nat) : Plain d (render d n) n := by
  unfold render
  split
  · rename_i hzero
    subst hzero
    simpa using Plain.whole (d := 0) (digits_toDigits n)
  · rename_i hpos
    have hlen : (toDigits 10 (n % 10 ^ d)).length ≤ d :=
      (Nat.length_toDigits_le_iff (by decide) (Nat.pos_of_ne_zero hpos)).mpr (Nat.mod_lt _ (Nat.pow_pos (by decide)))
    have hfull : (List.replicate (d - (toDigits 10 (n % 10 ^ d)).length) '0' ++ toDigits 10 (n % 10 ^ d)).length = d := by
      rw [List.length_append, List.length_replicate]
      omega
    have hdigits : ∀ c ∈ List.replicate (d - (toDigits 10 (n % 10 ^ d)).length) '0' ++ toDigits 10 (n % 10 ^ d), c.isDigit = true :=
      fun c hc => (List.mem_append.mp hc).elim (fun h => by rw [List.eq_of_mem_replicate h]; decide) ((digits_toDigits _).2 c)
    have hfraction := Plain.fraction (digits_toDigits (n / 10 ^ d)) hdigits hfull.le
    rw [hfull, Nat.sub_self, pow_zero, Nat.mul_one, Nat.ofDigitChars_append, Nat.ofDigitChars_replicate_zero, Nat.mul_zero,
      Nat.ofDigitChars_ten_toDigits, Nat.ofDigitChars_ten_toDigits, Nat.div_add_mod'] at hfraction
    exact hfraction

theorem Plain.not_whitespace {text : List Char} (h : Plain d text n) : ∀ c ∈ text, isWhitespace c = false := by
  intro c hc
  cases h with
  | whole hds => exact isDigit_not_whitespace (hds.2 c hc)
  | fraction hds hfs _ =>
    rcases List.mem_append.mp hc with hc | hc
    · exact isDigit_not_whitespace (hds.2 c hc)
    · rcases List.mem_cons.mp hc with rfl | hc
      · decide
      · exact isDigit_not_whitespace (hfs c hc)

theorem fromCoin_render (overflowChecks : Bool) (hd : d ≤ 18) (hn : n < U64_RANGE) :
    fromCoin overflowChecks (String.ofList (render d n)) d = .ok (some n) := by
  have htrim : trim (String.ofList (render d n)).toList = render d n := by
    rw [String.toList_ofList]
    exact trim_of_plain (plain_render d n).not_whitespace
  refine fromCoin_of_plain overflowChecks hd (by rw [htrim]; exact plain_render d n) hn fun hzero => ?_
  rw [htrim, render, if_pos hzero, List.append_nil]
  exact Digits.not_mem_dot (digits_toDigits _).2

end Rendering

/-- Amounts are read exactly, in builds with and without overflow checks, unless the pieces that are read make up a number the
text does not stand for; the decimal rendering of every amount is read back. -/
theorem fromCoin_exact_iff (overflowChecks : Bool) {d : Nat} (hd : d ≤ 18) :
    (∀ value, ReadsExactly overflowChecks value d ↔ ¬ Misread d (trim value.toList)) ∧
      ∀ n, n < U64_RANGE → fromCoin overflowChecks (String.ofList (render d n)) d = .ok (some n) := by
  refine ⟨fun value => ?_, fun n hn => fromCoin_render overflowChecks hd hn⟩
  cases hsplit : (trim value.toList).splitOn '.' with
  | nil => exact absurd hsplit (List.splitOn_ne_nil _ _)
  | cons whole parts =>
    rw [misread_iff hsplit]
    cases hwhole : parseU64 whole with
    | none => exact iff_of_true (readsExactly_of_whole hsplit hwhole) (by simp)
    | some v =>
      rcases Nat.eq_zero_or_pos d with rfl | hpos
      · rw [readsExactly_zero hsplit hwhole]
        simp
      · rw [if_neg hpos.ne']
        cases hdecimals : parseU64 (decimalsOf d parts) with
        | none => exact iff_of_true (readsExactly_of_decimals hpos hd hsplit hwhole hdecimals) (by simp)
        | some w =>
          obtain ⟨hdigits, hv, -⟩ := parseU64_eq_some_iff.mp hwhole
          obtain ⟨hdecimalDigits, hw, -⟩ := parseU64_eq_some_iff.mp hdecimals
          rw [readsExactly_numbers hpos hd hsplit hwhole hdecimals, digits_iff_head hdigits, fits_iff hdecimalDigits, ← hv, ← hw]
          simp only [Option.isSome_some, true_and, not_or, Nat.not_le, and_assoc, ne_eq]

theorem fromCoin_exact_tenth : ReadsExactly true "0.1" 8 ∧ fromCoin true (String.ofList (render 8 10000000)) 8 = .ok (some 10000000) := by
  have hexact := fromCoin_exact_iff true (show 8 ≤ 18 by decide)
  have hsplit : (trim "0.1".toList).splitOn '.' = [['0'], ['1']] := by decide
  refine ⟨(hexact.1 "0.1").mpr ?_, hexact.2 10000000 (by decide)⟩
  rw [misread_iff hsplit]
  decide

/-- The part behind a second dot is ignored. -/
theorem not_readsExactly_dots : ¬ ReadsExactly true "1.2.3" 8 := by
  have hsplit : (trim "1.2.3".toList).splitOn '.' = [['1'], ['2'], ['3']] := by decide
  have hresult : fromCoin true "1.2.3" 8 = .ok (some 120000000) := by decide
  rw [readsExactly_some hresult, plain_iff hsplit]
  rintro ⟨⟨-, ⟨hnil, -⟩ | ⟨fs, hone, -⟩⟩, -⟩
  · cases hnil
  · cases hone

end Xelis.Wallet
