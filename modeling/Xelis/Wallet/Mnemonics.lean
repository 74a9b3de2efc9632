import Xelis.Lib.DigitTriples
import Xelis.Wire.Transaction

/-! Private keys as lists of words, and which lists of words are read as which key. -/

namespace Xelis.Wallet

open Lib.DigitTriples (value digits)
open Wire (CurveScalar)

section Definitions

def KEY_SIZE : Nat := 32
def SEED_LENGTH : Nat := 24
def WORDS_LIST : Nat := 1626

inductive MnemonicsError where
  | invalidWordsCount
  | invalidChecksum
  | invalidChecksumIndex
  | invalidLanguageIndex
  | invalidLanguage
  | invalidKeySize
  | invalidKeyFromBytes
  | invalidChecksumCalculation
  | noIndicesFound
  | wordListSanityCheckError
  | outOfBounds
  /-- The assertion of `PrivateKey::from_scalar` fails: the source panics. -/
  | zeroScalar
  deriving DecidableEq

abbrev Word := List Char

def lower (word : Word) : Word := word.map Char.toLower

/-- A list of words that differ in more than the case of ASCII letters, and the number of characters of a word that count
for the checksum. -/
structure Language where
  prefixLength : Nat
  words : List Word
  size : words.length = WORDS_LIST
  distinct : (words.map lower).Nodup

def Language.word (language : Language) (index : Nat) : Word := language.words.getD index []

def Language.position (language : Language) (word : Word) : Option Nat := language.words.findIdx? (fun v => lower v = lower word)

variable (crc32 : List Char → Nat)

def calculateChecksumIndex (words : List Word) (prefixLen : Nat) : Except MnemonicsError Nat :=
  if words.length ≠ SEED_LENGTH then .error .invalidWordsCount
  else .ok (crc32 (words.flatMap (fun word => (lower word).take prefixLen)) % SEED_LENGTH)

def verifyChecksum (words : List Word) (prefixLen : Nat) : Except MnemonicsError (Option Bool) :=
  match calculateChecksumIndex crc32 (words.take SEED_LENGTH) prefixLen with
  | .error e => .error e
  | .ok checksumIndex =>
    match words[checksumIndex]? with
    | none => .error .invalidChecksumIndex
    | some checksumWord => .ok (words[SEED_LENGTH]?.map (fun v => decide (lower v = lower checksumWord)))

/-- The indices of the words in the first language that has all of them; `i` is the number of the first one that is tried. -/
def findIndicesFrom (words : List Word) : Nat → List Language → Except MnemonicsError (Option (List Nat × Nat))
  | _, [] => .ok none
  | i, language :: languages =>
    match words.mapM language.position with
    | none => findIndicesFrom words (i + 1) languages
    | some indices =>
      match verifyChecksum crc32 words language.prefixLength with
      | .error e => .error e
      | .ok verified => if verified.getD true = true then .ok (some (indices, i)) else .error .invalidChecksum

def findIndices (languages : List Language) (words : List Word) : Except MnemonicsError (Option (List Nat × Nat)) :=
  findIndicesFrom crc32 words 0 languages

/-- The bytes of so many groups of three indices: the number they are the digits of, cut to 32 bits. -/
def readGroups : Nat → List Nat → Except MnemonicsError IVec
  | 0, _ => .ok []
  | groups + 1, a :: b :: c :: rest =>
    if value WORDS_LIST a b c % WORDS_LIST ≠ a then .error .wordListSanityCheckError
    else (readGroups groups rest).map ((Lib.beBytes 4 (value WORDS_LIST a b c % 2 ^ 32)).reverse ++ ·)
  | _ + 1, _ => .error .outOfBounds

variable {S : Type} [CurveScalar S]

variable (S) in
/-- A scalar other than zero. -/
structure PrivateKey where
  scalar : S
  nonzero : CurveScalar.asBytes scalar ≠ List.replicate KEY_SIZE 0
  deriving DecidableEq

def PrivateKey.fromScalar (scalar : S) : Except MnemonicsError (PrivateKey S) :=
  if h : CurveScalar.asBytes scalar ≠ List.replicate KEY_SIZE 0 then .ok ⟨scalar, h⟩ else .error .zeroScalar

def PrivateKey.toBytes (key : PrivateKey S) : IVec := CurveScalar.asBytes key.scalar

def wordsToKey (languages : List Language) (words : List Word) : Except MnemonicsError (PrivateKey S) :=
  if ¬ (words.length = SEED_LENGTH + 1 ∨ words.length = SEED_LENGTH) then .error .invalidWordsCount
  else
    match findIndices crc32 languages words with
    | .error e => .error e
    | .ok none => .error .noIndicesFound
    | .ok (some (indices, _)) =>
      match readGroups (SEED_LENGTH / 3) indices with
      | .error e => .error e
      | .ok dest => (CurveScalar.fromCanonicalBytes dest).elim (.error .invalidKeyFromBytes) PrivateKey.fromScalar

/-- The numbers of 32 bits that so many groups of four bytes are. -/
def groupValues : Nat → IVec → List Nat
  | groups + 1, b₀ :: b₁ :: b₂ :: b₃ :: rest => Lib.ofBeBytes [b₃, b₂, b₁, b₀] :: groupValues groups rest
  | _, _ => []

def keyToWordsWithLanguage (key : PrivateKey S) (language : Language) : Except MnemonicsError (List Word) :=
  if language.words.length ≠ WORDS_LIST then .error .invalidLanguage
  else if key.toBytes.length ≠ KEY_SIZE then .error .invalidKeySize
  else
    let words := (groupValues (KEY_SIZE / 4) key.toBytes).flatMap (fun val => (digits WORDS_LIST val).map language.word)
    match calculateChecksumIndex crc32 words language.prefixLength with
    | .error e => .error e
    | .ok checksum =>
      match words[checksum]? with
      | none => .error .invalidChecksumCalculation
      | some word => .ok (words ++ [word])

def keyToWords (languages : List Language) (key : PrivateKey S) (languageIndex : Nat) : Except MnemonicsError (List Word) :=
  match languages[languageIndex]? with
  | none => .error .invalidLanguageIndex
  | some language => keyToWordsWithLanguage crc32 key language

structure Detects (languages : List Language) (words : List Word) (i : Nat) (language : Language) (indices : List Nat) : Prop where
  known : languages[i]? = some language
  found : words.mapM language.position = some indices
  first : ∀ j, j < i → ∀ earlier ∈ languages[j]?, words.mapM earlier.position = none

def ChecksumHolds (words : List Word) (prefixLen : Nat) : Prop :=
  ∃ verified, verifyChecksum crc32 words prefixLen = .ok verified ∧ verified ≠ some false

/-- The numbers that so many groups of three indices are the digits of. -/
def indexValues : Nat → List Nat → List Nat
  | groups + 1, a :: b :: c :: rest => value WORDS_LIST a b c :: indexValues groups rest
  | _, _ => []

/-- A language before the given one has all the words, but with another checksum word, or at indices of other numbers. -/
def Shadowed (languages : List Language) (l : Nat) (words : List Word) (key : PrivateKey S) : Prop :=
  ∃ i < l, ∃ language indices, Detects languages words i language indices ∧
    ¬ (ChecksumHolds crc32 words language.prefixLength ∧
      (indexValues (SEED_LENGTH / 3) indices).map (· % 2 ^ 32) = groupValues (KEY_SIZE / 4) key.toBytes)

/-- Every group of three words is the digits of a number of 32 bits. -/
def InRange (indices : List Nat) : Prop := ∀ n ∈ indexValues (SEED_LENGTH / 3) indices, n < 2 ^ 32

end Definitions

variable {indices' found rest : List Nat}

section Words

variable {language : Language} {word : Word} {words : List Word} {i : Nat} {indices : List Nat}

theorem Language.word_lower (language : Language) (i : Nat) (hi : i < language.words.length) :
    lower (language.word i) = lower language.words[i] := by
  rw [Language.word, List.getD_eq_getElem?_getD, List.getElem?_eq_getElem hi, Option.getD_some]

theorem position_eq_some_iff : language.position word = some i ↔ i < WORDS_LIST ∧ lower (language.word i) = lower word := by
  rw [Language.position, List.findIdx?_eq_some_iff_getElem, ← language.size]
  constructor
  · rintro ⟨hi, hfound, -⟩
    exact ⟨hi, (language.word_lower i hi).trans (of_decide_eq_true hfound)⟩
  · rintro ⟨hi, hlower⟩
    rw [language.word_lower i hi] at hlower
    refine ⟨hi, decide_eq_true hlower, fun j hj => ?_⟩
    rw [decide_eq_true_eq]
    intro hsame
    have hlength : i < (language.words.map lower).length := by rwa [List.length_map]
    have hnodup := @List.Nodup.getElem_inj_iff _ _ language.distinct j (hj.trans hlength) i hlength
    rw [List.getElem_map, List.getElem_map] at hnodup
    exact hj.ne (hnodup.mp (hsame.trans hlower.symm))

theorem mapM_position_iff : words.mapM language.position = some indices ↔
    (∀ i ∈ indices, i < WORDS_LIST) ∧ indices.map (fun i => lower (language.word i)) = words.map lower := by
  induction words generalizing indices with
  | nil =>
    rw [List.mapM_nil, List.map_nil, List.map_eq_nil_iff]
    constructor
    · intro h
      cases h
      exact ⟨fun _ h => absurd h List.not_mem_nil, rfl⟩
    · rintro ⟨-, rfl⟩
      rfl
  | cons word words ih =>
    rw [List.mapM_cons, Option.bind_eq_bind, Option.bind_eq_some_iff]
    simp only [Option.bind_eq_bind, Option.bind_eq_some_iff, Option.pure_def, Option.some.injEq]
    constructor
    · rintro ⟨i, hi, rest, hrest, rfl⟩
      obtain ⟨hlt, hlower⟩ := position_eq_some_iff.mp hi
      obtain ⟨hlts, hlowers⟩ := ih.mp hrest
      exact ⟨List.forall_mem_cons.mpr ⟨hlt, hlts⟩, by rw [List.map_cons, List.map_cons, hlower, hlowers]⟩
    · rintro ⟨hlts, hlowers⟩
      cases indices with
      | nil => cases hlowers
      | cons i indices =>
        rw [List.map_cons, List.map_cons, List.cons.injEq] at hlowers
        obtain ⟨hlt, hlts⟩ := List.forall_mem_cons.mp hlts
        exact ⟨i, position_eq_some_iff.mpr ⟨hlt, hlowers.1⟩, indices, ih.mpr ⟨hlts, hlowers.2⟩, rfl⟩

theorem length_of_mapM_position (h : words.mapM language.position = some indices) : indices.length = words.length := by
  have hlength := congrArg List.length (mapM_position_iff.mp h).2
  rwa [List.length_map, List.length_map] at hlength

theorem indices_eq_of_words (h : ∀ i ∈ indices, i < WORDS_LIST) (h' : ∀ i ∈ indices', i < WORDS_LIST)
    (hwords : indices.map (fun i => lower (language.word i)) = indices'.map (fun i => lower (language.word i))) : indices = indices' := by
  have hmap : (indices.map language.word).map lower = indices.map (fun i => lower (language.word i)) := List.map_map ..
  have hfirst := mapM_position_iff.mpr ⟨h, hmap.symm⟩
  have hsecond := mapM_position_iff.mpr ⟨h', hwords.symm.trans hmap.symm⟩
  exact Option.some.inj (hfirst.symm.trans hsecond)

end Words

section Groups

variable {indices : List Nat} {values : List Nat} {bytes : IVec}

/-- The four bytes of a number, the lowest first. -/
def leBytes (n : Nat) : IVec := (Lib.beBytes 4 n).reverse

theorem readGroups_eq (groups : Nat) (hlt : ∀ i ∈ indices, i < WORDS_LIST) (hlen : 3 * groups ≤ indices.length) :
    readGroups groups indices = .ok ((indexValues groups indices).flatMap (fun n => leBytes (n % 2 ^ 32))) := by
  induction groups generalizing indices with
  | zero => rw [readGroups, indexValues.eq_def]; rfl
  | succ groups ih =>
    match indices with
    | a :: b :: c :: rest =>
      have ha := hlt a List.mem_cons_self
      have hlts : ∀ i ∈ rest, i < WORDS_LIST := fun i hi => hlt i (by simp [hi])
      have hrest := ih hlts (by simp only [List.length_cons] at hlen; omega)
      rw [readGroups, if_neg (by rw [Lib.DigitTriples.value_mod ha]; exact fun h => h rfl), hrest, indexValues, List.flatMap_cons]
      rfl
    | [] | [_] | [_, _] => simp only [List.length_cons, List.length_nil] at hlen; omega

theorem length_indexValues (groups : Nat) (hlen : 3 * groups ≤ indices.length) : (indexValues groups indices).length = groups := by
  induction groups generalizing indices with
  | zero => rw [indexValues.eq_def]; rfl
  | succ groups ih =>
    match indices with
    | a :: b :: c :: rest =>
      rw [indexValues, List.length_cons, ih (by simp only [List.length_cons] at hlen; omega)]
    | [] | [_] | [_, _] => simp only [List.length_cons, List.length_nil] at hlen; omega

theorem indexValues_lt (groups : Nat) (hlt : ∀ i ∈ indices, i < WORDS_LIST) :
    ∀ n ∈ indexValues groups indices, n < WORDS_LIST * WORDS_LIST * WORDS_LIST := by
  fun_induction indexValues groups indices with
  | case1 groups a b c rest ih =>
    exact List.forall_mem_cons.mpr ⟨Lib.DigitTriples.value_lt (hlt a List.mem_cons_self), ih fun i hi => hlt i (by simp [hi])⟩
  | case2 => exact fun _ h => absurd h List.not_mem_nil

theorem flatMap_digits_indexValues (groups : Nat) (hlt : ∀ i ∈ indices, i < WORDS_LIST) (hlen : 3 * groups ≤ indices.length) :
    (indexValues groups indices).flatMap (digits WORDS_LIST) = indices.take (3 * groups) := by
  induction groups generalizing indices with
  | zero => rw [indexValues.eq_def]; rfl
  | succ groups ih =>
    match indices with
    | a :: b :: c :: rest =>
      have hlts : ∀ i ∈ rest, i < WORDS_LIST := fun i hi => hlt i (by simp [hi])
      have hrest := ih hlts (by simp only [List.length_cons] at hlen; omega)
      rw [indexValues, List.flatMap_cons, hrest, Lib.DigitTriples.digits_value (hlt a (by simp)) (hlt b (by simp)) (hlt c (by simp))]
      rfl
    | [] | [_] | [_, _] => simp only [List.length_cons, List.length_nil] at hlen; omega

theorem indexValues_flatMap_digits (hlt : ∀ n ∈ values, n < WORDS_LIST * WORDS_LIST * WORDS_LIST) (rest : List Nat) :
    indexValues values.length (values.flatMap (digits WORDS_LIST) ++ rest) = values := by
  induction values with
  | nil => rw [indexValues.eq_def]; rfl
  | cons n values ih =>
    have hn := Lib.DigitTriples.value_digits (W := WORDS_LIST) (by decide) (hlt n List.mem_cons_self)
    rw [List.flatMap_cons, List.length_cons]
    simp only [digits, List.cons_append, List.nil_append]
    rw [indexValues, hn]
    exact congrArg _ (ih fun m hm => hlt m (List.mem_cons_of_mem _ hm))

theorem groupValues_length_lt (groups : Nat) (hlen : bytes.length = 4 * groups) :
    (groupValues groups bytes).length = groups ∧ ∀ n ∈ groupValues groups bytes, n < 2 ^ 32 := by
  induction groups generalizing bytes with
  | zero => exact ⟨by rw [groupValues.eq_def]; rfl, by rw [groupValues.eq_def]; exact fun _ h => absurd h List.not_mem_nil⟩
  | succ groups ih =>
    match bytes with
    | b₀ :: b₁ :: b₂ :: b₃ :: rest =>
      have hlens : rest.length = 4 * groups := by simp only [List.length_cons] at hlen; omega
      obtain ⟨hlength, hlt⟩ := ih hlens
      rw [groupValues]
      exact ⟨by rw [List.length_cons, hlength], List.forall_mem_cons.mpr ⟨(Lib.ofBeBytes_lt [b₃, b₂, b₁, b₀]).trans_eq (by norm_num), hlt⟩⟩
    | [] | [_] | [_, _] | [_, _, _] => simp only [List.length_cons, List.length_nil] at hlen; omega

theorem flatMap_leBytes_groupValues (groups : Nat) (hlen : bytes.length = 4 * groups) :
    (groupValues groups bytes).flatMap leBytes = bytes := by
  induction groups generalizing bytes with
  | zero =>
    rw [List.eq_nil_of_length_eq_zero hlen, groupValues.eq_def]
    rfl
  | succ groups ih =>
    match bytes with
    | b₀ :: b₁ :: b₂ :: b₃ :: rest =>
      have hbytes := Lib.beBytes_ofBeBytes [b₃, b₂, b₁, b₀]
      rw [groupValues, List.flatMap_cons, ih (by simp only [List.length_cons] at hlen; omega), leBytes]
      exact congrArg (fun four => List.reverse four ++ rest) hbytes
    | [] | [_] | [_, _] | [_, _, _] => simp only [List.length_cons, List.length_nil] at hlen; omega

theorem groupValues_flatMap_leBytes (hlt : ∀ n ∈ values, n < 2 ^ 32) : groupValues values.length (values.flatMap leBytes) = values := by
  induction values with
  | nil => rw [groupValues.eq_def]; rfl
  | cons n values ih =>
    have hn := Lib.ofBeBytes_beBytes 4 n ((hlt n List.mem_cons_self).trans_eq (by norm_num))
    rw [List.flatMap_cons, List.length_cons]
    have hfour : leBytes n = [UInt8.ofNat n, UInt8.ofNat (n / 256), UInt8.ofNat (n / 256 / 256), UInt8.ofNat (n / 256 / 256 / 256)] := rfl
    rw [hfour]
    simp only [List.cons_append, List.nil_append]
    rw [groupValues]
    refine congrArg₂ List.cons hn (ih fun m hm => hlt m (List.mem_cons_of_mem _ hm))

/-- Bytes are the ones of these numbers, cut to 32 bits, exactly when they are the numbers' lowest bits. -/
theorem flatMap_leBytes_eq_iff (groups : Nat) (hlen : bytes.length = 4 * groups) (hvalues : values.length = groups) :
    values.flatMap (fun n => leBytes (n % 2 ^ 32)) = bytes ↔ values.map (· % 2 ^ 32) = groupValues groups bytes := by
  have hmap : values.flatMap (fun n => leBytes (n % 2 ^ 32)) = (values.map (· % 2 ^ 32)).flatMap leBytes := (List.flatMap_map ..).symm
  rw [hmap]
  constructor
  · rintro rfl
    have hcut : ∀ n ∈ values.map (· % 2 ^ 32), n < 2 ^ 32 := by
      intro n hn
      obtain ⟨m, -, rfl⟩ := List.mem_map.mp hn
      exact Nat.mod_lt _ (by decide)
    have hback := groupValues_flatMap_leBytes hcut
    rw [List.length_map, hvalues] at hback
    exact hback.symm
  · intro heq
    rw [heq, flatMap_leBytes_groupValues groups hlen]

end Groups

variable {start k prefixLen j i' checksum : Nat}

section Detection

variable {crc32 : List Char → Nat} {languages : List Language} {language : Language} {words words' : List Word} {i l : Nat}
  {indices : List Nat}

theorem calculateChecksumIndex_congr (h : words.map lower = words'.map lower) (prefixLen : Nat) :
    calculateChecksumIndex crc32 words prefixLen = calculateChecksumIndex crc32 words' prefixLen := by
  have hlength := congrArg List.length h
  rw [List.length_map, List.length_map] at hlength
  have hchars : ∀ ws : List Word, ws.flatMap (fun word => (lower word).take prefixLen) = (ws.map lower).flatMap (List.take prefixLen) :=
    fun ws => (List.flatMap_map ..).symm
  rw [calculateChecksumIndex, calculateChecksumIndex, hlength, hchars, hchars, h]

variable (crc32) in
theorem calculateChecksumIndex_lt (prefixLen : Nat) (hlen : words.length = SEED_LENGTH) :
    ∃ index, index < SEED_LENGTH ∧ calculateChecksumIndex crc32 words prefixLen = .ok index :=
  ⟨_, Nat.mod_lt _ (by decide), if_neg fun h => h hlen⟩

variable (crc32 words) in
theorem verifyChecksum_eq (prefixLen : Nat) (hlen : SEED_LENGTH ≤ words.length) : ∃ index word,
    index < SEED_LENGTH ∧ calculateChecksumIndex crc32 (words.take SEED_LENGTH) prefixLen = .ok index ∧ words[index]? = some word ∧
      verifyChecksum crc32 words prefixLen = .ok (words[SEED_LENGTH]?.map (fun v => decide (lower v = lower word))) := by
  obtain ⟨index, hlt, hindex⟩ := calculateChecksumIndex_lt crc32 prefixLen
    (show (words.take SEED_LENGTH).length = SEED_LENGTH by rw [List.length_take, Nat.min_eq_left hlen])
  have hword := List.getElem?_eq_getElem (hlt.trans_le hlen)
  exact ⟨index, _, hlt, hindex, hword, by rw [verifyChecksum, hindex]; dsimp only; rw [hword]⟩

theorem findIndicesFrom_of_first (hknown : languages[k]? = some language)
    (hfound : words.mapM language.position = some indices)
    (hfirst : ∀ j, j < k → ∀ earlier ∈ languages[j]?, words.mapM earlier.position = none) :
    findIndicesFrom crc32 words start languages = (verifyChecksum crc32 words language.prefixLength).bind (fun verified =>
      if verified.getD true = true then .ok (some (indices, start + k)) else .error .invalidChecksum) := by
  induction languages generalizing start k with
  | nil => cases hknown
  | cons head languages ih =>
    cases k with
    | zero =>
      cases hknown
      rw [findIndicesFrom, hfound]
      dsimp only
      cases verifyChecksum crc32 words language.prefixLength <;> rfl
    | succ k =>
      have hhead : words.mapM head.position = none := hfirst 0 (Nat.succ_pos k) head rfl
      rw [findIndicesFrom, hhead]
      dsimp only
      rw [ih hknown fun j hj earlier hearlier => hfirst (j + 1) (Nat.succ_lt_succ hj) earlier hearlier,
        Nat.add_assoc, Nat.add_comm 1 k]

theorem Detects.findIndices_eq (h : Detects languages words i language indices) :
    findIndices crc32 languages words = (verifyChecksum crc32 words language.prefixLength).bind (fun verified =>
      if verified.getD true = true then .ok (some (indices, i)) else .error .invalidChecksum) := by
  rw [findIndices, findIndicesFrom_of_first h.known h.found h.first, Nat.zero_add]

theorem exists_detects (hknown : languages[l]? = some language) (hfound : words.mapM language.position = some indices) :
    ∃ i ≤ l, ∃ language' indices', Detects languages words i language' indices' := by
  have hex : ∃ j, ∃ language' : Language, language' ∈ languages[j]? ∧ (words.mapM language'.position).isSome = true :=
    ⟨l, language, hknown, by rw [hfound]; rfl⟩
  classical
  obtain ⟨language', hknown', hsome⟩ := Nat.find_spec hex
  obtain ⟨indices', hfound'⟩ := Option.isSome_iff_exists.mp hsome
  refine ⟨Nat.find hex, Nat.find_min' hex ⟨language, hknown, by rw [hfound]; rfl⟩, language', indices', hknown', hfound', ?_⟩
  intro j hj earlier hearlier
  cases hmap : words.mapM earlier.position with
  | none => rfl
  | some _ => exact absurd ⟨earlier, hearlier, by rw [hmap]; rfl⟩ (Nat.find_min hex hj)

theorem findIndices_none (h : ∀ language ∈ languages, words.mapM language.position = none) (start : Nat) :
    findIndicesFrom crc32 words start languages = .ok none := by
  induction languages generalizing start with
  | nil => rfl
  | cons head languages ih =>
    rw [findIndicesFrom, h head List.mem_cons_self]
    exact ih (fun language hmem => h language (List.mem_cons_of_mem _ hmem)) (start + 1)

theorem checksumHolds_iff {verified : Option Bool} (h : verifyChecksum crc32 words prefixLen = .ok verified) :
    ChecksumHolds crc32 words prefixLen ↔ verified.getD true = true := by
  constructor
  · rintro ⟨verified', hverified, hne⟩
    cases h.symm.trans hverified
    rcases verified with _ | _ | _
    · rfl
    · exact absurd rfl hne
    · rfl
  · intro htrue
    refine ⟨verified, h, ?_⟩
    rintro rfl
    exact Bool.false_ne_true htrue

theorem Detects.findIndices_ok_iff (h : Detects languages words i language indices) :
    findIndices crc32 languages words = .ok (some (found, j)) ↔
      ChecksumHolds crc32 words language.prefixLength ∧ indices = found ∧ i = j := by
  rw [h.findIndices_eq]
  cases hverify : verifyChecksum crc32 words language.prefixLength with
  | error e =>
    refine iff_of_false (fun herror => by cases herror) ?_
    rintro ⟨⟨_, hok, -⟩, -⟩
    cases hverify.symm.trans hok
  | ok verified =>
    rw [checksumHolds_iff hverify]
    show (if verified.getD true = true then _ else _) = _ ↔ _
    split
    · rename_i htrue
      simp [htrue]
    · rename_i hfalse
      simp [hfalse]

theorem exists_detects_of_ok (hok : findIndices crc32 languages words = .ok (some (indices, j))) :
    ∃ language, Detects languages words j language indices ∧ ChecksumHolds crc32 words language.prefixLength := by
  by_cases hnone : ∀ language ∈ languages, words.mapM language.position = none
  · rw [findIndices, findIndices_none hnone] at hok
    cases hok
  · push Not at hnone
    obtain ⟨language, hmem, hsome⟩ := hnone
    obtain ⟨k, hk, rfl⟩ := List.mem_iff_getElem.mp hmem
    obtain ⟨found, hfound⟩ := Option.ne_none_iff_exists'.mp hsome
    obtain ⟨i', -, language', indices', hdetects⟩ := exists_detects (List.getElem?_eq_getElem hk) hfound
    obtain ⟨hholds, rfl, rfl⟩ := hdetects.findIndices_ok_iff.mp hok
    exact ⟨language', hdetects, hholds⟩

end Detection

section Keys

variable {S : Type} [CurveScalar S] {crc32 : List Char → Nat} {languages : List Language} {language : Language} {words words' : List Word}
  {i l : Nat} {indices : List Nat} {key : PrivateKey S}

theorem PrivateKey.length_toBytes (key : PrivateKey S) : key.toBytes.length = KEY_SIZE := CurveScalar.length_asBytes key.scalar

theorem PrivateKey.fromScalar_ok_iff {scalar : S} : fromScalar scalar = .ok key ↔ key.scalar = scalar := by
  rw [fromScalar]
  constructor
  · intro h
    split at h <;> cases h
    rfl
  · rintro rfl
    exact dif_pos key.nonzero

theorem wordsToKey_ok_iff (hlen : words.length = SEED_LENGTH + 1 ∨ words.length = SEED_LENGTH) :
    wordsToKey crc32 languages words = .ok key ↔ ∃ found j dest, findIndices crc32 languages words = .ok (some (found, j)) ∧
      readGroups (SEED_LENGTH / 3) found = .ok dest ∧ key.toBytes = dest := by
  rw [wordsToKey, if_neg (not_not_intro hlen)]
  constructor
  · intro hok
    match hfind : findIndices crc32 languages words with
    | .error e => rw [hfind] at hok; cases hok
    | .ok none => rw [hfind] at hok; cases hok
    | .ok (some (found, j)) =>
      rw [hfind] at hok
      dsimp only at hok
      cases hread : readGroups (SEED_LENGTH / 3) found with
      | error e => rw [hread] at hok; cases hok
      | ok dest =>
        rw [hread] at hok
        dsimp only at hok
        cases hkey : CurveScalar.fromCanonicalBytes (S := S) dest with
        | none => rw [hkey] at hok; cases hok
        | some scalar =>
          rw [hkey] at hok
          have hscalar := PrivateKey.fromScalar_ok_iff.mp hok
          exact ⟨found, j, dest, rfl, hread, (CurveScalar.fromCanonicalBytes_iff dest key.scalar).mp (hkey.trans (congrArg some hscalar.symm))⟩
  · rintro ⟨found, j, dest, hfind, hread, hkey⟩
    rw [hfind]
    dsimp only
    rw [hread]
    dsimp only
    rw [(CurveScalar.fromCanonicalBytes_iff dest key.scalar).mpr hkey]
    exact PrivateKey.fromScalar_ok_iff.mpr rfl

theorem Detects.wordsToKey_iff (h : Detects languages words i language indices)
    (hlen : words.length = SEED_LENGTH + 1 ∨ words.length = SEED_LENGTH) :
    wordsToKey crc32 languages words = .ok key ↔ ChecksumHolds crc32 words language.prefixLength ∧
      (indexValues (SEED_LENGTH / 3) indices).map (· % 2 ^ 32) = groupValues (KEY_SIZE / 4) key.toBytes := by
  have hlength : 3 * (SEED_LENGTH / 3) ≤ indices.length := by
    rw [length_of_mapM_position h.found, show 3 * (SEED_LENGTH / 3) = SEED_LENGTH from rfl]
    omega
  have hread := readGroups_eq _ (mapM_position_iff.mp h.found).1 hlength
  have hvalues : (indexValues (SEED_LENGTH / 3) indices).length = KEY_SIZE / 4 := length_indexValues _ hlength
  rw [wordsToKey_ok_iff hlen, ← flatMap_leBytes_eq_iff (KEY_SIZE / 4) (key.length_toBytes) hvalues]
  constructor
  · rintro ⟨found, j, dest, hfind, hdest, hkey⟩
    obtain ⟨hholds, rfl, -⟩ := h.findIndices_ok_iff.mp hfind
    cases hread.symm.trans hdest
    exact ⟨hholds, hkey.symm⟩
  · rintro ⟨hholds, hbytes⟩
    exact ⟨indices, i, _, h.findIndices_ok_iff.mpr ⟨hholds, rfl, rfl⟩, hread, hbytes.symm⟩

theorem length_of_wordsToKey (h : wordsToKey crc32 languages words = .ok key) :
    words.length = SEED_LENGTH + 1 ∨ words.length = SEED_LENGTH := by
  by_contra hlen
  rw [wordsToKey, if_pos hlen] at h
  cases h

def seedIndices (key : PrivateKey S) : List Nat := (groupValues (KEY_SIZE / 4) key.toBytes).flatMap (digits WORDS_LIST)

theorem groupValues_key (key : PrivateKey S) : (groupValues (KEY_SIZE / 4) key.toBytes).length = SEED_LENGTH / 3 ∧
    ∀ n ∈ groupValues (KEY_SIZE / 4) key.toBytes, n < 2 ^ 32 :=
  groupValues_length_lt (KEY_SIZE / 4) (key.length_toBytes)

theorem lt_of_mem_seedIndices (key : PrivateKey S) : ∀ i ∈ seedIndices key, i < WORDS_LIST := by
  intro i hi
  obtain ⟨n, -, hdigit⟩ := List.mem_flatMap.mp hi
  exact Lib.DigitTriples.lt_of_mem_digits (by decide) hdigit

theorem indexValues_seedIndices (key : PrivateKey S) (rest : List Nat) :
    indexValues (SEED_LENGTH / 3) (seedIndices key ++ rest) = groupValues (KEY_SIZE / 4) key.toBytes := by
  have hvalues := indexValues_flatMap_digits (fun n hn => ((groupValues_key key).2 n hn).trans (by decide)) rest
  rwa [(groupValues_key key).1] at hvalues

theorem length_seedIndices (key : PrivateKey S) : (seedIndices key).length = SEED_LENGTH := by
  have hdigits : (fun n => (digits WORDS_LIST n).length) = fun _ => 3 := rfl
  rw [seedIndices, List.length_flatMap, hdigits, List.map_const', List.sum_replicate_nat, (groupValues_key key).1]
  rfl

variable (crc32) in
theorem keyToWords_eq (key : PrivateKey S) (hknown : languages[l]? = some language) : ∃ checksum word,
    calculateChecksumIndex crc32 ((seedIndices key).map language.word) language.prefixLength = .ok checksum ∧
      ((seedIndices key).map language.word)[checksum]? = some word ∧
      keyToWords crc32 languages key l = .ok ((seedIndices key).map language.word ++ [word]) := by
  have hlength : ((seedIndices key).map language.word).length = SEED_LENGTH := by rw [List.length_map, length_seedIndices]
  obtain ⟨checksum, hlt, hchecksum⟩ := calculateChecksumIndex_lt crc32 language.prefixLength hlength
  have hword := List.getElem?_eq_getElem (hlt.trans_eq hlength.symm)
  have hwords : (groupValues (KEY_SIZE / 4) key.toBytes).flatMap (fun val => (digits WORDS_LIST val).map language.word) =
      (seedIndices key).map language.word := (List.map_flatMap ..).symm
  refine ⟨checksum, _, hchecksum, hword, ?_⟩
  rw [keyToWords, hknown]
  dsimp only
  rw [keyToWordsWithLanguage, if_neg (not_not_intro language.size), if_neg (not_not_intro key.length_toBytes), hwords]
  dsimp only
  rw [hchecksum]
  dsimp only
  rw [hword]

theorem Detects.unique {language' : Language} (h : Detects languages words i language indices)
    (h' : Detects languages words i' language' indices') : i = i' ∧ language = language' ∧ indices = indices' := by
  have hle : ∀ {i i' : Nat} {language language' : Language} {indices indices' : List Nat}, Detects languages words i language indices →
      Detects languages words i' language' indices' → i' ≤ i := by
    intro i i' language language' indices indices' h h'
    by_contra hlt
    have hnone := h'.first i (Nat.not_le.mp hlt) language h.known
    rw [h.found] at hnone
    cases hnone
  obtain rfl := Nat.le_antisymm (hle h' h) (hle h h')
  cases h.known.symm.trans h'.known
  cases h.found.symm.trans h'.found
  exact ⟨rfl, rfl, rfl⟩

theorem wordsToKey_eq_iff_not_shadowed (hknown : languages[l]? = some language)
    (hlen : words.length = SEED_LENGTH + 1 ∨ words.length = SEED_LENGTH) (hfound : words.mapM language.position = some (seedIndices key ++ rest))
    (hholds : ChecksumHolds crc32 words language.prefixLength) :
    wordsToKey crc32 languages words = .ok key ↔ ¬ Shadowed crc32 languages l words key := by
  obtain ⟨i, hi, language', indices', hdetects⟩ := exists_detects hknown hfound
  rw [hdetects.wordsToKey_iff hlen]
  rcases hi.lt_or_eq with hlt | rfl
  · constructor
    · rintro hread ⟨j, -, earlier, found, hfirst, hwrong⟩
      obtain ⟨-, rfl, rfl⟩ := hdetects.unique hfirst
      exact hwrong hread
    · intro hnot
      by_contra hwrong
      exact hnot ⟨i, hlt, language', indices', hdetects, hwrong⟩
  · cases hknown.symm.trans hdetects.known
    cases hfound.symm.trans hdetects.found
    refine iff_of_true ⟨hholds, ?_⟩ ?_
    · rw [indexValues_seedIndices]
      exact (List.map_congr_left fun n hn => Nat.mod_eq_of_lt ((groupValues_key key).2 n hn)).trans (List.map_id' _)
    · rintro ⟨j, hj, earlier, found, hfirst, -⟩
      exact hj.ne (hdetects.unique hfirst).1.symm

theorem seed_found (key : PrivateKey S) : ((seedIndices key).map language.word).mapM language.position = some (seedIndices key) :=
  mapM_position_iff.mpr ⟨lt_of_mem_seedIndices key, (List.map_map ..).symm⟩

theorem written_found {word : Word} (hword : ((seedIndices key).map language.word)[checksum]? = some word) :
    ∃ index, index ∈ seedIndices key ∧
      ((seedIndices key).map language.word ++ [word]).mapM language.position = some (seedIndices key ++ [index]) := by
  rw [List.getElem?_map, Option.map_eq_some_iff] at hword
  obtain ⟨index, hindex, rfl⟩ := hword
  have hmem := List.mem_of_getElem? hindex
  refine ⟨index, hmem, mapM_position_iff.mpr ⟨fun i hi => ?_, ?_⟩⟩
  · rcases List.mem_append.mp hi with hi | hi
    · exact lt_of_mem_seedIndices key i hi
    · rw [List.mem_singleton.mp hi]
      exact lt_of_mem_seedIndices key index hmem
  · rw [List.map_append, List.map_append, List.map_map]
    rfl

variable {seed : List Word}

theorem written_checksumHolds {word : Word} (hlength : seed.length = SEED_LENGTH)
    (hchecksum : calculateChecksumIndex crc32 seed prefixLen = .ok checksum) (hword : seed[checksum]? = some word) :
    ChecksumHolds crc32 (seed ++ [word]) prefixLen := by
  have hlt : checksum < seed.length := (List.getElem?_eq_some_iff.mp hword).1
  have htake : (seed ++ [word]).take SEED_LENGTH = seed := by rw [← hlength, List.take_left]
  have hlast : (seed ++ [word])[SEED_LENGTH]? = some word := by
    rw [List.getElem?_append_right hlength.le, hlength, Nat.sub_self]
    rfl
  refine ⟨some true, ?_, by decide⟩
  rw [verifyChecksum, htake, hchecksum]
  dsimp only
  rw [List.getElem?_append_left hlt, hword]
  dsimp only
  rw [hlast, Option.map_some, decide_eq_true rfl]

theorem seed_checksumHolds (hlength : seed.length = SEED_LENGTH) (prefixLen : Nat) :
    ChecksumHolds crc32 seed prefixLen := by
  obtain ⟨index, word, -, -, -, hverify⟩ := verifyChecksum_eq crc32 seed prefixLen hlength.ge
  rw [List.getElem?_eq_none hlength.le] at hverify
  exact ⟨none, hverify, by decide⟩

theorem checksum_word {word : Word} (hlen : words.length = SEED_LENGTH + 1)
    (hseed : seed.map lower = (words.take SEED_LENGTH).map lower) (hholds : ChecksumHolds crc32 words prefixLen)
    (hchecksum : calculateChecksumIndex crc32 seed prefixLen = .ok checksum) (hword : seed[checksum]? = some word) :
    (seed ++ [word]).map lower = words.map lower := by
  obtain ⟨index, word', hlt, hindex, hword', hverify⟩ := verifyChecksum_eq crc32 words prefixLen (by omega)
  cases hchecksum.symm.trans ((calculateChecksumIndex_congr hseed prefixLen).trans hindex)
  have hlower : lower word = lower word' := by
    have hseedAt := congrArg (fun ws => ws[checksum]?) hseed
    rw [List.getElem?_map, List.getElem?_map, List.getElem?_take_of_lt hlt, hword, hword'] at hseedAt
    exact Option.some.inj hseedAt
  have hlast : words[SEED_LENGTH]? = some words[SEED_LENGTH] := List.getElem?_eq_getElem (by omega)
  have hmatches : lower words[SEED_LENGTH] = lower word' := by
    rw [hlast, Option.map_some] at hverify
    exact of_decide_eq_true ((checksumHolds_iff hverify).mp hholds)
  have hsplit : words = words.take SEED_LENGTH ++ [words[SEED_LENGTH]] := by
    rw [List.take_append_getElem, List.take_of_length_le (by omega)]
  rw [hsplit, List.map_append, List.map_append, ← hseed, List.map_singleton, List.map_singleton, hlower, hmatches]

/-- A seed is written the same way again if and only if none of its groups of three words was cut. -/
theorem same_words_iff (hfind : findIndices crc32 languages words = .ok (some (indices, i)))
    (hkey : wordsToKey crc32 languages words = .ok key) :
    (∃ words', keyToWords crc32 languages key i = .ok words' ∧ (words'.take words.length).map lower = words.map lower) ↔
      InRange indices := by
  have hlen := length_of_wordsToKey hkey
  obtain ⟨language, hdetects, hholds⟩ := exists_detects_of_ok hfind
  obtain ⟨-, hvalues⟩ := (hdetects.wordsToKey_iff hlen).mp hkey
  obtain ⟨hlts, hlowers⟩ := mapM_position_iff.mp hdetects.found
  have hlength : 3 * (SEED_LENGTH / 3) ≤ indices.length := by
    rw [length_of_mapM_position hdetects.found, show 3 * (SEED_LENGTH / 3) = SEED_LENGTH from rfl]
    omega
  have hdigits : (indexValues (SEED_LENGTH / 3) indices).flatMap (digits WORDS_LIST) = indices.take SEED_LENGTH :=
    flatMap_digits_indexValues (SEED_LENGTH / 3) hlts hlength
  have hfirst : (words.take SEED_LENGTH).map lower = (indices.take SEED_LENGTH).map (fun i => lower (language.word i)) := by
    rw [List.map_take, List.map_take, hlowers]
  have hseed : ((seedIndices key).map language.word).map lower = (seedIndices key).map (fun i => lower (language.word i)) := List.map_map ..
  have hseedLength : ((seedIndices key).map language.word).length = SEED_LENGTH := by rw [List.length_map, length_seedIndices]
  obtain ⟨checksum, word, hchecksum, hword, hwrite⟩ := keyToWords_eq crc32 key hdetects.known
  rw [hwrite]
  constructor
  · rintro ⟨words', heq, hsame⟩
    cases heq
    have htake : (seedIndices key).map (fun i => lower (language.word i)) = (indices.take SEED_LENGTH).map (fun i => lower (language.word i)) := by
      rw [← hseed, ← hfirst, List.map_take, ← hsame, ← List.map_take, List.take_take, Nat.min_eq_left (by omega), ← hseedLength,
        List.take_left]
    have hindices := indices_eq_of_words (lt_of_mem_seedIndices key) (fun i hi => hlts i (List.mem_of_mem_take hi)) htake
    have hvaluesLength : (indexValues (SEED_LENGTH / 3) indices).length = SEED_LENGTH / 3 := length_indexValues _ hlength
    have hback := indexValues_flatMap_digits (indexValues_lt (SEED_LENGTH / 3) hlts) []
    rw [hvaluesLength, hdigits, ← hindices, indexValues_seedIndices] at hback
    intro n hn
    exact (groupValues_key key).2 n (by rw [hback]; exact hn)
  · intro hrange
    have hsameValues : indexValues (SEED_LENGTH / 3) indices = groupValues (KEY_SIZE / 4) key.toBytes :=
      ((List.map_congr_left fun n hn => Nat.mod_eq_of_lt (hrange n hn)).trans (List.map_id' _)).symm.trans hvalues
    have hindices : seedIndices key = indices.take SEED_LENGTH := by rw [seedIndices, ← hsameValues, hdigits]
    have hagree : ((seedIndices key).map language.word).map lower = (words.take SEED_LENGTH).map lower := by
      rw [hseed, hfirst, hindices]
    refine ⟨_, rfl, ?_⟩
    rcases hlen with hlen | hlen
    · rw [List.take_of_length_le (by rw [List.length_append, hseedLength, hlen, List.length_singleton])]
      exact checksum_word hlen hagree hholds hchecksum hword
    · rw [hlen, ← hseedLength, List.take_left, hagree, List.take_of_length_le hlen.le]

end Keys

/-- Seeds and keys correspond but for two defects. The words of a key are read as the key unless an earlier language has all
of them and reads them differently; and a seed that is accepted is written again from its key exactly when none of its groups
of three words stands for a number of more than 32 bits. Two such seeds of one language and length have different keys. -/
theorem seeds_exact {S : Type} [CurveScalar S] (crc32 : List Char → Nat) (languages : List Language) :
    (∀ (key : PrivateKey S) (l : Nat), l < languages.length → ∃ words, keyToWords crc32 languages key l = .ok words ∧ words.length = SEED_LENGTH + 1 ∧
      ∀ read, read = words ∨ read = words.take SEED_LENGTH →
        (wordsToKey crc32 languages read = .ok key ↔ ¬ Shadowed crc32 languages l read key)) ∧
      (∀ (words : List Word) (key : PrivateKey S) (indices : List Nat) (i : Nat), findIndices crc32 languages words = .ok (some (indices, i)) →
        wordsToKey crc32 languages words = .ok key →
        ((∃ words', keyToWords crc32 languages key i = .ok words' ∧ (words'.take words.length).map lower = words.map lower) ↔ InRange indices)) ∧
      ∀ (words words' : List Word) (key : PrivateKey S) (indices indices' : List Nat) (i : Nat),
        findIndices crc32 languages words = .ok (some (indices, i)) → findIndices crc32 languages words' = .ok (some (indices', i)) →
        wordsToKey crc32 languages words = .ok key → wordsToKey crc32 languages words' = .ok key → words.length = words'.length →
        InRange indices → InRange indices' → words.map lower = words'.map lower := by
  refine ⟨fun key l hl => ?_, fun words key indices i hfind hkey => same_words_iff hfind hkey, ?_⟩
  · have hknown := List.getElem?_eq_getElem hl
    obtain ⟨checksum, word, hchecksum, hword, hwrite⟩ := keyToWords_eq crc32 key hknown
    have hlength : ((seedIndices key).map languages[l].word).length = SEED_LENGTH := by rw [List.length_map, length_seedIndices]
    have hlast : ((seedIndices key).map languages[l].word ++ [word]).length = SEED_LENGTH + 1 := by
      rw [List.length_append, hlength, List.length_singleton]
    refine ⟨_, hwrite, hlast, ?_⟩
    rintro read (rfl | rfl)
    · obtain ⟨index, hindex, hfound⟩ := written_found hword
      exact wordsToKey_eq_iff_not_shadowed hknown (.inl hlast) hfound (written_checksumHolds hlength hchecksum hword)
    · rw [← hlength, List.take_left]
      exact wordsToKey_eq_iff_not_shadowed hknown (.inr hlength) ((seed_found key).trans (by rw [List.append_nil]))
        (seed_checksumHolds hlength _)
  · intro words words' key indices indices' i hfind hfind' hkey hkey' hlength hrange hrange'
    obtain ⟨written, hwritten, hsame⟩ := (same_words_iff hfind hkey).mpr hrange
    obtain ⟨written', hwritten', hsame'⟩ := (same_words_iff hfind' hkey').mpr hrange'
    cases hwritten.symm.trans hwritten'
    rw [← hsame, ← hsame', hlength]

theorem lower_toDigits (n : Nat) : lower (Nat.toDigits 10 n) = Nat.toDigits 10 n := by
  refine (List.map_congr_left fun c hc => ?_).trans (List.map_id' _)
  have hdigit := Nat.isDigit_of_mem_toDigits (by decide) (by decide) hc
  rw [Char.isDigit, Bool.and_eq_true, decide_eq_true_eq, decide_eq_true_eq] at hdigit
  refine dif_neg fun hupper => ?_
  have hlow : 65 ≤ c.val.toNat := hupper.1
  have hhigh : c.val.toNat ≤ 57 := hdigit.2
  omega

/-- A language whose words are numbers, counted from the given one. -/
def numbered (first : Nat) : Language where
  prefixLength := 4
  words := (List.range WORDS_LIST).map (fun i => Nat.toDigits 10 ((i + first) % WORDS_LIST))
  size := by rw [List.length_map, List.length_range]
  distinct := by
    rw [List.map_map]
    refine List.Nodup.map_on ?_ List.nodup_range
    intro i hi j hj hsame
    rw [Function.comp_apply, Function.comp_apply, lower_toDigits, lower_toDigits] at hsame
    have hmod := congrArg (fun cs => Nat.ofDigitChars 10 cs 0) hsame
    simp only [Nat.ofDigitChars_ten_toDigits] at hmod
    rw [List.mem_range, WORDS_LIST] at hi hj
    rw [WORDS_LIST] at hmod
    omega

/-- A seed whose first three words stand for a number of more than 32 bits. -/
def cutSeed : List Word := ([1625, 1624, 1623] ++ List.replicate 21 0).map (Nat.toDigits 10)

/-- The same key without the numbers cut off. -/
def plainSeed : List Word := ([1135, 327, 328] ++ List.replicate 21 0).map (Nat.toDigits 10)

/-- The key that both seeds are read as. -/
def plainKey : PrivateKey (Fin Wire.GROUP_ORDER) := ⟨⟨3975079, by decide⟩, by decide⟩

/-- The key whose eight numbers of 32 bits are all 50. -/
def evenKey : PrivateKey (Fin Wire.GROUP_ORDER) := ⟨⟨50 * ((2 ^ 256 - 1) / (2 ^ 32 - 1)), by decide⟩, by decide⟩

/-- In the first language the key is read back, and of its two seeds the one within 32 bits is written again. -/
theorem seeds_exact_plain :
    (∃ words, keyToWords (fun _ => 0) [numbered 0, numbered 1] plainKey 0 = .ok words ∧
      wordsToKey (fun _ => 0) [numbered 0, numbered 1] words = .ok plainKey) ∧
      (∃ words, keyToWords (fun _ => 0) [numbered 0, numbered 1] plainKey 0 = .ok words ∧
        (words.take plainSeed.length).map lower = plainSeed.map lower) ∧
      ¬ ∃ words, keyToWords (fun _ => 0) [numbered 0, numbered 1] plainKey 0 = .ok words ∧
        (words.take cutSeed.length).map lower = cutSeed.map lower := by
  obtain ⟨hkeys, hseeds, -⟩ := seeds_exact (S := Fin Wire.GROUP_ORDER) (fun _ => 0) [numbered 0, numbered 1]
  refine ⟨?_, ?_, ?_⟩
  · obtain ⟨words, hwritten, -, hread⟩ := hkeys plainKey 0 (by decide)
    refine ⟨words, hwritten, (hread words (.inl rfl)).mpr ?_⟩
    rintro ⟨i, hi, -⟩
    exact absurd hi (Nat.not_lt_zero i)
  · exact (hseeds plainSeed plainKey ([1135, 327, 328] ++ List.replicate 21 0) 0 (by decide +kernel) (by decide +kernel)).mpr
      (by rw [InRange]; decide)
  · refine fun hwritten => absurd (?_ : InRange ([1625, 1624, 1623] ++ List.replicate 21 0)) (by rw [InRange]; decide)
    exact (hseeds cutSeed plainKey ([1625, 1624, 1623] ++ List.replicate 21 0) 0 (by decide +kernel) (by decide +kernel)).mp hwritten

/-- The words of a key in the second language are words of the first one too, and read there they are another key. And two
seeds of one language are one key. -/
theorem seeds_collide :
    keyToWords (fun _ => 0) [numbered 0, numbered 1] evenKey 1 = .ok (List.replicate 25 ['5', '1']) ∧
      wordsToKey (fun _ => 0) [numbered 0, numbered 1] (List.replicate 25 ['5', '1']) ≠ .ok evenKey ∧
      cutSeed ≠ plainSeed ∧
      wordsToKey (fun _ => 0) [numbered 0] cutSeed = .ok plainKey ∧
      wordsToKey (fun _ => 0) [numbered 0] plainSeed = .ok plainKey := by
  refine ⟨?_, ?_, ?_, ?_, ?_⟩ <;> decide +kernel

end Xelis.Wallet
