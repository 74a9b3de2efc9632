import Mathlib.Data.List.Infix
import Xelis.Wire.DataElement

/-! Queries over data elements, as they are evaluated and as they are meant. -/

namespace Xelis.Api

open Wire (DataElement DataValue)

inductive ValueType where
  | bool
  | string
  | u8
  | u16
  | u32
  | u64
  | u128
  | hash
  | blob
  deriving DecidableEq

inductive ElementType where
  | value (type : ValueType)
  | array
  | fields
  deriving DecidableEq

inductive QueryNumber where
  | greater (value : Nat)
  | greaterOrEqual (value : Nat)
  | lesser (value : Nat)
  | lesserOrEqual (value : Nat)
  deriving DecidableEq

/-- The patterns of `matches` are those of a regular expression engine. -/
inductive QueryValue (R : Type) where
  | equal (expected : DataValue)
  | startsWith (value : DataValue)
  | endsWith (value : DataValue)
  | containsValue (value : DataValue)
  | isOfType (expected : ValueType)
  | matches (pattern : R)
  | numberOp (query : QueryNumber)

mutual

inductive Query (R : Type) where
  | not (query : Query R)
  | and (queries : List (Query R))
  | or (queries : List (Query R))
  | element (query : QueryElement R)
  | value (query : QueryValue R)

inductive QueryElement (R : Type) where
  | hasKey (key : DataValue) (query : Option (Query R))
  | atKey (key : DataValue) (query : Query R)
  | len (query : QueryNumber)
  | containsElement (element : DataElement)
  | atPosition (position : Nat) (query : Query R)
  | type (expected : ElementType)

end

def valueKind : DataValue → ValueType
  | .bool _ => .bool
  | .string _ => .string
  | .u8 _ => .u8
  | .u16 _ => .u16
  | .u32 _ => .u32
  | .u64 _ => .u64
  | .u128 _ => .u128
  | .hash _ => .hash
  | .blob _ => .blob

def elementKind : DataElement → ElementType
  | .value v => .value (valueKind v)
  | .array _ => .array
  | .fields _ => .fields

def hexChars (byte : UInt8) : List Char := [Nat.digitChar (byte.toNat / 16), Nat.digitChar (byte.toNat % 16)]

/-- A hash is written in hexadecimal digits, a blob as a list of numbers. -/
def valueToString : DataValue → List Char
  | .bool v => (if v then "true" else "false").toList
  | .string v => v.toList
  | .u8 v => (Nat.repr v).toList
  | .u16 v => (Nat.repr v).toList
  | .u32 v => (Nat.repr v).toList
  | .u64 v => (Nat.repr v).toList
  | .u128 v => (Nat.repr v).toList
  | .hash v => (writeHash v).flatMap hexChars
  | .blob v => '[' :: ((v.map fun b => (Nat.repr b.toNat).toList).intersperse [',', ' ']).flatten ++ [']']

def getField (key : DataValue) (fields : List (DataValue × DataElement)) : Option DataElement :=
  (fields.find? fun e => e.1 == key).map Prod.snd

mutual

/-- The equality of elements: fields are compared as maps. -/
def sameElement : DataElement → DataElement → Bool
  | .value a, .value b => a == b
  | .array as, .array bs => sameElements as bs
  | .fields as, .fields bs => as.length == bs.length && sameFields as bs
  | _, _ => false

def sameElements : List DataElement → List DataElement → Bool
  | [], [] => true
  | a :: as, b :: bs => sameElement a b && sameElements as bs
  | _, _ => false

def sameFields : List (DataValue × DataElement) → List (DataValue × DataElement) → Bool
  | [], _ => true
  | (k, a) :: as, bs => ((getField k bs).any fun b => sameElement a b) && sameFields as bs

end

section Evaluation

variable {R : Type} (isMatch : R → List Char → Bool)

/-- Numbers of every width are compared as they are, since `usize` has 64 bits. -/
def QueryNumber.verify : QueryNumber → DataValue → Bool
  | .greater value, .u128 v | .greater value, .u64 v | .greater value, .u32 v | .greater value, .u16 v | .greater value, .u8 v =>
    v > value
  | .greaterOrEqual value, .u128 v | .greaterOrEqual value, .u64 v | .greaterOrEqual value, .u32 v | .greaterOrEqual value, .u16 v
  | .greaterOrEqual value, .u8 v => v ≥ value
  | .lesser value, .u128 v | .lesser value, .u64 v | .lesser value, .u32 v | .lesser value, .u16 v | .lesser value, .u8 v =>
    v < value
  | .lesserOrEqual value, .u128 v | .lesserOrEqual value, .u64 v | .lesserOrEqual value, .u32 v | .lesserOrEqual value, .u16 v
  | .lesserOrEqual value, .u8 v => v ≤ value
  | _, _ => false

def QueryValue.verify : QueryValue R → DataValue → Bool
  | .equal expected, v => v == expected
  | .startsWith value, v => (valueToString value).isPrefixOf (valueToString v)
  | .endsWith value, v => (valueToString value).isSuffixOf (valueToString v)
  | .containsValue value, v => (valueToString v).tails.any fun rest => (valueToString value).isPrefixOf rest
  | .isOfType expected, v => valueKind v == expected
  | .matches pattern, v => isMatch pattern (valueToString v)
  | .numberOp query, v => query.verify v

mutual

def QueryValue.verifyElement (query : QueryValue R) : DataElement → Bool
  | .value v => query.verify isMatch v
  | .array array => query.verifyAny array
  | .fields _ => false

def QueryValue.verifyAny (query : QueryValue R) : List DataElement → Bool
  | [] => false
  | e :: es => query.verifyElement e || query.verifyAny es

end

mutual

def Query.verifyElement : Query R → DataElement → Bool
  | .element query, e => query.verify e
  | .value query, e => query.verifyElement isMatch e
  | .not query, e => !query.verifyElement e
  | .or queries, e => anyElement queries e
  | .and queries, e => allElement queries e

def anyElement : List (Query R) → DataElement → Bool
  | [], _ => false
  | q :: qs, e => q.verifyElement e || anyElement qs e

def allElement : List (Query R) → DataElement → Bool
  | [], _ => true
  | q :: qs, e => q.verifyElement e && allElement qs e

/-- The number of entries is cut to a byte. -/
def QueryElement.verify : QueryElement R → DataElement → Bool
  | .hasKey key query, .fields fields => (getField key fields).any fun v => optionalElement query v
  | .atKey key query, .fields fields => (getField key fields).any fun v => query.verifyElement v
  | .len query, .fields fields => query.verify (.u8 (fields.length % 2 ^ 8))
  | .len query, .array array => query.verify (.u8 (array.length % 2 ^ 8))
  | .containsElement query, .array array => array.any fun e => sameElement e query
  | .atPosition position query, .array array => array[position]?.any fun e => query.verifyElement e
  | .type expected, e => elementKind e == expected
  | _, _ => false

def optionalElement : Option (Query R) → DataElement → Bool
  | some query, v => query.verifyElement v
  | none, _ => false

end

mutual

def Query.verifyValue : Query R → DataValue → Bool
  | .element _, _ => false
  | .value query, v => query.verify isMatch v
  | .not query, v => !query.verifyValue v
  | .or queries, v => anyValue queries v
  | .and queries, v => allValue queries v

def anyValue : List (Query R) → DataValue → Bool
  | [], _ => false
  | q :: qs, v => if q.verifyValue v then true else anyValue qs v

def allValue : List (Query R) → DataValue → Bool
  | [], _ => true
  | q :: qs, v => if !q.verifyValue v then false else allValue qs v

end

end Evaluation

section Meaning

variable {R : Type} (isMatch : R → List Char → Bool)

def QueryNumber.Holds : QueryNumber → Nat → Prop
  | .greater value, n => n > value
  | .greaterOrEqual value, n => n ≥ value
  | .lesser value, n => n < value
  | .lesserOrEqual value, n => n ≤ value

instance : (query : QueryNumber) → (n : Nat) → Decidable (query.Holds n)
  | .greater value, n => inferInstanceAs (Decidable (n > value))
  | .greaterOrEqual value, n => inferInstanceAs (Decidable (n ≥ value))
  | .lesser value, n => inferInstanceAs (Decidable (n < value))
  | .lesserOrEqual value, n => inferInstanceAs (Decidable (n ≤ value))

def numberOf : DataValue → Option Nat
  | .u8 v | .u16 v | .u32 v | .u64 v | .u128 v => some v
  | _ => none

def QueryValue.Holds : QueryValue R → DataValue → Prop
  | .equal expected, v => v = expected
  | .startsWith value, v => valueToString value <+: valueToString v
  | .endsWith value, v => valueToString value <:+ valueToString v
  | .containsValue value, v => valueToString value <:+: valueToString v
  | .isOfType expected, v => valueKind v = expected
  | .matches pattern, v => isMatch pattern (valueToString v) = true
  | .numberOp query, v => ∃ n, numberOf v = some n ∧ query.Holds n

mutual

def QueryValue.Means (query : QueryValue R) : DataElement → Prop
  | .value v => query.Holds isMatch v
  | .array array => query.MeansAny array
  | .fields _ => False

def QueryValue.MeansAny (query : QueryValue R) : List DataElement → Prop
  | [] => False
  | e :: es => query.Means e ∨ query.MeansAny es

end

mutual

def Query.Means : Query R → DataElement → Prop
  | .element query, e => query.Means e
  | .value query, e => query.Means isMatch e
  | .not query, e => ¬ query.Means e
  | .or queries, e => AnyMeans queries e
  | .and queries, e => AllMean queries e

def AnyMeans : List (Query R) → DataElement → Prop
  | [], _ => False
  | q :: qs, e => q.Means e ∨ AnyMeans qs e

def AllMean : List (Query R) → DataElement → Prop
  | [], _ => True
  | q :: qs, e => q.Means e ∧ AllMean qs e

/-- The key is there and its query holds, if there is one; the number of entries is the true one. -/
def QueryElement.Means : QueryElement R → DataElement → Prop
  | .hasKey key query, .fields fields => ∃ v, getField key fields = some v ∧ OptionalMeans query v
  | .atKey key query, .fields fields => ∃ v, getField key fields = some v ∧ query.Means v
  | .len query, .fields fields => query.Holds fields.length
  | .len query, .array array => query.Holds array.length
  | .containsElement query, .array array => ∃ e ∈ array, sameElement e query = true
  | .atPosition position query, .array array => ∃ e, array[position]? = some e ∧ query.Means e
  | .type expected, e => elementKind e = expected
  | _, _ => False

def OptionalMeans : Option (Query R) → DataElement → Prop
  | some query, v => query.Means v
  | none, _ => True

end

theorem anyMeans_iff (queries : List (Query R)) (e : DataElement) : AnyMeans isMatch queries e ↔ ∃ q ∈ queries, q.Means isMatch e := by
  induction queries with
  | nil => simp [AnyMeans]
  | cons q qs ih => simp [AnyMeans, ih]

theorem allMean_iff (queries : List (Query R)) (e : DataElement) : AllMean isMatch queries e ↔ ∀ q ∈ queries, q.Means isMatch e := by
  induction queries with
  | nil => simp [AllMean]
  | cons q qs ih => simp [AllMean, ih]

end Meaning

section Parts

variable {R : Type} (isMatch : R → List Char → Bool)

/-- A key that is there, asked for without a query of its value, or a comparison that comes out differently for the number
of entries cut to a byte. -/
def Misread : QueryElement R → DataElement → Prop
  | .hasKey key none, .fields fields => (getField key fields).isSome = true
  | .len query, .fields fields => ¬ (query.Holds (fields.length % 2 ^ 8) ↔ query.Holds fields.length)
  | .len query, .array array => ¬ (query.Holds (array.length % 2 ^ 8) ↔ query.Holds array.length)
  | _, _ => False

mutual

/-- What is misread decides the answer. Of several queries one is misled, and no other settles what they mean: of those
joined by or, none holds, or those that do are the misled ones; with and, the same of those that do not hold. -/
def Query.Misled : Query R → DataElement → Prop
  | .element query, e => query.Misled e
  | .value _, _ => False
  | .not query, e => query.Misled e
  | .or queries, e => (∃ q, ∃ _ : q ∈ queries, q.Misled e) ∧
    ((∀ q ∈ queries, ¬ q.Means isMatch e) ∨ ∀ q, (_ : q ∈ queries) → (q.Misled e ↔ q.Means isMatch e))
  | .and queries, e => (∃ q, ∃ _ : q ∈ queries, q.Misled e) ∧
    ((∀ q ∈ queries, q.Means isMatch e) ∨ ∀ q, (_ : q ∈ queries) → (q.Misled e ↔ ¬ q.Means isMatch e))

def QueryElement.Misled : QueryElement R → DataElement → Prop
  | .hasKey key (some query), .fields fields => ∃ v, getField key fields = some v ∧ query.Misled v
  | .atKey key query, .fields fields => ∃ v, getField key fields = some v ∧ query.Misled v
  | .atPosition position query, .array array => ∃ v, array[position]? = some v ∧ query.Misled v
  | query, e => Misread query e

end

/-- A query of an element that the evaluation of another one comes to: it stops at the first query that settles the answer. -/
inductive Reached : Query R → DataElement → QueryElement R → DataElement → Prop
  | here (query : QueryElement R) (e : DataElement) : Reached (.element query) e query e
  | not {q : Query R} {query : QueryElement R} {e e' : DataElement} (h : Reached q e query e') : Reached (.not q) e query e'
  | or {q : Query R} {before after : List (Query R)} {query : QueryElement R} {e e' : DataElement}
    (hbefore : ∀ p ∈ before, ¬ p.Means isMatch e) (h : Reached q e query e') : Reached (.or (before ++ q :: after)) e query e'
  | and {q : Query R} {before after : List (Query R)} {query : QueryElement R} {e e' : DataElement}
    (hbefore : ∀ p ∈ before, p.Means isMatch e) (h : Reached q e query e') : Reached (.and (before ++ q :: after)) e query e'
  | hasKey {q : Query R} {query : QueryElement R} {key : DataValue} {fields : List (DataValue × DataElement)} {v e' : DataElement}
    (hv : getField key fields = some v) (h : Reached q v query e') : Reached (.element (.hasKey key (some q))) (.fields fields) query e'
  | atKey {q : Query R} {query : QueryElement R} {key : DataValue} {fields : List (DataValue × DataElement)} {v e' : DataElement}
    (hv : getField key fields = some v) (h : Reached q v query e') : Reached (.element (.atKey key q)) (.fields fields) query e'
  | atPosition {q : Query R} {query : QueryElement R} {position : Nat} {array : List DataElement} {v e' : DataElement}
    (hv : array[position]? = some v) (h : Reached q v query e') : Reached (.element (.atPosition position q)) (.array array) query e'

end Parts

section Values

variable {R : Type} (isMatch : R → List Char → Bool)

theorem queryNumber_verify_iff (query : QueryNumber) (v : DataValue) :
    query.verify v = true ↔ ∃ n, numberOf v = some n ∧ query.Holds n := by
  cases query <;> cases v <;> simp [QueryNumber.verify, numberOf, QueryNumber.Holds]

theorem tails_any_isPrefixOf (needle text : List Char) : (text.tails.any fun rest => needle.isPrefixOf rest) = true ↔ needle <:+: text := by
  simp only [List.any_eq_true, List.mem_tails, List.isPrefixOf_iff_prefix]
  constructor
  · rintro ⟨rest, hsuffix, hstart⟩
    exact hstart.isInfix.trans hsuffix.isInfix
  · intro h
    obtain ⟨rest, hstart, hsuffix⟩ := List.infix_iff_prefix_suffix.mp h
    exact ⟨rest, hsuffix, hstart⟩

theorem queryValue_verify_iff (query : QueryValue R) (v : DataValue) : query.verify isMatch v = true ↔ query.Holds isMatch v := by
  cases query with
  | containsValue value => exact tails_any_isPrefixOf _ _
  | numberOp query => exact queryNumber_verify_iff query v
  | equal | isOfType => exact beq_iff_eq
  | startsWith value => exact List.isPrefixOf_iff_prefix
  | endsWith value => exact List.isSuffixOf_iff_suffix
  | «matches» pattern => exact Iff.rfl

mutual

theorem queryValue_verifyElement_iff (query : QueryValue R) :
    (e : DataElement) → (query.verifyElement isMatch e = true ↔ query.Means isMatch e)
  | .value v => by rw [QueryValue.verifyElement, QueryValue.Means, queryValue_verify_iff]
  | .array array => by rw [QueryValue.verifyElement, QueryValue.Means, queryValue_verifyAny_iff query array]
  | .fields _ => iff_of_false Bool.false_ne_true id

theorem queryValue_verifyAny_iff (query : QueryValue R) :
    (es : List DataElement) → (query.verifyAny isMatch es = true ↔ query.MeansAny isMatch es)
  | [] => iff_of_false Bool.false_ne_true id
  | e :: es => by
    rw [QueryValue.verifyAny, QueryValue.MeansAny, Bool.or_eq_true, queryValue_verifyElement_iff query e, queryValue_verifyAny_iff query es]

end

end Values

section Agreement

variable {R : Type} (isMatch : R → List Char → Bool)

theorem anyElement_iff (qs : List (Query R)) (e : DataElement) :
    anyElement isMatch qs e = true ↔ ∃ q ∈ qs, q.verifyElement isMatch e = true := by
  induction qs with
  | nil => simp [anyElement]
  | cons q qs ih => simp [anyElement, ih]

theorem allElement_iff (qs : List (Query R)) (e : DataElement) :
    allElement isMatch qs e = true ↔ ∀ q ∈ qs, q.verifyElement isMatch e = true := by
  induction qs with
  | nil => simp [allElement]
  | cons q qs ih => simp [allElement, ih]

/-- Whether some `V` holds differs from whether some `M` does exactly where those that differ decide. -/
theorem exists_agree_iff {α : Type} {V M F : α → Prop} {as : List α} (h : ∀ a ∈ as, ((V a ↔ M a) ↔ ¬ F a)) :
    ((∃ a ∈ as, V a) ↔ ∃ a ∈ as, M a) ↔
      ¬ ((∃ a, ∃ _ : a ∈ as, F a) ∧ ((∀ a ∈ as, ¬ M a) ∨ ∀ a, (_ : a ∈ as) → (F a ↔ M a))) := by
  have hsame : ∀ a ∈ as, (V a ↔ ¬ (F a ↔ M a)) := fun a ha => by
    have := h a ha
    tauto
  rw [exists_congr fun a => and_congr_right fun ha => hsame a ha]
  constructor
  · rintro hiff ⟨⟨a, ha, hF⟩, hnone | hexact⟩
    · obtain ⟨b, hb, hM⟩ := hiff.mp ⟨a, ha, fun hFM => hnone a ha (hFM.mp hF)⟩
      exact hnone b hb hM
    · obtain ⟨b, hb, hne⟩ := hiff.mpr ⟨a, ha, (hexact a ha).mp hF⟩
      exact hne (hexact b hb)
  · intro hnot
    constructor
    · rintro ⟨a, ha, hne⟩
      by_contra hnone
      have hno : ∀ b ∈ as, ¬ M b := fun b hb hM => hnone ⟨b, hb, hM⟩
      have hF : F a := by_contra fun hF => hne (iff_of_false hF (hno a ha))
      exact hnot ⟨⟨a, ha, hF⟩, Or.inl hno⟩
    · rintro ⟨a, ha, hM⟩
      by_contra hnone
      have hexact : ∀ b ∈ as, (F b ↔ M b) := fun b hb => by_contra fun hne => hnone ⟨b, hb, hne⟩
      exact hnot ⟨⟨a, ha, (hexact a ha).mpr hM⟩, Or.inr hexact⟩

/-- The same for all of them. -/
theorem forall_agree_iff {α : Type} {V M F : α → Prop} {as : List α} (h : ∀ a ∈ as, ((V a ↔ M a) ↔ ¬ F a)) :
    ((∀ a ∈ as, V a) ↔ ∀ a ∈ as, M a) ↔
      ¬ ((∃ a, ∃ _ : a ∈ as, F a) ∧ ((∀ a ∈ as, M a) ∨ ∀ a, (_ : a ∈ as) → (F a ↔ ¬ M a))) := by
  have hnot : ∀ a ∈ as, ((¬ V a ↔ ¬ M a) ↔ ¬ F a) := fun a ha => not_iff_not.trans (h a ha)
  have hagree := exists_agree_iff hnot
  have hnone : ∀ P : α → Prop, (∃ a ∈ as, ¬ P a) ↔ ¬ ∀ a ∈ as, P a := fun P => by simp
  rw [hnone, hnone, not_iff_not] at hagree
  simpa only [not_not] using hagree

theorem any_agree_iff {V : DataElement → Bool} {M F : DataElement → Prop} {found : Option DataElement}
    (h : ∀ v, found = some v → ((V v = true ↔ M v) ↔ ¬ F v)) :
    (found.any V = true ↔ ∃ v, found = some v ∧ M v) ↔ ¬ ∃ v, found = some v ∧ F v := by
  cases found with
  | none => simp
  | some v => simpa using h v rfl

mutual

/-- A query is evaluated to what it means unless what is misread decides the answer. One case for each way to build a query. -/
theorem verifyElement_iff : (q : Query R) → (e : DataElement) →
    ((q.verifyElement isMatch e = true ↔ q.Means isMatch e) ↔ ¬ q.Misled isMatch e)
  | .element query, e => by
    rw [Query.verifyElement, Query.Means, Query.Misled]
    exact element_verify_iff query e
  | .value query, e => by
    rw [Query.verifyElement, Query.Means, Query.Misled]
    exact iff_of_true (queryValue_verifyElement_iff isMatch query e) id
  | .not query, e => by
    rw [Query.verifyElement, Query.Means, Query.Misled, ← verifyElement_iff query e, Bool.not_eq_true', ← Bool.not_eq_true, not_iff_not]
  | .or queries, e => by
    rw [Query.verifyElement, Query.Means, Query.Misled, anyElement_iff, anyMeans_iff]
    exact exists_agree_iff fun q _ => verifyElement_iff q e
  | .and queries, e => by
    rw [Query.verifyElement, Query.Means, Query.Misled, allElement_iff, allMean_iff]
    exact forall_agree_iff fun q _ => verifyElement_iff q e

theorem element_verify_iff : (query : QueryElement R) → (e : DataElement) →
    ((query.verify isMatch e = true ↔ query.Means isMatch e) ↔ ¬ query.Misled isMatch e)
  | .hasKey key (some query), .fields fields => by
    rw [QueryElement.verify, QueryElement.Means, QueryElement.Misled]
    exact any_agree_iff fun v _ => verifyElement_iff query v
  | .atKey key query, .fields fields => by
    rw [QueryElement.verify, QueryElement.Means, QueryElement.Misled]
    exact any_agree_iff fun v _ => verifyElement_iff query v
  | .atPosition position query, .array array => by
    rw [QueryElement.verify, QueryElement.Means, QueryElement.Misled]
    exact any_agree_iff fun v _ => verifyElement_iff query v
  | .hasKey key none, .fields fields => by
    cases hv : getField key fields <;> simp [QueryElement.verify, QueryElement.Means, QueryElement.Misled, Misread, hv, optionalElement, OptionalMeans]
  | .len query, .fields fields => by
    simp [QueryElement.verify, QueryElement.Means, QueryElement.Misled, Misread, queryNumber_verify_iff, numberOf]
  | .len query, .array array => by
    simp [QueryElement.verify, QueryElement.Means, QueryElement.Misled, Misread, queryNumber_verify_iff, numberOf]
  | .containsElement query, .array array => by
    simp [QueryElement.verify, QueryElement.Means, QueryElement.Misled, Misread]
  | .type expected, e => by
    simp [QueryElement.verify, QueryElement.Means, QueryElement.Misled, Misread]
  | .hasKey _ _, .value _ | .hasKey _ _, .array _ | .atKey _ _, .value _ | .atKey _ _, .array _ | .len _, .value _
  | .containsElement _, .value _ | .containsElement _, .fields _ | .atPosition _ _, .value _ | .atPosition _ _, .fields _ => by
    simp [QueryElement.verify, QueryElement.Means, QueryElement.Misled, Misread]

end

theorem exists_first {α : Type} {F : α → Prop} {as : List α} (h : ∃ a, ∃ _ : a ∈ as, F a) :
    ∃ before a after, as = before ++ a :: after ∧ F a ∧ ∀ b ∈ before, ¬ F b := by
  induction as with
  | nil =>
    obtain ⟨a, ha, -⟩ := h
    exact absurd ha List.not_mem_nil
  | cons a as ih =>
    by_cases ha : F a
    · exact ⟨[], a, as, rfl, ha, by simp⟩
    · obtain ⟨b, hb, hF⟩ := h
      have hmem : b ∈ as := (List.mem_cons.mp hb).resolve_left fun hba => ha (hba ▸ hF)
      obtain ⟨before, c, after, rfl, hc, hbefore⟩ := ih ⟨b, hmem, hF⟩
      exact ⟨a :: before, c, after, rfl, hc, List.forall_mem_cons.mpr ⟨ha, hbefore⟩⟩

mutual

theorem misled_reached : (q : Query R) → (e : DataElement) → q.Misled isMatch e → ∃ query e', Reached isMatch q e query e' ∧ Misread query e'
  | .element query, e, h => by
    rw [Query.Misled] at h
    exact element_misled_reached query e h
  | .value query, e, h => by
    rw [Query.Misled] at h
    exact h.elim
  | .not query, e, h => by
    rw [Query.Misled] at h
    obtain ⟨query', e', hreached, hmisread⟩ := misled_reached query e h
    exact ⟨query', e', .not hreached, hmisread⟩
  | .or queries, e, h => by
    have ih : ∀ q ∈ queries, q.Misled isMatch e → _ := fun q _ => misled_reached q e
    rw [Query.Misled] at h
    obtain ⟨before, q, after, rfl, hq, hbefore⟩ := exists_first h.1
    obtain ⟨query', e', hreached, hmisread⟩ := ih q (by simp) hq
    refine ⟨query', e', .or (fun p hp => ?_) hreached, hmisread⟩
    exact h.2.elim (fun hnone => hnone p (by simp [hp])) fun hexact => (hexact p (by simp [hp])).not.mp (hbefore p hp)
  | .and queries, e, h => by
    have ih : ∀ q ∈ queries, q.Misled isMatch e → _ := fun q _ => misled_reached q e
    rw [Query.Misled] at h
    obtain ⟨before, q, after, rfl, hq, hbefore⟩ := exists_first h.1
    obtain ⟨query', e', hreached, hmisread⟩ := ih q (by simp) hq
    refine ⟨query', e', .and (fun p hp => ?_) hreached, hmisread⟩
    exact h.2.elim (fun hall => hall p (by simp [hp])) fun hexact => not_not.mp ((hexact p (by simp [hp])).not.mp (hbefore p hp))

theorem element_misled_reached : (query : QueryElement R) → (e : DataElement) → query.Misled isMatch e →
    ∃ query' e', Reached isMatch (.element query) e query' e' ∧ Misread query' e'
  | .hasKey key (some query), .fields fields, h => by
    rw [QueryElement.Misled] at h
    obtain ⟨v, hv, hmisled⟩ := h
    obtain ⟨query', e', hreached, hmisread⟩ := misled_reached query v hmisled
    exact ⟨query', e', .hasKey hv hreached, hmisread⟩
  | .atKey key query, .fields fields, h => by
    rw [QueryElement.Misled] at h
    obtain ⟨v, hv, hmisled⟩ := h
    obtain ⟨query', e', hreached, hmisread⟩ := misled_reached query v hmisled
    exact ⟨query', e', .atKey hv hreached, hmisread⟩
  | .atPosition position query, .array array, h => by
    rw [QueryElement.Misled] at h
    obtain ⟨v, hv, hmisled⟩ := h
    obtain ⟨query', e', hreached, hmisread⟩ := misled_reached query v hmisled
    exact ⟨query', e', .atPosition hv hreached, hmisread⟩
  | .hasKey _ none, e, h | .len _, e, h | .containsElement _, e, h | .type _, e, h => by
    refine ⟨_, _, .here _ _, ?_⟩
    simpa [QueryElement.Misled] using h
  | .hasKey _ (some _), .value _, h | .hasKey _ (some _), .array _, h | .atKey _ _, .value _, h | .atKey _ _, .array _, h
  | .atPosition _ _, .value _, h | .atPosition _ _, .fields _, h => by
    simp [QueryElement.Misled, Misread] at h

end

theorem not_anyElement (qs : List (Query R)) (e : DataElement) : (!anyElement isMatch qs e) = allElement isMatch (qs.map .not) e := by
  induction qs with
  | nil => rfl
  | cons q qs ih => rw [anyElement, Bool.not_or, ih, List.map_cons, allElement, Query.verifyElement]

theorem not_allElement (qs : List (Query R)) (e : DataElement) : (!allElement isMatch qs e) = anyElement isMatch (qs.map .not) e := by
  induction qs with
  | nil => rfl
  | cons q qs ih => rw [allElement, Bool.not_and, ih, List.map_cons, anyElement, Query.verifyElement]

mutual

/-- A query that is built without queries of elements. -/
def Query.Plain : Query R → Prop
  | .element _ => False
  | .value _ => True
  | .not query => query.Plain
  | .or queries => AllPlain queries
  | .and queries => AllPlain queries

def AllPlain : List (Query R) → Prop
  | [] => True
  | q :: qs => q.Plain ∧ AllPlain qs

end

mutual

theorem verifyValue_eq : (q : Query R) → (v : DataValue) → q.Plain → q.verifyValue isMatch v = q.verifyElement isMatch (.value v)
  | .element _, _, h => h.elim
  | .value _, _, _ => rfl
  | .not query, v, h => by rw [Query.verifyValue, Query.verifyElement, verifyValue_eq query v h]
  | .or queries, v, h => by rw [Query.verifyValue, Query.verifyElement, anyValue_eq queries v h]
  | .and queries, v, h => by rw [Query.verifyValue, Query.verifyElement, allValue_eq queries v h]

theorem anyValue_eq : (qs : List (Query R)) → (v : DataValue) → AllPlain qs → anyValue isMatch qs v = anyElement isMatch qs (.value v)
  | [], _, _ => rfl
  | q :: qs, v, h => by
    rw [anyValue, anyElement, ← verifyValue_eq q v h.1, ← anyValue_eq qs v h.2]
    cases q.verifyValue isMatch v <;> rfl

theorem allValue_eq : (qs : List (Query R)) → (v : DataValue) → AllPlain qs → allValue isMatch qs v = allElement isMatch qs (.value v)
  | [], _, _ => rfl
  | q :: qs, v, h => by
    rw [allValue, allElement, ← verifyValue_eq q v h.1, ← allValue_eq qs v h.2]
    cases q.verifyValue isMatch v <;> rfl

end

/-- A query is evaluated to what it means if and only if no misread part decides the answer, and such a part is always one
that the evaluation reaches. The De Morgan laws hold in any case, and a plain query is answered alike for a value and for the
element that is this value. -/
theorem query_evaluation :
    (∀ (q : Query R) (e : DataElement), (q.verifyElement isMatch e = true ↔ q.Means isMatch e) ↔ ¬ q.Misled isMatch e) ∧
    (∀ (q : Query R) (e : DataElement), (∀ query e', Reached isMatch q e query e' → ¬ Misread query e') →
      (q.verifyElement isMatch e = true ↔ q.Means isMatch e)) ∧
    (∀ (qs : List (Query R)) (e : DataElement),
      (Query.not (.and qs)).verifyElement isMatch e = (Query.or (qs.map .not)).verifyElement isMatch e ∧
      (Query.not (.or qs)).verifyElement isMatch e = (Query.and (qs.map .not)).verifyElement isMatch e) ∧
    (∀ (q : Query R) (v : DataValue), q.Plain → q.verifyValue isMatch v = q.verifyElement isMatch (.value v)) := by
  refine ⟨verifyElement_iff isMatch, fun q e h => ?_, fun qs e => ⟨?_, ?_⟩, verifyValue_eq isMatch⟩
  · rw [verifyElement_iff]
    intro hmisled
    obtain ⟨query, e', hreached, hmisread⟩ := misled_reached isMatch q e hmisled
    exact h query e' hreached hmisread
  · rw [Query.verifyElement, Query.verifyElement, Query.verifyElement]
    exact not_allElement isMatch qs e
  · rw [Query.verifyElement, Query.verifyElement, Query.verifyElement]
    exact not_anyElement isMatch qs e

def owned : DataElement := .fields [(.string "owner", .value (.u8 25))]

def hasOwner : Query Unit := .element (.hasKey (.string "owner") none)

/-- The owner is asked for by value first, so that the query without one is never reached. -/
def ownerIs : Query Unit := .or [.element (.atKey (.string "owner") (.value (.equal (.u8 25)))), hasOwner]

theorem query_evaluation_masked : ownerIs.verifyElement (fun _ _ => false) owned = true ↔ ownerIs.Means (fun _ _ => false) owned := by
  rw [(query_evaluation (fun _ _ => false)).1, ownerIs, Query.Misled]
  have hfirst : (Query.element (.atKey (.string "owner") (.value (.equal (.u8 25)))) : Query Unit).Means (fun _ _ => false) owned :=
    ⟨.value (.u8 25), rfl, rfl⟩
  rintro ⟨-, hnone | hexact⟩
  · exact hnone _ List.mem_cons_self hfirst
  · have hmisled := (hexact _ List.mem_cons_self).mpr hfirst
    simp [owned, Query.Misled, QueryElement.Misled] at hmisled

/-- A key that is there is not found, and 256 entries are taken for none. -/
theorem query_misread :
    ¬ (hasOwner.verifyElement (fun _ _ => false) owned = true ↔ hasOwner.Means (fun _ _ => false) owned) ∧
    ¬ ((Query.element (.len (.greater 200)) : Query Unit).verifyElement (fun _ _ => false)
          (.array (List.replicate 256 (.value (.u8 0)))) = true ↔
        (Query.element (.len (.greater 200)) : Query Unit).Means (fun _ _ => false) (.array (List.replicate 256 (.value (.u8 0))))) := by
  rw [verifyElement_iff, verifyElement_iff, not_not, not_not]
  constructor
  · simp [hasOwner, owned, Query.Misled, QueryElement.Misled, Misread, getField]
  · have hlen (array : List DataElement) : (QueryElement.len (.greater 200) : QueryElement Unit).Misled (fun _ _ => false) (.array array) ↔
        ¬ (array.length % 2 ^ 8 > 200 ↔ array.length > 200) := by
      simp [QueryElement.Misled, Misread, QueryNumber.Holds]
    rw [Query.Misled, hlen, List.length_replicate]
    decide

end Agreement

end Xelis.Api
