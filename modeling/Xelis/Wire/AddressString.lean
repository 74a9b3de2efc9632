import Xelis.Wire.Bech32
import Xelis.Wire.CellContext

namespace Xelis.Wire

open Lib (Codec Parses ofGroups Grouped)
open Lib.Codec (KeyOrder)
open Lib.Exec (except_bind_ok)

def PREFIX_ADDRESS : String := "xel"

def TESTNET_PREFIX_ADDRESS : String := "xet"

variable {bytes : IVec}

def fiveBits (bytes : IVec) : List UInt8 := ((convertBits bytes 8 5 true).toOption).getD []

theorem fiveBits_spec (bytes : IVec) : convertBits bytes 8 5 true = .ok (fiveBits bytes) ∧ Grouped 5 (fiveBits bytes) ∧
    ∃ p < 5, 8 * bytes.length + p = 5 * (fiveBits bytes).length ∧ ofGroups 5 (fiveBits bytes) = ofGroups 8 bytes * 2 ^ p := by
  obtain ⟨out, p, hout, hgrouped, hp, hlen, hvalue⟩ := convertBits_pad (by decide : 0 < 5) (by decide) (by decide : 8 ≤ 8)
    (Lib.grouped_bytes bytes)
  have hsame : fiveBits bytes = out := by
    unfold fiveBits
    rw [hout]
    rfl
  rw [hsame]
  exact ⟨hout, hgrouped, p, hp, hlen, hvalue⟩

theorem convertBits_fiveBits (bytes : IVec) : convertBits (fiveBits bytes) 5 8 false = .ok bytes := by
  obtain ⟨-, hgrouped, p, hp, hlen, hvalue⟩ := fiveBits_spec bytes
  exact (convertBits_ok_iff (by decide) (by decide) (by decide) hgrouped).mpr ⟨Lib.grouped_bytes bytes, p, hp, hlen.symm, hvalue⟩

theorem eq_fiveBits {data : List UInt8} (hdata : Grouped 5 data) (h : convertBits data 5 8 false = .ok bytes) :
    data = fiveBits bytes := by
  obtain ⟨-, b, hb, hlen, hvalue⟩ := (convertBits_ok_iff (by decide) (by decide) (by decide) hdata).mp h
  obtain ⟨-, hgrouped, p, hp, hlen', hvalue'⟩ := fiveBits_spec bytes
  obtain rfl : b = p := by omega
  exact Lib.ofGroups_injective hdata hgrouped (by omega) (hvalue.trans hvalue'.symm)

inductive AddressError where
  | bech32 (error : Bech32Error)
  | reader (error : ReaderError)
  deriving DecidableEq

variable {address : Address} {hrp s : String}

namespace Address

section Definitions

variable (case : CaseMapping) (order : KeyOrder DataValue)

/-- The key and the data, without the network. -/
def compress (address : Address) : IVec := writeHash address.key ++ address.addrType.write

def readCompressed (mainnet : Bool) : Reader Address := do
  let key ← readHash
  let addrType ← AddressType.read order false
  return { mainnet, key, addrType }

/-- Bytes that are left over are not looked at. -/
def decompress (bytes : IVec) (hrp : String) : Except ReaderError Address :=
  match readCompressed order (decide (hrp = PREFIX_ADDRESS)) bytes with
  | .ok (address, _) => .ok address
  | .error e => .error e

def hrpOf (address : Address) : String := if address.mainnet then PREFIX_ADDRESS else TESTNET_PREFIX_ADDRESS

def asString (address : Address) : Except Bech32Error String := do
  let bits ← convertBits address.compress 8 5 true
  encode case address.hrpOf bits

def orBech32 {α : Type} (x : Except Bech32Error α) : Except AddressError α := x.mapError .bech32

/-- What the text decodes to, and the bytes that its characters stand for. -/
def decodeText (s : String) : Except AddressError (String × IVec) := do
  let (hrp, decoded) ← orBech32 (decode case s)
  if hrp ≠ PREFIX_ADDRESS ∧ hrp ≠ TESTNET_PREFIX_ADDRESS then throw (.bech32 (.invalidPrefix hrp "xel or xet"))
  let bits ← orBech32 (convertBits decoded 5 8 false)
  return (hrp, bits)

def fromString (s : String) : Except AddressError Address := do
  let (hrp, bits) ← decodeText case s
  let address ← (decompress order bits hrp).mapError .reader
  if (address.mainnet = true ∧ hrp ≠ PREFIX_ADDRESS) ∨ (address.mainnet = false ∧ hrp ≠ TESTNET_PREFIX_ADDRESS) then
    throw (.bech32 (.invalidPrefix hrp address.hrpOf))
  return address

def textOf (hrp : String) (bytes : IVec) : String := bech32Text hrp (fiveBits bytes)

/-- The integrated data is an element of the source. -/
def Typed (address : Address) : Prop :=
  match address.addrType with
  | .normal => True
  | .data element => element.Typed

/-- The integrated data is within the size limit. -/
def Sized (address : Address) : Prop :=
  match address.addrType with
  | .normal => True
  | .data element => element.size ≤ EXTRA_DATA_LIMIT_SIZE

/-- No count of the integrated data is cut: texts have at most 255 bytes, arrays and maps at most 255 entries. -/
def Counted (address : Address) : Prop :=
  match address.addrType with
  | .normal => True
  | .data element => element.Within DEFAULT_MAX_ITEMS

/-- The bytes of the text are the writing of an address: nothing follows, every key of a map stands once, in order. -/
def Canonical (s : String) : Prop :=
  ∃ (hrp : String) (address : Address), decodeText case s = .ok (hrp, address.compress) ∧ address.Valid order

end Definitions

theorem mainnet_plain : PlainHrp PREFIX_ADDRESS where
  checked := by decide +kernel
  nonempty := by decide
  ascii := by decide
  small := small_of_all (by decide)

theorem testnet_plain : PlainHrp TESTNET_PREFIX_ADDRESS where
  checked := by decide +kernel
  nonempty := by decide
  ascii := by decide
  small := small_of_all (by decide)

theorem plain_hrpOf (address : Address) : PlainHrp address.hrpOf := by
  unfold hrpOf
  split
  · exact mainnet_plain
  · exact testnet_plain

theorem known_hrpOf (address : Address) : ¬ (address.hrpOf ≠ PREFIX_ADDRESS ∧ address.hrpOf ≠ TESTNET_PREFIX_ADDRESS) := by
  unfold hrpOf
  split
  · exact fun h => h.1 rfl
  · exact fun h => h.2 rfl

theorem mainnet_hrpOf (address : Address) : decide (address.hrpOf = PREFIX_ADDRESS) = address.mainnet := by
  unfold hrpOf
  cases address.mainnet
  · decide
  · decide

section Reading

variable (order : KeyOrder DataValue)

theorem readCompressed_parses (mainnet : Bool) :
    Parses (readCompressed order mainnet) compress (merged order) (fun a => a.mainnet = mainnet ∧ a.Raw) := by
  refine hash_codec.parses.bind (p := key) (fun _ _ => trivial) fun key _ => ?_
  refine (AddressType.parses order).map (fun _ => rfl) (fun _ => rfl) fun a => ⟨?_, ?_⟩
  · rintro ⟨rfl, rfl, hraw⟩
    exact ⟨a.addrType, hraw, rfl⟩
  · rintro ⟨addrType, hraw, rfl⟩
    exact ⟨rfl, rfl, hraw⟩

theorem Raw.valid (h : address.Raw) : (address.merged order).Valid order :=
  ((codec order).sound ((parses order).reads address h [])).1

theorem decompress_compress (h : address.Raw) (rest : IVec) :
    decompress order (address.compress ++ rest) address.hrpOf = .ok (address.merged order) := by
  have hread := (readCompressed_parses order address.mainnet).reads address ⟨rfl, h⟩ rest
  unfold decompress
  rw [mainnet_hrpOf, hread]

theorem decompress_ok (h : decompress order bytes hrp = .ok address) :
    address.mainnet = decide (hrp = PREFIX_ADDRESS) ∧ address.Valid order := by
  unfold decompress at h
  split at h
  · rename_i found rest hread
    cases h
    obtain ⟨w, ⟨hmainnet, hraw⟩, rfl, -⟩ := (readCompressed_parses order _).parsed hread
    exact ⟨hmainnet, hraw.valid order⟩
  · cases h

theorem raw_of_counted (h : address.Counted) (hsized : address.Sized) : address.Raw := by
  unfold Raw
  unfold Counted at h
  unfold Sized at hsized
  cases haddr : address.addrType with
  | normal => trivial
  | data element =>
    rw [haddr] at h hsized
    exact ⟨DataElement.Within.raw h, DataElement.size_eq element ▸ hsized⟩

theorem counted_of_valid (htyped : address.Typed) (h : (address.merged order).Valid order) : address.Counted := by
  obtain ⟨mainnet, key, addrType⟩ := address
  cases addrType with
  | normal => trivial
  | data element =>
    exact DataElement.Within.of_merged order htyped (DataElement.Valid.within order h.1)

end Reading

section Text

variable (case : CaseMapping) (order : KeyOrder DataValue)

theorem asString_eq (address : Address) : asString case address = .ok (textOf address.hrpOf address.compress) := by
  obtain ⟨hconvert, hgrouped, -⟩ := fiveBits_spec address.compress
  unfold asString
  rw [hconvert, ok_bind, encode_eq case (plain_hrpOf address) hgrouped]
  rfl

theorem decodeText_textOf (address : Address) (bytes : IVec) :
    decodeText case (textOf address.hrpOf bytes) = .ok (address.hrpOf, bytes) := by
  unfold decodeText textOf
  rw [decode_bech32Text case (plain_hrpOf address) (fiveBits_spec bytes).2.1]
  show (if address.hrpOf ≠ PREFIX_ADDRESS ∧ address.hrpOf ≠ TESTNET_PREFIX_ADDRESS then _ else _) = _
  rw [if_neg (known_hrpOf address)]
  show (orBech32 (convertBits (fiveBits bytes) 5 8 false) >>= _) = _
  rw [convertBits_fiveBits]
  rfl

theorem orBech32_ok {α : Type} {x : Except Bech32Error α} {a : α} (h : orBech32 x = .ok a) : x = .ok a := by
  cases x with
  | error e => cases h
  | ok b =>
    cases h
    rfl

theorem decodeText_ok (h : decodeText case s = .ok (hrp, bytes)) :
    (hrp = PREFIX_ADDRESS ∨ hrp = TESTNET_PREFIX_ADDRESS) ∧ s = textOf hrp bytes := by
  obtain ⟨⟨prefixed, decoded⟩, hdecode, h⟩ := except_bind_ok h
  have hdecode := orBech32_ok hdecode
  dsimp only at h
  by_cases hknown : prefixed ≠ PREFIX_ADDRESS ∧ prefixed ≠ TESTNET_PREFIX_ADDRESS
  · rw [if_pos hknown] at h
    cases h
  · rw [if_neg hknown] at h
    obtain ⟨bits, hbits, h⟩ := except_bind_ok h
    cases h
    have hone : hrp = PREFIX_ADDRESS ∨ hrp = TESTNET_PREFIX_ADDRESS := by
      by_cases hmain : hrp = PREFIX_ADDRESS
      · exact Or.inl hmain
      · exact Or.inr (not_not.mp fun htest => hknown ⟨hmain, htest⟩)
    have hascii : utf8Len hrp.toList = hrp.toList.length := by
      rcases hone with rfl | rfl
      · exact mainnet_plain.ascii
      · exact testnet_plain.ascii
    obtain ⟨rfl, hgrouped⟩ := decode_ok case hascii hdecode
    rw [eq_fiveBits hgrouped (orBech32_ok hbits)]
    exact ⟨hone, rfl⟩

theorem fromString_textOf (address : Address) (bytes : IVec) :
    fromString case order (textOf address.hrpOf bytes) = (decompress order bytes address.hrpOf).mapError .reader := by
  unfold fromString
  rw [decodeText_textOf, ok_bind]
  dsimp only
  cases hread : decompress order bytes address.hrpOf with
  | error e => rfl
  | ok found =>
    obtain ⟨hmainnet, -⟩ := decompress_ok order hread
    rw [mainnet_hrpOf] at hmainnet
    have hsame : found.hrpOf = address.hrpOf := by rw [hrpOf, hrpOf, hmainnet]
    have hpass : ¬ ((found.mainnet = true ∧ address.hrpOf ≠ PREFIX_ADDRESS) ∨
        (found.mainnet = false ∧ address.hrpOf ≠ TESTNET_PREFIX_ADDRESS)) := by
      rw [← hsame]
      unfold hrpOf
      cases found.mainnet
      · decide
      · decide
    show (if _ then _ else _) = _
    rw [if_neg hpass]
    rfl

theorem fromString_ok (h : fromString case order s = .ok address) :
    ∃ bytes, decodeText case s = .ok (address.hrpOf, bytes) ∧ decompress order bytes address.hrpOf = .ok address := by
  obtain ⟨⟨hrp, bytes⟩, htext, h⟩ := except_bind_ok h
  obtain ⟨found, hfound, h⟩ := except_bind_ok h
  obtain ⟨hone, -⟩ := decodeText_ok case htext
  have hread : decompress order bytes hrp = .ok found := by
    cases hread : decompress order bytes hrp with
    | error e =>
      rw [hread] at hfound
      cases hfound
    | ok other =>
      rw [hread] at hfound
      cases hfound
      rfl
  split at h
  · cases h
  · cases h
    obtain ⟨hmainnet, -⟩ := decompress_ok order hread
    have hsame : address.hrpOf = hrp := by
      unfold hrpOf
      rw [hmainnet]
      rcases hone with rfl | rfl
      · decide
      · decide
    rw [hsame]
    exact ⟨bytes, htext, hread⟩

/-- The address is the one its text denotes. -/
def RoundTrips (address : Address) : Prop :=
  ∃ s, asString case address = .ok s ∧ fromString case order s = .ok (address.merged order)

theorem roundTrips_iff (htyped : address.Typed) (hsized : address.Sized) :
    RoundTrips case order address ↔ address.Counted := by
  constructor
  · rintro ⟨s, hs, hfrom⟩
    rw [asString_eq] at hs
    cases hs
    obtain ⟨bytes, -, hread⟩ := fromString_ok case order hfrom
    exact counted_of_valid order htyped (decompress_ok order hread).2
  · intro hcounted
    refine ⟨_, asString_eq case address, ?_⟩
    have hread := decompress_compress order (raw_of_counted hcounted hsized) []
    rw [List.append_nil] at hread
    rw [fromString_textOf, hread]
    rfl

theorem asString_back_iff (h : fromString case order s = .ok address) :
    asString case address = .ok s ↔ Canonical case order s := by
  obtain ⟨bytes, htext, hread⟩ := fromString_ok case order h
  obtain ⟨-, hs⟩ := decodeText_ok case htext
  constructor
  · intro hback
    have hown := decodeText_textOf case address address.compress
    rw [asString_eq] at hback
    rw [Except.ok.inj hback] at hown
    exact ⟨_, address, hown, (decompress_ok order hread).2⟩
  · rintro ⟨hrp, other, hother, hvalid⟩
    rw [hother] at htext
    obtain ⟨rfl, rfl⟩ := Prod.mk.inj (Except.ok.inj htext)
    have hsame : ({ other with mainnet := address.mainnet } : Address).hrpOf = address.hrpOf := rfl
    have hraw : ({ other with mainnet := address.mainnet } : Address).Raw := Valid.raw order hvalid
    have hown := decompress_compress order hraw []
    rw [List.append_nil, hsame] at hown
    have haddr := Except.ok.inj (hread.symm.trans hown)
    have hmerged : ({ other with mainnet := address.mainnet } : Address).merged order = { other with mainnet := address.mainnet } :=
      Valid.merged_eq order hvalid
    rw [hmerged] at haddr
    rw [asString_eq, hs]
    have hcompress : address.compress = ({ other with mainnet := address.mainnet } : Address).compress := congrArg compress haddr
    rw [hcompress]
    rfl

/-- An address comes back from its text if and only if no count of its data is cut. A text is the text of its address if
and only if its bytes are the writing of an address, and two such texts of one address are the same. -/
theorem address_texts_canonical :
    (∀ address : Address, address.Typed → address.Sized → (RoundTrips case order address ↔ address.Counted)) ∧
      (∀ s address, fromString case order s = .ok address → (asString case address = .ok s ↔ Canonical case order s)) ∧
      ∀ s s' address, fromString case order s = .ok address → fromString case order s' = .ok address →
        Canonical case order s → Canonical case order s' → s = s' := by
  refine ⟨fun address htyped hsized => roundTrips_iff case order htyped hsized,
    fun s address h => asString_back_iff case order h, fun s s' address h h' hcanonical hcanonical' => ?_⟩
  have hs := (asString_back_iff case order h).mpr hcanonical
  have hs' := (asString_back_iff case order h').mpr hcanonical'
  exact Except.ok.inj (hs.symm.trans hs')

end Text

def asciiCase : CaseMapping where
  toUppercase := String.toUpper
  toLowercase := String.toLower
  uppercase_ascii _ _ := rfl
  lowercase_ascii _ _ := rfl

def plainAddress : Address := { mainnet := true, key := 0, addrType := .normal }

theorem plainAddress_raw : plainAddress.Raw := trivial

/-- A text with one byte more denotes the same address. -/
theorem longer_text_accepted : ¬ ∀ (case : CaseMapping) (order : KeyOrder DataValue) (s : String) (address : Address),
    fromString case order s = .ok address → asString case address = .ok s := by
  intro h
  have hread := fromString_textOf asciiCase anyOrder plainAddress (plainAddress.compress ++ [0])
  rw [decompress_compress anyOrder plainAddress_raw] at hread
  have hback := h asciiCase anyOrder _ _ hread
  rw [asString_eq] at hback
  have hbytes := decodeText_textOf asciiCase plainAddress (plainAddress.compress ++ [0])
  have hown := decodeText_textOf asciiCase plainAddress plainAddress.compress
  rw [← Except.ok.inj hback] at hbytes
  have hsame := (Prod.mk.inj (Except.ok.inj (hown.symm.trans hbytes))).2
  have hlen := congrArg List.length hsame
  rw [List.length_append, List.length_singleton] at hlen
  omega

/-- A payment id and a note go with the address. -/
def paymentAddress : Address :=
  { plainAddress with addrType := .data (.fields [(.string "id", .value (.u64 7)), (.string "note", .array [.value (.blob [1, 2])])]) }

theorem paymentAddress_round_trip : RoundTrips asciiCase anyOrder paymentAddress := by
  have htyped : paymentAddress.Typed := ⟨3, by decide, by simp [DataElement.HoldsAt, DataValue.Typed, U64_RANGE]⟩
  have hcounted : paymentAddress.Counted :=
    ⟨3, ⟨by decide, by decide⟩, by simp [DataElement.HoldsAt, DataValue.Typed, DataValue.Within, U64_RANGE, DEFAULT_MAX_ITEMS]; decide⟩
  have hsized : paymentAddress.Sized := show DataElement.size _ ≤ _ by decide +kernel
  exact ((address_texts_canonical asciiCase anyOrder).1 paymentAddress htyped hsized).mpr hcounted

end Address

end Xelis.Wire
