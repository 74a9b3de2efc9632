import Xelis.Common.Transaction
import Xelis.Wire.DataElement

namespace Xelis.Wire

open Lib (Codec)
open Lib.Codec (KeyOrder okOr)
open Lib.Reader (takeBytes)

/-- Scalars of the curve, with their canonical 32 bytes. -/
class CurveScalar (S : Type) where
  asBytes : S → IVec
  fromCanonicalBytes : IVec → Option S
  length_asBytes : ∀ s, (asBytes s).length = 32
  fromCanonicalBytes_iff : ∀ bytes s, fromCanonicalBytes bytes = some s ↔ asBytes s = bytes

/-- Range proofs, with the bytes they are made of. -/
class RangeProof (R : Type) where
  toBytes : R → IVec
  fromBytes : IVec → Option R
  fromBytes_iff : ∀ bytes r, fromBytes bytes = some r ↔ toBytes r = bytes

variable {S R : Type} [CurveScalar S] [RangeProof R]

def writeScalar (s : S) : IVec := CurveScalar.asBytes s

def readScalar : Reader S := do
  okOr .invalidValue (CurveScalar.fromCanonicalBytes (← takeBytes .invalidSize 32))

theorem scalar_codec : Codec (fun _ => readScalar (S := S)) writeScalar (fun _ => True) :=
  ((Codec.take ReaderError.invalidSize 32).decoded CurveScalar.fromCanonicalBytes_iff).congr fun s =>
    iff_of_true (CurveScalar.length_asBytes s) trivial

def RANGE_PROOF_MIN_SIZE : Nat := 4 * 32 + 5 * 32

/-- Twice the number of transfers, as a power of two. -/
def RANGE_PROOF_MAX_SIZE : Nat := RANGE_PROOF_MIN_SIZE + 512 * 32

def writeRangeProof (proof : R) : IVec := writeU16 (RangeProof.toBytes proof).length ++ RangeProof.toBytes proof

def readRangeProof : Reader R := do
  let len ← readU16
  if len % 32 ≠ 0 ∨ len < RANGE_PROOF_MIN_SIZE then throw .invalidSize else
  if (len - RANGE_PROOF_MIN_SIZE) % 32 ≠ 0 then throw .invalidSize else
  if len > RANGE_PROOF_MAX_SIZE then throw .invalidSize else
  okOr .invalidValue (RangeProof.fromBytes (← takeBytes .invalidSize len))

def RangeProofValid (proof : R) : Prop :=
  (RangeProof.toBytes proof).length % 32 = 0 ∧ RANGE_PROOF_MIN_SIZE ≤ (RangeProof.toBytes proof).length ∧
    (RangeProof.toBytes proof).length ≤ RANGE_PROOF_MAX_SIZE

theorem rangeProof_codec : Codec (fun _ => readRangeProof (R := R)) writeRangeProof RangeProofValid := by
  refine u16_codec.bind (p := fun proof : R => (RangeProof.toBytes proof).length)
    (fun proof h => Nat.lt_of_le_of_lt h.2.2 (by decide)) fun len _ => ?_
  refine Codec.guard (fun hlow => Codec.guard (fun hrest => Codec.guard (fun hhigh => ?_) ?_) ?_) ?_
  · refine ((Codec.take ReaderError.invalidSize len).decoded RangeProof.fromBytes_iff).congr fun proof => ?_
    constructor
    · rintro rfl
      refine ⟨rfl, ?_, ?_, ?_⟩ <;> omega
    · exact fun h => h.1
  · rintro hhigh proof ⟨rfl, -, -, hle⟩
    exact Nat.not_le_of_lt hhigh hle
  · rintro hrest proof ⟨rfl, hmod, hmin, -⟩
    refine hrest ?_
    unfold RANGE_PROOF_MIN_SIZE at hmin ⊢
    omega
  · rintro hlow proof ⟨rfl, hmod, hmin, -⟩
    omega

structure Signature (S : Type) where
  s : S
  e : S
  deriving DecidableEq

namespace Signature

def write (signature : Signature S) : IVec := [writeScalar signature.s, writeScalar signature.e].flatten

def read : Reader (Signature S) := do
  let s ← readScalar
  let e ← readScalar
  return { s, e }

theorem codec : Codec (fun _ => read (S := S)) write (fun _ => True) := by
  refine scalar_codec.bind (p := s) (fun _ _ => trivial) fun s _ => ?_
  refine scalar_codec.bind (p := e) (fun _ _ => trivial) fun e _ => ?_
  refine Codec.pure rfl fun signature => ?_
  cases signature
  simp [and_comm]

end Signature

structure CiphertextValidityProof (S : Type) where
  y0 : CompressedPoint
  y1 : CompressedPoint
  y2 : Option CompressedPoint
  zR : S
  zX : S
  deriving DecidableEq

namespace CiphertextValidityProof

def write (proof : CiphertextValidityProof S) : IVec :=
  [writeHash proof.y0, writeHash proof.y1, proof.y2.elim [] writeHash, writeScalar proof.zR, writeScalar proof.zX].flatten

/-- The third point came with the second version. -/
def readY2 (version : TxVersion) : Reader (Option CompressedPoint) :=
  if version = .v0 then pure none else do return some (← readHash)

def read (version : TxVersion) : Reader (CiphertextValidityProof S) := do
  let y0 ← readHash
  let y1 ← readHash
  let y2 ← readY2 version
  let zR ← readScalar
  let zX ← readScalar
  return { y0, y1, y2, zR, zX }

def Valid (version : TxVersion) (proof : CiphertextValidityProof S) : Prop := proof.y2 = none ↔ version = .v0

theorem y2_codec (version : TxVersion) :
    Codec (fun _ => readY2 version) (fun y2 => y2.elim [] writeHash) (fun y2 => y2 = none ↔ version = .v0) := by
  by_cases hversion : version = .v0
  · simp only [readY2, hversion]
    exact Codec.pure rfl fun y => by simp
  · simp only [readY2, hversion]
    refine hash_codec.map (c := some) (fun _ _ => rfl) fun y => ?_
    cases y <;> simp

theorem codec (version : TxVersion) : Codec (fun _ => read (S := S) version) write (Valid version) := by
  refine hash_codec.bind (p := y0) (fun _ _ => trivial) fun y0 _ => ?_
  refine hash_codec.bind (p := y1) (fun _ _ => trivial) fun y1 _ => ?_
  refine (y2_codec version).bind (p := y2) (fun _ h => h.2.2) fun y2 hy2 => ?_
  refine scalar_codec.bind (p := zR) (fun _ _ => trivial) fun zR _ => ?_
  refine scalar_codec.bind (p := zX) (fun _ _ => trivial) fun zX _ => ?_
  refine Codec.pure rfl fun proof => ?_
  constructor
  · rintro ⟨rfl, rfl, rfl, rfl, rfl, -⟩
    rfl
  · rintro rfl
    exact ⟨rfl, rfl, rfl, rfl, rfl, hy2⟩

end CiphertextValidityProof

/-- The objects that can be stored; a ciphertext as its compressed points. -/
inductive OpaqueWrapper (S R : Type) where
  | hash (hash : Hash)
  | address (address : Address)
  | signature (signature : Signature S)
  | ciphertext (commitment handle : CompressedPoint)
  | ciphertextValidityProof (proof : CiphertextValidityProof S)
  | rangeProof (proof : R)

namespace OpaqueWrapper

variable (version : TxVersion) (order : KeyOrder DataValue)

def write : OpaqueWrapper S R → IVec
  | hash h => writeU8 0 ++ writeHash h
  | address a => writeU8 1 ++ a.write
  | signature s => writeU8 2 ++ s.write
  | ciphertext commitment handle => writeU8 3 ++ [writeHash commitment, writeHash handle].flatten
  | ciphertextValidityProof proof => writeU8 4 ++ proof.write
  | rangeProof proof => writeU8 5 ++ writeRangeProof proof

def readCiphertext : Reader (CompressedPoint × CompressedPoint) := do
  let commitment ← readHash
  let handle ← readHash
  return (commitment, handle)

def readWith (readAddress : Reader Address) (readProof : Reader (CiphertextValidityProof S)) : Reader (OpaqueWrapper S R) := do
  match ← readU8 with
  | 0 => return hash (← readHash)
  | 1 => return address (← readAddress)
  | 2 => return signature (← Signature.read)
  | 3 => return (fun c => ciphertext c.1 c.2) (← readCiphertext)
  | 4 => return ciphertextValidityProof (← readProof)
  | 5 => return rangeProof (← readRangeProof)
  | _ => throw .invalidValue

def read (strict : Bool) : Reader (OpaqueWrapper S R) :=
  readWith (Address.read order strict) (CiphertextValidityProof.read version)

def Valid : OpaqueWrapper S R → Prop
  | hash _ => True
  | address a => a.Valid order
  | signature _ => True
  | ciphertext _ _ => True
  | ciphertextValidityProof proof => proof.Valid version
  | rangeProof proof => RangeProofValid proof

theorem ciphertext_codec :
    Codec (fun _ => readCiphertext) (fun c => [writeHash c.1, writeHash c.2].flatten) (fun _ => True) := by
  refine hash_codec.bind (p := Prod.fst) (fun _ _ => trivial) fun commitment _ => ?_
  refine hash_codec.bind (p := Prod.snd) (fun _ _ => trivial) fun handle _ => ?_
  refine Codec.pure rfl fun c => ?_
  cases c
  simp [and_comm]

theorem codec : Codec (read (S := S) (R := R) version order) write (Valid version order) := by
  refine Codec.tagged (fun o _ => by cases o <;> exact writeU8_append_ne_nil _ _) fun t => ?_
  match t with
  | 0 => exact hash_codec.map (c := hash) (fun _ _ => tail_writeU8 _ _) fun o => by cases o <;> simp [write, Valid]
  | 1 => exact (Address.codec order).map (c := address) (fun _ _ => tail_writeU8 _ _) fun o => by cases o <;> simp [write, Valid]
  | 2 => exact Signature.codec.map (c := signature) (fun _ _ => tail_writeU8 _ _) fun o => by cases o <;> simp [write, Valid]
  | 3 =>
    refine ciphertext_codec.map (c := fun c => ciphertext c.1 c.2) (fun _ _ => ?_) fun o => ?_
    · exact tail_writeU8 _ _
    · cases o <;> simp [write, Valid]
  | 4 =>
    refine (CiphertextValidityProof.codec version).map (c := ciphertextValidityProof) (fun _ _ => tail_writeU8 _ _) fun o => ?_
    cases o <;> simp [write, Valid]
  | 5 => exact rangeProof_codec.map (c := rangeProof) (fun _ _ => tail_writeU8 _ _) fun o => by cases o <;> simp [write, Valid]
  | t + 6 => exact Codec.throw fun o => by cases o <;> simp [write]

end OpaqueWrapper

inductive NumberType where
  | u8
  | u16
  | u32
  | u64
  | u128
  | u256
  deriving DecidableEq

inductive Primitive (S R : Type) where
  | null
  | u8 (value : Nat)
  | u16 (value : Nat)
  | u32 (value : Nat)
  | u64 (value : Nat)
  | u128 (value : Nat)
  | u256 (value : BitVec 256)
  | boolean (value : Bool)
  | string (value : String)
  | range (left right : Primitive S R)
  | opaqueWrapper (value : OpaqueWrapper S R)

namespace Primitive

variable (version : TxVersion) (order : KeyOrder DataValue)

def getType : Primitive S R → Option NumberType
  | u8 _ => some .u8
  | u16 _ => some .u16
  | u32 _ => some .u32
  | u64 _ => some .u64
  | u128 _ => some .u128
  | u256 _ => some .u256
  | _ => none

def isNumber (p : Primitive S R) : Bool := p.getType.isSome

def write : Primitive S R → IVec
  | null => writeU8 0
  | u8 value => writeU8 1 ++ writeU8 value
  | u16 value => writeU8 2 ++ writeU16 value
  | u32 value => writeU8 3 ++ writeU32 value
  | u64 value => writeU8 4 ++ writeU64 value
  | u128 value => writeU8 5 ++ writeU128 value
  | u256 value => writeU8 6 ++ writeHash value
  | boolean value => writeU8 7 ++ writeBool value
  | string value => writeU8 8 ++ (writeU16 (stringBytes value).length ++ stringBytes value)
  | range left right => writeU8 9 ++ (left.write ++ right.write)
  | opaqueWrapper value => writeU8 10 ++ value.write

/-- Both ends are numbers of one type. -/
def readRange (read : Reader (Primitive S R)) : Reader (Primitive S R × Primitive S R) := do
  let left ← read
  if !left.isNumber then throw .invalidValue else do
  let right ← read
  if !right.isNumber then throw .invalidValue else
  if left.getType ≠ right.getType then throw .invalidValue else return (left, right)

def readText : Reader String := do
  let len ← readU16
  readStringWithSize len

def readAt (readWrapper : Reader (OpaqueWrapper S R)) : Nat → Reader (Primitive S R)
  | 0 => throw .invalidSize
  | depth + 1 => do
    match ← readU8 with
    | 0 => return null
    | 1 => return u8 (← readU8)
    | 2 => return u16 (← readU16)
    | 3 => return u32 (← readU32)
    | 4 => return u64 (← readU64)
    | 5 => return u128 (← readU128)
    | 6 => return u256 (← readHash)
    | 7 => return boolean (← readBool)
    | 8 => return string (← readText)
    | 9 => return (fun r => range r.1 r.2) (← readRange (readAt readWrapper depth))
    | 10 => return opaqueWrapper (← readWrapper)
    | _ => throw .invalidValue

def read (strict : Bool) : Reader (Primitive S R) := fun bytes =>
  readAt (OpaqueWrapper.read version order strict) bytes.length bytes

/-- The limits of the format, and what is asked of an object. -/
def HoldsAt (O : OpaqueWrapper S R → Prop) : Nat → Primitive S R → Prop
  | 0, _ => False
  | _ + 1, null => True
  | _ + 1, u8 value => value < 2 ^ 8
  | _ + 1, u16 value => value < 2 ^ 16
  | _ + 1, u32 value => value < 2 ^ 32
  | _ + 1, u64 value => value < U64_RANGE
  | _ + 1, u128 value => value < 2 ^ 128
  | _ + 1, u256 _ => True
  | _ + 1, boolean _ => True
  | _ + 1, string value => (stringBytes value).length < 2 ^ 16
  | depth + 1, range left right =>
    left.isNumber = true ∧ left.getType = right.getType ∧ HoldsAt O depth left ∧ HoldsAt O depth right
  | _ + 1, opaqueWrapper value => O value

def Holds (O : OpaqueWrapper S R → Prop) (p : Primitive S R) : Prop := ∃ depth, p.HoldsAt O depth

def Valid : Primitive S R → Prop := Holds (OpaqueWrapper.Valid version order)

theorem text_codec : Codec (fun _ => readText) (fun s => writeU16 (stringBytes s).length ++ stringBytes s)
    (fun s => (stringBytes s).length < 2 ^ 16) := by
  refine u16_codec.bind (p := fun s => (stringBytes s).length) (fun _ hs => hs) fun size hsize => ?_
  exact (stringWithSize_codec size).congr fun s => ⟨fun hs => ⟨hs, hs ▸ hsize⟩, fun hs => hs.1⟩

theorem range_codec {read : Bool → Reader (Primitive S R)} {V : Primitive S R → Prop} (h : Codec read write V) :
    Codec (fun strict => readRange (read strict)) (fun r => r.1.write ++ r.2.write)
      (fun r => r.1.isNumber = true ∧ r.1.getType = r.2.getType ∧ V r.1 ∧ V r.2) := by
  refine h.bind (p := Prod.fst) (fun _ hr => hr.2.2.1) fun left hleft => ?_
  refine Codec.guard (fun hnumber => ?_) ?_
  · have hright : Codec (fun strict => read strict >>= fun right =>
        if !right.isNumber then throw .invalidValue else
        if left.getType ≠ right.getType then throw .invalidValue else pure (left, right)) (fun r => r.2.write ++ [])
        (fun r => r.1 = left ∧ r.1.isNumber = true ∧ r.1.getType = r.2.getType ∧ V r.1 ∧ V r.2) := by
      refine h.bind (p := Prod.snd) (fun _ hr => hr.2.2.2.2) fun right hright => ?_
      refine Codec.guard (fun hnumber' => Codec.guard (fun htype => Codec.pure rfl fun r => ?_) ?_) ?_
      · rw [Bool.not_eq_true', Bool.not_eq_false] at hnumber
        rw [ne_eq, not_not] at htype
        constructor
        · rintro ⟨rfl, rfl, -⟩
          rfl
        · rintro rfl
          exact ⟨rfl, rfl, hnumber, htype, hleft, hright⟩
      · rintro htype r ⟨rfl, rfl, -, heq, -⟩
        exact htype heq
      · rintro hnot r ⟨rfl, rfl, hnumber', heq, -⟩
        rw [isNumber, heq] at hnumber'
        rw [isNumber, hnumber'] at hnot
        cases hnot
    exact hright.congr_write fun r _ => List.append_nil _
  · rintro hnot r ⟨rfl, hnumber, -⟩
    rw [hnumber] at hnot
    cases hnot

theorem codecAt (depth : Nat) :
    Codec (fun strict => readAt (S := S) (R := R) (OpaqueWrapper.read version order strict) depth) write
      (HoldsAt (OpaqueWrapper.Valid version order) depth) := by
  induction depth with
  | zero => exact Codec.throw fun _ h => h
  | succ depth ih =>
    refine Codec.tagged (fun p _ => by cases p <;> exact List.cons_ne_nil _ _) fun t => ?_
    match t with
    | 0 => exact Codec.pure (x := null) rfl fun p => by cases p <;> simp [write, HoldsAt]
    | 1 => exact u8_codec.map (c := u8) (fun _ _ => tail_writeU8 _ _) fun p => by cases p <;> simp [write, HoldsAt]
    | 2 => exact u16_codec.map (c := u16) (fun _ _ => tail_writeU8 _ _) fun p => by cases p <;> simp [write, HoldsAt]
    | 3 => exact u32_codec.map (c := u32) (fun _ _ => tail_writeU8 _ _) fun p => by cases p <;> simp [write, HoldsAt]
    | 4 => exact u64_codec.map (c := u64) (fun _ _ => tail_writeU8 _ _) fun p => by cases p <;> simp [write, HoldsAt]
    | 5 => exact u128_codec.map (c := u128) (fun _ _ => tail_writeU8 _ _) fun p => by cases p <;> simp [write, HoldsAt]
    | 6 => exact hash_codec.map (c := u256) (fun _ _ => tail_writeU8 _ _) fun p => by cases p <;> simp [write, HoldsAt]
    | 7 => exact bool_codec.map (c := boolean) (fun _ _ => tail_writeU8 _ _) fun p => by cases p <;> simp [write, HoldsAt]
    | 8 => exact text_codec.map (c := string) (fun _ _ => tail_writeU8 _ _) fun p => by cases p <;> simp [write, HoldsAt]
    | 9 =>
      refine (range_codec ih).map (c := fun r => range r.1 r.2) (fun _ _ => ?_) fun p => ?_
      · exact tail_writeU8 _ _
      · cases p <;> simp [write, HoldsAt]
    | 10 =>
      refine (OpaqueWrapper.codec version order).map (c := opaqueWrapper) (fun _ _ => tail_writeU8 _ _) fun p => ?_
      cases p <;> simp [write, HoldsAt]
    | t + 11 => exact Codec.throw fun p => by cases p <;> simp [write]

theorem HoldsAt.deep_enough {O : OpaqueWrapper S R → Prop} (m n : Nat) (p : Primitive S R) (h : p.HoldsAt O m)
    (hlen : p.write.length ≤ n) : p.HoldsAt O n := by
  induction m generalizing n p with
  | zero => exact absurd h id
  | succ m ih =>
    have hpos : 0 < p.write.length := List.length_pos_of_ne_nil (by cases p <;> exact List.cons_ne_nil _ _)
    obtain ⟨n, rfl⟩ : ∃ k, n = k + 1 := ⟨n - 1, by omega⟩
    cases p with
    | range left right =>
      obtain ⟨hnumber, htype, hleft, hright⟩ := h
      simp only [write, List.length_append, writeU8, Lib.length_beBytes] at hlen
      exact ⟨hnumber, htype, ih n left hleft (by omega), ih n right hright (by omega)⟩
    | _ => exact h

theorem codec : Codec (read (S := S) (R := R) version order) write (Valid version order) :=
  Codec.unbounded (codecAt version order) HoldsAt.deep_enough

/-- An object is measured by writing it. -/
def size : Primitive S R → Nat
  | null => 1
  | u8 _ => 1 + 1
  | u16 _ => 1 + 2
  | u32 _ => 1 + 4
  | u64 _ => 1 + 8
  | u128 _ => 1 + 16
  | u256 _ => 1 + 32
  | boolean _ => 1 + 1
  | string value => 1 + (2 + (stringBytes value).length)
  | range left right => 1 + (left.size + right.size)
  | opaqueWrapper value => 1 + value.write.length

theorem size_eq (p : Primitive S R) : p.size = p.write.length := by
  induction p with
  | range left right ihl ihr => simp [size, write, ihl, ihr]
  | _ => simp [size, write]

end Primitive

end Xelis.Wire
