import Xelis.Common.Error
import Xelis.Lib.Codec

namespace Xelis

open Lib (Codec)
open Lib.Reader (Reads Faithful bind_ok_iff readBe takeBytes readMany)

abbrev Reader := Lib.Reader ReaderError

/-- The greatest `u64`, plus one. -/
abbrev U64_RANGE : Nat := 2 ^ 64

/-- A wider number keeps its lowest byte, as the cast to `u8` does. -/
def writeU8 (n : Nat) : IVec := Lib.beBytes 1 n

def writeU16 (n : Nat) : IVec := Lib.beBytes 2 n

def writeU32 (n : Nat) : IVec := Lib.beBytes 4 n

def writeU64 (n : Nat) : IVec := Lib.beBytes 8 n

def writeU128 (n : Nat) : IVec := Lib.beBytes 16 n

def writeHash (hash : Hash) : IVec := Lib.beBytes 32 hash.toNat

def readU8 : Reader Nat := readBe .invalidSize 1

def readU16 : Reader Nat := readBe .invalidSize 2

def readU32 : Reader Nat := readBe .invalidSize 4

def readU64 : Reader Nat := readBe .invalidSize 8

def readU128 : Reader Nat := readBe .invalidSize 16

def readHash : Reader Hash := do
  let n ← readBe .invalidSize 32
  return BitVec.ofNat 256 n

variable {n : Nat}

theorem readU8_reads (h : n < 2 ^ 8) : Reads readU8 (writeU8 n) n := Lib.Reader.readBe_reads _ (by norm_num at h ⊢; exact h)

theorem readU16_reads (h : n < 2 ^ 16) : Reads readU16 (writeU16 n) n :=
  Lib.Reader.readBe_reads _ (by norm_num at h ⊢; exact h)

theorem readU64_reads (h : n < U64_RANGE) : Reads readU64 (writeU64 n) n :=
  Lib.Reader.readBe_reads _ (by norm_num at h ⊢; exact h)

theorem readHash_reads (hash : Hash) : Reads readHash (writeHash hash) hash := by
  have hlt : hash.toNat < 256 ^ 32 := lt_of_lt_of_eq hash.isLt (by norm_num)
  have hread := (Lib.Reader.readBe_reads ReaderError.invalidSize hlt).bind
    (f := fun n => Pure.pure (BitVec.ofNat 256 n)) (Lib.Reader.Reads.pure _)
  rwa [List.append_nil, BitVec.ofNat_toNat, BitVec.setWidth_eq] at hread

theorem writeHash_injective {a b : Hash} (h : writeHash a = writeHash b) : a = b := by
  have hread := readHash_reads a []
  rw [h, readHash_reads b []] at hread
  exact (congrArg Prod.fst (Except.ok.inj hread)).symm

theorem readU64_ok {bytes rest : IVec} (h : readU64 bytes = .ok (n, rest)) :
    bytes = writeU64 n ++ rest ∧ n < U64_RANGE := by
  obtain ⟨hbytes, hlt⟩ := Lib.Reader.readBe_ok h
  exact ⟨hbytes, lt_of_lt_of_eq hlt (by norm_num)⟩

theorem readHash_faithful : Faithful readHash writeHash := by
  intro bytes hash rest h
  obtain ⟨n, mid, hn, h⟩ := bind_ok_iff.mp h
  obtain ⟨hbytes, hlt⟩ := Lib.Reader.readBe_ok hn
  obtain ⟨hhash, hrest⟩ := Prod.mk.inj (Except.ok.inj h)
  have hmod : n % 2 ^ 256 = n := Nat.mod_eq_of_lt (lt_of_lt_of_eq hlt (by norm_num))
  rw [hbytes, writeHash, ← hhash, BitVec.toNat_ofNat, hmod, hrest]

/-- A number of items that the readers of sets and lists accept. -/
def DEFAULT_MAX_ITEMS : Nat := 1024

def readBool : Reader Bool := do
  match ← readU8 with
  | 0 => return false
  | 1 => return true
  | _ => throw .invalidValue

def readOption {α : Type} (read : Reader α) : Reader (Option α) := do
  if ← readBool then return some (← read) else return none

def writeBool (b : Bool) : IVec := writeU8 (if b then 1 else 0)

def writeOption {α : Type} (write : α → IVec) (o : Option α) : IVec := writeBool o.isSome ++ o.elim [] write

def readIndexSet {α : Type} [DecidableEq α] (read : Reader α) : Reader (List α) := do
  let count ← readU16
  if count > DEFAULT_MAX_ITEMS then throw .invalidSize
  Lib.Reader.readDistinct .invalidSize id read count []

def readVec {α : Type} (read : Reader α) : Reader (List α) := do
  let count ← readU16
  if count > DEFAULT_MAX_ITEMS then throw .invalidSize else readMany read count

def writeVec {α : Type} (write : α → IVec) (values : List α) : IVec := writeU16 values.length ++ values.flatMap write

def readByte : Reader UInt8 := do return UInt8.ofNat (← readU8)

def writeByte (b : UInt8) : IVec := [b]

def stringBytes (s : String) : IVec := s.toUTF8.data.toList

/-- Bytes that are not UTF-8 are refused. -/
def readStringWithSize (size : Nat) : Reader String := do
  Codec.okOr .invalidValue (String.fromUTF8? ⟨(← takeBytes .invalidSize size).toArray⟩)

section Codecs

variable {α : Type} {read : Bool → Reader α} {write : α → IVec} {V : α → Prop}

@[simp] theorem length_writeU8 (n : Nat) : (writeU8 n).length = 1 := Lib.length_beBytes 1 n

@[simp] theorem length_writeU16 (n : Nat) : (writeU16 n).length = 2 := Lib.length_beBytes 2 n

@[simp] theorem length_writeU32 (n : Nat) : (writeU32 n).length = 4 := Lib.length_beBytes 4 n

@[simp] theorem length_writeU64 (n : Nat) : (writeU64 n).length = 8 := Lib.length_beBytes 8 n

@[simp] theorem length_writeU128 (n : Nat) : (writeU128 n).length = 16 := Lib.length_beBytes 16 n

@[simp] theorem length_writeHash (hash : Hash) : (writeHash hash).length = 32 := Lib.length_beBytes 32 hash.toNat

@[simp] theorem length_writeBool (b : Bool) : (writeBool b).length = 1 := length_writeU8 _

@[simp] theorem tag_writeU8 (n : Nat) (bytes : IVec) : Codec.tag (writeU8 n ++ bytes) = some (n % 256) := by
  show some (UInt8.ofNat n).toNat = _
  rw [UInt8.toNat_ofNat']

@[simp] theorem tag_writeU8_alone (n : Nat) : Codec.tag (writeU8 n) = some (n % 256) := tag_writeU8 n []

@[simp] theorem tail_writeU8 (n : Nat) (bytes : IVec) : (writeU8 n ++ bytes).tail = bytes := rfl

theorem writeU8_append_ne_nil (n : Nat) (bytes : IVec) : writeU8 n ++ bytes ≠ [] := List.cons_ne_nil _ _

theorem u8_codec : Codec (fun _ => readU8) writeU8 (fun n => n < 2 ^ 8) := Codec.be _ 1

theorem u16_codec : Codec (fun _ => readU16) writeU16 (fun n => n < 2 ^ 16) :=
  (Codec.be _ 2).congr fun n => by rw [show 256 ^ 2 = 2 ^ 16 by norm_num]

theorem u32_codec : Codec (fun _ => readU32) writeU32 (fun n => n < 2 ^ 32) :=
  (Codec.be _ 4).congr fun n => by rw [show 256 ^ 4 = 2 ^ 32 by norm_num]

theorem u64_codec : Codec (fun _ => readU64) writeU64 (fun n => n < U64_RANGE) :=
  (Codec.be _ 8).congr fun n => by rw [show 256 ^ 8 = 2 ^ 64 by norm_num]

theorem u128_codec : Codec (fun _ => readU128) writeU128 (fun n => n < 2 ^ 128) :=
  (Codec.be _ 16).congr fun n => by rw [show 256 ^ 16 = 2 ^ 128 by norm_num]

theorem hash_codec : Codec (fun _ => readHash) writeHash (fun _ => True) where
  reads _ hash _ := readHash_reads hash
  sound hread := by
    rw [readHash_faithful _ _ _ hread, List.length_append]
    exact ⟨trivial, Nat.le_refl _⟩
  faithful hread := readHash_faithful _ _ _ hread

theorem bool_codec : Codec (fun _ => readBool) writeBool (fun _ => True) := by
  refine Codec.tagged (fun b _ => by cases b <;> exact List.cons_ne_nil _ _) fun t => ?_
  match t with
  | 0 => exact Codec.pure rfl (by decide)
  | 1 => exact Codec.pure rfl (by decide)
  | t + 2 =>
    refine Codec.throw ?_
    rintro (_ | _) ⟨htag, -⟩
    · cases htag
    · cases htag

theorem option_codec (h : Codec read write V) :
    Codec (fun strict => readOption (read strict)) (writeOption write) (fun o => ∀ x ∈ o, V x) := by
  refine bool_codec.bind (p := Option.isSome) (fun _ _ => trivial) fun b _ => ?_
  cases b with
  | true =>
    refine h.map (c := some) (fun _ _ => rfl) fun o => ?_
    cases o with
    | none => simp
    | some x => simp
  | false =>
    refine Codec.pure (x := none) rfl fun o => ?_
    cases o with
    | none => simp
    | some x => simp

theorem vec_codec (h : Codec read write V) :
    Codec (fun strict => readVec (read strict)) (writeVec write) (fun xs => xs.length ≤ DEFAULT_MAX_ITEMS ∧ ∀ x ∈ xs, V x) := by
  refine u16_codec.bind (p := List.length) (fun xs hxs => Nat.lt_of_le_of_lt hxs.1 (by decide)) fun n _ => ?_
  refine Codec.guard (fun hle => ?_) fun hgt xs hxs => ?_
  · refine (h.many n).congr fun xs => ⟨fun hxs => ⟨hxs.1, ?_, hxs.2⟩, fun hxs => ⟨hxs.1, hxs.2.2⟩⟩
    rw [hxs.1]
    exact Nat.le_of_not_lt hle
  · obtain ⟨rfl, hle, -⟩ := hxs
    exact absurd hle (Nat.not_le_of_lt hgt)

theorem flatMap_writeByte (bytes : IVec) : bytes.flatMap writeByte = bytes := List.flatMap_singleton' bytes

theorem byte_codec : Codec (fun _ => readByte) writeByte (fun _ => True) := by
  refine u8_codec.map (c := UInt8.ofNat) (fun n _ => rfl) fun b => iff_of_true trivial ⟨b.toNat, b.toNat_lt, ?_⟩
  rw [UInt8.ofNat_toNat]

theorem stringWithSize_codec (size : Nat) :
    Codec (fun _ => readStringWithSize size) stringBytes (fun s => (stringBytes s).length = size) := by
  refine (Codec.take ReaderError.invalidSize size).decoded (d := fun bytes => String.fromUTF8? ⟨bytes.toArray⟩) fun bytes s => ?_
  unfold String.fromUTF8? stringBytes
  constructor
  · intro h
    split at h
    · cases h
      rfl
    · cases h
  · rintro rfl
    rw [Array.toArray_toList]
    exact dif_pos s.isValidUTF8

end Codecs

end Xelis
