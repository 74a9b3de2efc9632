import Xelis.Common.Serializer

namespace Xelis.Wire

open Lib (Codec)
open Lib.Codec (readEntries writeEntry KeyOrder)
open Lib.Reader (readMany)

def EXTRA_DATA_LIMIT_SIZE : Nat := 1024

inductive DataValue where
  | bool (value : Bool)
  | string (value : String)
  | u8 (value : Nat)
  | u16 (value : Nat)
  | u32 (value : Nat)
  | u64 (value : Nat)
  | u128 (value : Nat)
  | hash (value : Hash)
  | blob (value : IVec)
  deriving DecidableEq

/-- The length is cut to a byte, and the text to 255 bytes. -/
def writeString (s : String) : IVec := writeU8 (stringBytes s).length ++ (stringBytes s).take 255

def readString : Reader String := do
  let size ← readU8
  readStringWithSize size

def sizeString (s : String) : Nat := 1 + min (stringBytes s).length 255

theorem length_writeString (s : String) : (writeString s).length = sizeString s := by
  unfold writeString sizeString
  rw [List.length_append, length_writeU8, List.length_take, Nat.min_comm]

theorem string_codec : Codec (fun _ => readString) writeString (fun s => (stringBytes s).length < 2 ^ 8) := by
  have hcodec : Codec (fun _ => readString) (fun s => writeU8 (stringBytes s).length ++ stringBytes s)
      (fun s => (stringBytes s).length < 2 ^ 8) := by
    refine u8_codec.bind (p := fun s => (stringBytes s).length) (fun _ hs => hs) fun size hsize => ?_
    refine (stringWithSize_codec size).congr fun s => ⟨fun hs => ⟨hs, hs ▸ hsize⟩, fun hs => hs.1⟩
  refine hcodec.congr_write fun s hs => ?_
  rw [writeString, List.take_of_length_le (Nat.le_of_lt_succ hs)]

namespace DataValue

/-- The byte of the type, then the value. -/
def write : DataValue → IVec
  | bool value => writeU8 0 ++ writeBool value
  | string value => writeU8 1 ++ writeString value
  | u8 value => writeU8 2 ++ writeU8 value
  | u16 value => writeU8 3 ++ writeU16 value
  | u32 value => writeU8 4 ++ writeU32 value
  | u64 value => writeU8 5 ++ writeU64 value
  | u128 value => writeU8 6 ++ writeU128 value
  | hash value => writeU8 7 ++ writeHash value
  | blob value => writeU8 8 ++ writeVec writeByte value

def read : Reader DataValue := do
  match ← readU8 with
  | 0 => return bool (← readBool)
  | 1 => return string (← readString)
  | 2 => return u8 (← readU8)
  | 3 => return u16 (← readU16)
  | 4 => return u32 (← readU32)
  | 5 => return u64 (← readU64)
  | 6 => return u128 (← readU128)
  | 7 => return hash (← readHash)
  | 8 => return blob (← readVec readByte)
  | _ => throw .invalidValue

/-- What the types of the source and the limits of their readers admit. -/
def Valid : DataValue → Prop
  | bool _ => True
  | string value => (stringBytes value).length < 2 ^ 8
  | u8 value => value < 2 ^ 8
  | u16 value => value < 2 ^ 16
  | u32 value => value < 2 ^ 32
  | u64 value => value < U64_RANGE
  | u128 value => value < 2 ^ 128
  | hash _ => True
  | blob value => value.length ≤ DEFAULT_MAX_ITEMS

theorem codec : Codec (fun _ => read) write Valid := by
  refine Codec.tagged (fun v _ => by cases v <;> exact writeU8_append_ne_nil _ _) fun t => ?_
  match t with
  | 0 => exact bool_codec.map (c := bool) (fun _ _ => tail_writeU8 _ _) fun v => by cases v <;> simp [write, Valid]
  | 1 => exact string_codec.map (c := string) (fun _ _ => tail_writeU8 _ _) fun v => by cases v <;> simp [write, Valid]
  | 2 => exact u8_codec.map (c := u8) (fun _ _ => tail_writeU8 _ _) fun v => by cases v <;> simp [write, Valid]
  | 3 => exact u16_codec.map (c := u16) (fun _ _ => tail_writeU8 _ _) fun v => by cases v <;> simp [write, Valid]
  | 4 => exact u32_codec.map (c := u32) (fun _ _ => tail_writeU8 _ _) fun v => by cases v <;> simp [write, Valid]
  | 5 => exact u64_codec.map (c := u64) (fun _ _ => tail_writeU8 _ _) fun v => by cases v <;> simp [write, Valid]
  | 6 => exact u128_codec.map (c := u128) (fun _ _ => tail_writeU8 _ _) fun v => by cases v <;> simp [write, Valid]
  | 7 => exact hash_codec.map (c := hash) (fun _ _ => tail_writeU8 _ _) fun v => by cases v <;> simp [write, Valid]
  | 8 => exact (vec_codec byte_codec).map (c := blob) (fun _ _ => tail_writeU8 _ _) fun v => by cases v <;> simp [write, Valid]
  | t + 9 => exact Codec.throw fun v => by cases v <;> simp [write]

def size : DataValue → Nat
  | bool _ => 1 + 1
  | string value => sizeString value + 1
  | u8 _ => 1 + 1
  | u16 _ => 2 + 1
  | u32 _ => 4 + 1
  | u64 _ => 8 + 1
  | u128 _ => 16 + 1
  | hash _ => 32 + 1
  | blob value => 2 + value.length + 1

theorem size_eq (v : DataValue) : v.size = v.write.length := by
  cases v with
  | string value =>
    simp only [size, write, List.length_append, length_writeU8, length_writeString]
    omega
  | blob value =>
    simp only [size, write, writeVec, flatMap_writeByte, List.length_append, length_writeU8, length_writeU16]
    omega
  | bool | u8 | u16 | u32 | u64 | u128 | hash => simp [size, write]

end DataValue

/-- The fields are a hash map: they stand in the order in which the map gives them back. -/
inductive DataElement where
  | value (value : DataValue)
  | array (values : List DataElement)
  | fields (fields : List (DataValue × DataElement))

namespace DataElement

mutual

def write : DataElement → IVec
  | value v => writeU8 0 ++ v.write
  | array values => writeU8 1 ++ (writeU8 values.length ++ writeElements values)
  | fields es => writeU8 2 ++ (writeU8 es.length ++ writeFields es)

def writeElements : List DataElement → IVec
  | [] => []
  | v :: vs => v.write ++ writeElements vs

def writeFields : List (DataValue × DataElement) → IVec
  | [] => []
  | (k, v) :: es => k.write ++ v.write ++ writeFields es

end

mutual

def size : DataElement → Nat
  | value v => 1 + v.size
  | array values => 1 + (1 + sizeElements values)
  | fields es => 1 + (1 + sizeFields es)

def sizeElements : List DataElement → Nat
  | [] => 0
  | v :: vs => v.size + sizeElements vs

def sizeFields : List (DataValue × DataElement) → Nat
  | [] => 0
  | (k, v) :: es => k.size + v.size + sizeFields es

end

mutual

theorem size_eq : (e : DataElement) → e.size = e.write.length
  | value v => by rw [size, write, List.length_append, length_writeU8, DataValue.size_eq]
  | array values => by rw [size, write, List.length_append, List.length_append, length_writeU8, length_writeU8, sizeElements_eq]
  | fields es => by rw [size, write, List.length_append, List.length_append, length_writeU8, length_writeU8, sizeFields_eq]

theorem sizeElements_eq : (vs : List DataElement) → sizeElements vs = (writeElements vs).length
  | [] => rfl
  | v :: vs => by rw [sizeElements, writeElements, List.length_append, size_eq v, sizeElements_eq vs]

theorem sizeFields_eq : (es : List (DataValue × DataElement)) → sizeFields es = (writeFields es).length
  | [] => rfl
  | (k, v) :: es => by
    rw [sizeFields, writeFields, List.length_append, List.length_append, DataValue.size_eq, size_eq v, sizeFields_eq es]

end

variable (order : KeyOrder DataValue)

/-- The strict form refuses repeated keys and fields out of order. -/
def readAt (strict : Bool) : Nat → Reader DataElement
  | 0 => throw .invalidSize
  | depth + 1 => do
    match ← readU8 with
    | 0 => return value (← DataValue.read)
    | 1 => return array (← readU8 >>= fun size => readMany (readAt strict depth) size)
    | 2 => return fields (← (readU8 >>= fun size =>
        readEntries strict .invalidValue (fun a b => decide (a = b)) DataValue.read (readAt strict depth) size []) >>= fun es =>
        if strict && !decide (order.Arranged es) then throw .invalidValue else pure (order.arrange es))
    | _ => throw .invalidValue

/-- Elements can nest as deep as there are bytes. -/
def read (strict : Bool) : Reader DataElement := fun bytes => readAt order strict bytes.length bytes

/-- Every value is as asked, and so are the number of entries of every array and the fields of every map. -/
def HoldsAt (P : DataValue → Prop) (A : Nat → Prop) (K : List (DataValue × DataElement) → Prop) :
    Nat → DataElement → Prop
  | 0, _ => False
  | _ + 1, value v => P v
  | depth + 1, array vs => A vs.length ∧ ∀ v ∈ vs, HoldsAt P A K depth v
  | depth + 1, fields es => K es ∧ ∀ e ∈ es, P e.1 ∧ HoldsAt P A K depth e.2

def Holds (P : DataValue → Prop) (A : Nat → Prop) (K : List (DataValue × DataElement) → Prop)
    (e : DataElement) : Prop := ∃ depth, HoldsAt P A K depth e

def Valid : DataElement → Prop :=
  Holds DataValue.Valid (fun n => n < 2 ^ 8) fun es => es.length < 2 ^ 8 ∧ (es.map Prod.fst).Nodup ∧ order.Arranged es

theorem writeElements_eq (vs : List DataElement) : writeElements vs = vs.flatMap write := by
  induction vs with
  | nil => rfl
  | cons v vs ih => rw [writeElements, ih, List.flatMap_cons]

theorem writeFields_eq (es : List (DataValue × DataElement)) : writeFields es = es.flatMap (writeEntry DataValue.write write) := by
  induction es with
  | nil => rfl
  | cons e es ih => rw [writeFields, ih, List.flatMap_cons, writeEntry]

theorem codecAt (depth : Nat) : Codec (fun strict => readAt order strict depth) write (HoldsAt DataValue.Valid (fun n => n < 2 ^ 8)
    (fun es => es.length < 2 ^ 8 ∧ (es.map Prod.fst).Nodup ∧ order.Arranged es) depth) := by
  induction depth with
  | zero => exact Codec.throw fun _ h => h
  | succ depth ih =>
    refine Codec.tagged (fun v _ => by cases v <;> exact writeU8_append_ne_nil _ _) fun t => ?_
    match t with
    | 0 =>
      refine DataValue.codec.map (c := value) (fun _ _ => rfl) fun v => ?_
      cases v <;> simp [write, HoldsAt]
    | 1 =>
      refine (Codec.counted u8_codec fun n _ => ih.many n).map (c := array) (fun vs _ => ?_) fun v => ?_
      · rw [write, tail_writeU8, writeElements_eq]
      · cases v <;> simp [write, HoldsAt]
    | 2 =>
      have hentries : Codec (fun strict => readU8 >>= fun size =>
          readEntries strict .invalidValue (fun a b => decide (a = b)) DataValue.read (readAt order strict depth) size []) _ _ :=
        Codec.entries u8_codec (fun _ _ => rfl) DataValue.codec ih
      have hcodec := Codec.arranged order ReaderError.invalidValue hentries (fun m hm => Codec.freshKeys_iff_nodup.mp hm.2.1)
        fun m m' hperm hm => Codec.entries_perm hperm hm
      refine hcodec.map (c := fields) (fun es _ => ?_) fun v => ?_
      · rw [write, tail_writeU8, writeFields_eq]
      · cases v <;> simp [write, HoldsAt, Codec.freshKeys_iff_nodup, and_assoc, and_left_comm]
    | t + 3 => exact Codec.throw fun v => by cases v <;> simp [write]

theorem HoldsAt.deep_enough {P : DataValue → Prop} {A : Nat → Prop} {K : List (DataValue × DataElement) → Prop} (m n : Nat)
    (e : DataElement) (h : HoldsAt P A K m e) (hlen : (write e).length ≤ n) : HoldsAt P A K n e := by
  induction m generalizing n e with
  | zero => exact absurd h id
  | succ m ih =>
    have hpos : 0 < (write e).length := List.length_pos_of_ne_nil (by cases e <;> exact writeU8_append_ne_nil _ _)
    obtain ⟨n, rfl⟩ : ∃ k, n = k + 1 := ⟨n - 1, by omega⟩
    cases e with
    | value v => exact h
    | array vs =>
      refine ⟨h.1, fun v hv => ih n v (h.2 v hv) ?_⟩
      have hle := Codec.length_le_flatMap write hv
      rw [write, writeElements_eq] at hlen
      simp only [List.length_append, length_writeU8] at hlen
      omega
    | fields es =>
      refine ⟨h.1, fun e he => ⟨(h.2 e he).1, ih n e.2 (h.2 e he).2 ?_⟩⟩
      have hle := Codec.length_le_flatMap (writeEntry DataValue.write write) he
      rw [writeEntry, List.length_append] at hle
      rw [write, writeFields_eq] at hlen
      simp only [List.length_append, length_writeU8] at hlen
      omega

theorem codec : Codec (read order) write (Valid order) := Codec.unbounded (codecAt order) HoldsAt.deep_enough

end DataElement

/-- The data of an integrated address. -/
inductive AddressType where
  | normal
  | data (element : DataElement)

structure Address where
  mainnet : Bool
  key : PublicKey
  addrType : AddressType

section Address

variable (order : KeyOrder DataValue)

namespace AddressType

def write : AddressType → IVec
  | normal => writeU8 0
  | data element => writeU8 1 ++ element.write

def read (strict : Bool) : Reader AddressType := do
  match ← readU8 with
  | 0 => return normal
  | 1 => return data (← Lib.Codec.readLimited EXTRA_DATA_LIMIT_SIZE .invalidSize (DataElement.read order strict))
  | _ => throw .invalidValue

def Valid : AddressType → Prop
  | normal => True
  | data element => element.Valid order ∧ element.write.length ≤ EXTRA_DATA_LIMIT_SIZE

theorem codec : Codec (read order) write (Valid order) := by
  refine Codec.tagged (fun a _ => by cases a <;> exact writeU8_append_ne_nil _ _) fun t => ?_
  match t with
  | 0 => exact Codec.pure (x := normal) rfl fun a => by cases a <;> simp [write, Valid]
  | 1 =>
    exact ((DataElement.codec order).limited _ _).map (c := data) (fun _ _ => rfl) fun a => by cases a <;> simp [write, Valid]
  | t + 2 => exact Codec.throw fun a => by cases a <;> simp [write]

end AddressType

namespace Address

def write (address : Address) : IVec :=
  [writeBool address.mainnet, writeHash address.key, address.addrType.write].flatten

def read (strict : Bool) : Reader Address := do
  let mainnet ← readBool
  let key ← readHash
  let addrType ← AddressType.read order strict
  return { mainnet, key, addrType }

def Valid (address : Address) : Prop := address.addrType.Valid order

theorem codec : Codec (read order) write (Valid order) := by
  refine bool_codec.bind (p := mainnet) (fun _ _ => trivial) fun mainnet _ => ?_
  refine hash_codec.bind (p := key) (fun _ _ => trivial) fun key _ => ?_
  refine (AddressType.codec order).bind (p := addrType) (fun _ h => h.2.2) fun addrType haddr => ?_
  refine Codec.pure rfl fun a => ?_
  constructor
  · rintro ⟨rfl, rfl, rfl, -⟩
    rfl
  · rintro rfl
    exact ⟨rfl, rfl, rfl, haddr⟩

end Address

end Address

end Xelis.Wire
