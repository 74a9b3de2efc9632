import Mathlib.Data.List.DropRight
import Xelis.Wire.Payloads

namespace Xelis.Wire

open Lib (Codec beBytes ofBeBytes)
open Lib.Codec (readEntries writeEntry)
open Lib.Reader (Reads readDistinct takeBytes)

section Containers

variable {α κ ν : Type}

/-- A set whose elements are told apart by a key. -/
def readIndexSetBy [DecidableEq κ] (key : α → κ) (read : Reader α) : Reader (List α) := do
  let count ← readU16
  if count > DEFAULT_MAX_ITEMS then throw .invalidSize else readDistinct .invalidSize key read count []

def readIndexMap [DecidableEq κ] (readKey : Reader κ) (readValue : Reader ν) : Reader (List (κ × ν)) := do
  let size ← readU16
  readEntries false .invalidValue (fun a b => decide (a = b)) readKey readValue size []

def writeIndexMap (writeKey : κ → IVec) (writeValue : ν → IVec) (map : List (κ × ν)) : IVec :=
  writeU16 map.length ++ map.flatMap (writeEntry writeKey writeValue)

def sizeVec (size : α → Nat) (values : List α) : Nat := 2 + (values.map size).sum

/-- All elements are taken to be as long as the first one. -/
def sizeIndexSet (size : α → Nat) (values : List α) : Nat :=
  match values.head? with
  | some first => 2 + values.length * size first
  | none => 2

def sizeIndexMap (sizeKey : κ → Nat) (sizeValue : ν → Nat) (map : List (κ × ν)) : Nat :=
  2 + (map.map (fun e => sizeKey e.1 + sizeValue e.2)).sum

theorem readOption_reads {read : Reader α} {write : α → IVec} {o : Option α} (h : ∀ x ∈ o, Reads read (write x) x) :
    Reads (readOption read) (writeOption write o) o := by
  refine (bool_codec.reads true o.isSome trivial).bind ?_
  cases o with
  | none => exact Reads.pure none
  | some x => exact (h x rfl).map some

theorem readVec_reads {read : Reader α} {write : α → IVec} {values : List α} (hlen : values.length ≤ DEFAULT_MAX_ITEMS)
    (h : ∀ x ∈ values, Reads read (write x) x) : Reads (readVec read) (writeVec write values) values := by
  have hlt : values.length < 2 ^ 16 := Nat.lt_of_le_of_lt hlen (by decide)
  refine (readU16_reads hlt).bind (Reads.guard (Nat.not_lt_of_le hlen) ?_)
  exact Lib.Reader.readMany_reads h

theorem readIndexSetBy_reads [DecidableEq κ] {key : α → κ} {read : Reader α} {write : α → IVec} {values : List α}
    (hlen : values.length ≤ DEFAULT_MAX_ITEMS) (hnodup : (values.map key).Nodup) (h : ∀ x ∈ values, Reads read (write x) x) :
    Reads (readIndexSetBy key read) (writeVec write values) values := by
  have hlt : values.length < 2 ^ 16 := Nat.lt_of_le_of_lt hlen (by decide)
  refine (readU16_reads hlt).bind (Reads.guard (Nat.not_lt_of_le hlen) ?_)
  exact Lib.Reader.readDistinct_reads h [] hnodup

theorem readIndexMap_reads [DecidableEq κ] {readKey : Reader κ} {readValue : Reader ν} {writeKey : κ → IVec} {writeValue : ν → IVec}
    {VK : κ → Prop} {VV : ν → Prop} {map : List (κ × ν)} (hlen : map.length < 2 ^ 16) (hnodup : (map.map Prod.fst).Nodup)
    (hK : Codec (fun _ => readKey) writeKey VK) (hV : Codec (fun _ => readValue) writeValue VV)
    (h : ∀ e ∈ map, VK e.1 ∧ VV e.2) :
    Reads (readIndexMap readKey readValue) (writeIndexMap writeKey writeValue map) map :=
  (readU16_reads hlen).bind (Lib.Codec.readEntries_reads hK hV false h [] (Lib.Codec.freshKeys_iff_nodup.mpr hnodup))

theorem sizeVec_eq {size : α → Nat} {write : α → IVec} (h : ∀ x, size x = (write x).length) (values : List α) :
    sizeVec size values = (writeVec write values).length := by
  unfold sizeVec writeVec
  rw [sum_size_eq h, List.length_append, length_writeU16]

/-- The shortcut is right when the elements are as long as the first one, taken together. -/
theorem sizeIndexSet_eq_iff {size : α → Nat} {write : α → IVec} (values : List α) :
    sizeIndexSet size values = (writeVec write values).length ↔
      ∀ first ∈ values.head?, values.length * size first = (values.map (fun x => (write x).length)).sum := by
  unfold sizeIndexSet writeVec
  rw [List.length_append, length_writeU16, List.length_flatMap]
  cases values with
  | nil => simp
  | cons x xs =>
    simp only [List.head?_cons, Option.mem_some_iff, forall_eq']
    omega

theorem sizeIndexSet_eq_of_const {size : α → Nat} {write : α → IVec} {n : Nat} (hsize : ∀ x, size x = n)
    (hwrite : ∀ x, (write x).length = n) (values : List α) : sizeIndexSet size values = (writeVec write values).length := by
  apply (sizeIndexSet_eq_iff values).mpr
  intro first _
  simp only [hsize, hwrite, List.map_const', List.sum_replicate]
  rfl

end Containers

def MAX_VARUINT_SIZE : Nat := 32

/-- The 32 bytes of a number without the zeros at their end. -/
def varUintBytes (n : Nat) : IVec := (beBytes MAX_VARUINT_SIZE n).rdropWhile (· == 0)

def writeVarUint (n : Nat) : IVec := writeU8 (varUintBytes n).length ++ varUintBytes n

def readVarUint : Reader Nat := do
  let len ← readU8
  if len > MAX_VARUINT_SIZE then throw .invalidSize
  else if len = 0 then return 0
  else
    let bytes ← takeBytes .invalidSize len
    return ofBeBytes (bytes ++ List.replicate (MAX_VARUINT_SIZE - len) 0)

theorem varUintBytes_append (n : Nat) :
    varUintBytes n ++ List.replicate (MAX_VARUINT_SIZE - (varUintBytes n).length) 0 = beBytes MAX_VARUINT_SIZE n := by
  have hsplit : varUintBytes n ++ (beBytes MAX_VARUINT_SIZE n).rtakeWhile (· == 0) = beBytes MAX_VARUINT_SIZE n :=
    List.rdropWhile_append_rtakeWhile
  have hlen := congrArg List.length hsplit
  rw [List.length_append, Lib.length_beBytes] at hlen
  have hzeros : (beBytes MAX_VARUINT_SIZE n).rtakeWhile (· == 0) =
      List.replicate ((beBytes MAX_VARUINT_SIZE n).rtakeWhile (· == 0)).length 0 :=
    List.eq_replicate_of_mem fun b hb => eq_of_beq (List.mem_rtakeWhile_imp (p := (· == 0)) hb)
  have hcount : MAX_VARUINT_SIZE - (varUintBytes n).length = ((beBytes MAX_VARUINT_SIZE n).rtakeWhile (· == 0)).length := by
    omega
  rw [hcount, ← hzeros, hsplit]

theorem length_varUintBytes_le (n : Nat) : (varUintBytes n).length ≤ MAX_VARUINT_SIZE := by
  have hlen := congrArg List.length (varUintBytes_append n)
  rw [List.length_append, Lib.length_beBytes] at hlen
  omega

theorem readVarUint_reads {n : Nat} (h : n < 2 ^ 256) : Reads readVarUint (writeVarUint n) n := by
  have hle := length_varUintBytes_le n
  have hvalue : ofBeBytes (varUintBytes n ++ List.replicate (MAX_VARUINT_SIZE - (varUintBytes n).length) 0) = n := by
    rw [varUintBytes_append]
    exact Lib.ofBeBytes_beBytes _ _ (lt_of_lt_of_eq h (by decide))
  refine (readU8_reads (Nat.lt_of_le_of_lt hle (by decide))).bind (Reads.guard (Nat.not_lt_of_le hle) ?_)
  by_cases hzero : (varUintBytes n).length = 0
  · -- no byte is left of the number zero
    have hnil := List.eq_nil_of_length_eq_zero hzero
    rw [if_pos hzero, hnil]
    rw [hnil] at hvalue
    have hn : n = 0 := hvalue.symm.trans (by decide)
    rw [hn]
    exact Reads.pure 0
  · rw [if_neg hzero]
    have htake : Reads (takeBytes ReaderError.invalidSize (varUintBytes n).length) (varUintBytes n) (varUintBytes n) :=
      Lib.Reader.takeBytes_reads _ rfl
    have hread := htake.map (fun bytes => ofBeBytes (bytes ++ List.replicate (MAX_VARUINT_SIZE - (varUintBytes n).length) 0))
    rwa [hvalue] at hread

structure AssetOwner where
  contract : Hash
  id : Nat
  deriving DecidableEq

structure AssetData where
  decimals : Nat
  name : String
  ticker : String
  maxSupply : Option Nat
  owner : Option AssetOwner
  deriving DecidableEq

namespace AssetOwner

def write (owner : AssetOwner) : IVec := writeHash owner.contract ++ writeU64 owner.id

def read : Reader AssetOwner := do
  let contract ← readHash
  let id ← readU64
  return { contract, id }

theorem codec : Codec (fun _ => read) write (fun owner => owner.id < U64_RANGE) := by
  refine hash_codec.bind (p := contract) (fun _ _ => trivial) fun contract _ => ?_
  refine u64_codec.map (fun _ _ => rfl) fun owner => ?_
  constructor
  · rintro ⟨rfl, hid⟩
    exact ⟨owner.id, hid, rfl⟩
  · rintro ⟨id, hid, rfl⟩
    exact ⟨rfl, hid⟩

end AssetOwner

namespace AssetData

def write (asset : AssetData) : IVec :=
  writeU8 asset.decimals ++ (writeString asset.name ++ (writeString asset.ticker ++ (writeOption writeU64 asset.maxSupply ++
    writeOption AssetOwner.write asset.owner)))

def read : Reader AssetData := do
  let decimals ← readU8
  let name ← readString
  let ticker ← readString
  let maxSupply ← readOption readU64
  let owner ← readOption AssetOwner.read
  return { decimals, name, ticker, maxSupply, owner }

/-- The ticker and the owner are not counted. -/
def size (asset : AssetData) : Nat := 1 + sizeString asset.name + sizeOption (fun _ => 8) asset.maxSupply

structure Valid (asset : AssetData) : Prop where
  decimals : asset.decimals < 2 ^ 8
  name : (stringBytes asset.name).length < 2 ^ 8
  ticker : (stringBytes asset.ticker).length < 2 ^ 8
  maxSupply : ∀ n ∈ asset.maxSupply, n < U64_RANGE
  owner : ∀ o ∈ asset.owner, o.id < U64_RANGE

theorem codec : Codec (fun _ => read) write Valid := by
  refine u8_codec.bind (p := decimals) (fun _ h => h.decimals) fun decimals hdecimals => ?_
  refine string_codec.bind (p := name) (fun _ h => h.2.name) fun name hname => ?_
  refine string_codec.bind (p := ticker) (fun _ h => h.2.2.ticker) fun ticker hticker => ?_
  refine (option_codec u64_codec).bind (p := maxSupply) (fun _ h => h.2.2.2.maxSupply) fun maxSupply hmax => ?_
  refine (option_codec AssetOwner.codec).map (fun _ _ => rfl) fun asset => ?_
  constructor
  · rintro ⟨rfl, rfl, rfl, rfl, h⟩
    exact ⟨asset.owner, h.owner, rfl⟩
  · rintro ⟨owner, howner, rfl⟩
    exact ⟨rfl, rfl, rfl, rfl, hdecimals, hname, hticker, hmax, howner⟩

theorem size_lt_length_write (asset : AssetData) : asset.size < asset.write.length := by
  have hmax : sizeOption (fun _ => 8) asset.maxSupply = (writeOption writeU64 asset.maxSupply).length :=
    sizeOption_eq (fun n => (length_writeU64 n).symm) asset.maxSupply
  have howner : 1 ≤ (writeOption AssetOwner.write asset.owner).length := by
    unfold writeOption
    rw [List.length_append, length_writeBool]
    omega
  unfold size write
  simp only [List.length_append, length_writeU8, length_writeString, hmax]
  omega

end AssetData

inductive BalanceType where
  | input
  | output
  | both
  deriving DecidableEq

/-- A ciphertext as it is stored: the commitment and the handle. -/
structure CompressedCiphertext where
  commitment : CompressedPoint
  handle : CompressedPoint
  deriving DecidableEq

structure Balance where
  topoheight : TopoHeight
  outputBalance : Option CompressedCiphertext
  finalBalance : CompressedCiphertext
  balanceType : BalanceType
  deriving DecidableEq

structure AccountSummary where
  outputTopoheight : Option TopoHeight
  stableTopoheight : TopoHeight
  deriving DecidableEq

/-- What a versioned value was in a range of topoheights. -/
inductive State (α : Type) where
  | clean
  | some (data : α)
  | none
  | deleted
  deriving DecidableEq

namespace BalanceType

def write : BalanceType → IVec
  | input => writeU8 0
  | output => writeU8 1
  | both => writeU8 2

def read : Reader BalanceType := do
  match ← readU8 with
  | 0 => return input
  | 1 => return output
  | 2 => return both
  | _ => throw .invalidValue

@[simp] theorem length_write (balanceType : BalanceType) : balanceType.write.length = 1 := by
  cases balanceType <;> rfl

theorem read_reads (balanceType : BalanceType) : Reads read balanceType.write balanceType := by
  cases balanceType <;> exact fun rest => rfl

end BalanceType

namespace CompressedCiphertext

def write (ciphertext : CompressedCiphertext) : IVec := writeHash ciphertext.commitment ++ writeHash ciphertext.handle

def read : Reader CompressedCiphertext := do
  let commitment ← readHash
  let handle ← readHash
  return { commitment, handle }

@[simp] theorem length_write (ciphertext : CompressedCiphertext) : ciphertext.write.length = 32 + 32 := by
  rw [write, List.length_append, length_writeHash, length_writeHash]

theorem read_reads (ciphertext : CompressedCiphertext) : Reads read ciphertext.write ciphertext :=
  (readHash_reads ciphertext.commitment).bind ((readHash_reads ciphertext.handle).map (CompressedCiphertext.mk ciphertext.commitment))

end CompressedCiphertext

namespace Balance

def write (balance : Balance) : IVec :=
  writeU64 balance.topoheight ++ (writeOption CompressedCiphertext.write balance.outputBalance ++
    (balance.finalBalance.write ++ balance.balanceType.write))

def read : Reader Balance := do
  let topoheight ← readU64
  let outputBalance ← readOption CompressedCiphertext.read
  let finalBalance ← CompressedCiphertext.read
  let balanceType ← BalanceType.read
  return { topoheight, outputBalance, finalBalance, balanceType }

def size (balance : Balance) : Nat := 8 + sizeOption (fun _ => 32 + 32) balance.outputBalance + (32 + 32) + 1

theorem read_reads {balance : Balance} (h : balance.topoheight < U64_RANGE) : Reads read balance.write balance := by
  refine (readU64_reads h).bind ?_
  refine (readOption_reads fun ciphertext _ => ciphertext.read_reads).bind ?_
  refine balance.finalBalance.read_reads.bind ?_
  exact balance.balanceType.read_reads.map fun balanceType => { balance with balanceType }

theorem size_eq (balance : Balance) : balance.size = balance.write.length := by
  have houtput := sizeOption_eq (fun ciphertext => (CompressedCiphertext.length_write ciphertext).symm) balance.outputBalance
  unfold size write
  simp only [List.length_append, length_writeU64, CompressedCiphertext.length_write, BalanceType.length_write, houtput]
  omega

end Balance

namespace AccountSummary

def write (summary : AccountSummary) : IVec :=
  writeOption writeU64 summary.outputTopoheight ++ writeU64 summary.stableTopoheight

def read : Reader AccountSummary := do
  let outputTopoheight ← readOption readU64
  let stableTopoheight ← readU64
  return { outputTopoheight, stableTopoheight }

def size (summary : AccountSummary) : Nat := sizeOption (fun _ => 8) summary.outputTopoheight + 8

def Valid (summary : AccountSummary) : Prop :=
  (∀ n ∈ summary.outputTopoheight, n < U64_RANGE) ∧ summary.stableTopoheight < U64_RANGE

theorem read_reads {summary : AccountSummary} (h : summary.Valid) : Reads read summary.write summary := by
  refine (readOption_reads fun n hn => readU64_reads (h.1 n hn)).bind ?_
  exact (readU64_reads h.2).map (AccountSummary.mk summary.outputTopoheight)

theorem size_eq (summary : AccountSummary) : summary.size = summary.write.length := by
  unfold size write
  rw [List.length_append, length_writeU64, sizeOption_eq (fun n => (length_writeU64 n).symm)]

end AccountSummary

namespace State

variable {α : Type}

def write (writeData : α → IVec) : State α → IVec
  | clean => writeU8 0
  | some data => writeU8 1 ++ writeData data
  | none => writeU8 2
  | deleted => writeU8 3

def read (readData : Reader α) : Reader (State α) := do
  match ← readU8 with
  | 0 => return clean
  | 1 => return some (← readData)
  | 2 => return none
  | 3 => return deleted
  | _ => throw .invalidValue

def size (sizeData : α → Nat) : State α → Nat
  | clean => 1
  | some data => 1 + sizeData data
  | none => 1
  | deleted => 1

theorem read_reads {readData : Reader α} {writeData : α → IVec} {state : State α}
    (h : ∀ data, state = some data → Reads readData (writeData data) data) :
    Reads (read readData) (state.write writeData) state := by
  cases state with
  | clean => exact fun rest => rfl
  | none => exact fun rest => rfl
  | deleted => exact fun rest => rfl
  | some data => exact (readU8_reads (n := 1) (by decide)).bind ((h data rfl).map some)

theorem length_write (writeData : α → IVec) (state : State α) :
    (state.write writeData).length = state.size (fun data => (writeData data).length) := by
  cases state <;> simp [write, size]

end State

end Xelis.Wire
