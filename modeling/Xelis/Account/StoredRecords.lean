import Xelis.Account.Balance

/-! The records that are stored in versions: what is read of them, and the sizes they are said to have. -/

namespace Xelis.Account

open Lib.Reader (Reads bind_ok_iff)
open Wire (State readOption_reads readVarUint readVarUint_reads sizeOption sizeOption_eq writeVarUint)

variable {P α : Type}

/-- How a type is written and read, with the size that is computed without writing, and when two values count as equal. -/
structure RecordSerializer (α : Type) where
  write : α → IVec
  read : Reader α
  size : α → Nat
  eq : α → α → Prop

/-- The value is read back from its bytes, all of them, and their number is its size. -/
structure RecordSerializer.Exact (S : RecordSerializer α) (x : α) : Prop where
  reads : ∃ y, S.eq y x ∧ Reads S.read (S.write x) y
  size : S.size x = (S.write x).length

def writeTopoheight : Option TopoHeight → IVec := writeOption writeU64

/-- The topoheight in front of every version. -/
def readTopoheight : Reader (Option TopoHeight) := readOption readU64

def sizeTopoheight : Option TopoHeight → Nat := sizeOption fun _ => 8

theorem readTopoheight_reads {previous : Option TopoHeight} (h : ∀ n ∈ previous, n < U64_RANGE) :
    Reads readTopoheight (writeTopoheight previous) previous :=
  readOption_reads fun n hn => readU64_reads (h n hn)

theorem length_writeTopoheight (previous : Option TopoHeight) : (writeTopoheight previous).length = sizeTopoheight previous :=
  (sizeOption_eq (fun n => (length_writeU64 n).symm) previous).symm

def versionedBalance [RistrettoEncoding P] : RecordSerializer (VersionedBalance P) where
  write := VersionedBalance.write
  read := VersionedBalance.read
  size := VersionedBalance.size
  eq a b := a.denotes = b.denotes

def versioned (S : RecordSerializer α) : RecordSerializer (Versioned α) where
  write v := writeTopoheight v.previousTopoheight ++ S.write v.data
  read := do
    let previousTopoheight ← readTopoheight
    let data ← S.read
    return { previousTopoheight, data }
  size v := sizeTopoheight v.previousTopoheight + S.size v.data
  eq a b := a.previousTopoheight = b.previousTopoheight ∧ S.eq a.data b.data

def versionedNonce : RecordSerializer VersionedNonce where
  write v := writeTopoheight v.previousTopoheight ++ writeU64 v.nonce
  read := do
    let previousTopoheight ← readTopoheight
    let nonce ← readU64
    return { nonce, previousTopoheight }
  size v := 8 + sizeTopoheight v.previousTopoheight
  eq a b := a = b

/-- The equality of the state's data, where there are data. -/
def stateEq (eq : α → α → Prop) : State α → State α → Prop
  | .clean, .clean => True
  | .some a, .some b => eq a b
  | .none, .none => True
  | .deleted, .deleted => True
  | _, _ => False

def state (S : RecordSerializer α) : RecordSerializer (State α) where
  write := State.write S.write
  read := State.read S.read
  size := State.size S.size
  eq := stateEq S.eq

def assetData : RecordSerializer Wire.AssetData where
  write := Wire.AssetData.write
  read := Wire.AssetData.read
  size := Wire.AssetData.size
  eq a b := a = b

/-- The size is that of the bytes, which are written for it. -/
def varUint : RecordSerializer Nat where
  write := writeVarUint
  read := readVarUint
  size n := (writeVarUint n).length
  eq a b := a = b

theorem exact_versionedBalance [RistrettoEncoding P] {v : VersionedBalance P} (h : v.Valid) : versionedBalance.Exact v where
  reads := ⟨v.denotes.load, BalanceRecord.denotes_load v.denotes, VersionedBalance.read_reads h⟩
  size := v.size_eq

theorem exact_varUint {n : Nat} (h : n < 2 ^ 256) : varUint.Exact n where
  reads := ⟨n, rfl, readVarUint_reads h⟩
  size := rfl

theorem exact_versioned_iff (S : RecordSerializer α) {v : Versioned α} (h : ∀ n ∈ v.previousTopoheight, n < U64_RANGE) :
    (versioned S).Exact v ↔ S.Exact v.data := by
  have hprevious := readTopoheight_reads h
  have hsize : (versioned S).size v = ((versioned S).write v).length ↔ S.size v.data = (S.write v.data).length := by
    show sizeTopoheight v.previousTopoheight + S.size v.data = (writeTopoheight v.previousTopoheight ++ S.write v.data).length ↔ _
    rw [List.length_append, length_writeTopoheight, Nat.add_left_cancel_iff]
  constructor
  · rintro ⟨⟨w, ⟨hlink, hdata⟩, hreads⟩, hlength⟩
    refine ⟨⟨w.data, hdata, fun rest => ?_⟩, hsize.mp hlength⟩
    have hread := hreads rest
    -- the pointer is read off the front, what is left is for the data
    obtain ⟨previous, mid, hpointer, hrest⟩ := bind_ok_iff.mp hread
    rw [show (versioned S).write v ++ rest = writeTopoheight v.previousTopoheight ++ (S.write v.data ++ rest) from List.append_assoc _ _ _,
      hprevious] at hpointer
    cases hpointer
    obtain ⟨data, left, hdataread, hpure⟩ := bind_ok_iff.mp hrest
    cases hpure
    exact hdataread
  · rintro ⟨⟨data, hdata, hreads⟩, hlength⟩
    refine ⟨⟨{ v with data }, ⟨rfl, hdata⟩, ?_⟩, hsize.mpr hlength⟩
    exact hprevious.bind (hreads.map fun data => ({ v with data } : Versioned α))

theorem exact_state_iff (S : RecordSerializer α) (st : State α) : (state S).Exact st ↔ ∀ data, st = .some data → S.Exact data := by
  constructor
  · rintro ⟨⟨st', heq, hreads⟩, hlength⟩ data rfl
    cases st' with
    | some data' =>
      refine ⟨⟨data', heq, fun rest => ?_⟩, ?_⟩
      · have hread := hreads rest
        rw [show (state S).write (.some data) ++ rest = writeU8 1 ++ (S.write data ++ rest) from List.append_assoc _ _ _] at hread
        obtain ⟨tag, mid, htag, hrest⟩ := bind_ok_iff.mp hread
        rw [readU8_reads (by decide : 1 < 2 ^ 8)] at htag
        cases htag
        obtain ⟨data'', left, hdataread, hpure⟩ := bind_ok_iff.mp hrest
        cases hpure
        exact hdataread
      · have hsum : 1 + S.size data = (writeU8 1 ++ S.write data).length := hlength
        rw [List.length_append, length_writeU8] at hsum
        exact Nat.add_left_cancel hsum
    | clean => exact heq.elim
    | none => exact heq.elim
    | deleted => exact heq.elim
  · intro h
    cases st with
    | clean => exact ⟨⟨.clean, trivial, fun rest => rfl⟩, rfl⟩
    | none => exact ⟨⟨.none, trivial, fun rest => rfl⟩, rfl⟩
    | deleted => exact ⟨⟨.deleted, trivial, fun rest => rfl⟩, rfl⟩
    | some data =>
      obtain ⟨⟨data', heq, hreads⟩, hlength⟩ := h data rfl
      refine ⟨⟨.some data', heq, ?_⟩, ?_⟩
      · exact (readU8_reads (by decide : 1 < 2 ^ 8)).bind (hreads.map State.some)
      · show 1 + S.size data = (writeU8 1 ++ S.write data).length
        rw [List.length_append, length_writeU8, hlength]

theorem not_exact_assetData (asset : Wire.AssetData) : ¬ assetData.Exact asset :=
  fun h => absurd h.size (Nat.ne_of_lt asset.size_lt_length_write)

/-- A coin with a limited supply and no owner. -/
def nativeAsset : Wire.AssetData where
  decimals := 8
  name := "XELIS"
  ticker := "XEL"
  maxSupply := some 1840000000000000
  owner := none

/-- Its size is said to be 16 bytes, and 21 are written. -/
theorem not_exact_nativeAsset : assetData.size nativeAsset = 16 ∧ (assetData.write nativeAsset).length = 21 ∧ ¬ assetData.Exact nativeAsset :=
  ⟨by decide +kernel, by decide +kernel, not_exact_assetData nativeAsset⟩

theorem pointer_of_bind {β : Type} {rest : Option TopoHeight → Reader β} {pointer : β → Option TopoHeight}
    (hrest : ∀ previous bytes v left, rest previous bytes = .ok (v, left) → pointer v = previous) {bytes : IVec} {v : β} {left : IVec}
    (h : (readTopoheight >>= rest) bytes = .ok (v, left)) : ∃ mid, readTopoheight bytes = .ok (pointer v, mid) := by
  obtain ⟨previous, mid, hpointer, hread⟩ := bind_ok_iff.mp h
  exact ⟨mid, hrest previous mid v left hread ▸ hpointer⟩

theorem pointer_versionedBalance [RistrettoEncoding P] {bytes left : IVec} {v : VersionedBalance P}
    (h : versionedBalance.read bytes = .ok (v, left)) : ∃ mid, readTopoheight bytes = .ok (v.previousTopoheight, mid) := by
  refine pointer_of_bind (fun previous bytes v left hread => ?_) h
  obtain ⟨_, _, -, hread⟩ := bind_ok_iff.mp hread
  obtain ⟨_, _, -, hread⟩ := bind_ok_iff.mp hread
  obtain ⟨_, _, -, hpure⟩ := bind_ok_iff.mp hread
  cases hpure
  rfl

theorem pointer_versioned (S : RecordSerializer α) {bytes left : IVec} {v : Versioned α}
    (h : (versioned S).read bytes = .ok (v, left)) : ∃ mid, readTopoheight bytes = .ok (v.previousTopoheight, mid) := by
  refine pointer_of_bind (fun previous bytes v left hread => ?_) h
  obtain ⟨_, _, -, hpure⟩ := bind_ok_iff.mp hread
  cases hpure
  rfl

theorem pointer_versionedNonce {bytes left : IVec} {v : VersionedNonce} (h : versionedNonce.read bytes = .ok (v, left)) :
    ∃ mid, readTopoheight bytes = .ok (v.previousTopoheight, mid) := by
  refine pointer_of_bind (fun previous bytes v left hread => ?_) h
  obtain ⟨_, _, -, hpure⟩ := bind_ok_iff.mp hread
  cases hpure
  rfl

/-- Which stored records are read back with the size they are said to have: every balance and number, a version or a
state as far as its data are, an asset never. The leading pointer of a version can be read alone. -/
theorem storedRecords_exact [RistrettoEncoding P] :
    (∀ v : VersionedBalance P, v.Valid → versionedBalance.Exact v) ∧
    (∀ (S : RecordSerializer α) (v : Versioned α), (∀ n ∈ v.previousTopoheight, n < U64_RANGE) →
      ((versioned S).Exact v ↔ S.Exact v.data)) ∧
    (∀ (S : RecordSerializer α) (st : State α), (state S).Exact st ↔ ∀ data, st = .some data → S.Exact data) ∧
    (∀ asset : Wire.AssetData, ¬ assetData.Exact asset ∧ (asset.Valid → Reads Wire.AssetData.read asset.write asset)) ∧
    (∀ n < 2 ^ 256, varUint.Exact n) ∧
    (∀ (bytes left : IVec) (v : VersionedBalance P), versionedBalance.read bytes = .ok (v, left) →
      ∃ mid, readTopoheight bytes = .ok (v.previousTopoheight, mid)) ∧
    (∀ (S : RecordSerializer α) (bytes left : IVec) (v : Versioned α), (versioned S).read bytes = .ok (v, left) →
      ∃ mid, readTopoheight bytes = .ok (v.previousTopoheight, mid)) ∧
    (∀ (bytes left : IVec) (v : VersionedNonce), versionedNonce.read bytes = .ok (v, left) →
      ∃ mid, readTopoheight bytes = .ok (v.previousTopoheight, mid)) :=
  ⟨fun _ h => exact_versionedBalance h, fun S _ h => exact_versioned_iff S h, fun S st => exact_state_iff S st,
    fun asset => ⟨not_exact_assetData asset, Wire.AssetData.codec.reads true asset⟩, fun _ h => exact_varUint h,
    fun _ _ _ h => pointer_versionedBalance h, fun S _ _ _ h => pointer_versioned S h, fun _ _ _ h => pointer_versionedNonce h⟩

/-- A version of a number with 33 bytes, and what is read of it. -/
theorem storedRecords_exact_difficulty : (versioned varUint).Exact ⟨some 7, 2 ^ 256 - 1⟩ ∧
    ∃ mid, readTopoheight ((versioned varUint).write ⟨some 7, 2 ^ 256 - 1⟩) = .ok (some 7, mid) := by
  have hall := @storedRecords_exact (BitVec 256) Nat _
  have htopoheight : ∀ n ∈ (⟨some 7, 2 ^ 256 - 1⟩ : Versioned Nat).previousTopoheight, n < U64_RANGE := by decide
  have hexact := (hall.2.1 varUint ⟨some 7, 2 ^ 256 - 1⟩ htopoheight).mpr (hall.2.2.2.2.1 (2 ^ 256 - 1) (by decide))
  refine ⟨hexact, ?_⟩
  obtain ⟨⟨w, ⟨hprevious, -⟩, hreads⟩, -⟩ := hexact
  have hread := hreads []
  rw [List.append_nil] at hread
  have hpointer := hall.2.2.2.2.2.2.1 varUint _ _ w hread
  rwa [hprevious] at hpointer

end Xelis.Account
