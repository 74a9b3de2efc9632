import Mathlib.Data.BitVec
import Xelis.Account.CiphertextCache

/-! Balances with their ciphertexts in caches: whatever is done with them, what is stored is never stale. -/

namespace Xelis.Account

open Lib (answers)
open Lib.Reader (Reads)
open Wire (CompressedCiphertext readOption_reads sizeOption sizeOption_eq)

variable {P : Type} [RistrettoEncoding P]

structure VersionedBalance (P : Type) [RistrettoEncoding P] where
  previousTopoheight : Option TopoHeight
  outputBalance : Option (CiphertextCache P)
  finalBalance : CiphertextCache P
  balanceType : Wire.BalanceType

structure BalanceRecord where
  previousTopoheight : Option TopoHeight
  outputBalance : Option CompressedCiphertext
  finalBalance : CompressedCiphertext
  balanceType : Wire.BalanceType
  deriving DecidableEq

namespace VersionedBalance

def prepareNew (v : VersionedBalance P) (previousTopoheight : Option TopoHeight) : VersionedBalance P :=
  { v with previousTopoheight, outputBalance := none, balanceType := .input }

/-- The cache to spend from, whether it is the output balance, and the balance after a write through the reference. -/
def selectBalance (v : VersionedBalance P) (output : Bool) : (CiphertextCache P × Bool) × (CiphertextCache P → VersionedBalance P) :=
  match v.outputBalance with
  | some balance =>
    if output then ((balance, true), fun cache => { v with outputBalance := some cache })
    else ((v.finalBalance, false), fun cache => { v with finalBalance := cache })
  | none => ((v.finalBalance, false), fun cache => { v with finalBalance := cache })

def setCompressedBalance (v : VersionedBalance P) (value : CompressedCiphertext) : VersionedBalance P :=
  { v with finalBalance := .ofCompressed value }

def addPlaintextToBalance (v : VersionedBalance P) (value : Nat) : Except DecompressionError (VersionedBalance P) := do
  let (e, put) ← v.finalBalance.computable
  return { v with finalBalance := put (e.addScalar value) }

def write (v : VersionedBalance P) : IVec :=
  writeOption writeU64 v.previousTopoheight ++ (v.balanceType.write ++
    (v.finalBalance.write ++ writeOption CiphertextCache.write v.outputBalance))

def read : Reader (VersionedBalance P) := do
  let previousTopoheight ← readOption readU64
  let balanceType ← Wire.BalanceType.read
  let finalBalance ← CiphertextCache.read
  let outputBalance ← readOption CiphertextCache.read
  return { outputBalance, finalBalance, previousTopoheight, balanceType }

def size (v : VersionedBalance P) : Nat :=
  v.finalBalance.size + 1 + sizeOption (fun _ => 8) v.previousTopoheight + sizeOption CiphertextCache.size v.outputBalance

def denotes (v : VersionedBalance P) : BalanceRecord where
  previousTopoheight := v.previousTopoheight
  outputBalance := v.outputBalance.map CiphertextCache.denotes
  finalBalance := v.finalBalance.denotes
  balanceType := v.balanceType

end VersionedBalance

namespace BalanceRecord

def write (r : BalanceRecord) : IVec :=
  writeOption writeU64 r.previousTopoheight ++ (r.balanceType.write ++
    (r.finalBalance.write ++ writeOption CompressedCiphertext.write r.outputBalance))

def load (r : BalanceRecord) : VersionedBalance P where
  previousTopoheight := r.previousTopoheight
  outputBalance := r.outputBalance.map .ofCompressed
  finalBalance := .ofCompressed r.finalBalance
  balanceType := r.balanceType

theorem denotes_load (r : BalanceRecord) : (r.load : VersionedBalance P).denotes = r := by
  obtain ⟨previous, output, final, balanceType⟩ := r
  cases output <;> rfl

end BalanceRecord

variable {v : VersionedBalance P}

theorem write_eq (v : VersionedBalance P) : v.write = v.denotes.write := by
  have hcache : ∀ cache : CiphertextCache P, cache.write = cache.denotes.write := by
    intro cache
    rw [CiphertextCache.write, CiphertextCache.compress_eq]
  have houtput : writeOption CiphertextCache.write v.outputBalance = writeOption CompressedCiphertext.write v.denotes.outputBalance := by
    unfold VersionedBalance.denotes writeOption
    cases v.outputBalance with
    | none => rfl
    | some cache => exact congrArg (writeBool true ++ ·) (hcache cache)
  unfold VersionedBalance.write BalanceRecord.write
  rw [hcache, houtput]
  rfl

/-- Its topoheights are those of 64 bits. -/
def VersionedBalance.Valid (v : VersionedBalance P) : Prop := ∀ n ∈ v.previousTopoheight, n < U64_RANGE

theorem VersionedBalance.read_reads (h : v.Valid) :
    Reads VersionedBalance.read v.write (v.denotes.load : VersionedBalance P) := by
  refine (readOption_reads fun n hn => readU64_reads (h n hn)).bind ?_
  refine v.balanceType.read_reads.bind ?_
  refine v.finalBalance.read_reads.bind ?_
  have houtput : Reads (readOption CiphertextCache.read) (writeOption CiphertextCache.write v.outputBalance)
      (v.denotes.outputBalance.map (CiphertextCache.ofCompressed : CompressedCiphertext → CiphertextCache P)) := by
    refine (bool_codec.reads true v.outputBalance.isSome trivial).bind ?_
    unfold VersionedBalance.denotes
    dsimp only
    cases v.outputBalance with
    | none => exact Reads.pure none
    | some cache => exact cache.read_reads.map some
  exact houtput.map fun outputBalance => { v.denotes.load with outputBalance }

theorem VersionedBalance.size_eq (v : VersionedBalance P) : v.size = v.write.length := by
  have hcache : ∀ cache : CiphertextCache P, cache.size = cache.write.length :=
    fun cache => (Wire.CompressedCiphertext.length_write _).symm
  have hprevious : sizeOption (fun _ => 8) v.previousTopoheight = (writeOption writeU64 v.previousTopoheight).length :=
    sizeOption_eq (fun n => (length_writeU64 n).symm) v.previousTopoheight
  unfold VersionedBalance.size VersionedBalance.write
  simp only [List.length_append, Wire.BalanceType.length_write, ← hcache, hprevious, sizeOption_eq hcache]
  omega

/-- What can be done with a balance. The caches it hands out are used through their references. -/
inductive BalanceCall (P : Type) [RistrettoEncoding P] where
  | prepareNew (previousTopoheight : Option TopoHeight)
  | selectBalance (output : Bool) (call : CacheCall P)
  | getMutBalance (call : CacheCall P)
  | setCompressedBalance (value : CompressedCiphertext)
  | setBalance (value : CiphertextCache P)
  | setOutputBalance (value : Option (CiphertextCache P))
  | addPlaintextToBalance (value : Nat)
  | setPreviousTopoheight (previousTopoheight : Option TopoHeight)
  | setBalanceType (balanceType : Wire.BalanceType)
  | clone
  | store

/-- Its topoheight is one of 64 bits. -/
def BalanceCall.Valid : BalanceCall P → Prop
  | .prepareNew previousTopoheight => ∀ n ∈ previousTopoheight, n < U64_RANGE
  | .setPreviousTopoheight previousTopoheight => ∀ n ∈ previousTopoheight, n < U64_RANGE
  | _ => True

/-- A call that fails leaves the balance as it was. Storing writes the balance and reads it again. -/
def VersionedBalance.call (v : VersionedBalance P) : BalanceCall P → CacheAnswer P × VersionedBalance P
  | .prepareNew previousTopoheight => (.done, v.prepareNew previousTopoheight)
  | .selectBalance output call =>
    let answer := (v.selectBalance output).1.1.call call
    (answer.1, (v.selectBalance output).2 answer.2)
  | .getMutBalance call => ((v.finalBalance.call call).1, { v with finalBalance := (v.finalBalance.call call).2 })
  | .setCompressedBalance value => (.done, v.setCompressedBalance value)
  | .setBalance value => (.done, { v with finalBalance := value })
  | .setOutputBalance value => (.done, { v with outputBalance := value })
  | .addPlaintextToBalance value =>
    match v.addPlaintextToBalance value with
    | .ok v => (.done, v)
    | .error _ => (.failed, v)
  | .setPreviousTopoheight previousTopoheight => (.done, { v with previousTopoheight })
  | .setBalanceType balanceType => (.done, { v with balanceType })
  | .clone => (.done, v)
  | .store =>
    match (VersionedBalance.read v.write : Except ReaderError (VersionedBalance P × IVec)) with
    | .ok (v', _) => (.bytes v.write, v')
    | .error _ => (.failed, v)

/-- The same done with the record, whose ciphertexts are compressed all the time. -/
def BalanceRecord.call (r : BalanceRecord) : BalanceCall P → CacheAnswer P × BalanceRecord
  | .prepareNew previousTopoheight => (.done, { r with previousTopoheight, outputBalance := none, balanceType := .input })
  | .selectBalance output call =>
    match r.outputBalance with
    | some balance =>
      if output then ((CompressedCiphertext.call balance call).1, { r with outputBalance := some (CompressedCiphertext.call balance call).2 })
      else ((CompressedCiphertext.call r.finalBalance call).1, { r with finalBalance := (CompressedCiphertext.call r.finalBalance call).2 })
    | none => ((CompressedCiphertext.call r.finalBalance call).1, { r with finalBalance := (CompressedCiphertext.call r.finalBalance call).2 })
  | .getMutBalance call =>
    ((CompressedCiphertext.call r.finalBalance call).1, { r with finalBalance := (CompressedCiphertext.call r.finalBalance call).2 })
  | .setCompressedBalance value => (.done, { r with finalBalance := value })
  | .setBalance value => (.done, { r with finalBalance := value.denotes })
  | .setOutputBalance value => (.done, { r with outputBalance := value.map CiphertextCache.denotes })
  | .addPlaintextToBalance value =>
    match (CompressedCiphertext.decompress r.finalBalance : Except DecompressionError (Ciphertext P)) with
    | .ok e => (.done, { r with finalBalance := Ciphertext.compress (e.addScalar value) })
    | .error _ => (.failed, r)
  | .setPreviousTopoheight previousTopoheight => (.done, { r with previousTopoheight })
  | .setBalanceType balanceType => (.done, { r with balanceType })
  | .clone => (.done, r)
  | .store => (.bytes r.write, r)

namespace VersionedBalance

theorem call_eq (v : VersionedBalance P) (hv : v.Valid) (call : BalanceCall P) (hcall : call.Valid) :
    v.denotes.call call = ((v.call call).1, (v.call call).2.denotes) ∧ (v.call call).2.Valid := by
  cases call with
  | prepareNew previousTopoheight => exact ⟨rfl, hcall⟩
  | selectBalance output call =>
    unfold BalanceRecord.call VersionedBalance.call selectBalance denotes
    cases houtput : v.outputBalance with
    | none =>
      dsimp only [Option.map_none]
      rw [CiphertextCache.call_eq]
      exact ⟨rfl, hv⟩
    | some balance =>
      dsimp only [Option.map_some]
      cases output with
      | true =>
        simp only [if_true, CiphertextCache.call_eq]
        exact ⟨rfl, hv⟩
      | false =>
        simp only [Bool.false_eq_true, if_false, CiphertextCache.call_eq]
        exact ⟨rfl, hv⟩
  | getMutBalance call =>
    refine ⟨?_, hv⟩
    unfold BalanceRecord.call VersionedBalance.call denotes
    dsimp only
    rw [CiphertextCache.call_eq]
  | setCompressedBalance value => exact ⟨rfl, hv⟩
  | setBalance value => exact ⟨rfl, hv⟩
  | setOutputBalance value => exact ⟨rfl, hv⟩
  | addPlaintextToBalance value =>
    unfold BalanceRecord.call VersionedBalance.call addPlaintextToBalance denotes
    cases hcomputable : v.finalBalance.computable with
    | ok answer =>
      obtain ⟨hdenotes, hput⟩ := CiphertextCache.computable_ok hcomputable
      simp only [hdenotes, decompress_compress]
      exact ⟨congrArg (Prod.mk _) (by rw [← hput]; rfl), hv⟩
    | error error =>
      rw [CiphertextCache.computable_error hcomputable]
      exact ⟨rfl, hv⟩
  | setPreviousTopoheight previousTopoheight => exact ⟨rfl, hcall⟩
  | setBalanceType balanceType => exact ⟨rfl, hv⟩
  | clone => exact ⟨rfl, hv⟩
  | store =>
    have hread := read_reads hv []
    rw [List.append_nil] at hread
    unfold BalanceRecord.call VersionedBalance.call
    rw [hread, write_eq]
    exact ⟨Prod.ext rfl (BalanceRecord.denotes_load _).symm, hv⟩

theorem answers_eq (hv : v.Valid) {calls : List (BalanceCall P)} (hcalls : ∀ call ∈ calls, call.Valid) :
    answers BalanceRecord.call v.denotes calls = ((answers call v calls).1, (answers call v calls).2.denotes) ∧
      (answers call v calls).2.Valid := by
  have hview := Lib.answers_view denotes id Valid (fun v call hcall hv => call_eq v hv call (hcalls call hcall)) v hv
  rwa [List.map_id] at hview

end VersionedBalance

/-- A cache answers in every run as the one ciphertext does that it stands for. The ciphertext last written through
`computable` is what is seen of it, and the balances that are stored are those that were computed. -/
theorem ciphertextCache_transparent :
    (∀ (cache : CiphertextCache P) (calls : List (CacheCall P)),
      answers CompressedCiphertext.call cache.denotes calls =
        ((answers CiphertextCache.call cache calls).1, (answers CiphertextCache.call cache calls).2.denotes)) ∧
    (∀ (cache : CiphertextCache P) (before later : List (CacheCall P)) (change : Ciphertext P → Ciphertext P)
      (e : Ciphertext P) (put : Ciphertext P → CiphertextCache P),
      (answers CiphertextCache.call cache before).2.computable = .ok (e, put) →
      (∀ call ∈ later, ∀ change, call ≠ .computable change) →
      (answers CiphertextCache.call (put (change e)) later).2.Holds (change e)) ∧
    (∀ (v : VersionedBalance P) (calls : List (BalanceCall P)), v.Valid → (∀ call ∈ calls, call.Valid) →
      answers BalanceRecord.call v.denotes calls =
        ((answers VersionedBalance.call v calls).1, (answers VersionedBalance.call v calls).2.denotes) ∧
      (answers VersionedBalance.call v calls).2.write = (answers BalanceRecord.call v.denotes calls).2.write) := by
  refine ⟨CiphertextCache.answers_eq, ?_, ?_⟩
  · intro cache before later change e put hcomputable hlater
    obtain ⟨-, hput⟩ := CiphertextCache.computable_ok hcomputable
    rw [CiphertextCache.holds_iff, CiphertextCache.denotes_answers _ hlater, hput]
  · intro v calls hv hcalls
    obtain ⟨hanswers, -⟩ := VersionedBalance.answers_eq hv hcalls
    exact ⟨hanswers, by rw [write_eq, hanswers]⟩

/-- Points that are their own encoding. -/
instance bytePoint : RistrettoEncoding (BitVec 256) where
  basepoint := 1
  decompress := some
  compress := id
  decompress_eq_some_iff _ _ := Option.some_inj

/-- A cache that was decompressed before it was changed shows the change once it was compressed and stored. -/
theorem ciphertextCache_transparent_changed :
    (answers CiphertextCache.call (.ofBoth ⟨3, 4⟩ ⟨8, 4⟩ true nofun : CiphertextCache (BitVec 256)) [.compressed, .store]).2.Holds ⟨8, 4⟩ := by
  have hlater : ∀ call ∈ [(.compressed : CacheCall (BitVec 256)), .store], ∀ change, call ≠ .computable change := by
    intro call hcall change
    rcases List.mem_cons.mp hcall with rfl | hcall
    · exact nofun
    · rw [List.mem_singleton.mp hcall]
      exact nofun
  exact ciphertextCache_transparent.2.1 (.ofCompressed ⟨3, 4⟩ : CiphertextCache (BitVec 256)) [.decompressed] [.compressed, .store] (fun _ => ⟨8, 4⟩) ⟨3, 4⟩
    (fun e => .ofBoth ⟨3, 4⟩ e true nofun) rfl hlater

end Xelis.Account
