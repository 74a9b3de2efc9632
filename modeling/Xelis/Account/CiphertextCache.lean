import Xelis.Lib.Answers
import Xelis.Lib.Exec
import Xelis.Wire.Account

namespace Xelis.Account

open Wire (CompressedCiphertext)

/-- The curve group with both directions of its encoding: each point has one encoding, and nothing else is decoded. -/
class RistrettoEncoding (P : Type) extends RistrettoPoint P where
  compress : P → CompressedPoint
  decompress_eq_some_iff : ∀ c p, decompress c = some p ↔ c = compress p

structure DecompressionError where
  deriving DecidableEq

variable {P : Type} [RistrettoEncoding P]

section Encoding

open RistrettoPoint (decompress)
open RistrettoEncoding (compress)

def Ciphertext.compress (e : Ciphertext P) : CompressedCiphertext where
  commitment := RistrettoEncoding.compress e.commitment
  handle := RistrettoEncoding.compress e.handle

def CompressedCiphertext.decompress (c : CompressedCiphertext) : Except DecompressionError (Ciphertext P) :=
  match RistrettoPoint.decompress c.commitment, RistrettoPoint.decompress c.handle with
  | some commitment, some handle => .ok ⟨commitment, handle⟩
  | _, _ => .error {}

theorem decompress_eq_ok_iff (c : CompressedCiphertext) (e : Ciphertext P) :
    CompressedCiphertext.decompress c = .ok e ↔ c = Ciphertext.compress e := by
  obtain ⟨c₁, c₂⟩ := c
  obtain ⟨e₁, e₂⟩ := e
  have h₁ := RistrettoEncoding.decompress_eq_some_iff c₁ e₁
  have h₂ := RistrettoEncoding.decompress_eq_some_iff c₂ e₂
  unfold Ciphertext.compress
  simp only [CompressedCiphertext.mk.injEq, ← h₁, ← h₂]
  unfold CompressedCiphertext.decompress
  split
  · rename_i hcommitment hhandle
    simp [hcommitment, hhandle]
  · rename_i hnone
    refine ⟨nofun, ?_⟩
    rintro ⟨hcommitment, hhandle⟩
    exact absurd hhandle (hnone _ _ hcommitment)

theorem decompress_compress (e : Ciphertext P) : CompressedCiphertext.decompress (Ciphertext.compress e) = .ok e :=
  (decompress_eq_ok_iff _ e).mpr rfl

theorem compress_injective : Function.Injective (Ciphertext.compress : Ciphertext P → CompressedCiphertext) := by
  intro a b h
  exact Except.ok.inj ((decompress_compress a).symm.trans (h ▸ decompress_compress b))

end Encoding

/-- The flag is set when the ciphertext may have changed since it was compressed. -/
inductive CiphertextCache (P : Type) [RistrettoEncoding P] where
  | ofCompressed (c : CompressedCiphertext)
  | ofDecompressed (e : Ciphertext P)
  | ofBoth (c : CompressedCiphertext) (e : Ciphertext P) (dirty : Bool) (fresh : dirty = false → c = Ciphertext.compress e)

namespace CiphertextCache

/-- The ciphertext to compute with, and what is left of the cache once it was written through the reference. -/
def computable : CiphertextCache P → Except DecompressionError (Ciphertext P × (Ciphertext P → CiphertextCache P))
  | ofCompressed c => do
    let decompressed ← CompressedCiphertext.decompress c
    return (decompressed, ofDecompressed)
  | ofDecompressed e => return (e, ofDecompressed)
  | ofBoth c e _ _ => return (e, fun e' => ofBoth c e' true nofun)

def compress : CiphertextCache P → CompressedCiphertext
  | ofCompressed c => c
  | ofDecompressed e => Ciphertext.compress e
  | ofBoth c e dirty _ => if dirty then Ciphertext.compress e else c

/-- The flag stays as it is: a cache that was changed is compressed again each time. -/
def compressed : CiphertextCache P → CompressedCiphertext × CiphertextCache P
  | ofCompressed c => (c, ofCompressed c)
  | ofDecompressed e => (Ciphertext.compress e, ofBoth (Ciphertext.compress e) e false fun _ => rfl)
  | ofBoth c e dirty fresh =>
    if dirty then (Ciphertext.compress e, ofBoth (Ciphertext.compress e) e dirty fun _ => rfl) else (c, ofBoth c e dirty fresh)

def decompressed : CiphertextCache P → Except DecompressionError (Ciphertext P × CiphertextCache P)
  | ofCompressed c =>
    match h : CompressedCiphertext.decompress c with
    | .ok e => .ok (e, ofBoth c e false fun _ => (decompress_eq_ok_iff c e).mp h)
    | .error error => .error error
  | ofDecompressed e => .ok (e, ofDecompressed e)
  | ofBoth c e dirty fresh => .ok (e, ofBoth c e dirty fresh)

def both : CiphertextCache P → Except DecompressionError ((CompressedCiphertext × Ciphertext P) × CiphertextCache P)
  | ofBoth c e dirty fresh =>
    if dirty then .ok ((Ciphertext.compress e, e), ofBoth (Ciphertext.compress e) e dirty fun _ => rfl)
    else .ok ((c, e), ofBoth c e dirty fresh)
  | ofCompressed c =>
    match h : CompressedCiphertext.decompress c with
    | .ok e => .ok ((c, e), ofBoth c e false fun _ => (decompress_eq_ok_iff c e).mp h)
    | .error error => .error error
  | ofDecompressed e => .ok ((Ciphertext.compress e, e), ofBoth (Ciphertext.compress e) e false fun _ => rfl)

def takeCiphertext : CiphertextCache P → Except DecompressionError (Ciphertext P)
  | ofCompressed c => CompressedCiphertext.decompress c
  | ofDecompressed e => return e
  | ofBoth _ e _ _ => return e

def write (cache : CiphertextCache P) : IVec := cache.compress.write

def read : Reader (CiphertextCache P) := do return ofCompressed (← CompressedCiphertext.read)

def size (_ : CiphertextCache P) : Nat := 32 + 32

end CiphertextCache

/-- What can be done with a cache. The ciphertext that `computable` hands out is changed through its reference. -/
inductive CacheCall (P : Type) where
  | computable (change : Ciphertext P → Ciphertext P)
  | compress
  | compressed
  | decompressed
  | both
  | clone
  | store

inductive CacheAnswer (P : Type) where
  | compressed (c : CompressedCiphertext)
  | ciphertext (e : Ciphertext P)
  | both (c : CompressedCiphertext) (e : Ciphertext P)
  | bytes (bytes : IVec)
  | done
  | failed

/-- A call that fails leaves the cache as it was. Storing writes the cache and reads it again. -/
def CiphertextCache.call (cache : CiphertextCache P) : CacheCall P → CacheAnswer P × CiphertextCache P
  | .computable change =>
    match cache.computable with
    | .ok (e, put) => (.ciphertext e, put (change e))
    | .error _ => (.failed, cache)
  | .compress => (.compressed cache.compress, cache)
  | .compressed => (.compressed cache.compressed.1, cache.compressed.2)
  | .decompressed =>
    match cache.decompressed with
    | .ok (e, cache) => (.ciphertext e, cache)
    | .error _ => (.failed, cache)
  | .both =>
    match cache.both with
    | .ok ((c, e), cache) => (.both c e, cache)
    | .error _ => (.failed, cache)
  | .clone => (.done, cache)
  | .store =>
    match CiphertextCache.read cache.write with
    | .ok (cache', _) => (.bytes cache.write, cache')
    | .error _ => (.failed, cache)

/-- A cell that holds one compressed ciphertext and nothing else. -/
def CompressedCiphertext.call (c : CompressedCiphertext) : CacheCall P → CacheAnswer P × CompressedCiphertext
  | .computable change =>
    match CompressedCiphertext.decompress c with
    | .ok e => (.ciphertext e, Ciphertext.compress (change e))
    | .error _ => (.failed, c)
  | .compress => (.compressed c, c)
  | .compressed => (.compressed c, c)
  | .decompressed =>
    match (CompressedCiphertext.decompress c : Except DecompressionError (Ciphertext P)) with
    | .ok e => (.ciphertext e, c)
    | .error _ => (.failed, c)
  | .both =>
    match (CompressedCiphertext.decompress c : Except DecompressionError (Ciphertext P)) with
    | .ok e => (.both c e, c)
    | .error _ => (.failed, c)
  | .clone => (.done, c)
  | .store => (.bytes c.write, c)

namespace CiphertextCache

def denotes : CiphertextCache P → CompressedCiphertext
  | ofCompressed c => c
  | ofDecompressed e => Ciphertext.compress e
  | ofBoth _ e _ _ => Ciphertext.compress e

variable (cache : CiphertextCache P)

theorem compress_eq : cache.compress = cache.denotes := by
  cases cache with
  | ofCompressed c => rfl
  | ofDecompressed e => rfl
  | ofBoth c e dirty fresh =>
    cases dirty with
    | false => exact fresh rfl
    | true => rfl

theorem compressed_eq : cache.compressed.1 = cache.denotes ∧ cache.compressed.2.denotes = cache.denotes := by
  cases cache with
  | ofCompressed c => exact ⟨rfl, rfl⟩
  | ofDecompressed e => exact ⟨rfl, rfl⟩
  | ofBoth c e dirty fresh =>
    cases dirty with
    | false => exact ⟨fresh rfl, rfl⟩
    | true => exact ⟨rfl, rfl⟩

theorem takeCiphertext_eq : cache.takeCiphertext = CompressedCiphertext.decompress cache.denotes := by
  cases cache with
  | ofCompressed c => rfl
  | ofDecompressed e => exact (decompress_compress e).symm
  | ofBoth c e dirty fresh => exact (decompress_compress e).symm

variable {e : Ciphertext P}

theorem computable_ok {cache : CiphertextCache P} {put : Ciphertext P → CiphertextCache P}
    (h : cache.computable = .ok (e, put)) :
    cache.denotes = Ciphertext.compress e ∧ ∀ e', (put e').denotes = Ciphertext.compress e' := by
  cases cache with
  | ofCompressed c =>
    obtain ⟨e', hdecompress, heq⟩ := Lib.Exec.except_bind_ok_iff.mp h
    cases heq
    exact ⟨(decompress_eq_ok_iff c e).mp hdecompress, fun _ => rfl⟩
  | ofDecompressed e =>
    cases h
    exact ⟨rfl, fun _ => rfl⟩
  | ofBoth c e dirty fresh =>
    cases h
    exact ⟨rfl, fun _ => rfl⟩

variable {error : DecompressionError}

theorem computable_error {cache : CiphertextCache P} (h : cache.computable = .error error) :
    (CompressedCiphertext.decompress cache.denotes : Except DecompressionError (Ciphertext P)) = .error error := by
  cases cache with
  | ofCompressed c =>
    rcases Lib.Exec.except_bind_error_iff.mp h with hdecompress | ⟨e, -, hpure⟩
    · exact hdecompress
    · cases hpure
  | ofDecompressed e => cases h
  | ofBoth c e dirty fresh => cases h

theorem decompressed_ok {cache cache' : CiphertextCache P} (h : cache.decompressed = .ok (e, cache')) :
    cache.denotes = Ciphertext.compress e ∧ cache'.denotes = cache.denotes := by
  cases cache with
  | ofCompressed c =>
    dsimp only [decompressed] at h
    split at h
    · rename_i e' he'
      cases h
      have hc := (decompress_eq_ok_iff c e).mp he'
      exact ⟨hc, hc.symm⟩
    · cases h
  | ofDecompressed e =>
    cases h
    exact ⟨rfl, rfl⟩
  | ofBoth c e dirty fresh =>
    cases h
    exact ⟨rfl, rfl⟩

theorem decompressed_error {cache : CiphertextCache P} (h : cache.decompressed = .error error) :
    (CompressedCiphertext.decompress cache.denotes : Except DecompressionError (Ciphertext P)) = .error error := by
  cases cache with
  | ofCompressed c =>
    dsimp only [decompressed] at h
    split at h
    · cases h
    · rename_i error' herror
      cases h
      exact herror
  | ofDecompressed e => cases h
  | ofBoth c e dirty fresh => cases h

theorem both_ok {cache cache' : CiphertextCache P} {c : CompressedCiphertext} (h : cache.both = .ok ((c, e), cache')) :
    cache.denotes = Ciphertext.compress e ∧ c = cache.denotes ∧ cache'.denotes = cache.denotes := by
  cases cache with
  | ofCompressed c' =>
    dsimp only [both] at h
    split at h
    · rename_i e' he'
      cases h
      have hc := (decompress_eq_ok_iff c e).mp he'
      exact ⟨hc, rfl, hc.symm⟩
    · cases h
  | ofDecompressed e =>
    cases h
    exact ⟨rfl, rfl, rfl⟩
  | ofBoth c' e' dirty fresh =>
    dsimp only [both] at h
    split at h
    · cases h
      exact ⟨rfl, rfl, rfl⟩
    · rename_i hclean
      cases h
      exact ⟨rfl, fresh (Bool.eq_false_iff.mpr hclean), rfl⟩

theorem both_error {cache : CiphertextCache P} (h : cache.both = .error error) :
    (CompressedCiphertext.decompress cache.denotes : Except DecompressionError (Ciphertext P)) = .error error := by
  cases cache with
  | ofCompressed c =>
    dsimp only [both] at h
    split at h
    · cases h
    · rename_i error' herror
      cases h
      exact herror
  | ofDecompressed e => cases h
  | ofBoth c e dirty fresh =>
    dsimp only [both] at h
    split at h
    · cases h
    · cases h

theorem read_reads : Lib.Reader.Reads read cache.write (ofCompressed cache.denotes : CiphertextCache P) := by
  rw [write, compress_eq]
  exact (Wire.CompressedCiphertext.read_reads cache.denotes).map fun c => (ofCompressed c : CiphertextCache P)

theorem call_eq (call : CacheCall P) :
    CompressedCiphertext.call cache.denotes call = ((cache.call call).1, (cache.call call).2.denotes) := by
  cases call with
  | computable change =>
    unfold CiphertextCache.call CompressedCiphertext.call
    cases h : cache.computable with
    | ok answer =>
      obtain ⟨hdenotes, hput⟩ := computable_ok h
      rw [hdenotes, decompress_compress]
      dsimp only
      rw [hput]
    | error error => rw [computable_error h]
  | compress => exact congrArg (fun c => (CacheAnswer.compressed c, cache.denotes)) (compress_eq cache).symm
  | compressed =>
    unfold CiphertextCache.call CompressedCiphertext.call
    rw [(compressed_eq cache).1, (compressed_eq cache).2]
  | decompressed =>
    unfold CiphertextCache.call CompressedCiphertext.call
    cases h : cache.decompressed with
    | ok answer =>
      obtain ⟨hdenotes, hkept⟩ := decompressed_ok h
      dsimp only
      rw [hkept, hdenotes, decompress_compress]
    | error error => rw [decompressed_error h]
  | both =>
    unfold CiphertextCache.call CompressedCiphertext.call
    cases h : cache.both with
    | ok answer =>
      obtain ⟨hdenotes, hcompressed, hkept⟩ := both_ok h
      dsimp only
      rw [hkept, hcompressed, hdenotes, decompress_compress]
    | error error => rw [both_error h]
  | clone => rfl
  | store =>
    have hread := read_reads cache []
    rw [List.append_nil] at hread
    unfold CiphertextCache.call CompressedCiphertext.call
    rw [hread]
    dsimp only
    rw [write, compress_eq]
    rfl

theorem answers_eq (calls : List (CacheCall P)) :
    Lib.answers CompressedCiphertext.call cache.denotes calls =
      ((Lib.answers CiphertextCache.call cache calls).1, (Lib.answers CiphertextCache.call cache calls).2.denotes) := by
  have hstep : ∀ cache : CiphertextCache P, ∀ call ∈ calls, True → CompressedCiphertext.call cache.denotes (id call) =
      ((cache.call call).1, (cache.call call).2.denotes) ∧ True := fun cache call _ _ => ⟨call_eq cache call, trivial⟩
  have hview := Lib.answers_view denotes id (fun _ => True) hstep cache trivial
  rw [List.map_id] at hview
  exact hview.1

/-- Everything that looks at the cache sees the ciphertext. -/
structure Holds (cache : CiphertextCache P) (e : Ciphertext P) : Prop where
  compress : cache.compress = Ciphertext.compress e
  compressed : cache.compressed.1 = Ciphertext.compress e
  decompressed : cache.decompressed.map Prod.fst = .ok e
  both : cache.both.map Prod.fst = .ok (Ciphertext.compress e, e)
  takeCiphertext : cache.takeCiphertext = .ok e
  write : cache.write = (Ciphertext.compress e).write

theorem holds_iff {cache : CiphertextCache P} : cache.Holds e ↔ cache.denotes = Ciphertext.compress e := by
  constructor
  · intro h
    rw [← compress_eq, h.compress]
  · intro h
    have hdecompress : CompressedCiphertext.decompress cache.denotes = .ok e := (decompress_eq_ok_iff _ e).mpr h
    refine ⟨(compress_eq cache).trans h, (compressed_eq cache).1.trans h, ?_, ?_, (takeCiphertext_eq cache).trans hdecompress, ?_⟩
    · cases hresult : cache.decompressed with
      | error error => exact absurd ((decompressed_error hresult).symm.trans hdecompress) nofun
      | ok answer => exact congrArg Except.ok (compress_injective ((decompressed_ok hresult).1.symm.trans h))
    · cases hresult : cache.both with
      | error error => exact absurd ((both_error hresult).symm.trans hdecompress) nofun
      | ok answer =>
        obtain ⟨he, hc, -⟩ := both_ok hresult
        exact congrArg Except.ok (Prod.ext (hc.trans h) (compress_injective (he.symm.trans h)))
    · rw [CiphertextCache.write, compress_eq, h]

theorem denotes_answers {calls : List (CacheCall P)} (h : ∀ call ∈ calls, ∀ change, call ≠ .computable change) :
    (Lib.answers CiphertextCache.call cache calls).2.denotes = cache.denotes := by
  refine Lib.answers_keeps denotes (fun call hcall cache => ?_) cache
  have hkept : (CompressedCiphertext.call cache.denotes call).2 = cache.denotes := by
    unfold CompressedCiphertext.call
    cases call with
    | computable change => exact absurd rfl (h _ hcall change)
    | decompressed =>
      dsimp only
      split <;> rfl
    | both =>
      dsimp only
      split <;> rfl
    | _ => rfl
  rw [← hkept, call_eq]

end CiphertextCache

end Xelis.Account
