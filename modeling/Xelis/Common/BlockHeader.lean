import Xelis.Common.Block
import Xelis.Common.Serializer

namespace Xelis

open Lib (Codec)
open Lib.Reader (takeBytes readDistinct)

def TIPS_LIMIT : Nat := 3

def HASH_SIZE : Nat := 32

def EXTRA_NONCE_SIZE : Nat := 32

/-- The hash of the work, the timestamp, the nonce, the extra nonce and the miner. -/
def BLOCK_WORK_SIZE : Nat := 112

namespace BlockVersion

def write : BlockVersion → IVec
  | v0 => writeU8 0
  | v1 => writeU8 1
  | v2 => writeU8 2
  | v3 => writeU8 3

def read : Reader BlockVersion := do
  match ← readU8 with
  | 0 => return v0
  | 1 => return v1
  | 2 => return v2
  | 3 => return v3
  | _ => throw .invalidValue

@[simp] theorem length_write (version : BlockVersion) : version.write.length = 1 := by
  cases version <;> rfl

theorem codec : Codec (fun _ => read) write (fun _ => True) := by
  refine Codec.tagged (fun version _ => by cases version <;> exact List.cons_ne_nil _ _) fun t => ?_
  match t with
  | 0 => exact Codec.pure rfl fun version => by cases version <;> simp [write]
  | 1 => exact Codec.pure rfl fun version => by cases version <;> simp [write]
  | 2 => exact Codec.pure rfl fun version => by cases version <;> simp [write]
  | 3 => exact Codec.pure rfl fun version => by cases version <;> simp [write]
  | t + 4 => exact Codec.throw fun version => by cases version <;> simp [write]

end BlockVersion

namespace BlockHeader

def write (header : BlockHeader) : IVec :=
  header.version.write ++ (writeU64 header.height ++ (writeU64 header.timestamp ++ (writeU64 header.nonce ++
    (header.extraNonce ++ ((writeU8 header.tips.length ++ header.tips.flatMap writeHash) ++
    ((writeU16 header.txsHashes.length ++ header.txsHashes.flatMap writeHash) ++ writeHash header.miner))))))

/-- More tips than the limit and a repeated one are refused. -/
def readTips : Reader (List Hash) := do
  let tipsCount ← readU8
  if tipsCount > TIPS_LIMIT then throw .invalidValue
  else readDistinct .invalidValue id readHash tipsCount []

def readTxsHashes : Reader (List Hash) := do
  let txsCount ← readU16
  readDistinct .invalidValue id readHash txsCount []

def read : Reader BlockHeader := do
  let version ← BlockVersion.read
  let height ← readU64
  let timestamp ← readU64
  let nonce ← readU64
  let extraNonce ← takeBytes .invalidSize EXTRA_NONCE_SIZE
  let tips ← readTips
  let txsHashes ← readTxsHashes
  let miner ← readHash
  return { version, extraNonce, height, timestamp, tips, miner, nonce, txsHashes }

def size (header : BlockHeader) : Nat :=
  let tipsSize := 1 + header.tips.length * HASH_SIZE
  let txsSize := 2 + header.txsHashes.length * HASH_SIZE
  let versionSize := 1
  EXTRA_NONCE_SIZE + tipsSize + txsSize + versionSize + 32 + 8 + 8 + 8

/-- The numbers and the extra nonce have their width, and the tips and transactions are sets of a size that is read back. -/
structure Valid (header : BlockHeader) : Prop where
  height : header.height < U64_RANGE
  timestamp : header.timestamp < U64_RANGE
  nonce : header.nonce < U64_RANGE
  extraNonce : header.extraNonce.length = EXTRA_NONCE_SIZE
  tips_le : header.tips.length ≤ TIPS_LIMIT
  tips_nodup : header.tips.Nodup
  txsHashes_lt : header.txsHashes.length < 2 ^ 16
  txsHashes_nodup : header.txsHashes.Nodup

theorem tips_codec : Codec (fun _ => readTips) (fun tips => writeU8 tips.length ++ tips.flatMap writeHash)
    (fun tips => tips.length ≤ TIPS_LIMIT ∧ tips.Nodup) := by
  refine u8_codec.bind (p := List.length) (fun tips h => Nat.lt_of_le_of_lt h.1 (by decide)) fun n _ => ?_
  refine Codec.guard (fun hle => (hash_codec.distinct id n).congr fun tips => ?_) fun hgt tips h => ?_
  · rw [List.map_id]
    constructor
    · rintro ⟨rfl, hnodup, -⟩
      exact ⟨rfl, Nat.le_of_not_lt hle, hnodup⟩
    · rintro ⟨hlen, -, hnodup⟩
      exact ⟨hlen, hnodup, fun _ _ => trivial⟩
  · obtain ⟨rfl, hle, -⟩ := h
    exact Nat.not_le_of_lt hgt hle

theorem txsHashes_codec : Codec (fun _ => readTxsHashes) (fun hashes => writeU16 hashes.length ++ hashes.flatMap writeHash)
    (fun hashes => hashes.length < 2 ^ 16 ∧ hashes.Nodup) := by
  refine u16_codec.bind (p := List.length) (fun _ h => h.1) fun n hn => (hash_codec.distinct id n).congr fun hashes => ?_
  rw [List.map_id]
  constructor
  · rintro ⟨rfl, hnodup, -⟩
    exact ⟨rfl, hn, hnodup⟩
  · rintro ⟨hlen, -, hnodup⟩
    exact ⟨hlen, hnodup, fun _ _ => trivial⟩

theorem codec : Codec (fun _ => read) write Valid := by
  refine BlockVersion.codec.bind (p := version) (fun _ _ => trivial) fun version _ => ?_
  refine u64_codec.bind (p := BlockHeader.height) (fun _ h => h.2.height) fun height hheight => ?_
  refine u64_codec.bind (p := BlockHeader.timestamp) (fun _ h => h.2.2.timestamp) fun timestamp htimestamp => ?_
  refine u64_codec.bind (p := BlockHeader.nonce) (fun _ h => h.2.2.2.nonce) fun nonce hnonce => ?_
  refine (Codec.take ReaderError.invalidSize EXTRA_NONCE_SIZE).bind (p := BlockHeader.extraNonce)
    (fun _ h => h.2.2.2.2.extraNonce) fun extraNonce hextra => ?_
  refine tips_codec.bind (p := BlockHeader.tips) (fun _ h => ⟨h.2.2.2.2.2.tips_le, h.2.2.2.2.2.tips_nodup⟩) fun tips htips => ?_
  refine txsHashes_codec.bind (p := BlockHeader.txsHashes)
    (fun _ h => ⟨h.2.2.2.2.2.2.txsHashes_lt, h.2.2.2.2.2.2.txsHashes_nodup⟩) fun txsHashes htxs => ?_
  refine hash_codec.map (fun _ _ => rfl) fun header => ?_
  constructor
  · rintro ⟨rfl, rfl, rfl, rfl, rfl, rfl, rfl, -⟩
    exact ⟨header.miner, trivial, rfl⟩
  · rintro ⟨miner, -, rfl⟩
    refine ⟨rfl, rfl, rfl, rfl, rfl, rfl, rfl, ?_⟩
    exact ⟨hheight, htimestamp, hnonce, hextra, htips.1, htips.2, htxs.1, htxs.2⟩

theorem length_flatMap_writeHash (hashes : List Hash) : (hashes.flatMap writeHash).length = 32 * hashes.length := by
  induction hashes with
  | nil => rfl
  | cons hash hashes ih =>
    rw [List.flatMap_cons, List.length_append, length_writeHash, ih, List.length_cons]
    omega

theorem size_eq_length_write (header : BlockHeader) (h : header.extraNonce.length = EXTRA_NONCE_SIZE) :
    header.size = header.write.length := by
  unfold size write
  simp only [List.length_append, length_writeU64, length_writeU8, length_writeU16, length_writeHash, BlockVersion.length_write,
    h, length_flatMap_writeHash, HASH_SIZE]
  omega

section Hashes

variable (blake3 : IVec → Hash)

def getTipsHash (header : BlockHeader) : Hash := blake3 (header.tips.flatMap writeHash)

def getTxsHash (header : BlockHeader) : Hash := blake3 (header.txsHashes.flatMap writeHash)

/-- The part of the header that a miner does not change. -/
def getWork (header : BlockHeader) : IVec :=
  header.version.write ++ writeU64 header.height ++ writeHash (header.getTipsHash blake3) ++ writeHash (header.getTxsHash blake3)

def getWorkHash (header : BlockHeader) : Hash := blake3 (header.getWork blake3)

def getSerializedHeader (header : BlockHeader) : IVec :=
  writeHash (header.getWorkHash blake3) ++ writeU64 header.timestamp ++ writeU64 header.nonce ++ header.extraNonce ++
    writeHash header.miner

def hash (header : BlockHeader) : Hash := blake3 (header.getSerializedHeader blake3)

end Hashes

end BlockHeader

end Xelis
