import Xelis.Common.Serializer

namespace Xelis.P2p

open Lib.Reader (Reads readDistinct)

def CHAIN_SYNC_REQUEST_EXPONENTIAL_INDEX_START : Nat := 30

def CHAIN_SYNC_REQUEST_MAX_BLOCKS : Nat := 64

def CHAIN_SYNC_RESPONSE_MIN_BLOCKS : Nat := 512

def CHAIN_SYNC_RESPONSE_MAX_BLOCKS : Nat := 16384

structure BlockId where
  hash : Hash
  topoheight : Nat
  deriving DecidableEq, Repr

namespace BlockId

def write (id : BlockId) : IVec := writeHash id.hash ++ writeU64 id.topoheight

def read : Reader BlockId := do
  let hash ← readHash
  let topoheight ← readU64
  return { hash, topoheight }

/-- Two ids are the same element of a set when their hashes are. -/
def insert (blocks : List BlockId) (id : BlockId) : List BlockId :=
  if id.hash ∈ blocks.map hash then blocks else blocks ++ [id]

theorem read_reads {id : BlockId} (h : id.topoheight < U64_RANGE) : Reads read id.write id := by
  have hread := (readU64_reads h).bind (f := fun topoheight => Pure.pure (⟨id.hash, topoheight⟩ : BlockId)) (Lib.Reader.Reads.pure _)
  rw [List.append_nil] at hread
  exact (readHash_reads id.hash).bind hread

end BlockId

/-- The length byte and the ids of a request; none, too many or a repeated hash are refused. -/
def readBlockIds : Reader (List BlockId) := do
  let len ← readU8
  if len = 0 ∨ len > CHAIN_SYNC_REQUEST_MAX_BLOCKS then throw .invalidValue
  readDistinct .invalidValue BlockId.hash BlockId.read len []

structure ChainRequest where
  blocks : List BlockId
  acceptedResponseSize : Nat
  deriving DecidableEq, Repr

namespace ChainRequest

def write (request : ChainRequest) : IVec :=
  writeU8 request.blocks.length ++ request.blocks.flatMap BlockId.write ++ writeU16 request.acceptedResponseSize

def read : Reader ChainRequest := do
  let blocks ← readBlockIds
  let acceptedResponseSize ← readU16
  -- the requested response size must be in the protocol bounds
  if acceptedResponseSize < CHAIN_SYNC_RESPONSE_MIN_BLOCKS ∨ acceptedResponseSize > CHAIN_SYNC_RESPONSE_MAX_BLOCKS then
    throw .invalidValue
  return { blocks, acceptedResponseSize }

end ChainRequest

/-- What a fast sync asks for. -/
inductive StepRequest where
  | chainInfo (blocks : List BlockId)
  | assets (min max : TopoHeight) (page : Option Nat)
  | keys (min max : TopoHeight) (page : Option Nat)
  | balances (keys : List PublicKey) (asset : Hash) (min max : TopoHeight)
  | spendableBalances (key : PublicKey) (asset : Hash) (min max : TopoHeight)
  | nonces (min max : TopoHeight) (keys : List PublicKey)
  | multiSigs (min max : TopoHeight) (keys : List PublicKey)
  | contracts (min max : TopoHeight) (page : Option Nat)
  | contractMetadata (min max : TopoHeight) (contract : Hash)
  | blocksMetadata (topoheight : TopoHeight)
  deriving DecidableEq, Repr

namespace StepRequest

/-- Page zero is asked for without a number. -/
def readPage : Reader (Option Nat) := do
  let page ← readOption readU64
  if page = some 0 then throw .invalidValue
  return page

/-- A range of topoheights whose bounds are in order. -/
def readRange : Reader (TopoHeight × TopoHeight) := do
  let min ← readU64
  let max ← readU64
  if min > max then throw .invalidValue
  return (min, max)

def read : Reader StepRequest := do
  match ← readU8 with
  | 0 => return .chainInfo (← readBlockIds)
  | 1 =>
    let (min, max) ← readRange
    return .assets min max (← readPage)
  | 2 =>
    let (min, max) ← readRange
    return .keys min max (← readPage)
  | 3 =>
    let keys ← readIndexSet readHash
    let asset ← readHash
    let (min, max) ← readRange
    return .balances keys asset min max
  | 4 =>
    let key ← readHash
    let asset ← readHash
    let (min, max) ← readRange
    return .spendableBalances key asset min max
  | 5 =>
    let min ← readU64
    let max ← readU64
    return .nonces min max (← readIndexSet readHash)
  | 6 =>
    let min ← readU64
    let max ← readU64
    return .multiSigs min max (← readIndexSet readHash)
  | 7 =>
    let min ← readU64
    let max ← readU64
    return .contracts min max (← readPage)
  | 8 =>
    let min ← readU64
    let max ← readU64
    return .contractMetadata min max (← readHash)
  | 9 => return .blocksMetadata (← readU64)
  | _ => throw .invalidValue

end StepRequest

/-- Lists that one of the two requests can bring. -/
def Readable (blocks : List BlockId) : Prop :=
  (∃ bytes request rest, ChainRequest.read bytes = .ok (request, rest) ∧ request.blocks = blocks) ∨
    ∃ bytes rest, StepRequest.read bytes = .ok (.chainInfo blocks, rest)

end Xelis.P2p
