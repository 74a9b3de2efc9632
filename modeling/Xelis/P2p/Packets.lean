import Mathlib.Algebra.Order.BigOperators.Group.List
import Xelis.Common.BlockHeader
import Xelis.Common.Network
import Xelis.P2p.CommonPoint
import Xelis.Wire.Account
import Xelis.Wire.Transaction

/-! The bytes of the packets of a chain sync, a fast sync and a handshake, and the sizes the packets give for them. -/

namespace Xelis.P2p

open Lib (Codec)
open Lib.Reader (Reads readDistinct takeBytes)
open Wire

def CHAIN_SYNC_TOP_BLOCKS : Nat := 10

/-- A packet is read back from what is written of it, and its size is right exactly when `c` holds. -/
def Packed {α : Type} (read : Reader α) (write : α → IVec) (size : α → Nat) (x : α) (c : Prop) : Prop :=
  read (write x) = .ok (x, []) ∧ (size x = (write x).length ↔ c)

theorem Packed.of_reads {α : Type} {read : Reader α} {write : α → IVec} {size : α → Nat} {x : α} {c : Prop}
    (h : Reads read (write x) x) (hsize : size x = (write x).length ↔ c) : Packed read write size x c := by
  have hread := h []
  rw [List.append_nil] at hread
  exact ⟨hread, hsize⟩

theorem sum_map_eq_iff_of_le {α : Type} {f g : α → Nat} {xs : List α} (h : ∀ x ∈ xs, f x ≤ g x) :
    (xs.map f).sum = (xs.map g).sum ↔ ∀ x ∈ xs, f x = g x := by
  induction xs with
  | nil => simp
  | cons x xs ih =>
    obtain ⟨hx, hxs⟩ := List.forall_mem_cons.mp h
    have hsum : (xs.map f).sum ≤ (xs.map g).sum := List.sum_le_sum hxs
    rw [List.map_cons, List.map_cons, List.sum_cons, List.sum_cons, List.forall_mem_cons, ← ih hxs]
    omega

/-- Ids that can be sent: at least one, at most 64, and different ones. -/
structure BlockIdsValid (blocks : List BlockId) : Prop where
  nonempty : blocks ≠ []
  length_le : blocks.length ≤ CHAIN_SYNC_REQUEST_MAX_BLOCKS
  nodup : (blocks.map BlockId.hash).Nodup
  topoheight : ∀ id ∈ blocks, id.topoheight < U64_RANGE

def writeBlockIds (blocks : List BlockId) : IVec := writeU8 blocks.length ++ blocks.flatMap BlockId.write

theorem readBlockIds_reads {blocks : List BlockId} (h : BlockIdsValid blocks) :
    Reads readBlockIds (writeBlockIds blocks) blocks := by
  have hlen := h.length_le
  refine (readU8_reads (Nat.lt_of_le_of_lt hlen (by decide))).bind ?_
  rw [if_neg (by
    rw [not_or, Nat.not_lt]
    exact ⟨fun hzero => h.nonempty (List.eq_nil_of_length_eq_zero hzero), hlen⟩)]
  exact Lib.Reader.readDistinct_reads (fun id hid => BlockId.read_reads (h.topoheight id hid)) [] h.nodup

theorem length_writeBlockId (id : BlockId) : id.write.length = 32 + 8 := by
  rw [BlockId.write, List.length_append, length_writeHash, length_writeU64]

theorem length_writeBlockIds (blocks : List BlockId) : (writeBlockIds blocks).length = 1 + blocks.length * (32 + 8) := by
  unfold writeBlockIds
  rw [List.length_append, length_writeU8, List.length_flatMap]
  simp only [length_writeBlockId, List.map_const', List.sum_replicate_nat]

namespace ChainRequest

/-- The ids are counted, and not what they are written in. -/
def size (request : ChainRequest) : Nat := 1 + request.blocks.length + 2

structure Valid (request : ChainRequest) : Prop where
  blocks : BlockIdsValid request.blocks
  min_le : CHAIN_SYNC_RESPONSE_MIN_BLOCKS ≤ request.acceptedResponseSize
  le_max : request.acceptedResponseSize ≤ CHAIN_SYNC_RESPONSE_MAX_BLOCKS

variable {request : ChainRequest}

theorem read_reads (h : request.Valid) : Reads read request.write request := by
  have hlt : request.acceptedResponseSize < 2 ^ 16 := Nat.lt_of_le_of_lt h.le_max (by decide)
  have hbounds : ¬(request.acceptedResponseSize < CHAIN_SYNC_RESPONSE_MIN_BLOCKS ∨
      request.acceptedResponseSize > CHAIN_SYNC_RESPONSE_MAX_BLOCKS) := by
    rw [not_or, Nat.not_lt, Nat.not_lt]
    exact ⟨h.min_le, h.le_max⟩
  unfold read
  exact (readBlockIds_reads h.blocks).bind ((readU16_reads hlt).bind_pure (if_neg hbounds))

theorem packed (h : request.Valid) : Packed read write size request False := by
  refine Packed.of_reads (read_reads h) (iff_false_intro fun hsize => ?_)
  have hpos : 0 < request.blocks.length := List.length_pos_iff.mpr h.blocks.nonempty
  have hids := length_writeBlockIds request.blocks
  unfold size write at hsize
  rw [List.length_append, length_writeU16, show writeU8 _ ++ _ = writeBlockIds request.blocks from rfl, hids] at hsize
  omega

end ChainRequest

namespace CommonPoint

def write (point : CommonPoint) : IVec := writeHash point.hash ++ writeU64 point.topoheight

def read : Reader CommonPoint := do
  let hash ← readHash
  let topoheight ← readU64
  return { hash, topoheight }

def size (_ : CommonPoint) : Nat := 32 + 8

theorem read_reads {point : CommonPoint} (h : point.topoheight < U64_RANGE) : Reads read point.write point :=
  (readHash_reads point.hash).bind ((readU64_reads h).map (CommonPoint.mk point.hash))

theorem size_eq (point : CommonPoint) : point.size = point.write.length := by
  rw [write, List.length_append, length_writeHash, length_writeU64, size]

end CommonPoint

structure ChainResponse where
  commonPoint : Option CommonPoint
  lowestHeight : Option Nat
  blocks : List Hash
  topBlocks : List Hash
  deriving DecidableEq

namespace ChainResponse

/-- Without a common point nothing else is written. -/
def write (response : ChainResponse) : IVec :=
  writeOption CommonPoint.write response.commonPoint ++
    if response.commonPoint.isNone then []
    else response.lowestHeight.elim [] writeU64 ++
      ((writeU16 response.blocks.length ++ response.blocks.flatMap writeHash) ++
      (writeU8 response.topBlocks.length ++ response.topBlocks.flatMap writeHash))

def readBlocks : Reader (List Hash) := do
  let len ← readU16
  if len > CHAIN_SYNC_RESPONSE_MAX_BLOCKS then throw .invalidValue
  else readDistinct .invalidValue id readHash len []

/-- A top block must not stand among the blocks either. -/
def readTop (blocks : List Hash) : Nat → List Hash → Reader (List Hash)
  | 0, topBlocks => return topBlocks
  | n + 1, topBlocks => do
    let hash ← readHash
    if hash ∈ blocks ∨ hash ∈ topBlocks then throw .invalidValue else readTop blocks n (topBlocks ++ [hash])

def readTopBlocks (blocks : List Hash) : Reader (List Hash) := do
  let len ← readU8
  if len > CHAIN_SYNC_TOP_BLOCKS * TIPS_LIMIT then throw .invalidValue else readTop blocks len []

def read : Reader ChainResponse := do
  let commonPoint ← readOption CommonPoint.read
  if commonPoint.isNone then return { commonPoint := none, lowestHeight := none, blocks := [], topBlocks := [] }
  else do
    let lowestHeight ← readU64
    let blocks ← readBlocks
    let topBlocks ← readTopBlocks blocks
    return { commonPoint, lowestHeight := some lowestHeight, blocks, topBlocks }

/-- The common point is left out, and the hashes are counted without what they are written in. -/
def size (response : ChainResponse) : Nat :=
  if response.commonPoint.isNone then sizeOption CommonPoint.size response.commonPoint
  else response.lowestHeight.elim 0 (fun _ => 8) + 2 + response.blocks.length + 1 + response.topBlocks.length

/-- What an honest node answers: nothing else without a common point, and with one the lowest height, with blocks and top
blocks that are all different. -/
structure Valid (response : ChainResponse) : Prop where
  commonPoint : ∀ point ∈ response.commonPoint, point.topoheight < U64_RANGE
  none_of_none : response.commonPoint = none → response.lowestHeight = none ∧ response.blocks = [] ∧ response.topBlocks = []
  lowestHeight : response.commonPoint ≠ none → ∃ height, response.lowestHeight = some height ∧ height < U64_RANGE
  blocks_le : response.blocks.length ≤ CHAIN_SYNC_RESPONSE_MAX_BLOCKS
  topBlocks_le : response.topBlocks.length ≤ CHAIN_SYNC_TOP_BLOCKS * TIPS_LIMIT
  nodup : (response.blocks ++ response.topBlocks).Nodup

variable {blocks hashes : List Hash}

theorem readTop_reads (before : List Hash) (h : (blocks ++ (before ++ hashes)).Nodup) :
    Reads (readTop blocks hashes.length before) (hashes.flatMap writeHash) (before ++ hashes) := by
  induction hashes generalizing before with
  | nil =>
    rw [List.append_nil]
    exact Reads.pure before
  | cons hash hashes ih =>
    have hsplit : before ++ hash :: hashes = (before ++ [hash]) ++ hashes := by simp
    have hfresh : ¬ (hash ∈ blocks ∨ hash ∈ before) := by
      rw [← List.mem_append]
      intro hmem
      rw [← List.append_assoc] at h
      exact List.disjoint_of_nodup_append h hmem List.mem_cons_self
    rw [List.flatMap_cons]
    refine (readHash_reads hash).bind (Reads.guard hfresh ?_)
    rw [hsplit] at h ⊢
    exact ih _ h

theorem readTopBlocks_reads (hle : hashes.length ≤ CHAIN_SYNC_TOP_BLOCKS * TIPS_LIMIT) (h : (blocks ++ hashes).Nodup) :
    Reads (readTopBlocks blocks) (writeU8 hashes.length ++ hashes.flatMap writeHash) hashes := by
  refine (readU8_reads (Nat.lt_of_le_of_lt hle (by decide))).bind (Reads.guard (Nat.not_lt_of_le hle) ?_)
  exact readTop_reads [] h

theorem readBlocks_reads (hle : hashes.length ≤ CHAIN_SYNC_RESPONSE_MAX_BLOCKS) (h : hashes.Nodup) :
    Reads readBlocks (writeU16 hashes.length ++ hashes.flatMap writeHash) hashes := by
  refine (readU16_reads (Nat.lt_of_le_of_lt hle (by decide))).bind (Reads.guard (Nat.not_lt_of_le hle) ?_)
  exact Lib.Reader.readDistinct_reads (fun hash _ => readHash_reads hash) [] (by rwa [List.nil_append, List.map_id])

variable {response : ChainResponse}

theorem read_reads (h : response.Valid) : Reads read response.write response := by
  obtain ⟨commonPoint, lowestHeight, blocks, topBlocks⟩ := response
  refine (readOption_reads fun point hpoint => CommonPoint.read_reads (h.commonPoint point hpoint)).bind ?_
  cases commonPoint with
  | none =>
    obtain ⟨hlowest, hblocks, htop⟩ := h.none_of_none rfl
    subst hlowest hblocks htop
    exact Reads.pure _
  | some point =>
    obtain ⟨height, hlowest, hlt⟩ := h.lowestHeight (by simp)
    subst hlowest
    refine (readU64_reads hlt).bind ?_
    refine (readBlocks_reads h.blocks_le (List.nodup_append.mp h.nodup).1).bind ?_
    exact (readTopBlocks_reads h.topBlocks_le h.nodup).map (ChainResponse.mk (some point) (some height) blocks)

theorem packed (h : response.Valid) : Packed read write size response (response.commonPoint = none) := by
  refine Packed.of_reads (read_reads h) ?_
  unfold size write
  cases hpoint : response.commonPoint with
  | none => simp [sizeOption, writeOption]
  | some point =>
    obtain ⟨height, hlowest, -⟩ := h.lowestHeight (by simp [hpoint])
    have hwritten := (sizeOption_eq CommonPoint.size_eq (some point)).symm
    simp only [hlowest, Option.isNone_some, Bool.false_eq_true, if_false, List.length_append, hwritten, Option.elim,
      length_writeU64, length_writeU16, length_writeU8, BlockHeader.length_flatMap_writeHash, sizeOption, CommonPoint.size,
      reduceCtorEq, iff_false]
    omega

end ChainResponse

structure BlockMetadata where
  hash : Hash
  supply : Nat
  burnedSupply : Nat
  reward : Nat
  difficulty : Nat
  cumulativeDifficulty : Nat
  p : Nat
  executedTransactions : List Hash
  deriving DecidableEq

namespace BlockMetadata

def write (block : BlockMetadata) : IVec :=
  writeHash block.hash ++ (writeU64 block.supply ++ (writeU64 block.burnedSupply ++ (writeU64 block.reward ++
    (writeVarUint block.difficulty ++ (writeVarUint block.cumulativeDifficulty ++ (writeVarUint block.p ++
    writeVec writeHash block.executedTransactions))))))

/-- Any number of transactions that a block header can hold. -/
def readExecuted : Reader (List Hash) := do
  let len ← readU16
  readDistinct .invalidValue id readHash len []

def read : Reader BlockMetadata := do
  let hash ← readHash
  let supply ← readU64
  let burnedSupply ← readU64
  let reward ← readU64
  let difficulty ← readVarUint
  let cumulativeDifficulty ← readVarUint
  let p ← readVarUint
  let executedTransactions ← readExecuted
  return { hash, supply, burnedSupply, reward, difficulty, cumulativeDifficulty, p, executedTransactions }

def size (block : BlockMetadata) : Nat :=
  32 + 8 + 8 + 8 + (writeVarUint block.difficulty).length + (writeVarUint block.cumulativeDifficulty).length +
    (writeVarUint block.p).length + sizeIndexSet (fun _ => 32) block.executedTransactions

structure Valid (block : BlockMetadata) : Prop where
  supply : block.supply < U64_RANGE
  burnedSupply : block.burnedSupply < U64_RANGE
  reward : block.reward < U64_RANGE
  difficulty : block.difficulty < 2 ^ 256
  cumulativeDifficulty : block.cumulativeDifficulty < 2 ^ 256
  p : block.p < 2 ^ 256
  executed_lt : block.executedTransactions.length < 2 ^ 16
  executed_nodup : block.executedTransactions.Nodup

/-- The bytes of the three numbers and the transactions, in which metadata differ in length. -/
def variableBytes (block : BlockMetadata) : Nat :=
  (varUintBytes block.difficulty).length + (varUintBytes block.cumulativeDifficulty).length + (varUintBytes block.p).length +
    block.executedTransactions.length * 32

variable {block : BlockMetadata}

theorem read_reads (h : block.Valid) : Reads read block.write block := by
  have hexecuted : Reads readExecuted (writeVec writeHash block.executedTransactions) block.executedTransactions :=
    (readU16_reads h.executed_lt).bind (Lib.Reader.readDistinct_reads (fun hash _ => readHash_reads hash) []
      (by rw [List.nil_append, List.map_id]; exact h.executed_nodup))
  refine (readHash_reads block.hash).bind ?_
  refine (readU64_reads h.supply).bind ?_
  refine (readU64_reads h.burnedSupply).bind ?_
  refine (readU64_reads h.reward).bind ?_
  refine (readVarUint_reads h.difficulty).bind ?_
  refine (readVarUint_reads h.cumulativeDifficulty).bind ?_
  refine (readVarUint_reads h.p).bind ?_
  exact hexecuted.map fun executedTransactions => { block with executedTransactions }

theorem size_eq (block : BlockMetadata) : block.size = block.write.length := by
  have hexecuted := sizeIndexSet_eq_of_const (fun _ => rfl) length_writeHash block.executedTransactions
  unfold size write
  simp only [List.length_append, length_writeHash, length_writeU64, hexecuted]
  omega

theorem size_eq_variableBytes (block : BlockMetadata) : block.size = 61 + block.variableBytes := by
  have hexecuted := sizeIndexSet_eq_of_const (fun _ => rfl) length_writeHash block.executedTransactions
  unfold size variableBytes
  rw [hexecuted, writeVec]
  simp only [writeVarUint, List.length_append, length_writeU8, length_writeU16, BlockHeader.length_flatMap_writeHash]
  omega

theorem packed (h : block.Valid) : Packed read write size block True :=
  Packed.of_reads (read_reads h) (iff_true_intro block.size_eq)

end BlockMetadata

namespace StepRequest

def write : StepRequest → IVec
  | chainInfo blocks => writeU8 0 ++ writeBlockIds blocks
  | assets min max page => writeU8 1 ++ (writeU64 min ++ (writeU64 max ++ writeOption writeU64 page))
  | keys min max page => writeU8 2 ++ (writeU64 min ++ (writeU64 max ++ writeOption writeU64 page))
  | balances accounts asset min max => writeU8 3 ++ (writeVec writeHash accounts ++ (writeHash asset ++ (writeU64 min ++ writeU64 max)))
  | spendableBalances key asset min max => writeU8 4 ++ (writeHash key ++ (writeHash asset ++ (writeU64 min ++ writeU64 max)))
  | nonces min max accounts => writeU8 5 ++ (writeU64 min ++ (writeU64 max ++ writeVec writeHash accounts))
  | multiSigs min max accounts => writeU8 6 ++ (writeU64 min ++ (writeU64 max ++ writeVec writeHash accounts))
  | contracts min max page => writeU8 7 ++ (writeU64 min ++ (writeU64 max ++ writeOption writeU64 page))
  | contractMetadata min max contract => writeU8 8 ++ (writeU64 min ++ (writeU64 max ++ writeHash contract))
  | blocksMetadata topoheight => writeU8 9 ++ writeU64 topoheight

/-- The ids of a chain info are measured as a set that brings its own length of two bytes. -/
def size (request : StepRequest) : Nat :=
  (match request with
  | chainInfo blocks => 1 + sizeIndexSet (fun _ => 32 + 8) blocks
  | assets _ _ page => 8 + 8 + sizeOption (fun _ => 8) page
  | keys _ _ page => 8 + 8 + sizeOption (fun _ => 8) page
  | balances accounts _ _ _ => sizeIndexSet (fun _ => 32) accounts + 32 + 8 + 8
  | spendableBalances _ _ _ _ => 32 + 32 + 8 + 8
  | nonces _ _ accounts => 8 + 8 + sizeIndexSet (fun _ => 32) accounts
  | multiSigs _ _ accounts => 8 + 8 + sizeIndexSet (fun _ => 32) accounts
  | contracts _ _ page => 8 + 8 + sizeOption (fun _ => 8) page
  | contractMetadata _ _ _ => 8 + 8 + 32
  | blocksMetadata _ => 8) + 1

/-- Page zero is asked for without a number. -/
def PageValid (page : Option Nat) : Prop := ∀ n ∈ page, n ≠ 0 ∧ n < U64_RANGE

def RangeValid (min max : TopoHeight) : Prop := min ≤ max ∧ max < U64_RANGE

/-- A page of different keys. -/
def KeysValid (keys : List PublicKey) : Prop := keys.length ≤ DEFAULT_MAX_ITEMS ∧ keys.Nodup

def Valid : StepRequest → Prop
  | chainInfo blocks => BlockIdsValid blocks
  | assets min max page => RangeValid min max ∧ PageValid page
  | keys min max page => RangeValid min max ∧ PageValid page
  | balances accounts _ min max => KeysValid accounts ∧ RangeValid min max
  | spendableBalances _ _ min max => RangeValid min max
  | nonces min max accounts => RangeValid min max ∧ KeysValid accounts
  | multiSigs min max accounts => RangeValid min max ∧ KeysValid accounts
  | contracts min max page => RangeValid min max ∧ PageValid page
  | contractMetadata min max _ => RangeValid min max
  | blocksMetadata topoheight => topoheight < U64_RANGE

theorem readPage_reads {page : Option Nat} (h : PageValid page) : Reads readPage (writeOption writeU64 page) page := by
  refine (readOption_reads fun n hn => readU64_reads (h n hn).2).bind_pure (if_neg ?_)
  rintro rfl
  exact (h 0 rfl).1 rfl

variable {min max : TopoHeight}

theorem RangeValid.min_lt (h : RangeValid min max) : min < U64_RANGE := Nat.lt_of_le_of_lt h.1 h.2

theorem readRange_reads (h : RangeValid min max) : Reads readRange (writeU64 min ++ writeU64 max) (min, max) :=
  (readU64_reads h.min_lt).bind ((readU64_reads h.2).bind_pure (if_neg (Nat.not_lt_of_le h.1)))

theorem readKeys_reads {keys : List PublicKey} (h : KeysValid keys) : Reads (readIndexSet readHash) (writeVec writeHash keys) keys := by
  have hlt : keys.length < 2 ^ 16 := Nat.lt_of_le_of_lt h.1 (by decide)
  refine (readU16_reads hlt).bind (Reads.guard (Nat.not_lt_of_le h.1) ?_)
  exact Lib.Reader.readDistinct_reads (fun key _ => readHash_reads key) [] (by rw [List.nil_append, List.map_id]; exact h.2)

variable {request : StepRequest}

theorem read_reads (h : request.Valid) : Reads read request.write request := by
  cases request with
  | chainInfo blocks => exact (readU8_reads (n := 0) (by decide)).bind ((readBlockIds_reads h).map chainInfo)
  | assets min max page =>
    refine (readU8_reads (n := 1) (by decide)).bind ?_
    rw [← List.append_assoc]
    exact (readRange_reads h.1).bind ((readPage_reads h.2).map (assets min max))
  | keys min max page =>
    refine (readU8_reads (n := 2) (by decide)).bind ?_
    rw [← List.append_assoc]
    exact (readRange_reads h.1).bind ((readPage_reads h.2).map (keys min max))
  | balances accounts asset min max =>
    refine (readU8_reads (n := 3) (by decide)).bind ((readKeys_reads h.1).bind ((readHash_reads asset).bind ?_))
    exact (readRange_reads h.2).map fun range => balances accounts asset range.1 range.2
  | spendableBalances key asset min max =>
    refine (readU8_reads (n := 4) (by decide)).bind ((readHash_reads key).bind ((readHash_reads asset).bind ?_))
    exact (readRange_reads h).map fun range => spendableBalances key asset range.1 range.2
  | nonces min max accounts =>
    refine (readU8_reads (n := 5) (by decide)).bind ((readU64_reads h.1.min_lt).bind ((readU64_reads h.1.2).bind ?_))
    exact (readKeys_reads h.2).map (nonces min max)
  | multiSigs min max accounts =>
    refine (readU8_reads (n := 6) (by decide)).bind ((readU64_reads h.1.min_lt).bind ((readU64_reads h.1.2).bind ?_))
    exact (readKeys_reads h.2).map (multiSigs min max)
  | contracts min max page =>
    refine (readU8_reads (n := 7) (by decide)).bind ((readU64_reads h.1.min_lt).bind ((readU64_reads h.1.2).bind ?_))
    exact (readPage_reads h.2).map (contracts min max)
  | contractMetadata min max contract =>
    refine (readU8_reads (n := 8) (by decide)).bind ((readU64_reads h.min_lt).bind ((readU64_reads h.2).bind ?_))
    exact (readHash_reads contract).map (contractMetadata min max)
  | blocksMetadata topoheight => exact (readU8_reads (n := 9) (by decide)).bind ((readU64_reads h).map blocksMetadata)

def isChainInfo : StepRequest → Bool
  | chainInfo _ => true
  | _ => false

theorem size_eq_iff (request : StepRequest) :
    request.size = request.write.length ↔ request.isChainInfo = false := by
  have hpage := sizeOption_eq (fun n => (length_writeU64 n).symm)
  have hkeys := sizeIndexSet_eq_of_const (fun _ => rfl) length_writeHash
  cases request with
  | chainInfo blocks =>
    have hids := sizeIndexSet_eq_of_const (fun _ => rfl) length_writeBlockId blocks
    have hwritten : (writeVec BlockId.write blocks).length = 2 + blocks.length * (32 + 8) := by
      have hone := length_writeBlockIds blocks
      unfold writeBlockIds at hone
      unfold writeVec
      rw [List.length_append, length_writeU8] at hone
      rw [List.length_append, length_writeU16]
      omega
    refine iff_of_false (fun hsize => ?_) nofun
    simp only [size, write, hids, hwritten, List.length_append, length_writeU8, length_writeBlockIds] at hsize
    omega
  | _ =>
    refine iff_of_true ?_ rfl
    simp +arith only [size, write, hpage, hkeys, List.length_append, length_writeU8, length_writeU64, length_writeHash]

theorem packed (h : request.Valid) : Packed read write size request (request.isChainInfo = false) :=
  Packed.of_reads (read_reads h) (size_eq_iff request)

end StepRequest

inductive StepResponse (S R : Type) where
  | chainInfo (commonPoint : Option CommonPoint) (topoheight stableHeight : Nat) (hash : Hash)
  | assets (assets : List (Hash × Wire.AssetData)) (page : Option Nat)
  | keys (keys : List PublicKey) (page : Option Nat)
  | balances (balances : List (Option AccountSummary))
  | spendableBalances (balances : List Balance) (page : Option TopoHeight)
  | nonces (nonces : List (State Nonce))
  | multiSigs (multisigs : List (State MultiSigPayload))
  | contracts (contracts : List Hash) (page : Option Nat)
  | contractMetadata (metadata : State (Wire.Module S R))
  | blocksMetadata (blocks : List BlockMetadata)

namespace StepResponse

variable {S R : Type} [CurveScalar S] [RangeProof R]

def write : StepResponse S R → IVec
  | chainInfo commonPoint topoheight stableHeight hash =>
    writeU8 0 ++ (writeOption CommonPoint.write commonPoint ++ (writeU64 topoheight ++ (writeU64 stableHeight ++ writeHash hash)))
  | assets map page => writeU8 1 ++ (writeIndexMap writeHash Wire.AssetData.write map ++ writeOption writeU64 page)
  | keys set page => writeU8 2 ++ (writeVec writeHash set ++ writeOption writeU64 page)
  | balances summaries => writeU8 3 ++ writeVec (writeOption AccountSummary.write) summaries
  | spendableBalances versions page => writeU8 4 ++ (writeVec Balance.write versions ++ writeOption writeU64 page)
  | nonces states => writeU8 5 ++ writeVec (State.write writeU64) states
  | multiSigs states => writeU8 6 ++ writeVec (State.write Wire.MultiSigPayload.write) states
  | contracts set page => writeU8 7 ++ (writeVec writeHash set ++ writeOption writeU64 page)
  | contractMetadata metadata => writeU8 8 ++ metadata.write Wire.Module.write
  | blocksMetadata blocks => writeU8 9 ++ writeVec BlockMetadata.write blocks

variable (context : Context S R)

def read : Reader (StepResponse S R) := do
  match ← readU8 with
  | 0 =>
    let commonPoint ← readOption CommonPoint.read
    let topoheight ← readU64
    let stableHeight ← readU64
    let hash ← readHash
    return .chainInfo commonPoint topoheight stableHeight hash
  | 1 =>
    let map ← readIndexMap readHash Wire.AssetData.read
    return .assets map (← StepRequest.readPage)
  | 2 =>
    let set ← readIndexSet readHash
    return .keys set (← StepRequest.readPage)
  | 3 => return .balances (← readVec (readOption AccountSummary.read))
  | 4 =>
    let versions ← readVec Balance.read
    return .spendableBalances versions (← readOption readU64)
  | 5 => return .nonces (← readVec (State.read readU64))
  | 6 => return .multiSigs (← readVec (State.read Wire.MultiSigPayload.read))
  | 7 =>
    let set ← readIndexSet readHash
    return .contracts set (← StepRequest.readPage)
  | 8 => return .contractMetadata (← State.read (Wire.Module.read context false))
  | 9 => return .blocksMetadata (← readIndexSetBy BlockMetadata.hash BlockMetadata.read)
  | _ => throw .invalidValue

/-- A module is measured by writing it. -/
def size (response : StepResponse S R) : Nat :=
  (match response with
  | chainInfo commonPoint _ _ _ => sizeOption CommonPoint.size commonPoint + 8 + 8 + 32
  | assets map page => sizeIndexMap (fun _ => 32) Wire.AssetData.size map + sizeOption (fun _ => 8) page
  | keys set page => sizeIndexSet (fun _ => 32) set + sizeOption (fun _ => 8) page
  | balances summaries => sizeVec (sizeOption AccountSummary.size) summaries
  | spendableBalances versions page => sizeVec Balance.size versions + sizeOption (fun _ => 8) page
  | nonces states => sizeVec (State.size (fun _ => 8)) states
  | multiSigs states => sizeVec (State.size Wire.MultiSigPayload.size) states
  | contracts set page => sizeIndexSet (fun _ => 32) set + sizeOption (fun _ => 8) page
  | contractMetadata metadata => metadata.size (fun module => module.write.length)
  | blocksMetadata blocks => sizeIndexSet BlockMetadata.size blocks) + 1

def Valid : StepResponse S R → Prop
  | chainInfo commonPoint topoheight stableHeight _ =>
    (∀ point ∈ commonPoint, point.topoheight < U64_RANGE) ∧ topoheight < U64_RANGE ∧ stableHeight < U64_RANGE
  | assets map page =>
    (map.length ≤ DEFAULT_MAX_ITEMS ∧ (map.map Prod.fst).Nodup ∧ ∀ e ∈ map, e.2.Valid) ∧ StepRequest.PageValid page
  | keys set page => StepRequest.KeysValid set ∧ StepRequest.PageValid page
  | balances summaries =>
    summaries.length ≤ DEFAULT_MAX_ITEMS ∧ ∀ summary ∈ summaries, ∀ s ∈ summary, s.Valid
  | spendableBalances versions page =>
    (versions.length ≤ DEFAULT_MAX_ITEMS ∧ ∀ balance ∈ versions, balance.topoheight < U64_RANGE) ∧ ∀ n ∈ page, n < U64_RANGE
  | nonces states => states.length ≤ DEFAULT_MAX_ITEMS ∧ ∀ state ∈ states, ∀ nonce, state = .some nonce → nonce < U64_RANGE
  | multiSigs states => states.length ≤ DEFAULT_MAX_ITEMS ∧ ∀ state ∈ states, ∀ payload, state = .some payload → Wire.MultiSigPayload.Valid payload
  | contracts set page => StepRequest.KeysValid set ∧ StepRequest.PageValid page
  | contractMetadata metadata => ∀ module, metadata = .some module → module.Valid context
  | blocksMetadata blocks =>
    blocks.length ≤ DEFAULT_MAX_ITEMS ∧ (blocks.map BlockMetadata.hash).Nodup ∧ ∀ block ∈ blocks, block.Valid

theorem read_reads {response : StepResponse S R} (h : response.Valid context) : Reads (read context) response.write response := by
  cases response with
  | chainInfo commonPoint topoheight stableHeight hash =>
    refine (readU8_reads (n := 0) (by decide)).bind ?_
    refine (readOption_reads fun point hpoint => CommonPoint.read_reads (h.1 point hpoint)).bind ?_
    refine (readU64_reads h.2.1).bind ((readU64_reads h.2.2).bind ?_)
    exact (readHash_reads hash).map (chainInfo commonPoint topoheight stableHeight)
  | assets map page =>
    have hlen : map.length < 2 ^ 16 := Nat.lt_of_le_of_lt h.1.1 (by decide)
    refine (readU8_reads (n := 1) (by decide)).bind ?_
    refine (readIndexMap_reads hlen h.1.2.1 hash_codec Wire.AssetData.codec fun e he => ⟨trivial, h.1.2.2 e he⟩).bind ?_
    exact (StepRequest.readPage_reads h.2).map (assets map)
  | keys set page =>
    refine (readU8_reads (n := 2) (by decide)).bind ((StepRequest.readKeys_reads h.1).bind ?_)
    exact (StepRequest.readPage_reads h.2).map (keys set)
  | balances summaries =>
    refine (readU8_reads (n := 3) (by decide)).bind (Reads.map balances ?_)
    exact readVec_reads h.1 fun summary hmem => readOption_reads fun s hs => AccountSummary.read_reads (h.2 summary hmem s hs)
  | spendableBalances versions page =>
    refine (readU8_reads (n := 4) (by decide)).bind ?_
    refine (readVec_reads h.1.1 fun balance hmem => Balance.read_reads (h.1.2 balance hmem)).bind ?_
    exact (readOption_reads fun n hn => readU64_reads (h.2 n hn)).map (spendableBalances versions)
  | nonces states =>
    refine (readU8_reads (n := 5) (by decide)).bind (Reads.map nonces ?_)
    exact readVec_reads h.1 fun state hmem => State.read_reads fun nonce heq => readU64_reads (h.2 state hmem nonce heq)
  | multiSigs states =>
    refine (readU8_reads (n := 6) (by decide)).bind (Reads.map multiSigs ?_)
    exact readVec_reads h.1 fun state hmem => State.read_reads fun payload heq =>
      Wire.MultiSigPayload.codec.reads true payload (h.2 state hmem payload heq)
  | contracts set page =>
    refine (readU8_reads (n := 7) (by decide)).bind ((StepRequest.readKeys_reads h.1).bind ?_)
    exact (StepRequest.readPage_reads h.2).map (contracts set)
  | contractMetadata metadata =>
    refine (readU8_reads (n := 8) (by decide)).bind (Reads.map contractMetadata ?_)
    exact State.read_reads fun module heq => (Wire.Module.codec context).reads false module (h module heq)
  | blocksMetadata blocks =>
    refine (readU8_reads (n := 9) (by decide)).bind (Reads.map blocksMetadata ?_)
    exact readIndexSetBy_reads h.1 h.2.1 fun block hmem => BlockMetadata.read_reads (h.2.2 block hmem)

def SizeExact : StepResponse S R → Prop
  | assets map _ => map = []
  | multiSigs states => ∀ state ∈ states, ∀ payload, state = .some payload → payload.threshold ≠ 0
  | blocksMetadata blocks => ∀ first ∈ blocks.head?,
      (blocks.map BlockMetadata.variableBytes).sum = blocks.length * first.variableBytes
  | _ => True

end StepResponse

namespace StepResponse

theorem sizeIndexMap_assets_iff (map : List (Hash × Wire.AssetData)) :
    sizeIndexMap (fun _ => 32) Wire.AssetData.size map = (writeIndexMap writeHash Wire.AssetData.write map).length ↔ map = [] := by
  have hentry : ∀ e : Hash × Wire.AssetData,
      (Lib.Codec.writeEntry writeHash Wire.AssetData.write e).length = 32 + e.2.write.length := fun e => by
    rw [Lib.Codec.writeEntry, List.length_append, length_writeHash]
  have hsum : ((map.map (fun e => 32 + e.2.size)).sum = (map.map (fun e => 32 + e.2.write.length)).sum) ↔ map = [] := by
    rw [sum_map_eq_iff_of_le fun e _ => Nat.add_le_add_left e.2.size_lt_length_write.le 32]
    constructor
    · intro hall
      apply List.eq_nil_iff_forall_not_mem.mpr
      intro e he
      have hlt := e.2.size_lt_length_write
      have heq := hall e he
      omega
    · rintro rfl e he
      cases he
  unfold sizeIndexMap writeIndexMap
  rw [List.length_append, length_writeU16, List.length_flatMap, ← hsum]
  simp only [hentry]
  omega

/-- A removal is measured with a number of participants that is not written. -/
theorem multiSig_length_le_size (payload : MultiSigPayload) :
    (Wire.MultiSigPayload.write payload).length ≤ Wire.MultiSigPayload.size payload := by
  by_cases hzero : payload.threshold = 0
  · unfold Wire.MultiSigPayload.write Wire.MultiSigPayload.size
    rw [if_neg (not_not_intro hzero), List.append_nil, length_writeU8]
    omega
  · exact ((Wire.MultiSigPayload.size_eq_iff payload).mpr hzero).ge

theorem sizeVec_multiSigs_iff (states : List (State MultiSigPayload)) :
    sizeVec (State.size Wire.MultiSigPayload.size) states = (writeVec (State.write Wire.MultiSigPayload.write) states).length ↔
      ∀ state ∈ states, ∀ payload, state = .some payload → payload.threshold ≠ 0 := by
  have hle : ∀ state ∈ states, (state.write Wire.MultiSigPayload.write).length ≤ state.size Wire.MultiSigPayload.size := by
    intro state _
    rw [State.length_write]
    cases state with
    | some payload => exact Nat.add_le_add_left (multiSig_length_le_size payload) 1
    | _ => exact Nat.le_refl _
  unfold sizeVec writeVec
  rw [List.length_append, length_writeU16, List.length_flatMap, Nat.add_left_cancel_iff, eq_comm, sum_map_eq_iff_of_le hle]
  refine forall₂_congr fun state _ => ?_
  rw [State.length_write]
  cases state with
  | some payload =>
    have hiff := Wire.MultiSigPayload.size_eq_iff payload
    simp only [State.size, Nat.add_left_cancel_iff, State.some.injEq, forall_eq']
    rw [eq_comm]
    exact hiff
  | _ => simp [State.size]

theorem sizeIndexSet_blocks_iff (blocks : List BlockMetadata) :
    sizeIndexSet BlockMetadata.size blocks = (writeVec BlockMetadata.write blocks).length ↔
      ∀ first ∈ blocks.head?, (blocks.map BlockMetadata.variableBytes).sum = blocks.length * first.variableBytes := by
  have hsum : (blocks.map (fun block => block.write.length)).sum =
      blocks.length * 61 + (blocks.map BlockMetadata.variableBytes).sum := by
    simp only [← BlockMetadata.size_eq, BlockMetadata.size_eq_variableBytes]
    rw [List.sum_map_add, List.map_const', List.sum_replicate_nat]
  rw [sizeIndexSet_eq_iff]
  refine forall₂_congr fun first _ => ?_
  rw [hsum, BlockMetadata.size_eq_variableBytes, Nat.mul_add, Nat.add_left_cancel_iff, eq_comm]

variable {S R : Type} [CurveScalar S] [RangeProof R]

theorem size_eq_iff (response : StepResponse S R) :
    response.size = response.write.length ↔ response.SizeExact := by
  have hpage := sizeOption_eq (fun n => (length_writeU64 n).symm)
  have hkeys := sizeIndexSet_eq_of_const (fun _ => rfl) length_writeHash
  cases response with
  | assets map page =>
    rw [SizeExact, ← sizeIndexMap_assets_iff]
    simp only [size, write, hpage, List.length_append, length_writeU8]
    omega
  | multiSigs states =>
    rw [SizeExact, ← sizeVec_multiSigs_iff]
    simp only [size, write, List.length_append, length_writeU8]
    omega
  | blocksMetadata blocks =>
    rw [SizeExact, ← sizeIndexSet_blocks_iff]
    simp only [size, write, List.length_append, length_writeU8]
    omega
  | balances summaries =>
    have hsummaries := sizeVec_eq (sizeOption_eq AccountSummary.size_eq) summaries
    simp +arith only [SizeExact, size, write, hsummaries, List.length_append, length_writeU8]
  | spendableBalances versions page =>
    have hversions := sizeVec_eq Balance.size_eq versions
    simp +arith only [SizeExact, size, write, hversions, hpage, List.length_append, length_writeU8]
  | nonces states =>
    have hstates := sizeVec_eq (fun state => (State.length_write writeU64 state).symm) states
    simp only [length_writeU64] at hstates
    simp +arith only [SizeExact, size, write, hstates, List.length_append, length_writeU8]
  | contractMetadata metadata =>
    simp +arith only [SizeExact, size, write, State.length_write, List.length_append, length_writeU8]
  | chainInfo commonPoint topoheight stableHeight hash =>
    have hpoint := sizeOption_eq CommonPoint.size_eq commonPoint
    simp +arith only [SizeExact, size, write, hpoint, List.length_append, length_writeU8, length_writeU64, length_writeHash]
  | _ => simp +arith only [SizeExact, size, write, hkeys, hpage, List.length_append, length_writeU8]

theorem packed (context : Context S R) {response : StepResponse S R} (h : response.Valid context) :
    Packed (read context) write size response response.SizeExact :=
  Packed.of_reads (read_reads context h) (size_eq_iff response)

end StepResponse

def writeOptionalString : Option String → IVec
  | some s => writeString s
  | none => writeU8 0

def readOptionalString : Reader (Option String) := do
  match ← readU8 with
  | 0 => return none
  | n => return some (← readStringWithSize n)

structure Handshake where
  version : String
  network : Network
  nodeTag : Option String
  networkId : IVec
  peerId : Nat
  localPort : Nat
  utcTime : Nat
  topoheight : Nat
  height : Nat
  prunedTopoheight : Option Nat
  topHash : Hash
  genesisHash : Hash
  cumulativeDifficulty : Nat
  canBeShared : Bool
  deriving DecidableEq

namespace Handshake

def MAX_LEN : Nat := 16

def write (handshake : Handshake) : IVec :=
  writeString handshake.version ++ (handshake.network.write ++ (writeOptionalString handshake.nodeTag ++ (handshake.networkId ++
    (writeU64 handshake.peerId ++ (writeU16 handshake.localPort ++ (writeU64 handshake.utcTime ++ (writeU64 handshake.topoheight ++
    (writeU64 handshake.height ++ (writeOption writeU64 handshake.prunedTopoheight ++ (writeHash handshake.topHash ++
    (writeHash handshake.genesisHash ++ (writeVarUint handshake.cumulativeDifficulty ++ writeBool handshake.canBeShared))))))))))))

def readVersion : Reader String := do
  let version ← readString
  if (stringBytes version).length = 0 ∨ (stringBytes version).length > MAX_LEN then throw .invalidSize
  return version

def readNodeTag : Reader (Option String) := do
  let nodeTag ← readOptionalString
  if nodeTag.any (fun tag => decide ((stringBytes tag).length > MAX_LEN)) then throw .invalidSize
  return nodeTag

def readPrunedTopoheight : Reader (Option Nat) := do
  let prunedTopoheight ← readOption readU64
  if prunedTopoheight = some 0 then throw .invalidValue
  return prunedTopoheight

def read : Reader Handshake := do
  let version ← readVersion
  let network ← Network.read
  let nodeTag ← readNodeTag
  let networkId ← takeBytes .invalidSize 16
  let peerId ← readU64
  let localPort ← readU16
  let utcTime ← readU64
  let topoheight ← readU64
  let height ← readU64
  let prunedTopoheight ← readPrunedTopoheight
  let topHash ← readHash
  let genesisHash ← readHash
  let cumulativeDifficulty ← readVarUint
  let canBeShared ← readBool
  return { version, network, nodeTag, networkId, peerId, localPort, utcTime, topoheight, height, prunedTopoheight, topHash,
           genesisHash, cumulativeDifficulty, canBeShared }

/-- The tag is measured as an option that brings a byte of its own. -/
def size (handshake : Handshake) : Nat :=
  sizeString handshake.version + 1 + sizeOption sizeString handshake.nodeTag + 16 + 8 + 2 + 8 + 8 + 8 +
    sizeOption (fun _ => 8) handshake.prunedTopoheight + 32 + 32 + (writeVarUint handshake.cumulativeDifficulty).length + 1

/-- What a node can build: a version and a tag of 1 to 16 bytes, and a pruned topoheight that is not zero. -/
structure Valid (handshake : Handshake) : Prop where
  version_pos : (stringBytes handshake.version).length ≠ 0
  version_le : (stringBytes handshake.version).length ≤ MAX_LEN
  nodeTag : ∀ tag ∈ handshake.nodeTag, (stringBytes tag).length ≠ 0 ∧ (stringBytes tag).length ≤ MAX_LEN
  networkId : handshake.networkId.length = 16
  peerId : handshake.peerId < U64_RANGE
  localPort : handshake.localPort < 2 ^ 16
  utcTime : handshake.utcTime < U64_RANGE
  topoheight : handshake.topoheight < U64_RANGE
  height : handshake.height < U64_RANGE
  prunedTopoheight : ∀ n ∈ handshake.prunedTopoheight, n ≠ 0 ∧ n < U64_RANGE
  cumulativeDifficulty : handshake.cumulativeDifficulty < 2 ^ 256

theorem readVersion_reads {version : String} (hpos : (stringBytes version).length ≠ 0) (hle : (stringBytes version).length ≤ MAX_LEN) :
    Reads readVersion (writeString version) version := by
  have hread := string_codec.reads true version (Nat.lt_of_le_of_lt hle (by decide))
  refine hread.bind_pure (if_neg ?_)
  rw [not_or, Nat.not_lt]
  exact ⟨hpos, hle⟩

theorem readNodeTag_reads {nodeTag : Option String}
    (h : ∀ tag ∈ nodeTag, (stringBytes tag).length ≠ 0 ∧ (stringBytes tag).length ≤ MAX_LEN) :
    Reads readNodeTag (writeOptionalString nodeTag) nodeTag := by
  cases nodeTag with
  | none => exact fun rest => rfl
  | some tag =>
    obtain ⟨hpos, hle⟩ := h tag rfl
    have hlt : (stringBytes tag).length < 2 ^ 8 := Nat.lt_of_le_of_lt hle (by decide)
    have hstring : Reads readOptionalString (writeString tag) (some tag) := by
      rw [writeString, List.take_of_length_le (Nat.le_of_lt_succ hlt)]
      refine (readU8_reads hlt).bind ?_
      have hread := (stringWithSize_codec _).reads true tag rfl
      cases hlen : (stringBytes tag).length with
      | zero => exact absurd hlen hpos
      | succ n =>
        rw [hlen] at hread
        exact hread.map some
    refine hstring.bind_pure (if_neg ?_)
    simpa using hle

theorem readPrunedTopoheight_reads {prunedTopoheight : Option Nat} (h : ∀ n ∈ prunedTopoheight, n ≠ 0 ∧ n < U64_RANGE) :
    Reads readPrunedTopoheight (writeOption writeU64 prunedTopoheight) prunedTopoheight := StepRequest.readPage_reads h

variable {handshake : Handshake}

theorem read_reads (h : handshake.Valid) : Reads read handshake.write handshake := by
  refine (readVersion_reads h.version_pos h.version_le).bind ?_
  refine handshake.network.read_reads.bind ?_
  refine (readNodeTag_reads h.nodeTag).bind ?_
  refine (Lib.Reader.takeBytes_reads _ h.networkId).bind ?_
  refine (readU64_reads h.peerId).bind ?_
  refine (readU16_reads h.localPort).bind ?_
  refine (readU64_reads h.utcTime).bind ?_
  refine (readU64_reads h.topoheight).bind ?_
  refine (readU64_reads h.height).bind ?_
  refine (readPrunedTopoheight_reads h.prunedTopoheight).bind ?_
  refine (readHash_reads handshake.topHash).bind ?_
  refine (readHash_reads handshake.genesisHash).bind ?_
  refine (readVarUint_reads h.cumulativeDifficulty).bind ?_
  exact (bool_codec.reads true handshake.canBeShared trivial).map fun canBeShared => { handshake with canBeShared }

theorem packed (h : handshake.Valid) : Packed read write size handshake (handshake.nodeTag = none) := by
  refine Packed.of_reads (read_reads h) ?_
  have hpruned := sizeOption_eq (fun n => (length_writeU64 n).symm) handshake.prunedTopoheight
  unfold size write
  simp only [List.length_append, Wire.length_writeString, Network.length_write, h.networkId, length_writeU64,
    length_writeU16, length_writeHash, length_writeBool, hpruned]
  cases handshake.nodeTag with
  | none =>
    simp only [sizeOption, writeOptionalString, length_writeU8, iff_true]
    omega
  | some tag =>
    simp only [sizeOption, writeOptionalString, Wire.length_writeString, reduceCtorEq, iff_false]
    omega

end Handshake

/-- Every packet a node can build is read back from its bytes, and nothing is left. The size that it gives is never right for
a request of blocks, for a chain info request and for a page with assets, and for the others exactly when no field is measured
by a shortcut that does not fit it. -/
theorem packets_packed {S R : Type} [CurveScalar S] [RangeProof R] (context : Context S R) :
    (∀ request : ChainRequest, request.Valid → Packed ChainRequest.read ChainRequest.write ChainRequest.size request False) ∧
    (∀ response : ChainResponse, response.Valid →
      Packed ChainResponse.read ChainResponse.write ChainResponse.size response (response.commonPoint = none)) ∧
    (∀ block : BlockMetadata, block.Valid → Packed BlockMetadata.read BlockMetadata.write BlockMetadata.size block True) ∧
    (∀ request : StepRequest, request.Valid →
      Packed StepRequest.read StepRequest.write StepRequest.size request (request.isChainInfo = false)) ∧
    (∀ response : StepResponse S R, response.Valid context →
      Packed (StepResponse.read context) StepResponse.write StepResponse.size response response.SizeExact) ∧
    ∀ handshake : Handshake, handshake.Valid →
      Packed Handshake.read Handshake.write Handshake.size handshake (handshake.nodeTag = none) :=
  ⟨fun _ h => ChainRequest.packed h, fun _ h => ChainResponse.packed h, fun _ h => BlockMetadata.packed h,
    fun _ h => StepRequest.packed h, fun _ h => StepResponse.packed context h, fun _ h => Handshake.packed h⟩

def sampleMetadata : BlockMetadata where
  hash := 7#256
  supply := 10
  burnedSupply := 1
  reward := 5
  difficulty := 256
  cumulativeDifficulty := 512
  p := 3
  executedTransactions := [1#256, 2#256]

theorem packets_packed_metadata : Packed BlockMetadata.read BlockMetadata.write BlockMetadata.size sampleMetadata True := by
  have hvalid : sampleMetadata.Valid := by constructor <;> decide
  have context : Context (Fin GROUP_ORDER) IVec := { version := .v2, order := anyOrder, same := fun _ _ => false }
  exact (packets_packed context).2.2.1 sampleMetadata hvalid

/-- A request of one block gives a size of 4 and is written in 43 bytes. -/
theorem request_size_fails :
    (⟨[⟨7#256, 0⟩], 512⟩ : ChainRequest).Valid ∧
      (⟨[⟨7#256, 0⟩], 512⟩ : ChainRequest).size ≠ (⟨[⟨7#256, 0⟩], 512⟩ : ChainRequest).write.length := by
  refine ⟨⟨⟨by decide, by decide, by decide, ?_⟩, by decide, by decide⟩, by decide⟩
  intro id hid
  rw [List.mem_singleton] at hid
  subst hid
  decide

end Xelis.P2p
