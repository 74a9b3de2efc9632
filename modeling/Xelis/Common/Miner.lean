import Xelis.Common.BlockHeader
import Xelis.Lib.Exec

/-! The work of a miner: its bytes, the worker that patches them in place, and the header it is applied to. -/

namespace Xelis

open Lib (Codec Exec)
open Lib.Reader (takeBytes)

inductive Algorithm where
  | v1
  | v2
  deriving DecidableEq

/-- One version of the proof of work: a hash of the input that uses a scratch pad as its memory. -/
structure PowFunction (E : Type) where
  ScratchPad : Type
  default : ScratchPad
  xelisHash : IVec → ScratchPad → Except E Hash × ScratchPad

/-- What an earlier hash left in the scratch pad does not matter. -/
def PowFunction.Reusable {E : Type} (f : PowFunction E) : Prop :=
  ∀ input pad, (f.xelisHash input pad).1 = (f.xelisHash input f.default).1

/-- The proof of work of the hash crate. The first version wants its input in a buffer with an alignment. -/
structure XelisHash (E : Type) where
  v1 : PowFunction E
  v2 : PowFunction E
  alignedInput : Except E IVec

variable {E : Type}

def copyFromSlice (input : IVec) (start : Nat) (bytes : IVec) : IVec :=
  input.take start ++ bytes ++ input.drop (start + bytes.length)

def powHash (xelis : XelisHash E) (work : IVec) : Algorithm → Except E Hash
  | .v1 => do
    let slice ← xelis.alignedInput
    (xelis.v1.xelisHash (copyFromSlice slice 0 work) xelis.v1.default).1
  | .v2 => (xelis.v2.xelisHash work xelis.v2.default).1

def BlockHeader.getPowHash (xelis : XelisHash E) (blake3 : IVec → Hash) (header : BlockHeader) (algorithm : Algorithm) :
    Except E Hash := powHash xelis (header.getSerializedHeader blake3) algorithm

structure MinerWork where
  headerWorkHash : Hash
  timestamp : TimestampMillis
  nonce : Nat
  miner : Option PublicKey
  extraNonce : IVec
  deriving DecidableEq

inductive WorkerError (E : Type) where
  | uninitialized
  | missingWork
  | hashError (e : E)
  /-- The panic of an addition that does not fit, in a build that checks it. -/
  | arithmeticOverflow

variable {work : MinerWork}

namespace MinerWork

def fromBlock (blake3 : IVec → Hash) (header : BlockHeader) : MinerWork where
  headerWorkHash := header.getWorkHash blake3
  timestamp := header.timestamp
  nonce := 0
  miner := some header.miner
  extraNonce := header.extraNonce

def setTimestamp (work : MinerWork) (timestamp : TimestampMillis) : MinerWork := { work with timestamp }

/-- Without overflow checks the nonce wraps around. -/
def increaseNonce (overflowChecks : Bool) (work : MinerWork) : Except (WorkerError E) MinerWork :=
  if overflowChecks && decide (U64_RANGE ≤ work.nonce + 1) then .error .arithmeticOverflow
  else .ok { work with nonce := (work.nonce + 1) % U64_RANGE }

def setMiner (work : MinerWork) (miner : PublicKey) : MinerWork := { work with miner := some miner }

def setThreadId (work : MinerWork) (id : Nat) : MinerWork :=
  { work with extraNonce := copyFromSlice work.extraNonce (EXTRA_NONCE_SIZE - 1) (writeU8 id) }

def setThreadIdU16 (work : MinerWork) (id : Nat) : MinerWork :=
  { work with extraNonce := copyFromSlice work.extraNonce (EXTRA_NONCE_SIZE - 2) (writeU16 id) }

/-- Without a miner the key is left empty. -/
def write (work : MinerWork) : IVec :=
  writeHash work.headerWorkHash ++ (writeU64 work.timestamp ++ (writeU64 work.nonce ++ (work.extraNonce ++
    writeHash (work.miner.getD 0#256))))

def readFields : Reader MinerWork := do
  let headerWorkHash ← readHash
  let timestamp ← readU64
  let nonce ← readU64
  let extraNonce ← takeBytes .invalidSize EXTRA_NONCE_SIZE
  let miner ← readHash
  return { headerWorkHash, timestamp, nonce, extraNonce, miner := some miner }

/-- The whole input has to be the work. -/
def fromBytes (bytes : IVec) : Except ReaderError MinerWork :=
  if bytes.length ≠ BLOCK_WORK_SIZE then .error .invalidSize
  else (readFields bytes).map Prod.fst

structure Valid (work : MinerWork) : Prop where
  timestamp : work.timestamp < U64_RANGE
  nonce : work.nonce < U64_RANGE
  extraNonce : work.extraNonce.length = EXTRA_NONCE_SIZE
  miner : work.miner.isSome = true

theorem codec : Codec (fun _ => readFields) write Valid := by
  refine hash_codec.bind (p := headerWorkHash) (fun _ _ => trivial) fun headerWorkHash _ => ?_
  refine u64_codec.bind (p := MinerWork.timestamp) (fun _ h => h.2.timestamp) fun timestamp htimestamp => ?_
  refine u64_codec.bind (p := MinerWork.nonce) (fun _ h => h.2.2.nonce) fun nonce hnonce => ?_
  refine (Codec.take ReaderError.invalidSize EXTRA_NONCE_SIZE).bind (p := MinerWork.extraNonce)
    (fun _ h => h.2.2.2.extraNonce) fun extraNonce hextra => ?_
  refine hash_codec.map (fun _ _ => rfl) fun work => ?_
  constructor
  · rintro ⟨rfl, rfl, rfl, rfl, hvalid⟩
    obtain ⟨miner, hminer⟩ := Option.isSome_iff_exists.mp hvalid.miner
    exact ⟨miner, trivial, by rw [← hminer]⟩
  · rintro ⟨miner, -, rfl⟩
    exact ⟨rfl, rfl, rfl, rfl, htimestamp, hnonce, hextra, rfl⟩

theorem length_write (h : work.Valid) : work.write.length = BLOCK_WORK_SIZE := by
  unfold write
  simp only [List.length_append, length_writeHash, length_writeU64, h.extraNonce]
  rfl

theorem fromBytes_write (h : work.Valid) : fromBytes work.write = .ok work := by
  have hread := codec.reads true work h []
  rw [List.append_nil] at hread
  unfold fromBytes
  rw [if_neg (not_not_intro (length_write h)), hread]
  rfl

end MinerWork

/-- A work without a miner makes the node panic. -/
def BlockHeader.applyMinerWork (header : BlockHeader) (work : MinerWork) : Option BlockHeader := do
  let miner ← work.miner
  return { header with miner, timestamp := work.timestamp, nonce := work.nonce, extraNonce := work.extraNonce }

inductive WorkVariant (xelis : XelisHash E) where
  | uninitialized
  | v1 (scratchPad : xelis.v1.ScratchPad)
  | v2 (scratchPad : xelis.v2.ScratchPad)

def WorkVariant.getAlgorithm {xelis : XelisHash E} : WorkVariant xelis → Option Algorithm
  | uninitialized => none
  | v1 _ => some .v1
  | v2 _ => some .v2

/-- The current work with its bytes, and the scratch pad of the current algorithm. -/
structure Worker (xelis : XelisHash E) where
  work : Option (MinerWork × IVec) := none
  variant : WorkVariant xelis := .uninitialized

abbrev WorkerM (xelis : XelisHash E) := Exec (WorkerError E) (Worker xelis)

namespace Worker

variable {xelis : XelisHash E}

def takeWork : WorkerM xelis (Option MinerWork) := do
  let worker ← get
  set { worker with work := none }
  return worker.work.map Prod.fst

/-- The scratch pad is kept while the algorithm stays the same. -/
def setWork (work : MinerWork) (kind : Algorithm) : WorkerM xelis PUnit :=
  modify fun worker =>
    { variant :=
        if worker.variant.getAlgorithm ≠ some kind then
          match kind with
          | .v1 => .v1 xelis.v1.default
          | .v2 => .v2 xelis.v2.default
        else worker.variant,
      work := some (work, work.write) }

def increaseNonce (overflowChecks : Bool) : WorkerM xelis PUnit := do
  match (← get).work with
  | some (work, input) =>
    let work ← Exec.ofExcept (work.increaseNonce overflowChecks)
    modify ({ · with work := some (work, copyFromSlice input 40 (writeU64 work.nonce)) })
  | none => throw .missingWork

def setTimestamp (timestamp : TimestampMillis) : WorkerM xelis PUnit := do
  match (← get).work with
  | some (work, input) =>
    let work := work.setTimestamp timestamp
    modify ({ · with work := some (work, copyFromSlice input 32 (writeU64 work.timestamp)) })
  | none => throw .missingWork

/-- The hash of the bytes, with the scratch pad as the last hash left it. -/
def getPowHash : WorkerM xelis Hash := do
  match (← get).work with
  | some (_, input) =>
    match (← get).variant with
    | .uninitialized => throw .uninitialized
    | .v1 scratchPad =>
      let slice ← Exec.ofExcept (xelis.alignedInput.mapError .hashError)
      let (result, scratchPad) := xelis.v1.xelisHash (copyFromSlice slice 0 input) scratchPad
      modify ({ · with variant := .v1 scratchPad })
      Exec.ofExcept (result.mapError .hashError)
    | .v2 scratchPad =>
      let (result, scratchPad) := xelis.v2.xelisHash input scratchPad
      modify ({ · with variant := .v2 scratchPad })
      Exec.ofExcept (result.mapError .hashError)
  | none => throw .missingWork

def getBlockHash (blake3 : IVec → Hash) : WorkerM xelis Hash := do
  match (← get).work with
  | some (_, cache) => return blake3 cache
  | none => throw .missingWork

end Worker

variable {before old new after input bytes : IVec}

theorem copyFromSlice_append {start : Nat} (hstart : before.length = start)
    (h : old.length = new.length) : copyFromSlice (before ++ (old ++ after)) start new = before ++ (new ++ after) := by
  unfold copyFromSlice
  rw [← hstart, List.take_left, ← h, ← List.length_append, ← List.append_assoc before old after, List.drop_left,
    List.append_assoc]

theorem MinerWork.patch_nonce (work : MinerWork) (nonce : Nat) :
    copyFromSlice work.write 40 (writeU64 nonce) = { work with nonce }.write := by
  have hsplit : ∀ n, { work with nonce := n }.write =
      (writeHash work.headerWorkHash ++ writeU64 work.timestamp) ++
        (writeU64 n ++ (work.extraNonce ++ writeHash (work.miner.getD 0#256))) := fun n => (List.append_assoc _ _ _).symm
  rw [hsplit nonce, show work.write = _ from hsplit work.nonce]
  apply copyFromSlice_append
  · rw [List.length_append, length_writeHash, length_writeU64]
  · rw [length_writeU64, length_writeU64]

theorem MinerWork.patch_timestamp (work : MinerWork) (timestamp : TimestampMillis) :
    copyFromSlice work.write 32 (writeU64 timestamp) = (work.setTimestamp timestamp).write := by
  unfold write
  apply copyFromSlice_append
  · exact length_writeHash _
  · rw [length_writeU64, length_writeU64]

theorem length_copyFromSlice {start : Nat} (h : start + bytes.length ≤ input.length) :
    (copyFromSlice input start bytes).length = input.length := by
  unfold copyFromSlice
  rw [List.length_append, List.length_append, List.length_take, List.length_drop]
  omega

section Jobs

variable (blake3 : IVec → Hash)

/-- The works a miner can have for a header: the one the node makes of it, with a miner and an extra nonce of its own, at
any time and nonce, and also when it was sent as bytes. -/
inductive Job (header : BlockHeader) : MinerWork → Prop
  | fromBlock : Job header (MinerWork.fromBlock blake3 header)
  | setMiner {work : MinerWork} (miner : PublicKey) (h : Job header work) : Job header (work.setMiner miner)
  | setExtraNonce {work : MinerWork} {extraNonce : IVec} (hlen : extraNonce.length = EXTRA_NONCE_SIZE) (h : Job header work) :
      Job header { work with extraNonce }
  | setThreadId {work : MinerWork} (id : Nat) (h : Job header work) : Job header (work.setThreadId id)
  | setThreadIdU16 {work : MinerWork} (id : Nat) (h : Job header work) : Job header (work.setThreadIdU16 id)
  | setTimestamp {work : MinerWork} {timestamp : TimestampMillis} (hlt : timestamp < U64_RANGE) (h : Job header work) :
      Job header (work.setTimestamp timestamp)
  | increaseNonce {E : Type} {work work' : MinerWork} (overflowChecks : Bool)
      (hnext : work.increaseNonce (E := E) overflowChecks = .ok work') (h : Job header work) : Job header work'
  | sent {work work' : MinerWork} (hread : MinerWork.fromBytes work.write = .ok work') (h : Job header work) : Job header work'

structure WorkOf (header : BlockHeader) (work : MinerWork) : Prop extends work.Valid where
  headerWorkHash : work.headerWorkHash = header.getWorkHash blake3

variable {blake3} {header : BlockHeader} {work work' : MinerWork}

theorem WorkOf.increaseNonce {overflowChecks : Bool} (h : WorkOf blake3 header work)
    (hnext : work.increaseNonce (E := E) overflowChecks = .ok work') :
    WorkOf blake3 header work' ∧ work' = { work with nonce := work'.nonce } := by
  unfold MinerWork.increaseNonce at hnext
  split at hnext
  · cases hnext
  · cases hnext
    exact ⟨{ h with nonce := Nat.mod_lt _ (Nat.two_pow_pos 64) }, rfl⟩

theorem Job.workOf (hvalid : header.Valid) (h : Job blake3 header work) : WorkOf blake3 header work := by
  induction h with
  | fromBlock => exact ⟨⟨hvalid.timestamp, Nat.two_pow_pos 64, hvalid.extraNonce, rfl⟩, rfl⟩
  | setMiner miner _ ih => exact { ih with miner := rfl }
  | setExtraNonce hlen _ ih => exact { ih with extraNonce := hlen }
  | setThreadId id _ ih =>
    refine { ih with extraNonce := (length_copyFromSlice ?_).trans ih.extraNonce }
    rw [ih.extraNonce, length_writeU8]
    decide
  | setThreadIdU16 id _ ih =>
    refine { ih with extraNonce := (length_copyFromSlice ?_).trans ih.extraNonce }
    rw [ih.extraNonce, length_writeU16]
    decide
  | setTimestamp hlt _ ih => exact { ih with timestamp := hlt }
  | increaseNonce overflowChecks hnext _ ih => exact (ih.increaseNonce hnext).1
  | sent hread _ ih =>
    rw [MinerWork.fromBytes_write ih.toValid] at hread
    cases hread
    exact ih

theorem WorkOf.applied (h : WorkOf blake3 header work) :
    ∃ header', header.applyMinerWork work = some header' ∧ header'.getSerializedHeader blake3 = work.write := by
  obtain ⟨miner, hminer⟩ := Option.isSome_iff_exists.mp h.miner
  refine ⟨{ header with miner, timestamp := work.timestamp, nonce := work.nonce, extraNonce := work.extraNonce }, ?_, ?_⟩
  · unfold BlockHeader.applyMinerWork
    rw [hminer]
    rfl
  · unfold BlockHeader.getSerializedHeader MinerWork.write
    rw [h.headerWorkHash, hminer]
    simp only [List.append_assoc]
    rfl

end Jobs

section Runs

inductive WorkerOperation where
  | setWork (work : MinerWork) (kind : Algorithm)
  | increaseNonce
  | setTimestamp (timestamp : TimestampMillis)
  | getPowHash
  | takeWork

variable {xelis : XelisHash E} (blake3 : IVec → Hash) (overflowChecks : Bool)

namespace WorkerOperation

def run : WorkerOperation → WorkerM xelis PUnit
  | setWork work kind => Worker.setWork work kind
  | increaseNonce => Worker.increaseNonce overflowChecks
  | setTimestamp timestamp => Worker.setTimestamp timestamp
  | getPowHash => discard Worker.getPowHash
  | takeWork => discard Worker.takeWork

def For (header : BlockHeader) : WorkerOperation → Prop
  | setWork work _ => Job blake3 header work
  | setTimestamp timestamp => timestamp < U64_RANGE
  | _ => True

end WorkerOperation

namespace Worker

def step (worker : Worker xelis) (op : WorkerOperation) : Worker xelis := Exec.stateOf (op.run overflowChecks worker)

def afterSteps (ops : List WorkerOperation) : Worker xelis := ops.foldl (step overflowChecks) {}

structure Cached (header : BlockHeader) (worker : Worker xelis) : Prop where
  work : ∀ {work input}, worker.work = some (work, input) → WorkOf blake3 header work ∧ input = work.write
  variant : worker.work.isSome → worker.variant.getAlgorithm.isSome

variable {blake3 overflowChecks} {header : BlockHeader} {worker : Worker xelis} {op : WorkerOperation}

theorem increaseNonce_apply (hwork : worker.work = some (work, input)) :
    increaseNonce overflowChecks worker = match work.increaseNonce overflowChecks with
      | .ok work => .ok ⟨⟩ { worker with work := some (work, copyFromSlice input 40 (writeU64 work.nonce)) }
      | .error e => .error e worker := by
  unfold increaseNonce
  rw [Exec.bind_apply, Exec.get_apply]
  simp only [hwork]
  rw [Exec.bind_apply, Exec.ofExcept_apply]
  cases work.increaseNonce (E := E) overflowChecks with
  | ok work => rfl
  | error e => rfl

theorem setTimestamp_apply (hwork : worker.work = some (work, input)) (timestamp : TimestampMillis) :
    setTimestamp timestamp worker =
      .ok ⟨⟩ { worker with work := some (work.setTimestamp timestamp, copyFromSlice input 32 (writeU64 timestamp)) } := by
  unfold setTimestamp
  rw [Exec.bind_apply, Exec.get_apply]
  simp only [hwork]
  rfl

theorem missingWork_apply (overflowChecks : Bool) (hwork : worker.work = none) :
    increaseNonce overflowChecks worker = .error .missingWork worker ∧ (∀ timestamp, setTimestamp timestamp worker = .error .missingWork worker) ∧
      getPowHash worker = .error .missingWork worker := by
  unfold increaseNonce setTimestamp getPowHash
  simp only [Exec.bind_apply, Exec.get_apply, hwork]
  exact ⟨rfl, fun _ => rfl, rfl⟩

/-- A hash of the bytes keeps the work and the algorithm. It is the hash of a fresh scratch pad. -/
theorem getPowHash_apply {algorithm : Algorithm} (hwork : worker.work = some (work, input))
    (hvariant : worker.variant.getAlgorithm = some algorithm) :
    ∃ (variant : WorkVariant xelis) (result : Except E Hash), variant.getAlgorithm = some algorithm ∧
      (getPowHash worker = match result with
        | .ok hash => .ok hash { worker with variant }
        | .error e => .error (.hashError e) { worker with variant }) ∧
      (xelis.v1.Reusable → xelis.v2.Reusable → result = powHash xelis input algorithm) := by
  obtain ⟨current, variant⟩ := worker
  obtain rfl : current = some (work, input) := hwork
  cases variant with
  | uninitialized => cases hvariant
  | v1 scratchPad =>
    cases hvariant
    cases hslice : xelis.alignedInput with
    | error e =>
      refine ⟨.v1 scratchPad, .error e, rfl, ?_, fun _ _ => ?_⟩
      · simp only [getPowHash, Exec.bind_apply, Exec.get_apply, hslice]
        rfl
      · simp only [powHash, hslice]
        rfl
    | ok slice =>
      cases hhash : xelis.v1.xelisHash (copyFromSlice slice 0 input) scratchPad with
      | mk result pad =>
        refine ⟨.v1 pad, result, rfl, ?_, fun h₁ _ => ?_⟩
        · unfold getPowHash
          simp only [Exec.bind_apply, Exec.get_apply, hslice, Except.mapError, Exec.ofExcept_apply, hhash, Exec.modify_apply]
          cases result <;> rfl
        · have hfresh := h₁ (copyFromSlice slice 0 input) scratchPad
          rw [hhash] at hfresh
          simp only [powHash, hslice]
          exact hfresh
  | v2 scratchPad =>
    cases hvariant
    cases hhash : xelis.v2.xelisHash input scratchPad with
    | mk result pad =>
      refine ⟨.v2 pad, result, rfl, ?_, fun _ h₂ => ?_⟩
      · unfold getPowHash
        simp only [Exec.bind_apply, Exec.get_apply, Except.mapError, Exec.ofExcept_apply, hhash, Exec.modify_apply]
        cases result <;> rfl
      · have hfresh := h₂ input scratchPad
        rw [hhash] at hfresh
        exact hfresh

theorem Cached.withWork {variant : WorkVariant xelis} (h : WorkOf blake3 header work)
    (hvariant : variant.getAlgorithm.isSome) : Cached blake3 header ({ work := some (work, work.write), variant } : Worker xelis) where
  work heq := by
    cases heq
    exact ⟨h, rfl⟩
  variant _ := hvariant

theorem getAlgorithm_setWork (worker : Worker xelis) (work : MinerWork) (kind : Algorithm) :
    (Exec.stateOf (setWork work kind worker)).variant.getAlgorithm = some kind := by
  show (if worker.variant.getAlgorithm ≠ some kind then _ else worker.variant).getAlgorithm = some kind
  split
  · cases kind <;> rfl
  · rename_i hsame
    exact not_not.mp hsame

theorem Cached.setWork (h : WorkOf blake3 header work) (kind : Algorithm) :
    Cached blake3 header (Exec.stateOf (Worker.setWork work kind worker)) := by
  apply Cached.withWork h
  exact Option.isSome_iff_exists.mpr ⟨kind, getAlgorithm_setWork worker work kind⟩

theorem Cached.step (h : Cached blake3 header worker) (hvalid : header.Valid) (hfor : op.For blake3 header) :
    Cached blake3 header (worker.step overflowChecks op) := by
  unfold Worker.step
  cases hwork : worker.work with
  | none =>
    obtain ⟨hnonce, htimestamp, hpow⟩ := missingWork_apply overflowChecks hwork
    cases op with
    | setWork work kind => exact .setWork (Job.workOf hvalid hfor) kind
    | increaseNonce =>
      rw [show WorkerOperation.run overflowChecks .increaseNonce worker = _ from hnonce]
      exact h
    | setTimestamp timestamp =>
      rw [show WorkerOperation.run overflowChecks (.setTimestamp timestamp) worker = _ from htimestamp timestamp]
      exact h
    | getPowHash =>
      rw [show Exec.stateOf (WorkerOperation.run overflowChecks .getPowHash worker) = _ from
        Exec.stateOf_bind_still _ (fun _ _ => rfl) worker, hpow]
      exact h
    | takeWork => exact ⟨nofun, nofun⟩
  | some entry =>
    obtain ⟨work, input⟩ := entry
    obtain ⟨hof, hinput⟩ := h.work hwork
    rw [hinput] at hwork
    have hvariant := h.variant (by rw [hwork]; rfl)
    cases op with
    | setWork work kind => exact .setWork (Job.workOf hvalid hfor) kind
    | increaseNonce =>
      rw [show WorkerOperation.run overflowChecks .increaseNonce worker = _ from increaseNonce_apply hwork]
      cases hnext : work.increaseNonce (E := E) overflowChecks with
      | error e => exact h
      | ok work' =>
        obtain ⟨hof', heq⟩ := hof.increaseNonce hnext
        simp only [work.patch_nonce, ← heq]
        exact .withWork hof' hvariant
    | setTimestamp timestamp =>
      rw [show WorkerOperation.run overflowChecks (.setTimestamp timestamp) worker = _ from setTimestamp_apply hwork timestamp,
        work.patch_timestamp]
      exact .withWork { hof with timestamp := hfor } hvariant
    | getPowHash =>
      obtain ⟨algorithm, halgorithm⟩ := Option.isSome_iff_exists.mp hvariant
      obtain ⟨variant, result, hkept, hrun, -⟩ := getPowHash_apply hwork halgorithm
      have hstate : Exec.stateOf (getPowHash worker) = { worker with variant } := by
        rw [hrun]
        cases result <;> rfl
      rw [show Exec.stateOf (WorkerOperation.run overflowChecks .getPowHash worker) = _ from
        Exec.stateOf_bind_still _ (fun _ _ => rfl) worker, hstate, hwork]
      exact .withWork hof (by rw [hkept]; rfl)
    | takeWork => exact ⟨nofun, nofun⟩

theorem cached_afterSteps {ops : List WorkerOperation} (hvalid : header.Valid) (hfor : ∀ op ∈ ops, op.For blake3 header)
    (h : Cached blake3 header worker) : Cached blake3 header (ops.foldl (Worker.step overflowChecks) worker) := by
  induction ops generalizing worker with
  | nil => exact h
  | cons op ops ih =>
    exact ih (fun op hop => hfor op (List.mem_cons_of_mem _ hop)) (h.step hvalid (hfor op List.mem_cons_self))

/-- A header is read back from its bytes, whose number is its size. A worker that mines it has at any time the bytes of its
work. The node that applies this work, also when it was sent as bytes, hashes the same bytes with both hashes. -/
theorem miner_node_agree {header : BlockHeader} {ops : List WorkerOperation} (overflowChecks : Bool) (hvalid : header.Valid)
    (h₁ : xelis.v1.Reusable) (h₂ : xelis.v2.Reusable) (hfor : ∀ op ∈ ops, op.For blake3 header) :
    BlockHeader.read header.write = .ok (header, []) ∧ header.size = header.write.length ∧
    ∀ worker : Worker xelis, worker = afterSteps overflowChecks ops → ∀ work input, worker.work = some (work, input) →
      input = work.write ∧ MinerWork.fromBytes input = .ok work ∧ ∃ header' algorithm worker',
        header.applyMinerWork work = some header' ∧ header'.getSerializedHeader blake3 = input ∧
        getBlockHash blake3 worker = .ok (header'.hash blake3) worker ∧
        worker.variant.getAlgorithm = some algorithm ∧
        getPowHash worker = match header'.getPowHash xelis blake3 algorithm with
          | .ok hash => .ok hash worker'
          | .error e => .error (.hashError e) worker' := by
  refine ⟨?_, BlockHeader.size_eq_length_write header hvalid.extraNonce, ?_⟩
  · have hread := BlockHeader.codec.reads true header hvalid []
    rwa [List.append_nil] at hread
  · rintro worker rfl work input hwork
    have hcached : Cached blake3 header (afterSteps overflowChecks ops : Worker xelis) :=
      cached_afterSteps hvalid hfor ⟨nofun, nofun⟩
    obtain ⟨hof, hinput⟩ := hcached.work hwork
    rw [hinput] at hwork ⊢
    obtain ⟨header', happly, hbytes⟩ := hof.applied
    obtain ⟨algorithm, halgorithm⟩ := Option.isSome_iff_exists.mp (hcached.variant (by rw [hwork]; rfl))
    obtain ⟨variant, result, -, hrun, hresult⟩ := getPowHash_apply hwork halgorithm
    have hblock : getBlockHash blake3 (afterSteps overflowChecks ops : Worker xelis) =
        .ok (header'.hash blake3) (afterSteps overflowChecks ops) := by
      unfold getBlockHash
      rw [Exec.bind_apply, Exec.get_apply]
      simp only [hwork]
      rw [BlockHeader.hash, hbytes]
      rfl
    rw [hresult h₁ h₂, ← hbytes] at hrun
    exact ⟨rfl, MinerWork.fromBytes_write hof.toValid, header', algorithm, _, happly, hbytes, hblock, halgorithm, hrun⟩

def headerToMine : BlockHeader where
  version := .v1
  tips := [3#256]
  timestamp := 5
  height := 1
  nonce := 0
  extraNonce := List.replicate 32 0
  miner := 7#256
  txsHashes := [4#256]

def lengthHash (bytes : IVec) : Hash := BitVec.ofNat 256 bytes.length

def lengthPow : XelisHash Unit where
  v1 := ⟨Unit, (), fun bytes pad => (.ok (BitVec.ofNat 256 bytes.length), pad)⟩
  v2 := ⟨Unit, (), fun bytes pad => (.ok (BitVec.ofNat 256 bytes.length), pad)⟩
  alignedInput := .ok (List.replicate 200 0)

def jobToMine : MinerWork := (MinerWork.fromBlock lengthHash headerToMine).setThreadIdU16 2

theorem miner_node_agree_two_tries : ∃ header' : BlockHeader,
    headerToMine.applyMinerWork { jobToMine with nonce := 1, timestamp := 6 } = some header' ∧
      header'.getSerializedHeader lengthHash = { jobToMine with nonce := 1, timestamp := 6 }.write := by
  have hops : ∀ op ∈ [.setWork jobToMine .v1, .increaseNonce, .setTimestamp 6], WorkerOperation.For lengthHash headerToMine op := by
    have htimestamp : 6 < U64_RANGE := by decide
    intro op hop
    simp only [List.mem_cons, List.not_mem_nil, or_false] at hop
    rcases hop with rfl | rfl | rfl
    · exact Job.setThreadIdU16 2 Job.fromBlock
    · trivial
    · exact htimestamp
  have hvalid : headerToMine.Valid := by constructor <;> decide
  have hagree := (miner_node_agree true hvalid (fun _ _ => rfl) (fun _ _ => rfl) hops).2.2 (afterSteps true _ : Worker lengthPow) rfl
    { jobToMine with nonce := 1, timestamp := 6 } _ rfl
  obtain ⟨hinput, -, header', -, -, happly, hbytes, -⟩ := hagree
  exact ⟨header', happly, hbytes.trans hinput⟩

end Worker

end Runs

end Xelis
