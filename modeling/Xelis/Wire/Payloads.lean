import Xelis.Wire.ValueCell

namespace Xelis.Wire

open Lib (Codec)
open Lib.Codec (readEntries writeEntry readFresh Fresh)
open Lib.Reader (readMany)

def MAX_TRANSFER_COUNT : Nat := 255

def MAX_MULTISIG_PARTICIPANTS : Nat := 255

def sizeOption {α : Type} (size : α → Nat) : Option α → Nat
  | some value => 1 + size value
  | none => 1

theorem sizeOption_eq {α : Type} {size : α → Nat} {write : α → IVec} (h : ∀ x, size x = (write x).length) (o : Option α) :
    sizeOption size o = (writeOption write o).length := by
  cases o with
  | none => simp [sizeOption, writeOption]
  | some x => simp [sizeOption, writeOption, h]

theorem sum_size_eq {α : Type} {size : α → Nat} {write : α → IVec} (h : ∀ x, size x = (write x).length) (xs : List α) :
    (xs.map size).sum = (xs.flatMap write).length := by
  rw [List.length_flatMap]
  exact congrArg List.sum (List.map_congr_left fun x _ => h x)

namespace BurnPayload

def write (payload : BurnPayload) : IVec := [writeHash payload.asset, writeU64 payload.amount].flatten

def read : Reader BurnPayload := do
  let asset ← readHash
  let amount ← readU64
  return { asset, amount }

def size (_ : BurnPayload) : Nat := 32 + 8

theorem size_eq (payload : BurnPayload) : size payload = (write payload).length := by simp [size, write]

theorem codec : Codec (fun _ => read) write (fun payload => payload.amount < U64_RANGE) := by
  refine hash_codec.bind (p := BurnPayload.asset) (fun _ _ => trivial) fun asset _ => ?_
  refine u64_codec.bind (p := BurnPayload.amount) (fun _ h => h.2) fun amount hamount => Codec.pure rfl fun payload => ?_
  constructor
  · rintro ⟨rfl, rfl, -⟩
    rfl
  · rintro rfl
    exact ⟨rfl, rfl, hamount⟩

end BurnPayload

namespace MultiSigPayload

/-- A removal is written without the number of participants. -/
def write (payload : MultiSigPayload) : IVec :=
  writeU8 payload.threshold ++
    if payload.threshold ≠ 0 then writeU8 payload.participants.length ++ payload.participants.flatMap writeHash else []

def readParticipants : Reader (List PublicKey) := do
  let participantsLen ← readU8
  if participantsLen = 0 ∨ participantsLen > MAX_MULTISIG_PARTICIPANTS then throw .invalidSize else
  readFresh .invalidValue (fun a b => decide (a = b)) readHash participantsLen []

def read : Reader MultiSigPayload := do
  let threshold ← readU8
  if threshold = 0 then return { threshold, participants := [] } else do
  let participants ← readParticipants
  return { threshold, participants }

/-- Always with the number of participants. -/
def size (payload : MultiSigPayload) : Nat := 1 + 1 + (payload.participants.map (fun _ => 32)).sum

def ParticipantsValid (participants : List PublicKey) : Prop :=
  participants ≠ [] ∧ participants.length ≤ MAX_MULTISIG_PARTICIPANTS ∧ participants.Nodup

def Valid (payload : MultiSigPayload) : Prop :=
  payload.threshold < 2 ^ 8 ∧
    if payload.threshold = 0 then payload.participants = [] else ParticipantsValid payload.participants

theorem size_eq_iff (payload : MultiSigPayload) : size payload = (write payload).length ↔ payload.threshold ≠ 0 := by
  have hsum : (payload.participants.map (fun _ => 32)).sum = (payload.participants.flatMap writeHash).length :=
    sum_size_eq (fun hash => (length_writeHash hash).symm) payload.participants
  unfold size write
  rw [hsum, List.length_append, length_writeU8]
  by_cases h : payload.threshold = 0
  · simp only [h, ne_eq, not_true, if_false, List.length_nil, iff_false]
    omega
  · simp only [h, ne_eq, not_false_iff, if_true, List.length_append, length_writeU8, iff_true]
    omega

theorem participants_codec :
    Codec (fun _ => readParticipants) (fun ps => writeU8 ps.length ++ ps.flatMap writeHash) ParticipantsValid := by
  have hnodup : ∀ ps : List PublicKey, Fresh (fun a b => decide (a = b)) ps ↔ ps.Nodup := by
    intro ps
    simp only [Fresh, List.Nodup, decide_eq_false_iff_not, ne_eq]
  refine u8_codec.bind (p := List.length) (fun _ h => Nat.lt_of_le_of_lt h.2.1 (by decide)) fun n hn => ?_
  refine Codec.guard (fun hcount => (hash_codec.fresh n).congr fun ps => ?_) ?_
  · rw [not_or, Nat.not_lt] at hcount
    rw [hnodup]
    constructor
    · rintro ⟨rfl, hps, -⟩
      exact ⟨rfl, fun hnil => hcount.1 (by rw [hnil]; rfl), hcount.2, hps⟩
    · rintro ⟨hlen, -, -, hps⟩
      exact ⟨hlen, hps, fun _ _ => trivial⟩
  · rintro (hzero | hmany) ps ⟨rfl, hne, hle, -⟩
    · exact hne (List.eq_nil_of_length_eq_zero hzero)
    · exact Nat.not_le_of_lt hmany hle

theorem codec : Codec (fun _ => read) write Valid := by
  refine u8_codec.bind (p := MultiSigPayload.threshold) (fun _ h => h.1) fun threshold hthreshold => ?_
  by_cases hzero : threshold = 0
  · simp only [hzero, if_true]
    refine Codec.pure (by simp) fun payload => ?_
    cases payload with
    | mk t ps =>
      simp only [Valid, MultiSigPayload.mk.injEq]
      constructor
      · rintro ⟨rfl, -, hps⟩
        exact ⟨rfl, by simpa using hps⟩
      · rintro ⟨rfl, rfl⟩
        exact ⟨rfl, by decide, rfl⟩
  · simp only [hzero, if_false]
    have hcodec : Codec (fun _ => readParticipants >>= fun participants => pure ({ threshold, participants } : MultiSigPayload))
        (fun payload => (writeU8 payload.participants.length ++ payload.participants.flatMap writeHash) ++ [])
        (fun payload => payload.threshold = threshold ∧ Valid payload) := by
      refine participants_codec.bind (p := MultiSigPayload.participants) (fun payload h => ?_) fun participants hps => ?_
      · have hvalid := h.2.2
        rwa [h.1, if_neg hzero] at hvalid
      · refine Codec.pure rfl fun payload => ?_
        constructor
        · rintro ⟨rfl, rfl, -⟩
          rfl
        · rintro rfl
          refine ⟨rfl, rfl, hthreshold, ?_⟩
          rw [if_neg hzero]
          exact hps
    refine hcodec.congr_write fun payload h => ?_
    rw [h.1, if_pos hzero, List.append_nil]

end MultiSigPayload

section Transfers

variable {S : Type}

structure TransferPayload (S : Type) where
  asset : Hash
  destination : PublicKey
  extraData : Option IVec
  commitment : CompressedPoint
  senderHandle : CompressedPoint
  receiverHandle : CompressedPoint
  ctValidityProof : CiphertextValidityProof S

/-- What a caller gives to a contract: a plain amount, or a commitment with both handles. -/
inductive ContractDeposit (S : Type) where
  | pub (amount : Nat)
  | priv (commitment senderHandle receiverHandle : CompressedPoint) (ctValidityProof : CiphertextValidityProof S)

variable [CurveScalar S]

def sizeProof (proof : CiphertextValidityProof S) : Nat := 32 * 2 + 32 * 2 + proof.y2.elim 0 (fun _ => 32)

theorem sizeProof_eq (proof : CiphertextValidityProof S) : sizeProof proof = proof.write.length := by
  unfold sizeProof CiphertextValidityProof.write
  cases proof.y2 <;> simp [writeScalar, CurveScalar.length_asBytes]

namespace TransferPayload

def writeExtraData (data : IVec) : IVec := writeVec writeByte data

def write (payload : TransferPayload S) : IVec :=
  [writeHash payload.asset, writeHash payload.destination, writeOption writeExtraData payload.extraData,
    writeHash payload.commitment, writeHash payload.senderHandle, writeHash payload.receiverHandle,
    payload.ctValidityProof.write].flatten

def read (version : TxVersion) : Reader (TransferPayload S) := do
  let asset ← readHash
  let destination ← readHash
  let extraData ← readOption (readVec readByte)
  let commitment ← readHash
  let senderHandle ← readHash
  let receiverHandle ← readHash
  let ctValidityProof ← CiphertextValidityProof.read version
  return { asset, destination, extraData, commitment, senderHandle, receiverHandle, ctValidityProof }

def size (payload : TransferPayload S) : Nat :=
  32 + 32 + sizeOption (fun data => 2 + (data.map (fun _ => 1)).sum) payload.extraData + 32 + 32 + 32 +
    sizeProof payload.ctValidityProof

/-- The extra data is at most `EXTRA_DATA_LIMIT_SIZE` bytes, and the proof fits the version. -/
def Valid (version : TxVersion) (payload : TransferPayload S) : Prop :=
  (∀ data ∈ payload.extraData, data.length ≤ DEFAULT_MAX_ITEMS) ∧ payload.ctValidityProof.Valid version

theorem size_eq (payload : TransferPayload S) : payload.size = payload.write.length := by
  have hextra : sizeOption (fun data : IVec => 2 + (data.map (fun _ => 1)).sum) payload.extraData =
      (writeOption writeExtraData payload.extraData).length :=
    sizeOption_eq (fun data => by simp [writeExtraData, writeVec, flatMap_writeByte]) payload.extraData
  unfold size write
  rw [hextra, sizeProof_eq]
  simp only [List.flatten_cons, List.flatten_nil, List.length_append, length_writeHash, List.length_nil]
  omega

theorem codec (version : TxVersion) : Codec (fun _ => read (S := S) version) write (Valid version) := by
  have hextra : Codec (fun _ => readOption (readVec readByte)) (writeOption writeExtraData)
      (fun o => ∀ data ∈ o, data.length ≤ DEFAULT_MAX_ITEMS) :=
    (option_codec (vec_codec byte_codec)).congr fun o => by simp
  refine hash_codec.bind (p := asset) (fun _ _ => trivial) fun asset _ => ?_
  refine hash_codec.bind (p := destination) (fun _ _ => trivial) fun destination _ => ?_
  refine hextra.bind (p := extraData) (fun _ h => h.2.2.1) fun extraData hdata => ?_
  refine hash_codec.bind (p := commitment) (fun _ _ => trivial) fun commitment _ => ?_
  refine hash_codec.bind (p := senderHandle) (fun _ _ => trivial) fun senderHandle _ => ?_
  refine hash_codec.bind (p := receiverHandle) (fun _ _ => trivial) fun receiverHandle _ => ?_
  refine (CiphertextValidityProof.codec version).bind (p := ctValidityProof) (fun _ h => h.2.2.2.2.2.2.2) fun proof hproof => ?_
  refine Codec.pure rfl fun payload => ?_
  constructor
  · rintro ⟨rfl, rfl, rfl, rfl, rfl, rfl, rfl, -⟩
    rfl
  · rintro rfl
    exact ⟨rfl, rfl, rfl, rfl, rfl, rfl, rfl, hdata, hproof⟩

end TransferPayload

namespace ContractDeposit

def write : ContractDeposit S → IVec
  | pub amount => writeU8 0 ++ writeU64 amount
  | priv commitment senderHandle receiverHandle proof =>
    writeU8 1 ++ [writeHash commitment, writeHash senderHandle, writeHash receiverHandle, proof.write].flatten

/-- The parts of a private deposit. -/
structure Private (S : Type) where
  commitment : CompressedPoint
  senderHandle : CompressedPoint
  receiverHandle : CompressedPoint
  ctValidityProof : CiphertextValidityProof S

def readPrivate (version : TxVersion) : Reader (Private S) := do
  let commitment ← readHash
  let senderHandle ← readHash
  let receiverHandle ← readHash
  let ctValidityProof ← CiphertextValidityProof.read version
  return { commitment, senderHandle, receiverHandle, ctValidityProof }

def ofPrivate (p : Private S) : ContractDeposit S := priv p.commitment p.senderHandle p.receiverHandle p.ctValidityProof

def read (version : TxVersion) : Reader (ContractDeposit S) := do
  match ← readU8 with
  | 0 => return pub (← readU64)
  | 1 => return ofPrivate (← readPrivate version)
  | _ => throw .invalidValue

def size : ContractDeposit S → Nat
  | pub _ => 1 + 8
  | priv _ _ _ proof => 1 + (32 + 32 + 32 + sizeProof proof)

def Valid (version : TxVersion) : ContractDeposit S → Prop
  | pub amount => amount < U64_RANGE
  | priv _ _ _ proof => proof.Valid version

theorem size_eq (deposit : ContractDeposit S) : deposit.size = deposit.write.length := by
  cases deposit with
  | pub amount => simp [size, write]
  | priv commitment senderHandle receiverHandle proof =>
    simp only [size, write, sizeProof_eq, List.flatten_cons, List.flatten_nil, List.length_append, length_writeHash, length_writeU8,
      List.length_nil]
    omega

theorem private_codec (version : TxVersion) : Codec (fun _ => readPrivate (S := S) version)
    (fun p => [writeHash p.commitment, writeHash p.senderHandle, writeHash p.receiverHandle, p.ctValidityProof.write].flatten)
    (fun p => p.ctValidityProof.Valid version) := by
  refine hash_codec.bind (p := Private.commitment) (fun _ _ => trivial) fun commitment _ => ?_
  refine hash_codec.bind (p := Private.senderHandle) (fun _ _ => trivial) fun senderHandle _ => ?_
  refine hash_codec.bind (p := Private.receiverHandle) (fun _ _ => trivial) fun receiverHandle _ => ?_
  refine (CiphertextValidityProof.codec version).bind (p := Private.ctValidityProof) (fun _ h => h.2.2.2) fun proof hproof => ?_
  refine Codec.pure rfl fun p => ?_
  constructor
  · rintro ⟨rfl, rfl, rfl, rfl, -⟩
    rfl
  · rintro rfl
    exact ⟨rfl, rfl, rfl, rfl, hproof⟩

theorem codec (version : TxVersion) : Codec (fun _ => read (S := S) version) write (Valid version) := by
  refine Codec.tagged (fun d _ => by cases d <;> exact writeU8_append_ne_nil _ _) fun t => ?_
  match t with
  | 0 => exact u64_codec.map (c := pub) (fun _ _ => tail_writeU8 _ _) fun d => by cases d <;> simp [write, Valid]
  | 1 =>
    refine (private_codec version).map (c := ofPrivate) (fun _ _ => ?_) fun d => ?_
    · exact tail_writeU8 _ _
    · cases d with
      | pub amount => simp [write, ofPrivate]
      | priv commitment senderHandle receiverHandle proof =>
        simp only [write, tag_writeU8, Valid, ofPrivate, priv.injEq]
        constructor
        · rintro ⟨-, h⟩
          exact ⟨⟨commitment, senderHandle, receiverHandle, proof⟩, h, rfl, rfl, rfl, rfl⟩
        · rintro ⟨p, h, rfl, rfl, rfl, rfl⟩
          exact ⟨trivial, h⟩
  | t + 2 => exact Codec.throw fun d => by cases d <;> simp [write]

end ContractDeposit

end Transfers

section Contracts

variable {S R : Type}

structure InvokeContractPayload (S R : Type) where
  contract : Hash
  deposits : List (Hash × ContractDeposit S)
  chunkId : Nat
  maxGas : Nat
  parameters : List (ValueCell S R)

structure InvokeConstructorPayload (S : Type) where
  maxGas : Nat
  deposits : List (Hash × ContractDeposit S)

structure DeployContractPayload (S R : Type) where
  module : Module S R
  invoke : Option (InvokeConstructorPayload S)

variable [CurveScalar S] [RangeProof R] (context : Context S R)

def sizeDeposits (deposits : List (Hash × ContractDeposit S)) : Nat := (deposits.map (fun e => 32 + e.2.size)).sum

theorem sizeDeposits_eq (deposits : List (Hash × ContractDeposit S)) :
    sizeDeposits deposits = (deposits.flatMap (writeEntry writeHash ContractDeposit.write)).length :=
  sum_size_eq (fun e => by rw [writeEntry, List.length_append, length_writeHash, ContractDeposit.size_eq]) deposits

/-- An asset that comes again replaces the deposit; the strict form refuses it. -/
def readDeposits (version : TxVersion) (strict : Bool) (len : Nat) : Reader (List (Hash × ContractDeposit S)) :=
  readEntries strict .invalidValue (fun a b => decide (a = b)) readHash (ContractDeposit.read version) len []

def DepositsValid (version : TxVersion) (deposits : List (Hash × ContractDeposit S)) : Prop :=
  (deposits.map Prod.fst).Nodup ∧ ∀ e ∈ deposits, e.2.Valid version

theorem deposits_codec {readCount : Reader Nat} {writeCount : Nat → IVec} {bound : Nat}
    (hcount : Codec (fun _ => readCount) writeCount (fun n => n < bound))
    (hlength : ∀ n m, (writeCount n).length = (writeCount m).length) (version : TxVersion) :
    Codec (fun strict => readCount >>= fun len => readDeposits (S := S) version strict len)
      (fun ds => writeCount ds.length ++ ds.flatMap (writeEntry writeHash ContractDeposit.write))
      (fun ds => ds.length < bound ∧ DepositsValid version ds) := by
  refine (Codec.entries hcount hlength hash_codec (ContractDeposit.codec version)).congr fun ds => ?_
  rw [Codec.freshKeys_iff_nodup, DepositsValid]
  simp only [true_and]

namespace InvokeContractPayload

def write (payload : InvokeContractPayload S R) : IVec :=
  [writeHash payload.contract,
    writeU8 payload.deposits.length ++ payload.deposits.flatMap (writeEntry writeHash ContractDeposit.write),
    writeU16 payload.chunkId, writeU64 payload.maxGas,
    writeU8 payload.parameters.length ++ payload.parameters.flatMap ValueCell.write].flatten

def read (strict : Bool) : Reader (InvokeContractPayload S R) := do
  let contract ← readHash
  let deposits ← readU8 >>= fun len => readDeposits context.version strict len
  let chunkId ← readU16
  let maxGas ← readU64
  let parameters ← readU8 >>= fun len => readMany (ValueCell.read context strict) len
  return { contract, deposits, chunkId, maxGas, parameters }

def size (payload : InvokeContractPayload S R) : Nat :=
  32 + 2 + 8 + 1 + sizeDeposits payload.deposits + 1 + (payload.parameters.map ValueCell.size).sum

structure Valid (payload : InvokeContractPayload S R) : Prop where
  deposits_length : payload.deposits.length < 2 ^ 8
  deposits : DepositsValid context.version payload.deposits
  chunkId : payload.chunkId < 2 ^ 16
  maxGas : payload.maxGas < U64_RANGE
  parameters_length : payload.parameters.length < 2 ^ 8
  parameters : ∀ parameter ∈ payload.parameters, parameter.Valid context

theorem size_eq (payload : InvokeContractPayload S R) : payload.size = payload.write.length := by
  unfold size write
  rw [sizeDeposits_eq, sum_size_eq ValueCell.size_eq]
  simp only [List.flatten_cons, List.flatten_nil, List.length_append, length_writeHash, length_writeU8, length_writeU16,
    length_writeU64, List.length_nil]
  omega

theorem codec : Codec (read context) write (Valid context) := by
  refine hash_codec.bind (p := contract) (fun _ _ => trivial) fun contract _ => ?_
  refine (deposits_codec u8_codec (fun _ _ => by simp) context.version).bind (p := deposits)
    (fun _ h => ⟨h.2.deposits_length, h.2.deposits⟩) fun deposits hdeposits => ?_
  refine u16_codec.bind (p := chunkId) (fun _ h => h.2.2.chunkId) fun chunkId hchunk => ?_
  refine u64_codec.bind (p := maxGas) (fun _ h => h.2.2.2.maxGas) fun maxGas hgas => ?_
  refine (Codec.counted u8_codec fun n _ => (ValueCell.codec context).many n).bind (p := parameters)
    (fun _ h => ⟨h.2.2.2.2.parameters_length, h.2.2.2.2.parameters⟩) fun parameters hparameters => ?_
  refine Codec.pure rfl fun payload => ?_
  constructor
  · rintro ⟨rfl, rfl, rfl, rfl, rfl, -⟩
    rfl
  · rintro rfl
    exact ⟨rfl, rfl, rfl, rfl, rfl, hdeposits.1, hdeposits.2, hchunk, hgas, hparameters.1, hparameters.2⟩

end InvokeContractPayload

namespace InvokeConstructorPayload

def write (payload : InvokeConstructorPayload S) : IVec :=
  [writeU64 payload.maxGas,
    writeU16 payload.deposits.length ++ payload.deposits.flatMap (writeEntry writeHash ContractDeposit.write)].flatten

def read (version : TxVersion) (strict : Bool) : Reader (InvokeConstructorPayload S) := do
  let maxGas ← readU64
  let deposits ← readU16 >>= fun len => readDeposits version strict len
  return { maxGas, deposits }

def size (payload : InvokeConstructorPayload S) : Nat := 8 + (2 + sizeDeposits payload.deposits)

def Valid (version : TxVersion) (payload : InvokeConstructorPayload S) : Prop :=
  payload.maxGas < U64_RANGE ∧ payload.deposits.length < 2 ^ 16 ∧ DepositsValid version payload.deposits

theorem size_eq (payload : InvokeConstructorPayload S) : payload.size = payload.write.length := by
  simp [size, write, sizeDeposits_eq]

theorem codec (version : TxVersion) : Codec (read (S := S) version) write (Valid version) := by
  refine u64_codec.bind (p := maxGas) (fun _ h => h.1) fun maxGas hgas => ?_
  refine (deposits_codec u16_codec (fun _ _ => by simp) version).bind (p := deposits) (fun _ h => h.2.2) fun deposits hdeposits => ?_
  refine Codec.pure rfl fun payload => ?_
  constructor
  · rintro ⟨rfl, rfl, -⟩
    rfl
  · rintro rfl
    exact ⟨rfl, rfl, hgas, hdeposits⟩

end InvokeConstructorPayload

namespace DeployContractPayload

def write (payload : DeployContractPayload S R) : IVec :=
  [payload.module.write, writeOption InvokeConstructorPayload.write payload.invoke].flatten

def read (strict : Bool) : Reader (DeployContractPayload S R) := do
  let module ← Module.read context strict
  let invoke ← readOption (InvokeConstructorPayload.read context.version strict)
  return { module, invoke }

/-- A module is measured by writing it. -/
def size (payload : DeployContractPayload S R) : Nat :=
  payload.module.write.length + sizeOption InvokeConstructorPayload.size payload.invoke

def Valid (payload : DeployContractPayload S R) : Prop :=
  payload.module.Valid context ∧ ∀ invoke ∈ payload.invoke, invoke.Valid context.version

theorem size_eq (payload : DeployContractPayload S R) : payload.size = payload.write.length := by
  simp [size, write, sizeOption_eq InvokeConstructorPayload.size_eq]

theorem codec : Codec (read context) write (Valid context) := by
  refine (Module.codec context).bind (p := module) (fun _ h => h.1) fun module hmodule => ?_
  refine (option_codec (InvokeConstructorPayload.codec context.version)).bind (p := invoke) (fun _ h => h.2.2) fun invoke hinvoke => ?_
  refine Codec.pure rfl fun payload => ?_
  constructor
  · rintro ⟨rfl, rfl, -⟩
    rfl
  · rintro rfl
    exact ⟨rfl, rfl, hmodule, hinvoke⟩

end DeployContractPayload

end Contracts

end Xelis.Wire
