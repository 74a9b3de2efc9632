import Mathlib.Data.Multiset.Basic
import Xelis.Wire.Payloads

namespace Xelis.Wire

open Lib (Codec)
open Lib.Codec (readFresh Fresh KeyOrder)
open Lib.Reader (readMany)

variable {S R : Type}

inductive TransactionType (S R : Type) where
  | transfers (payloads : List (TransferPayload S))
  | burn (payload : BurnPayload)
  | multiSig (payload : MultiSigPayload)
  | invokeContract (payload : InvokeContractPayload S R)
  | deployContract (payload : DeployContractPayload S R)

structure CommitmentEqProof (S : Type) where
  y0 : CompressedPoint
  y1 : CompressedPoint
  y2 : CompressedPoint
  zS : S
  zX : S
  zR : S

/-- One per asset spent: the commitment to the balance left, with its equality proof. -/
structure SourceCommitment (S : Type) where
  commitment : CompressedPoint
  proof : CommitmentEqProof S
  asset : Hash

structure SignatureId (S : Type) where
  id : Nat
  signature : Signature S

structure Transaction (S R : Type) where
  version : TxVersion
  source : PublicKey
  data : TransactionType S R
  fee : Nat
  nonce : Nat
  sourceCommitments : List (SourceCommitment S)
  rangeProof : R
  reference : Reference
  multisig : Option (List (SignatureId S))
  signature : Signature S

variable [CurveScalar S] [RangeProof R]

theorem Signature.length_write (signature : Signature S) : signature.write.length = 64 := by
  simp [Signature.write, writeScalar, CurveScalar.length_asBytes]

def CommitmentEqProof.write (proof : CommitmentEqProof S) : IVec :=
  [writeHash proof.y0, writeHash proof.y1, writeHash proof.y2, writeScalar proof.zS, writeScalar proof.zX,
    writeScalar proof.zR].flatten

def CommitmentEqProof.read : Reader (CommitmentEqProof S) := do
  let y0 ← readHash
  let y1 ← readHash
  let y2 ← readHash
  let zS ← readScalar
  let zX ← readScalar
  let zR ← readScalar
  return { y0, y1, y2, zS, zX, zR }

theorem CommitmentEqProof.codec : Codec (fun _ => CommitmentEqProof.read (S := S)) write (fun _ => True) := by
  refine hash_codec.bind (p := y0) (fun _ _ => trivial) fun y0 _ => ?_
  refine hash_codec.bind (p := y1) (fun _ _ => trivial) fun y1 _ => ?_
  refine hash_codec.bind (p := y2) (fun _ _ => trivial) fun y2 _ => ?_
  refine scalar_codec.bind (p := zS) (fun _ _ => trivial) fun zS _ => ?_
  refine scalar_codec.bind (p := zX) (fun _ _ => trivial) fun zX _ => ?_
  refine scalar_codec.bind (p := zR) (fun _ _ => trivial) fun zR _ => Codec.pure rfl fun proof => ?_
  constructor
  · rintro ⟨rfl, rfl, rfl, rfl, rfl, rfl, -⟩
    rfl
  · rintro rfl
    exact ⟨rfl, rfl, rfl, rfl, rfl, rfl, trivial⟩

def SourceCommitment.write (c : SourceCommitment S) : IVec := [writeHash c.commitment, c.proof.write, writeHash c.asset].flatten

def SourceCommitment.read : Reader (SourceCommitment S) := do
  let commitment ← readHash
  let proof ← CommitmentEqProof.read
  let asset ← readHash
  return { commitment, proof, asset }

def SourceCommitment.size (_ : SourceCommitment S) : Nat := 32 + (32 * 3 + 32 * 3) + 32

theorem SourceCommitment.size_eq (c : SourceCommitment S) : c.size = c.write.length := by
  simp [size, write, CommitmentEqProof.write, writeScalar, CurveScalar.length_asBytes]

theorem SourceCommitment.codec : Codec (fun _ => SourceCommitment.read (S := S)) write (fun _ => True) := by
  refine hash_codec.bind (p := commitment) (fun _ _ => trivial) fun commitment _ => ?_
  refine CommitmentEqProof.codec.bind (p := proof) (fun _ _ => trivial) fun proof _ => ?_
  refine hash_codec.bind (p := asset) (fun _ _ => trivial) fun asset _ => Codec.pure rfl fun c => ?_
  constructor
  · rintro ⟨rfl, rfl, rfl, -⟩
    rfl
  · rintro rfl
    exact ⟨rfl, rfl, rfl, trivial⟩

def SignatureId.write (signature : SignatureId S) : IVec := [writeU8 signature.id, signature.signature.write].flatten

def SignatureId.read : Reader (SignatureId S) := do
  let id ← readU8
  let signature ← Signature.read
  return { id, signature }

theorem SignatureId.codec : Codec (fun _ => SignatureId.read (S := S)) write (fun signature => signature.id < 2 ^ 8) := by
  refine u8_codec.bind (p := SignatureId.id) (fun _ h => h) fun id hid => ?_
  refine Signature.codec.bind (p := SignatureId.signature) (fun _ _ => trivial) fun signature _ => Codec.pure rfl fun s => ?_
  constructor
  · rintro ⟨rfl, rfl, -⟩
    rfl
  · rintro rfl
    exact ⟨rfl, rfl, hid⟩

namespace MultiSig

def write (signatures : List (SignatureId S)) : IVec := writeU8 signatures.length ++ signatures.flatMap SignatureId.write

def read : Reader (List (SignatureId S)) := do
  let len ← readU8
  readFresh .invalidValue (fun a b => decide (a.id = b.id)) SignatureId.read len []

def size (signatures : List (SignatureId S)) : Nat := 1 + (signatures.map (fun _ => 1 + 64)).sum

def Valid (signatures : List (SignatureId S)) : Prop :=
  signatures.length < 2 ^ 8 ∧ (signatures.map SignatureId.id).Nodup ∧ ∀ signature ∈ signatures, signature.id < 2 ^ 8

theorem size_eq (signatures : List (SignatureId S)) : size signatures = (write signatures).length := by
  have hsum : (signatures.map (fun _ => 1 + 64)).sum = (signatures.flatMap SignatureId.write).length :=
    sum_size_eq (fun s => by simp [SignatureId.write, Signature.length_write]) signatures
  rw [size, write, hsum, List.length_append, length_writeU8]

theorem codec : Codec (fun _ => read (S := S)) write Valid := by
  refine (Codec.counted u8_codec fun n _ => SignatureId.codec.fresh n).congr fun signatures => ?_
  have hnodup : Fresh (fun a b => decide (SignatureId.id a = SignatureId.id b)) signatures ↔ (signatures.map SignatureId.id).Nodup := by
    rw [List.Nodup, List.pairwise_map]
    simp only [Fresh, decide_eq_false_iff_not, ne_eq]
  rw [hnodup, Valid]

end MultiSig

section Data

variable (context : Context S R)

/-- A number of transfers or commitments that is not zero. -/
def readSome {α : Type} (read : Reader α) : Reader (List α) := do
  let count ← readU8
  if count = 0 ∨ count > MAX_TRANSFER_COUNT then throw .invalidSize else readMany read count

omit [CurveScalar S] [RangeProof R] in
theorem some_codec {α : Type} {read : Bool → Reader α} {write : α → IVec} {V : α → Prop} (h : Codec read write V) :
    Codec (fun strict => readSome (read strict)) (fun xs => writeU8 xs.length ++ xs.flatMap write)
      (fun xs => xs ≠ [] ∧ xs.length ≤ MAX_TRANSFER_COUNT ∧ ∀ x ∈ xs, V x) := by
  refine u8_codec.bind (p := List.length) (fun _ h => Nat.lt_of_le_of_lt h.2.1 (by decide)) fun n hn => ?_
  refine Codec.guard (fun hcount => (h.many n).congr fun xs => ?_) ?_
  · rw [not_or, Nat.not_lt] at hcount
    constructor
    · rintro ⟨rfl, hV⟩
      exact ⟨rfl, fun hnil => hcount.1 (by rw [hnil]; rfl), hcount.2, hV⟩
    · rintro ⟨hlen, -, -, hV⟩
      exact ⟨hlen, hV⟩
  · rintro (hzero | hmany) xs ⟨rfl, hne, hle, -⟩
    · exact hne (List.eq_nil_of_length_eq_zero hzero)
    · exact Nat.not_le_of_lt hmany hle

namespace TransactionType

def write : TransactionType S R → IVec
  | burn payload => writeU8 0 ++ BurnPayload.write payload
  | transfers payloads => writeU8 1 ++ (writeU8 payloads.length ++ payloads.flatMap TransferPayload.write)
  | multiSig payload => writeU8 2 ++ MultiSigPayload.write payload
  | invokeContract payload => writeU8 3 ++ payload.write
  | deployContract payload => writeU8 4 ++ payload.write

def read (strict : Bool) : Reader (TransactionType S R) := do
  match ← readU8 with
  | 0 => return burn (← BurnPayload.read)
  | 1 => return transfers (← readSome (TransferPayload.read context.version))
  | 2 => return multiSig (← MultiSigPayload.read)
  | 3 => return invokeContract (← InvokeContractPayload.read context strict)
  | 4 => return deployContract (← DeployContractPayload.read context strict)
  | _ => throw .invalidValue

def size : TransactionType S R → Nat
  | burn payload => 1 + BurnPayload.size payload
  | transfers payloads => 1 + (1 + (payloads.map TransferPayload.size).sum)
  | multiSig payload => 1 + (1 + 1 + (payload.participants.map (fun _ => 32)).sum)
  | invokeContract payload => 1 + payload.size
  | deployContract payload => 1 + payload.size

def Valid : TransactionType S R → Prop
  | burn payload => payload.amount < U64_RANGE
  | transfers payloads => payloads ≠ [] ∧ payloads.length ≤ MAX_TRANSFER_COUNT ∧ ∀ p ∈ payloads, p.Valid context.version
  | multiSig payload => MultiSigPayload.Valid payload
  | invokeContract payload => payload.Valid context
  | deployContract payload => payload.Valid context

/-- The removal of a multisig setup. -/
def isRemoval : TransactionType S R → Bool
  | multiSig payload => payload.threshold = 0
  | _ => false

theorem size_eq_iff (data : TransactionType S R) : data.size = data.write.length ↔ data.isRemoval = false := by
  cases data with
  | burn payload => simp [size, write, isRemoval, BurnPayload.size_eq]
  | transfers payloads => simp [size, write, isRemoval, sum_size_eq TransferPayload.size_eq]
  | multiSig payload =>
    have hsize := MultiSigPayload.size_eq_iff payload
    unfold MultiSigPayload.size at hsize
    simp only [size, write, isRemoval, List.length_append, length_writeU8, decide_eq_false_iff_not, Nat.add_left_cancel_iff]
    exact hsize
  | invokeContract payload => simp [size, write, isRemoval, InvokeContractPayload.size_eq]
  | deployContract payload => simp [size, write, isRemoval, DeployContractPayload.size_eq]

theorem codec : Codec (read context) write (Valid context) := by
  refine Codec.tagged (fun d _ => by cases d <;> exact writeU8_append_ne_nil _ _) fun t => ?_
  match t with
  | 0 => exact BurnPayload.codec.map (c := burn) (fun _ _ => tail_writeU8 _ _) fun d => by cases d <;> simp [write, Valid]
  | 1 =>
    refine (some_codec (TransferPayload.codec context.version)).map (c := transfers) (fun _ _ => tail_writeU8 _ _) fun d => ?_
    cases d <;> simp [write, Valid]
  | 2 =>
    refine MultiSigPayload.codec.map (c := multiSig) (fun _ _ => tail_writeU8 _ _) fun d => ?_
    cases d <;> simp [write, Valid]
  | 3 =>
    refine (InvokeContractPayload.codec context).map (c := invokeContract) (fun _ _ => tail_writeU8 _ _) fun d => ?_
    cases d <;> simp [write, Valid]
  | 4 =>
    refine (DeployContractPayload.codec context).map (c := deployContract) (fun _ _ => tail_writeU8 _ _) fun d => ?_
    cases d <;> simp [write, Valid]
  | t + 5 => exact Codec.throw fun d => by cases d <;> simp [write]

end TransactionType

end Data

def TxVersion.write : TxVersion → IVec
  | .v0 => writeU8 0
  | .v1 => writeU8 1
  | .v2 => writeU8 2

def TxVersion.read : Reader TxVersion := do
  match ← readU8 with
  | 0 => return .v0
  | 1 => return .v1
  | 2 => return .v2
  | _ => throw .invalidValue

omit [CurveScalar S] [RangeProof R] in
theorem TxVersion.codec : Codec (fun _ => TxVersion.read) TxVersion.write (fun _ => True) := by
  refine Codec.tagged (fun v _ => by cases v <;> exact List.cons_ne_nil _ _) fun t => ?_
  match t with
  | 0 => exact Codec.pure (x := TxVersion.v0) rfl fun v => by cases v <;> simp [TxVersion.write]
  | 1 => exact Codec.pure (x := TxVersion.v1) rfl fun v => by cases v <;> simp [TxVersion.write]
  | 2 => exact Codec.pure (x := TxVersion.v2) rfl fun v => by cases v <;> simp [TxVersion.write]
  | t + 3 => exact Codec.throw fun v => by cases v <;> simp [TxVersion.write]

def writeReference (reference : Reference) : IVec := [writeHash reference.hash, writeU64 reference.topoheight].flatten

def readReference : Reader Reference := do
  let hash ← readHash
  let topoheight ← readU64
  return { hash, topoheight }

omit [CurveScalar S] [RangeProof R] in
theorem reference_codec : Codec (fun _ => readReference) writeReference (fun reference => reference.topoheight < U64_RANGE) := by
  refine hash_codec.bind (p := Reference.hash) (fun _ _ => trivial) fun hash _ => ?_
  refine u64_codec.bind (p := Reference.topoheight) (fun _ h => h.2) fun topoheight htopo => Codec.pure rfl fun reference => ?_
  constructor
  · rintro ⟨rfl, rfl, -⟩
    rfl
  · rintro rfl
    exact ⟨rfl, rfl, htopo⟩

namespace Transaction

variable (order : KeyOrder DataValue) (same : ValueCell S R → ValueCell S R → Bool)

def writeMultisig (version : TxVersion) (multisig : Option (List (SignatureId S))) : IVec :=
  if version ≠ .v0 then writeOption MultiSig.write multisig else []

def readMultisig (version : TxVersion) : Reader (Option (List (SignatureId S))) :=
  if version = .v0 then pure none else readOption MultiSig.read

def writeBody (version : TxVersion) (tx : Transaction S R) : IVec :=
  [writeHash tx.source, tx.data.write, writeU64 tx.fee, writeU64 tx.nonce,
    writeU8 tx.sourceCommitments.length ++ tx.sourceCommitments.flatMap SourceCommitment.write,
    writeRangeProof tx.rangeProof, writeReference tx.reference, writeMultisig version tx.multisig, tx.signature.write].flatten

def toBytes (tx : Transaction S R) : IVec := TxVersion.write tx.version ++ writeBody tx.version tx

/-- The version is kept for the proofs and the values that come after it. -/
def read (strict : Bool) : Reader (Transaction S R) := do
  let version ← TxVersion.read
  let context : Context S R := { version, order, same }
  let source ← readHash
  let data ← TransactionType.read context strict
  let fee ← readU64
  let nonce ← readU64
  let sourceCommitments ← readSome SourceCommitment.read
  let rangeProof ← readRangeProof
  let reference ← readReference
  let multisig ← readMultisig version
  let signature ← Signature.read
  return { version, source, data, fee, nonce, sourceCommitments, rangeProof, reference, multisig, signature }

/-- Bytes behind the transaction are not looked at. -/
def fromBytes (bytes : IVec) : Except ReaderError (Transaction S R) :=
  match read order same false bytes with
  | .ok (tx, _) => .ok tx
  | .error e => .error e

def size (tx : Transaction S R) : Nat :=
  1 + 32 + tx.data.size + 8 + 8 + 1 + (tx.sourceCommitments.map SourceCommitment.size).sum +
    ((RangeProof.toBytes tx.rangeProof).length + 2) + (32 + 8) + 64 +
    if tx.version ≠ .v0 then sizeOption MultiSig.size tx.multisig else 0

/-- What the format admits: the limits of every count and length, maps with distinct keys, and the parts that the
version has. -/
structure Valid (tx : Transaction S R) : Prop where
  data : tx.data.Valid { version := tx.version, order, same }
  fee : tx.fee < U64_RANGE
  nonce : tx.nonce < U64_RANGE
  commitments_ne_nil : tx.sourceCommitments ≠ []
  commitments_length : tx.sourceCommitments.length ≤ MAX_TRANSFER_COUNT
  rangeProof : RangeProofValid tx.rangeProof
  reference : tx.reference.topoheight < U64_RANGE
  multisig : if tx.version = .v0 then tx.multisig = none else ∀ signatures ∈ tx.multisig, MultiSig.Valid signatures

omit [RangeProof R] in
theorem multisig_codec (version : TxVersion) : Codec (fun _ => readMultisig (S := S) version) (writeMultisig version)
    (fun multisig => if version = .v0 then multisig = none else ∀ signatures ∈ multisig, MultiSig.Valid signatures) := by
  by_cases hversion : version = .v0
  · subst hversion
    exact Codec.pure rfl fun _ => Iff.rfl
  · simp only [readMultisig, if_neg hversion]
    refine (option_codec MultiSig.codec).congr_write fun multisig _ => ?_
    rw [writeMultisig, if_pos hversion]

theorem codec : Codec (read order same) toBytes (Valid order same) := by
  have hbody : ∀ version, Codec (fun strict => do
      let source ← readHash
      let data ← TransactionType.read { version, order, same } strict
      let fee ← readU64
      let nonce ← readU64
      let sourceCommitments ← readSome SourceCommitment.read
      let rangeProof ← readRangeProof
      let reference ← readReference
      let multisig ← readMultisig version
      let signature ← Signature.read
      return { version, source, data, fee, nonce, sourceCommitments, rangeProof, reference, multisig, signature })
      (writeBody version) (fun tx => tx.version = version ∧ Valid order same tx) := by
    intro version
    refine hash_codec.bind (p := source) (fun _ _ => trivial) fun source _ => ?_
    refine (TransactionType.codec _).bind (p := Transaction.data) (fun tx h => h.2.1 ▸ h.2.2.data) fun data hdata => ?_
    refine u64_codec.bind (p := Transaction.fee) (fun _ h => h.2.2.2.fee) fun fee hfee => ?_
    refine u64_codec.bind (p := Transaction.nonce) (fun _ h => h.2.2.2.2.nonce) fun nonce hnonce => ?_
    refine (some_codec SourceCommitment.codec).bind (p := sourceCommitments)
      (fun _ h => ⟨h.2.2.2.2.2.commitments_ne_nil, h.2.2.2.2.2.commitments_length, fun _ _ => trivial⟩)
      fun sourceCommitments hcommitments => ?_
    refine rangeProof_codec.bind (p := Transaction.rangeProof) (fun _ h => h.2.2.2.2.2.2.rangeProof) fun rangeProof hproof => ?_
    refine reference_codec.bind (p := Transaction.reference) (fun _ h => h.2.2.2.2.2.2.2.reference) fun reference hreference => ?_
    refine (multisig_codec version).bind (p := Transaction.multisig)
      (fun tx h => h.2.2.2.2.2.2.2.1 ▸ h.2.2.2.2.2.2.2.2.multisig) fun multisig hmultisig => ?_
    refine Signature.codec.bind (p := Transaction.signature) (fun _ _ => trivial) fun signature _ => Codec.pure rfl fun tx => ?_
    constructor
    · rintro ⟨rfl, rfl, rfl, rfl, rfl, rfl, rfl, rfl, rfl, rfl, -⟩
      rfl
    · rintro rfl
      exact ⟨rfl, rfl, rfl, rfl, rfl, rfl, rfl, rfl, rfl, rfl, hdata, hfee, hnonce, hcommitments.1, hcommitments.2.1, hproof,
        hreference, hmultisig⟩
  refine TxVersion.codec.bind (p := version) (fun _ _ => trivial) fun version _ => (hbody version).congr_write fun tx h => ?_
  rw [h.1]

theorem size_eq_iff (tx : Transaction S R) : tx.size = tx.toBytes.length ↔ tx.data.isRemoval = false := by
  have hmultisig : (if tx.version ≠ .v0 then sizeOption MultiSig.size tx.multisig else 0) =
      (writeMultisig tx.version tx.multisig).length := by
    unfold writeMultisig
    split
    · exact sizeOption_eq MultiSig.size_eq tx.multisig
    · rfl
  have hversion : (TxVersion.write tx.version).length = 1 := by cases tx.version <;> exact length_writeU8 _
  rw [← TransactionType.size_eq_iff, size, hmultisig, sum_size_eq SourceCommitment.size_eq]
  simp only [toBytes, writeBody, writeRangeProof, writeReference, List.flatten_cons, List.flatten_nil, List.length_append,
    length_writeHash, length_writeU8, length_writeU16, length_writeU64, List.length_nil, Signature.length_write, hversion]
  constructor
  · intro h
    omega
  · intro h
    omega

/-- A transaction is read back from its bytes, and its size is their number, exactly when it keeps to the limits of
the format and is not the removal of a multisig setup. Bytes that are taken are those of the transaction exactly
when the strict reader takes them, which refuses a map with a repeated key. -/
theorem transaction_codec :
    (∀ tx : Transaction S R, fromBytes order same tx.toBytes = .ok tx ∧ tx.size = tx.toBytes.length ↔
      Valid order same tx ∧ tx.data.isRemoval = false) ∧
    ∀ (bytes : IVec) (tx : Transaction S R), read order same false bytes = .ok (tx, []) →
      (tx.toBytes = bytes ↔ ∃ tx', read order same true bytes = .ok (tx', [])) := by
  have hcodec := codec order same
  refine ⟨fun tx => ?_, fun bytes tx hread => ⟨?_, ?_⟩⟩
  · rw [size_eq_iff]
    refine and_congr_left fun _ => ⟨fun h => ?_, fun h => ?_⟩
    · unfold fromBytes at h
      split at h
      · rename_i tx' rest hread
        cases h
        exact (hcodec.sound hread).1
      · cases h
    · have hread := hcodec.reads false tx h []
      rw [List.append_nil] at hread
      rw [fromBytes, hread]
  · rintro rfl
    have hstrict := hcodec.reads true tx (hcodec.sound hread).1 []
    rw [List.append_nil] at hstrict
    exact ⟨tx, hstrict⟩
  · rintro ⟨tx', hstrict⟩
    have hbytes := hcodec.faithful hstrict
    have hloose := hcodec.reads false tx' (hcodec.sound hstrict).1 []
    rw [← hbytes, hread] at hloose
    cases hloose
    rw [hbytes, List.append_nil]

end Transaction

def GROUP_ORDER : Nat := 2 ^ 252 + 27742317777372353535851937790883648493

theorem groupOrder_pos : 0 < GROUP_ORDER := by decide

/-- Little-endian bytes of a number below the group order. -/
instance : CurveScalar (Fin GROUP_ORDER) where
  asBytes s := (Lib.beBytes 32 s.val).reverse
  fromCanonicalBytes bytes :=
    if h : bytes.length = 32 ∧ Lib.ofBeBytes bytes.reverse < GROUP_ORDER then some ⟨Lib.ofBeBytes bytes.reverse, h.2⟩ else none
  length_asBytes s := by rw [List.length_reverse, Lib.length_beBytes]
  fromCanonicalBytes_iff bytes s := by
    constructor
    · intro h
      split at h
      · rename_i hbytes
        cases h
        have hlen : bytes.reverse.length = 32 := by rw [List.length_reverse, hbytes.1]
        show (Lib.beBytes 32 (Lib.ofBeBytes bytes.reverse)).reverse = bytes
        rw [← hlen, Lib.beBytes_ofBeBytes, List.reverse_reverse]
      · cases h
    · rintro rfl
      have hval : Lib.ofBeBytes (Lib.beBytes 32 s.val) = s.val :=
        Lib.ofBeBytes_beBytes 32 s.val (Nat.lt_trans s.isLt (by decide))
      rw [dif_pos ⟨by rw [List.length_reverse, Lib.length_beBytes], by rw [List.reverse_reverse, hval]; exact s.isLt⟩]
      simp only [List.reverse_reverse, hval]

instance : RangeProof IVec where
  toBytes := id
  fromBytes := some
  fromBytes_iff bytes r := by
    rw [Option.some.injEq]
    exact eq_comm

/-- Some order of the keys, whichever way they were put in. -/
noncomputable def anyOrder : KeyOrder DataValue where
  order ks := (Multiset.ofList ks).toList
  perm _ := Multiset.coe_eq_coe.mp (Multiset.coe_toList _)
  unique h := congrArg Multiset.toList (Multiset.coe_eq_coe.mpr h)

def sampleCommitment : SourceCommitment (Fin GROUP_ORDER) :=
  { commitment := 0, proof := { y0 := 0, y1 := 0, y2 := 0, zS := ⟨0, groupOrder_pos⟩, zX := ⟨0, groupOrder_pos⟩, zR := ⟨0, groupOrder_pos⟩ }, asset := 0 }

def sampleTransaction (data : TransactionType (Fin GROUP_ORDER) IVec) : Transaction (Fin GROUP_ORDER) IVec :=
  { version := .v2, source := 0, data, fee := 0, nonce := 0, sourceCommitments := [sampleCommitment],
    rangeProof := List.replicate 288 0, reference := { hash := 0, topoheight := 0 }, multisig := none,
    signature := { s := ⟨0, groupOrder_pos⟩, e := ⟨0, groupOrder_pos⟩ } }

theorem sampleTransaction_valid {data : TransactionType (Fin GROUP_ORDER) IVec}
    {same : ValueCell (Fin GROUP_ORDER) IVec → ValueCell (Fin GROUP_ORDER) IVec → Bool} {order : KeyOrder DataValue}
    (h : data.Valid { version := .v2, order, same }) : (sampleTransaction data).Valid order same := by
  have hproof : RangeProofValid (List.replicate 288 0 : IVec) := by
    unfold RangeProofValid
    decide +kernel
  exact ⟨h, show 0 < U64_RANGE by decide, show 0 < U64_RANGE by decide, List.cons_ne_nil _ _, show 1 ≤ 255 by decide, hproof,
    show 0 < U64_RANGE by decide, fun _ h => nomatch h⟩

/-- A burn is written and read back. -/
theorem transaction_codec_burn :
    Transaction.fromBytes anyOrder (fun _ _ => false) (sampleTransaction (.burn { asset := 0, amount := 1 })).toBytes =
        .ok (sampleTransaction (.burn { asset := 0, amount := 1 })) ∧
      (sampleTransaction (.burn { asset := 0, amount := 1 })).size =
        (sampleTransaction (.burn { asset := 0, amount := 1 })).toBytes.length :=
  ((Transaction.transaction_codec anyOrder (fun _ _ => false)).1 _).mpr
    ⟨sampleTransaction_valid (show 1 < U64_RANGE by decide), rfl⟩

/-- Two deposits of one asset, as they can come from a peer. -/
def repeatedDeposit : TransactionType (Fin GROUP_ORDER) IVec :=
  .invokeContract { contract := 7, deposits := [(0, .pub 1), (0, .pub 2)], chunkId := 0, maxGas := 0, parameters := [] }

/-- How many bytes are written for what was read. -/
noncomputable def rewrittenLength (bytes : IVec) : Option Nat :=
  match Transaction.read anyOrder (fun _ _ : ValueCell (Fin GROUP_ORDER) IVec => false) false bytes with
  | .ok (tx, []) => some tx.toBytes.length
  | _ => none

theorem transaction_codec_fails :
    (∃ tx : Transaction (Fin GROUP_ORDER) IVec, tx.Valid anyOrder (fun _ _ => false) ∧ tx.size ≠ tx.toBytes.length) ∧
    ∃ (bytes : IVec) (tx : Transaction (Fin GROUP_ORDER) IVec),
      Transaction.read anyOrder (fun _ _ => false) false bytes = .ok (tx, []) ∧ tx.toBytes ≠ bytes := by
  refine ⟨⟨sampleTransaction (.multiSig { threshold := 0, participants := [] }), ?_, ?_⟩, ?_⟩
  · exact sampleTransaction_valid ⟨show 0 < 2 ^ 8 by decide, rfl⟩
  · rw [ne_eq, Transaction.size_eq_iff]
    decide
  · have hlength : rewrittenLength (sampleTransaction repeatedDeposit).toBytes = some 787 := by decide +kernel
    have hbytes : (sampleTransaction repeatedDeposit).toBytes.length = 828 := by decide +kernel
    unfold rewrittenLength at hlength
    split at hlength
    · rename_i tx hread
      refine ⟨_, tx, hread, fun heq => ?_⟩
      rw [heq, hbytes] at hlength
      cases hlength
    · cases hlength

end Xelis.Wire
