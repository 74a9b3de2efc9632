import Xelis.Lib.IndexSet
import Xelis.Wallet.TransactionBuilder
import Xelis.Wire.Account

namespace Xelis.Wallet

open Lib (FiniteMap Exec)
open Wire (DataElement CurveScalar RangeProof CommitmentEqProof Signature)

inductive GenerationError where
  | balanceNotFound (asset : Hash)
  | invalidConstructorInvoke
  | missingContractKey
  | emptyTransfers
  | maxTransferCountReached
  | senderIsReceiver
  | extraDataTooLarge
  | encryptedExtraDataTooLarge (size limit : Nat)
  | invalidNetwork
  | extraDataAndIntegratedAddress
  | decompression
  | insufficientFunds (required available : Nat)
  | rangeProof
  | multiSigParticipants
  | multiSigThreshold
  | multiSigSelfParticipant
  | burnZero
  | depositZero
  | invalidModule
  | maxGasReached
  deriving DecidableEq

section State

/-- A ciphertext in the form in which it was last needed. -/
inductive CiphertextCache (P : Type) where
  | compressed (ciphertext : Wire.CompressedCiphertext)
  | decompressed (ciphertext : Ciphertext P)
  | both (compressed : Wire.CompressedCiphertext) (ciphertext : Ciphertext P) (dirty : Bool)

structure Balance (P : Type) where
  amount : Nat
  ciphertext : CiphertextCache P

structure TransactionBuilderState (P : Type) where
  registeredKeys : PublicKey → Bool
  mainnet : Bool
  balances : FiniteMap Hash (Balance P)
  reference : Reference
  nonce : Nonce
  txHashBuilt : Option Hash
  stableTopoheight : Option TopoHeight

variable {P : Type} [RistrettoPoint P]

def CiphertextCache.takeCiphertext : CiphertextCache P → Option (Ciphertext P)
  | compressed ciphertext => do
    let commitment ← RistrettoPoint.decompress ciphertext.commitment
    let handle ← RistrettoPoint.decompress ciphertext.handle
    return ⟨commitment, handle⟩
  | decompressed ciphertext => some ciphertext
  | both _ ciphertext _ => some ciphertext

/-- Taking a plain amount away. -/
def subScalar (ct : Ciphertext P) (amount : Nat) : Ciphertext P := ⟨ct.commitment - amount • RistrettoPoint.basepoint, ct.handle⟩

end State

def hexDigit (b : UInt8) : Option Nat :=
  if 48 ≤ b.toNat ∧ b.toNat ≤ 57 then some (b.toNat - 48)
  else if 97 ≤ b.toNat ∧ b.toNat ≤ 102 then some (b.toNat - 87)
  else if 65 ≤ b.toNat ∧ b.toNat ≤ 70 then some (b.toNat - 55)
  else none

def hexDecode : IVec → Option IVec
  | [] => some []
  | [_] => none
  | a :: b :: rest => do
    let high ← hexDigit a
    let low ← hexDigit b
    return UInt8.ofNat (high * 16 + low) :: (← hexDecode rest)

theorem length_hexDecode {text bytes : IVec} (h : hexDecode text = some bytes) : text.length = 2 * bytes.length := by
  fun_induction hexDecode text generalizing bytes with
  | case1 =>
    cases h
    rfl
  | case2 => cases h
  | case3 a b rest ih =>
    simp only [Option.bind_eq_bind, Option.pure_def, Option.bind_eq_some_iff, Option.some.injEq] at h
    obtain ⟨high, -, low, -, tail, htail, rfl⟩ := h
    simp only [List.length_cons, ih htail]
    omega

/-- The randomness of one build, with the order in which its set of assets is iterated, and the libraries it calls: the stream
cipher keeps the length of a text, a range proof over a power of two of values has its known size, and a module is read as in a
transaction. -/
structure Prover (P S R : Type) [CurveScalar S] [RangeProof R] where
  publicKey : P
  compress : P → CompressedPoint
  amountOpening : Nat → S
  newWithOpening : Nat → S → P
  decryptHandle : P → S → P
  sourceCommitment : Hash → Nat → CompressedPoint
  commitmentEqProof : Hash → Ciphertext P → Nat → CommitmentEqProof S
  validityPoints : Nat → CompressedPoint × CompressedPoint × CompressedPoint
  validityScalars : Nat → S × S
  extraHandles : Nat → CompressedPoint × CompressedPoint
  encryptInPlace : Nat → IVec → IVec
  proveMultiple : List Nat → Option R
  moduleFromBytes : IVec → Option (Wire.Module S R)
  sign : IVec → Signature S
  iterate : List Hash → List Hash
  iterate_perm : ∀ assets, (iterate assets).Perm assets
  length_encryptInPlace : ∀ i data, (encryptInPlace i data).length = data.length
  length_proveMultiple : ∀ values proof m, values.length = 2 ^ m → proveMultiple values = some proof →
    (RangeProof.toBytes proof).length = 32 * 9 + 2 * 32 * (6 + m)
  moduleFromBytes_read : ∀ bytes module, moduleFromBytes bytes = some module →
    ∃ (context : Wire.Context S R) (rest : IVec), Wire.Module.read context false bytes = .ok (module, rest)

/-- A transfer with the points that stand for its amount. -/
structure TransferWithCommitment (P : Type) where
  inner : TransferBuilder
  commitment : P
  senderHandle : P
  receiverHandle : P

structure UnsignedTransaction (S R : Type) where
  version : TxVersion
  source : PublicKey
  data : Wire.TransactionType S R
  fee : Nat
  nonce : Nonce
  sourceCommitments : List (Wire.SourceCommitment S)
  reference : Reference
  rangeProof : R
  multisig : Option (List (Wire.SignatureId S))

variable {P S R : Type} [RistrettoPoint P] [CurveScalar S] [RangeProof R]

/-- The data of an integrated address becomes the extra data. -/
def TransferBuilder.prepare (source : PublicKey) (mainnet : Bool) (transfer : TransferBuilder) :
    Except GenerationError TransferBuilder :=
  if transfer.destination.key = source then .error .senderIsReceiver
  else if mainnet ≠ transfer.destination.mainnet then .error .invalidNetwork
  else if transfer.extraData.isSome ∧ (getExtraData transfer.destination).isSome then .error .extraDataAndIntegratedAddress
  else if ((getExtraData transfer.destination).or transfer.extraData).any (fun data => EXTRA_DATA_LIMIT_SIZE < data.size) then
    .error .extraDataTooLarge
  else .ok { transfer with
    extraData := (getExtraData transfer.destination).or transfer.extraData
    destination := { transfer.destination with addrType := .normal } }

def withCommitment (prover : Prover P S R) (transfer : TransferBuilder × Nat) :
    Except GenerationError (TransferWithCommitment P) :=
  match RistrettoPoint.decompress (P := P) transfer.1.destination.key with
  | none => .error .decompression
  | some destination =>
    let opening := prover.amountOpening transfer.2
    .ok {
      inner := transfer.1
      commitment := prover.newWithOpening transfer.1.amount opening
      senderHandle := prover.decryptHandle prover.publicKey opening
      receiverHandle := prover.decryptHandle destination opening }

def prepareOutputs (prover : Prover P S R) (source : PublicKey) (mainnet : Bool) (outputs : List TransferBuilder) :
    Except GenerationError (List (TransferWithCommitment P)) :=
  if outputs = [] then .error .emptyTransfers
  else if outputs.length > MAX_TRANSFER_COUNT then .error .maxTransferCountReached
  else do
    let prepared ← outputs.mapM (TransferBuilder.prepare source mainnet)
    if (prepared.map (fun transfer => transfer.extraData.elim 0 DataElement.size)).sum > EXTRA_DATA_LIMIT_SUM_SIZE then
      throw .extraDataTooLarge
    else prepared.zipIdx.mapM (withCommitment prover)

/-- No key of a contract is known, so that a private deposit cannot be made. -/
def checkDeposits : List (Hash × ContractDepositBuilder) → Except GenerationError Unit
  | [] => .ok ()
  | e :: rest => if e.2.priv then .error .missingContractKey else if e.2.amount = 0 then .error .depositZero else checkDeposits rest

def extraDataBytes (prover : Prover P S R) (version : TxVersion) (index : Nat) (encrypt : Bool) (data : IVec) : IVec :=
  let handles := prover.extraHandles index
  let encrypted := writeHash handles.1 ++ (writeHash handles.2 ++ writeVec writeByte (prover.encryptInPlace index data))
  if version = .v2 then
    if encrypt then writeU8 0 ++ encrypted else writeU8 1 ++ writeVec writeByte data
  else encrypted

/-- The proof has a third point since the second version. -/
def validityProof (prover : Prover P S R) (version : TxVersion) (index : Nat) : Wire.CiphertextValidityProof S where
  y0 := (prover.validityPoints index).1
  y1 := (prover.validityPoints index).2.1
  y2 := if version = .v0 then none else some (prover.validityPoints index).2.2
  zR := (prover.validityScalars index).1
  zX := (prover.validityScalars index).2

def buildTransfer (prover : Prover P S R) (version : TxVersion) (transfer : TransferWithCommitment P × Nat) :
    Except GenerationError (Wire.TransferPayload S) :=
  let inner := transfer.1.inner
  let extraData := inner.extraData.map fun data => extraDataBytes prover version transfer.2 inner.encryptExtraData data.write
  match extraData.filter (fun bytes => EXTRA_DATA_LIMIT_SIZE < 2 + bytes.length) with
  | some bytes => .error (.encryptedExtraDataTooLarge (2 + bytes.length) EXTRA_DATA_LIMIT_SIZE)
  | none => .ok {
      asset := inner.asset
      destination := inner.destination.key
      extraData
      commitment := prover.compress transfer.1.commitment
      senderHandle := prover.compress transfer.1.senderHandle
      receiverHandle := prover.compress transfer.1.receiverHandle
      ctValidityProof := validityProof prover version transfer.2 }

def depositOf (deposits : List (Hash × ContractDepositBuilder)) (asset : Hash) : Option ContractDepositBuilder :=
  (deposits.find? (fun e => e.1 = asset)).map Prod.snd

/-- A private deposit has no commitment here. -/
def subDeposit (deposits : List (Hash × ContractDepositBuilder)) (asset : Hash) (ct : Ciphertext P) : Ciphertext P :=
  match depositOf deposits asset with
  | some deposit => if deposit.priv then ct else subScalar ct deposit.amount
  | none => ct

namespace TransactionBuilder

variable (builder : TransactionBuilder S R)

def getNewSourceCt (ct : Ciphertext P) (fee : Nat) (asset : Hash) (transfers : List (TransferWithCommitment P)) : Ciphertext P :=
  let ct := if asset = XELIS_ASSET then subScalar ct fee else ct
  match builder.data with
  | .transfers _ =>
    transfers.foldl (fun ct transfer =>
      if transfer.inner.asset = asset then ct.sub ⟨transfer.commitment, transfer.senderHandle⟩ else ct) ct
  | .burn payload => if asset = payload.asset then subScalar ct payload.amount else ct
  | .multiSig _ => ct
  | .invokeContract payload =>
    let ct := subDeposit payload.deposits asset ct
    if asset = XELIS_ASSET then subScalar ct payload.maxGas else ct
  | .deployContract payload =>
    let ct := match payload.invoke with
      | some invoke =>
        let ct := subDeposit invoke.deposits asset ct
        if asset = XELIS_ASSET then subScalar ct invoke.maxGas else ct
      | none => ct
    if asset = XELIS_ASSET then subScalar ct BURN_PER_CONTRACT else ct

def costInData (asset : Hash) : TransactionTypeBuilder S R → Nat
  | .transfers outputs => ((outputs.filter (fun transfer => transfer.asset = asset)).map TransferBuilder.amount).sum
  | .burn payload => if asset = payload.asset then payload.amount else 0
  | .multiSig _ => 0
  | .invokeContract payload =>
    (depositOf payload.deposits asset).elim 0 ContractDepositBuilder.amount + if asset = XELIS_ASSET then payload.maxGas else 0
  | .deployContract payload =>
    (if asset = XELIS_ASSET then BURN_PER_CONTRACT else 0) + payload.invoke.elim 0 fun invoke =>
      (depositOf invoke.deposits asset).elim 0 ContractDepositBuilder.amount + if asset = XELIS_ASSET then invoke.maxGas else 0

/-- The sum wraps around. -/
def getTransactionCost (fee : Nat) (asset : Hash) : Nat :=
  ((if asset = XELIS_ASSET then fee else 0) + costInData asset builder.data) % U64_RANGE

def newBalance (state : TransactionBuilderState P) (fee : Nat) (asset : Hash) : Except GenerationError Nat :=
  match state.balances[asset]? with
  | none => .error (.balanceNotFound asset)
  | some balance =>
    let cost := builder.getTransactionCost fee asset
    if cost ≤ balance.amount then .ok (balance.amount - cost) else .error (.insufficientFunds cost balance.amount)

/-- The new balance is kept for the next transaction. -/
def commitSource (prover : Prover P S R) (fee : Nat) (transfers : List (TransferWithCommitment P)) (asset : Hash) (balance : Nat) :
    Exec GenerationError (TransactionBuilderState P) (Wire.SourceCommitment S) := do
  let state ← get
  match state.balances[asset]? with
  | none => throw (.balanceNotFound asset)
  | some current =>
    match current.ciphertext.takeCiphertext with
    | none => throw .decompression
    | some ct =>
      let newCt := builder.getNewSourceCt ct fee asset transfers
      modify fun state => { state with
        balances := state.balances.insert asset { amount := balance, ciphertext := .decompressed newCt } }
      return {
        commitment := prover.sourceCommitment asset balance
        proof := prover.commitmentEqProof asset newCt balance
        asset }

def commitSources (prover : Prover P S R) (fee : Nat) (transfers : List (TransferWithCommitment P)) :
    List (Hash × Nat) → Exec GenerationError (TransactionBuilderState P) (List (Wire.SourceCommitment S))
  | [] => return []
  | (asset, balance) :: rest => do
    let commitment ← builder.commitSource prover fee transfers asset balance
    return commitment :: (← commitSources prover fee transfers rest)

end TransactionBuilder

namespace TransactionBuilder

variable (prover : Prover P S R) (builder : TransactionBuilder S R)

def checkGas (maxGas : Nat) (deposits : List (Hash × ContractDepositBuilder)) : Except GenerationError Unit :=
  if maxGas > MAX_GAS_USAGE_PER_TX then .error .maxGasReached else checkDeposits deposits

/-- The commitments of the transfers, after the first checks of the payload. -/
def prepare (mainnet : Bool) : Except GenerationError (List (TransferWithCommitment P)) :=
  match builder.data with
  | .transfers outputs => prepareOutputs prover builder.source mainnet outputs
  | .invokeContract payload => do
    checkGas payload.maxGas payload.deposits
    return []
  | .deployContract payload =>
    match payload.invoke with
    | some invoke => do
      checkGas invoke.maxGas invoke.deposits
      return []
    | none => .ok []
  | _ => .ok []

def publicDeposits (deposits : List (Hash × ContractDepositBuilder)) : List (Hash × Wire.ContractDeposit S) :=
  (deposits.filter (fun e => !e.2.priv)).map fun e => (e.1, .pub e.2.amount)

def buildMultiSig (payload : MultiSigBuilder) : Except GenerationError MultiSigPayload :=
  if payload.participants.length > MAX_MULTISIG_PARTICIPANTS then .error .multiSigParticipants
  else if payload.threshold > payload.participants.length ∨ (payload.threshold = 0 ∧ payload.participants ≠ []) then
    .error .multiSigThreshold
  else if builder.source ∈ payload.participants.map Wire.Address.key then .error .multiSigSelfParticipant
  else .ok { threshold := payload.threshold, participants := (Lib.IndexSet.empty.extend (payload.participants.map Wire.Address.key)).elems }

def getChunkIdOfHook (module : Wire.Module S R) (hook : Nat) : Option Nat := (module.hooks.find? (fun e => e.1 = hook)).map Prod.snd

def buildDeploy (payload : DeployContractBuilder) : Except GenerationError (Wire.DeployContractPayload S R) :=
  match (hexDecode (stringBytes payload.module)).bind prover.moduleFromBytes with
  | none => .error .invalidModule
  | some module =>
    if payload.invoke.isNone ≠ (getChunkIdOfHook module 0).isNone then .error .invalidConstructorInvoke
    else .ok { module, invoke := payload.invoke.map fun invoke => { maxGas := invoke.maxGas, deposits := publicDeposits invoke.deposits } }

def buildData (transfers : List (TransferWithCommitment P)) : Except GenerationError (Wire.TransactionType S R) :=
  match builder.data with
  | .transfers _ => do
    let payloads ← transfers.zipIdx.mapM (buildTransfer prover builder.version)
    let total := (payloads.map (fun payload => payload.extraData.elim 0 (fun bytes => 2 + bytes.length))).sum
    if total > EXTRA_DATA_LIMIT_SUM_SIZE then throw (.encryptedExtraDataTooLarge total EXTRA_DATA_LIMIT_SUM_SIZE)
    else return .transfers payloads
  | .burn payload => if payload.amount = 0 then .error .burnZero else .ok (.burn payload)
  | .multiSig payload => do return .multiSig (← builder.buildMultiSig payload)
  | .invokeContract payload => .ok (.invokeContract {
      contract := payload.contract
      deposits := publicDeposits payload.deposits
      chunkId := payload.chunkId
      maxGas := payload.maxGas
      parameters := payload.parameters })
  | .deployContract payload => do return .deployContract (← buildDeploy prover payload)

/-- Zeros are added until the number of values is a power of two. -/
def padded (values : List Nat) : List Nat :=
  values ++ List.replicate (2 ^ Nat.clog 2 values.length - values.length) 0

def prove (values : List Nat) : Except GenerationError R :=
  match prover.proveMultiple (padded values) with
  | some proof => .ok proof
  | none => .error .rangeProof

/-- The nonce is taken before anything is checked. -/
def buildUnsigned : Exec GenerationError (TransactionBuilderState P) (UnsignedTransaction S R) := do
  let state ← get
  let fee := builder.estimateFees state.registeredKeys
  modify fun state => { state with nonce := (state.nonce + 1) % U64_RANGE }
  let transfers ← Exec.ofExcept (builder.prepare prover state.mainnet)
  let usedAssets := prover.iterate builder.data.usedAssets
  let balances ← Exec.ofExcept (usedAssets.mapM (builder.newBalance state fee))
  let sourceCommitments ← builder.commitSources prover fee transfers (usedAssets.zip balances)
  let data ← Exec.ofExcept (builder.buildData prover transfers)
  let rangeProof ← Exec.ofExcept (prove prover (balances ++ transfers.map (fun transfer => transfer.inner.amount)))
  return {
    version := builder.version
    source := builder.source
    data
    fee
    nonce := state.nonce
    sourceCommitments
    reference := state.reference
    rangeProof
    multisig := none }

end TransactionBuilder

namespace UnsignedTransaction

def writeNoSignature (unsigned : UnsignedTransaction S R) : IVec :=
  [Wire.TxVersion.write unsigned.version, writeHash unsigned.source, unsigned.data.write, writeU64 unsigned.fee, writeU64 unsigned.nonce,
    writeU8 unsigned.sourceCommitments.length ++ unsigned.sourceCommitments.flatMap Wire.SourceCommitment.write,
    Wire.writeRangeProof unsigned.rangeProof, Wire.writeReference unsigned.reference].flatten

def toBytes (unsigned : UnsignedTransaction S R) : IVec :=
  unsigned.writeNoSignature ++ if unsigned.version ≠ .v0 then writeOption Wire.MultiSig.write unsigned.multisig else []

def addSignature (signatures : List (Wire.SignatureId S)) (signature : Wire.SignatureId S) : List (Wire.SignatureId S) :=
  if signature.id ∈ signatures.map Wire.SignatureId.id then signatures else signatures ++ [signature]

/-- A participant signs the hash of what is written without signatures. -/
def signMultisig (hash : IVec → Hash) (unsigned : UnsignedTransaction S R) (signer : Nat × (IVec → Signature S)) :
    UnsignedTransaction S R :=
  let signature : Wire.SignatureId S := { id := signer.1, signature := signer.2 (writeHash (hash unsigned.writeNoSignature)) }
  { unsigned with multisig := some (addSignature (unsigned.multisig.getD []) signature) }

def finalize (sign : IVec → Signature S) (unsigned : UnsignedTransaction S R) : Wire.Transaction S R where
  version := unsigned.version
  source := unsigned.source
  data := unsigned.data
  fee := unsigned.fee
  nonce := unsigned.nonce
  sourceCommitments := unsigned.sourceCommitments
  rangeProof := unsigned.rangeProof
  reference := unsigned.reference
  multisig := unsigned.multisig
  signature := sign unsigned.toBytes

end UnsignedTransaction

namespace TransactionBuilder

variable {prover : Prover P S R} {builder : TransactionBuilder S R} {state state' : TransactionBuilderState P}
  {unsigned : UnsignedTransaction S R} {transfers : List (TransferWithCommitment P)} {fee : Nat}

theorem commitSource_ok {asset : Hash} {balance : Nat} {commitment : Wire.SourceCommitment S}
    (h : builder.commitSource prover fee transfers asset balance state = .ok commitment state') :
    ∃ current ct, state.balances[asset]? = some current ∧ current.ciphertext.takeCiphertext = some ct ∧ commitment.asset = asset ∧
      state' = { state with
        balances := state.balances.insert asset ⟨balance, .decompressed (builder.getNewSourceCt ct fee asset transfers)⟩ } := by
  unfold commitSource at h
  simp only [Exec.bind_apply, Exec.get_apply] at h
  cases hcurrent : state.balances[asset]? with
  | none =>
    simp only [hcurrent] at h
    cases h
  | some current =>
    simp only [hcurrent] at h
    cases hct : current.ciphertext.takeCiphertext with
    | none =>
      simp only [hct] at h
      cases h
    | some ct =>
      simp only [hct] at h
      cases h
      exact ⟨current, ct, rfl, hct, rfl, rfl⟩

/-- Every asset of the list is spent once: the balance left and the ciphertext left replace what was there. -/
structure Spent (builder : TransactionBuilder S R) (fee : Nat) (transfers : List (TransferWithCommitment P)) (sources : List (Hash × Nat))
    (state state' : TransactionBuilderState P) : Prop where
  frame : state' = { state with balances := state'.balances }
  other : ∀ asset ∉ sources.map Prod.fst, state'.balances[asset]? = state.balances[asset]?
  spent : ∀ e ∈ sources, ∃ current ct, state.balances[e.1]? = some current ∧ current.ciphertext.takeCiphertext = some ct ∧
    state'.balances[e.1]? = some { amount := e.2, ciphertext := .decompressed (builder.getNewSourceCt ct fee e.1 transfers) }

theorem Spent.cons {source : Hash × Nat} {sources : List (Hash × Nat)} {state₁ : TransactionBuilderState P}
    (hfresh : source.1 ∉ sources.map Prod.fst) {commitment : Wire.SourceCommitment S}
    (hfirst : builder.commitSource prover fee transfers source.1 source.2 state = .ok commitment state₁)
    (h : Spent builder fee transfers sources state₁ state') : Spent builder fee transfers (source :: sources) state state' := by
  obtain ⟨current, ct, hcurrent, hct, -, rfl⟩ := commitSource_ok hfirst
  refine ⟨by rw [h.frame], fun other hother => ?_, fun e he => ?_⟩
  · rw [List.map_cons, List.mem_cons, not_or] at hother
    rw [h.other other hother.2]
    exact FiniteMap.getElem?_insert_of_ne _ _ (Ne.symm hother.1)
  · rcases List.mem_cons.mp he with rfl | hmem
    · refine ⟨current, ct, hcurrent, hct, ?_⟩
      rw [h.other e.1 hfresh]
      exact FiniteMap.getElem?_insert_self' _ _ _
    · have hne : source.1 ≠ e.1 := fun heq => hfresh (heq ▸ List.mem_map_of_mem hmem)
      obtain ⟨current', ct', hcurrent', hct', hleft⟩ := h.spent e hmem
      rw [FiniteMap.getElem?_insert_of_ne _ _ hne] at hcurrent'
      exact ⟨current', ct', hcurrent', hct', hleft⟩

theorem commitSources_ok {sources : List (Hash × Nat)} {commitments : List (Wire.SourceCommitment S)}
    (hnodup : (sources.map Prod.fst).Nodup) (h : builder.commitSources prover fee transfers sources state = .ok commitments state') :
    commitments.map Wire.SourceCommitment.asset = sources.map Prod.fst ∧ Spent builder fee transfers sources state state' := by
  induction sources generalizing state commitments with
  | nil =>
    cases h
    exact ⟨rfl, rfl, fun _ _ => rfl, fun e he => absurd he List.not_mem_nil⟩
  | cons source sources ih =>
    rw [List.map_cons, List.nodup_cons] at hnodup
    obtain ⟨commitment, state₁, hfirst, hrest⟩ := Exec.bind_ok_iff.mp h
    obtain ⟨rest, state₂, hsources, hreturn⟩ := Exec.bind_ok_iff.mp hrest
    cases hreturn
    obtain ⟨-, -, -, -, hasset, -⟩ := commitSource_ok hfirst
    obtain ⟨hassets, hspent⟩ := ih hnodup.2 hsources
    exact ⟨by rw [List.map_cons, List.map_cons, hasset, hassets], hspent.cons hnodup.1 hfirst⟩

structure Built (prover : Prover P S R) (builder : TransactionBuilder S R) (state state' : TransactionBuilderState P)
    (unsigned : UnsignedTransaction S R) (transfers : List (TransferWithCommitment P)) (balances : List Nat) : Prop where
  prepare : builder.prepare prover state.mainnet = .ok transfers
  amounts : (prover.iterate builder.data.usedAssets).mapM (builder.newBalance state unsigned.fee) = .ok balances
  sources : builder.commitSources prover unsigned.fee transfers ((prover.iterate builder.data.usedAssets).zip balances)
    { state with nonce := (state.nonce + 1) % U64_RANGE } = .ok unsigned.sourceCommitments state'
  data : builder.buildData prover transfers = .ok unsigned.data
  rangeProof : prove prover (balances ++ transfers.map (fun transfer => transfer.inner.amount)) = .ok unsigned.rangeProof
  version : unsigned.version = builder.version
  source : unsigned.source = builder.source
  fee : unsigned.fee = builder.estimateFees state.registeredKeys
  nonce : unsigned.nonce = state.nonce
  reference : unsigned.reference = state.reference
  multisig : unsigned.multisig = none

theorem buildUnsigned_ok (h : builder.buildUnsigned prover state = .ok unsigned state') :
    ∃ transfers balances, Built prover builder state state' unsigned transfers balances := by
  unfold buildUnsigned at h
  simp only [Exec.bind_apply, Exec.get_apply, Exec.modify_apply, Exec.ofExcept_apply] at h
  cases hprepare : builder.prepare prover state.mainnet with
  | error e =>
    simp only [hprepare] at h
    cases h
  | ok transfers =>
    simp only [hprepare] at h
    cases hbalances : (prover.iterate builder.data.usedAssets).mapM
        (builder.newBalance state (builder.estimateFees state.registeredKeys)) with
    | error e =>
      simp only [hbalances] at h
      cases h
    | ok balances =>
      simp only [hbalances] at h
      cases hsources : builder.commitSources prover (builder.estimateFees state.registeredKeys) transfers
          ((prover.iterate builder.data.usedAssets).zip balances) { state with nonce := (state.nonce + 1) % U64_RANGE } with
      | error e s =>
        simp only [hsources] at h
        cases h
      | ok commitments s =>
        simp only [hsources] at h
        cases hdata : builder.buildData prover transfers with
        | error e =>
          simp only [hdata] at h
          cases h
        | ok data =>
          simp only [hdata] at h
          cases hproof : prove prover (balances ++ transfers.map (fun transfer => transfer.inner.amount)) with
          | error e =>
            simp only [hproof] at h
            cases h
          | ok rangeProof =>
            simp only [hproof] at h
            cases h
            exact ⟨transfers, balances, hprepare, hbalances, hsources, hdata, hproof, rfl, rfl, rfl, rfl, rfl, rfl⟩

omit [CurveScalar S] [RangeProof R] in
theorem nodup_usedAssets (data : TransactionTypeBuilder S R) : data.usedAssets.Nodup := by
  cases data with
  | transfers outputs => exact List.nodup_dedup _
  | burn payload => exact List.nodup_dedup _
  | multiSig payload => exact List.nodup_singleton _
  | invokeContract payload => exact List.nodup_dedup _
  | deployContract payload => exact List.nodup_singleton _

omit [RistrettoPoint P] in
theorem nodup_iterate (prover : Prover P S R) (data : TransactionTypeBuilder S R) : (prover.iterate data.usedAssets).Nodup :=
  (prover.iterate_perm _).nodup_iff.mpr (nodup_usedAssets data)

end TransactionBuilder

end Xelis.Wallet
