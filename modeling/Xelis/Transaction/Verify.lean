import Xelis.Lib.Exec
import Xelis.Transaction.Outputs

namespace Xelis

open Lib (FiniteMap IndexMap Exec)

def EXTRA_DATA_LIMIT_SIZE : Nat := 1024
def EXTRA_DATA_LIMIT_SUM_SIZE : Nat := EXTRA_DATA_LIMIT_SIZE * 32
def MAX_TRANSFER_COUNT : Nat := 255
def MAX_DEPOSIT_PER_INVOKE_CALL : Nat := 255
def MAX_MULTISIG_PARTICIPANTS : Nat := 255
def SIGNATURE_SIZE : Nat := 64

inductive ProofVerificationError where
  | format
  | decompression
  | genericProof
  | rangeProof
  deriving DecidableEq, Repr

inductive VerificationError (ε : Type) where
  | state (e : ε)
  | invalidNonce (expected got : Nonce)
  | senderIsReceiver
  | invalidSignature
  | proof (e : ProofVerificationError)
  | transferExtraDataSize
  | transactionExtraDataSize
  | transferCount
  | depositCount
  | commitments
  | multiSigParticipants
  | multiSigThreshold
  | multiSigNotConfigured
  | multiSigNotFound
  | invalidFormat
  | moduleError
  | anyError
  | invalidInvokeContract
  | gasOverflow
  | depositNotFound
  | maxGasReached
  | contractNotFound
  deriving DecidableEq, Repr

/-- The source ciphertexts put in the transcript so far. The rest of the transcript is the transaction itself. -/
abbrev Transcript (P : Type) := List (Ciphertext P)

/-- The proof systems, signatures and module checks that the verification relies on. -/
structure Proofs (P : Type) where
  txSize : Transaction → Nat
  verifySignature : Transaction → P → Bool
  verifyMultisigSignature : Transaction → SignatureId → P → Bool
  preVerifyEqProof : Transaction → Transcript P → SourceCommitment → P → Ciphertext P → P →
    Except ProofVerificationError PUnit
  preVerifyTransferProof : Transaction → Transcript P → TransferPayload → P → P → Except ProofVerificationError PUnit
  preVerifyDepositProof : Transaction → Transcript P → Hash → ContractDeposit → P → Except ProofVerificationError PUnit
  verifySigma : Transaction → Transcript P → Bool
  verifyRange : Transaction → Transcript P → List (P × CompressedPoint) → Bool
  isEntryChunk : Module → Nat → Bool
  verifyConstant : Module → ValueCell → Bool
  verifyModule : Module → Bool
  getChunkIdOfHook : Module → Nat → Option Nat

/-- The state a transaction is verified against. The `put` functions write through the references that the
`get` functions hand out. -/
class BlockchainVerificationState (S : Type) (P ε : outParam Type) where
  preVerifyTx : Transaction → Exec ε S PUnit
  getReceiverBalance : PublicKey → Hash → Exec ε S (Ciphertext P)
  putReceiverBalance : PublicKey → Hash → Ciphertext P → S → S
  getSenderBalance : PublicKey → Hash → Reference → Exec ε S (Ciphertext P)
  putSenderBalance : PublicKey → Hash → Ciphertext P → S → S
  addSenderOutput : PublicKey → Hash → Ciphertext P → Exec ε S PUnit
  getAccountNonce : PublicKey → Exec ε S Nonce
  updateAccountNonce : PublicKey → Nonce → Exec ε S PUnit
  setMultisigState : PublicKey → MultiSigPayload → Exec ε S PUnit
  getMultisigState : PublicKey → Exec ε S (Option MultiSigPayload)
  setContractModule : Hash → Module → Exec ε S PUnit
  loadContractModule : Hash → Exec ε S Bool
  getContractModule : Hash → Exec ε S Module

namespace Transaction

variable {P S ε : Type}

def onState {α : Type} (x : Exec ε S α) : Exec (VerificationError ε) S α := EStateM.adaptExcept VerificationError.state x

def orProof {α : Type} (x : Option α) (e : ProofVerificationError) : Exec (VerificationError ε) S α :=
  match x with
  | some a => pure a
  | none => throw (.proof e)

def proofResult (x : Except ProofVerificationError PUnit) : Exec (VerificationError ε) S PUnit :=
  match x with
  | .ok _ => pure ⟨⟩
  | .error e => throw (.proof e)

/-- Throw unless the check holds. -/
def require (check : Bool) (e : VerificationError ε) : Exec (VerificationError ε) S PUnit :=
  if check then pure ⟨⟩ else throw e

section Outcomes

variable {s s' : S}
variable {α : Type}

theorem onState_ok_iff {x : Exec ε S α} {a : α} : onState x s = .ok a s' ↔ x s = .ok a s' := by
  rw [onState, Exec.adaptExcept_apply]
  cases x s <;> simp

theorem require_ok_iff {check : Bool} {e : VerificationError ε} :
    (require check e : Exec (VerificationError ε) S PUnit) s = .ok ⟨⟩ s' ↔ check = true ∧ s = s' := by
  cases check <;> simp [require, Exec.pure_apply, Exec.throw_apply]

theorem orProof_ok_iff {x : Option α} {e : ProofVerificationError} {a : α} :
    (orProof x e : Exec (VerificationError ε) S α) s = .ok a s' ↔ x = some a ∧ s = s' := by
  cases x <;> simp [orProof, Exec.pure_apply, Exec.throw_apply]

variable {R : S → S → Prop}

/-- The checks leave the state alone. -/
theorem orProof_moves (hrefl : ∀ s, R s s) (x : Option α) (e : ProofVerificationError) :
    Exec.Moves R (orProof x e : Exec (VerificationError ε) S α) := by
  intro s
  cases x with
  | none => exact hrefl s
  | some a => exact hrefl s

theorem proofResult_moves (hrefl : ∀ s, R s s) (x : Except ProofVerificationError PUnit) :
    Exec.Moves R (proofResult x : Exec (VerificationError ε) S PUnit) := by
  intro s
  cases x with
  | error e => exact hrefl s
  | ok a => exact hrefl s

theorem require_moves (hrefl : ∀ s, R s s) (check : Bool) (e : VerificationError ε) :
    Exec.Moves R (require check e : Exec (VerificationError ε) S PUnit) := by
  intro s
  cases check with
  | false => exact hrefl s
  | true => exact hrefl s

end Outcomes

/-- The format of the deposits and of the gas of a call; the private deposits come back decompressed. -/
def verifyInvokeContract [RistrettoPoint P] (deposits : IndexMap Hash ContractDeposit) (maxGas : Nat) :
    Exec (VerificationError ε) S (FiniteMap Hash (DecompressedDepositCt P)) := do
  require (deposits.entries.length ≤ MAX_DEPOSIT_PER_INVOKE_CALL) .depositCount
  require (maxGas ≤ MAX_GAS_USAGE_PER_TX) .maxGasReached
  deposits.entries.foldlM (fun acc e =>
    match e.2 with
    | .pub amount => if amount = 0 then throw .invalidFormat else pure acc
    | .priv commitment senderHandle receiverHandle _ => do
      let d ← orProof (DecompressedDepositCt.decompress commitment senderHandle receiverHandle) .decompression
      pure (acc.insert e.1 d)) ∅

/-- The private deposits' proofs; their commitments join the range proof. -/
def verifyContractDeposits (proofs : Proofs P) (tx : Transaction) (transcript : Transcript P) (source : P)
    (decompressed : FiniteMap Hash (DecompressedDepositCt P)) (deposits : IndexMap Hash ContractDeposit) :
    Exec (VerificationError ε) S (List (P × CompressedPoint)) :=
  deposits.entries.foldlM (fun acc e =>
    match e.2 with
    | .pub _ => pure acc
    | .priv commitment _ _ _ =>
      match decompressed[e.1]? with
      | none => throw .depositNotFound
      | some d => do
        proofResult (proofs.preVerifyDepositProof tx transcript e.1 e.2 source)
        pure (acc ++ [(d.commitment, commitment)])) []

variable [BlockchainVerificationState S P ε]
open BlockchainVerificationState

def verifyTransfersFormat [RistrettoPoint P] (tx : Transaction) (transfers : List TransferPayload) :
    Exec (VerificationError ε) S (List (DecompressedTransferCt P)) := do
  require (transfers.length ≤ MAX_TRANSFER_COUNT && !transfers.isEmpty) .transferCount
  let (decompressed, extraDataSize) ← transfers.foldlM (fun (acc : List (DecompressedTransferCt P) × Nat) transfer => do
    require (transfer.destination != tx.source) .senderIsReceiver
    let size := match transfer.extraData with
      | some data => 2 + data.length
      | none => 0
    require (size ≤ EXTRA_DATA_LIMIT_SIZE) .transferExtraDataSize
    let d ← orProof (DecompressedTransferCt.decompress transfer) .decompression
    pure (acc.1 ++ [d], acc.2 + size)) ([], 0)
  require (extraDataSize ≤ EXTRA_DATA_LIMIT_SUM_SIZE) .transactionExtraDataSize
  return decompressed

def verifyMultisigFormat (tx : Transaction) (payload : MultiSigPayload) : Exec (VerificationError ε) S PUnit := do
  require (payload.participants.length ≤ MAX_MULTISIG_PARTICIPANTS) .multiSigParticipants
  require (payload.threshold ≤ payload.participants.length) .multiSigThreshold
  require (!(payload.threshold == 0 && !payload.participants.isEmpty)) .multiSigThreshold
  require (!payload.participants.contains tx.source) .multiSigParticipants
  if payload.isDelete then
    let configured ← onState (getMultisigState tx.source)
    require configured.isSome .multiSigNotConfigured

/-- The checks of the payload itself. -/
def verifyFormat [RistrettoPoint P] (proofs : Proofs P) (tx : Transaction) :
    Exec (VerificationError ε) S (List (DecompressedTransferCt P) × FiniteMap Hash (DecompressedDepositCt P)) := do
  match tx.data with
  | .transfers transfers => return (← verifyTransfersFormat tx transfers, ∅)
  | .burn payload =>
    require (payload.amount != 0) .invalidFormat
    require (tx.fee + payload.amount < 2 ^ 64) .invalidFormat
    return ([], ∅)
  | .multiSig payload =>
    verifyMultisigFormat tx payload
    return ([], ∅)
  | .invokeContract payload =>
    let deposits ← verifyInvokeContract payload.deposits payload.maxGas
    let available ← onState (loadContractModule payload.contract)
    require available .contractNotFound
    let module ← onState (getContractModule payload.contract)
    require (proofs.isEntryChunk module payload.chunkId) .invalidInvokeContract
    payload.parameters.forM (fun constant => require (proofs.verifyConstant module constant) .moduleError)
    return ([], deposits)
  | .deployContract payload =>
    let deposits ← match payload.invoke with
      | some invoke => verifyInvokeContract invoke.deposits invoke.maxGas
      | none => pure ∅
    require (proofs.verifyModule payload.module) .moduleError
    return ([], deposits)

/-- The signature of the source, then those of the multisig that the account has configured. -/
def verifySignatures [RistrettoPoint P] (proofs : Proofs P) (tx : Transaction) (source : P) :
    Exec (VerificationError ε) S PUnit := do
  require (proofs.verifySignature tx source) .invalidSignature
  match ← onState (getMultisigState tx.source), tx.multisig with
  | some _, none => throw .multiSigNotFound
  | some config, some multisig =>
    require (config.threshold == multisig.length && decide (multisig.length ≤ MAX_MULTISIG_PARTICIPANTS))
      .multiSigParticipants
    let size := 1 + 1 + SIGNATURE_SIZE + multisig.length * (SIGNATURE_SIZE + 1)
    require (size < proofs.txSize tx) .invalidFormat
    multisig.forM (fun sig =>
      match config.participants[sig.id]? with
      | none => throw .multiSigParticipants
      | some key => do
        let point ← orProof (RistrettoPoint.decompress key) .decompression
        require (proofs.verifyMultisigSignature tx sig point) .invalidSignature)
  | none, some _ => throw .multiSigNotConfigured
  | none, none => pure ⟨⟩

/-- One commitment: the balance it leaves is proved and the output is taken from the sender. -/
def verifyCommitment [RistrettoPoint P] (proofs : Proofs P) (tx : Transaction) (source : P)
    (transfers : List (DecompressedTransferCt P)) (deposits : FiniteMap Hash (DecompressedDepositCt P))
    (transcript : Transcript P) (commitment : SourceCommitment × P) : Exec (VerificationError ε) S (Transcript P) := do
  let asset := commitment.1.asset
  let output ← orProof (tx.getSenderOutputCt asset transfers deposits) .decompression
  let balance ← onState (getSenderBalance tx.source asset tx.reference)
  let remaining := balance.sub output
  modify (putSenderBalance tx.source asset remaining)
  let transcript := if tx.version = .v0 then transcript else transcript ++ [balance]
  proofResult (proofs.preVerifyEqProof tx transcript commitment.1 source remaining commitment.2)
  onState (addSenderOutput tx.source asset output)
  return transcript

/-- The part of the payload that touches the state, with its validity proofs. -/
def verifyPayload [RistrettoPoint P] (proofs : Proofs P) (tx : Transaction) (txHash : Hash) (source : P)
    (transfers : List (DecompressedTransferCt P)) (deposits : FiniteMap Hash (DecompressedDepositCt P))
    (transcript : Transcript P) : Exec (VerificationError ε) S (List (P × CompressedPoint)) := do
  match tx.data with
  | .transfers payloads =>
    (payloads.zip transfers).foldlM (fun acc e => do
      let receiver ← orProof (RistrettoPoint.decompress e.1.destination) .decompression
      let balance ← onState (getReceiverBalance e.1.destination e.1.asset)
      modify (putReceiverBalance e.1.destination e.1.asset (balance.add (e.2.getCiphertext .receiver)))
      proofResult (proofs.preVerifyTransferProof tx transcript e.1 source receiver)
      pure (acc ++ [(e.2.commitment, e.1.commitment)])) []
  | .burn _ => return []
  | .multiSig payload =>
    onState (setMultisigState tx.source payload)
    return []
  | .invokeContract payload => verifyContractDeposits proofs tx transcript source deposits payload.deposits
  | .deployContract payload =>
    require (payload.invoke.isNone == (proofs.getChunkIdOfHook payload.module 0).isNone) .invalidFormat
    let commitments ← match payload.invoke with
      | some invoke => verifyContractDeposits proofs tx transcript source deposits invoke.deposits
      | none => pure []
    onState (setContractModule txHash payload.module)
    return commitments

/-- Everything but the batched proofs: the transcript and the commitments of the range proof come back. -/
def preVerify [RistrettoPoint P] (proofs : Proofs P) (tx : Transaction) (txHash : Hash) :
    Exec (VerificationError ε) S (Transcript P × List (P × CompressedPoint)) := do
  require tx.hasValidVersionFormat .invalidFormat
  onState (preVerifyTx tx)
  let accountNonce ← onState (getAccountNonce tx.source)
  require (accountNonce == tx.nonce) (.invalidNonce accountNonce tx.nonce)
  onState (updateAccountNonce tx.source (tx.nonce + 1))
  require tx.verifyCommitmentAssets .commitments
  let (transfers, deposits) ← verifyFormat proofs tx
  let newCommitments ← orProof (tx.sourceCommitments.mapM (fun c => RistrettoPoint.decompress (P := P) c.commitment))
    .decompression
  let source ← orProof (RistrettoPoint.decompress tx.source) .decompression
  verifySignatures proofs tx source
  let transcript ← (tx.sourceCommitments.zip newCommitments).foldlM (verifyCommitment proofs tx source transfers deposits) []
  let valueCommitments ← verifyPayload proofs tx txHash source transfers deposits transcript
  let commitments := (tx.sourceCommitments.zip newCommitments).map (fun c => (c.2, c.1.commitment)) ++ valueCommitments
  -- identities fill the commitments up to a power of two
  let duds := List.replicate (commitments.length.nextPowerOfTwo - commitments.length) (0, 0#256)
  return (transcript, commitments ++ duds)

def verifyProofs (proofs : Proofs P) (txs : List Transaction)
    (prepared : List (Transcript P × List (P × CompressedPoint))) : Exec (VerificationError ε) S PUnit := do
  require ((txs.zip prepared).all (fun e => proofs.verifySigma e.1 e.2.1)) (.proof .genericProof)
  require ((txs.zip prepared).all (fun e => proofs.verifyRange e.1 e.2.1 e.2.2)) (.proof .rangeProof)

def verifyBatch [RistrettoPoint P] (proofs : Proofs P) (txs : List (Transaction × Hash)) :
    Exec (VerificationError ε) S PUnit := do
  let prepared ← txs.mapM (fun e => preVerify proofs e.1 e.2)
  verifyProofs proofs (txs.map Prod.fst) prepared

def verify [RistrettoPoint P] (proofs : Proofs P) (tx : Transaction) (txHash : Hash) :
    Exec (VerificationError ε) S PUnit := do
  let prepared ← preVerify proofs tx txHash
  verifyProofs proofs [tx] [prepared]

end Transaction

end Xelis
