import Xelis.State.Applicable

namespace Xelis.Transaction

open Lib (FiniteMap IndexMap Exec)
open State State.ApplicableChainState

variable {P : Type} [RistrettoPoint P]

abbrev Apply (P α : Type) := Exec (VerificationError BlockchainError) (ApplicableChainState P) α

/-- Adding to a receiver balance through its reference. -/
def creditReceiver (key : PublicKey) (asset : Hash) (f : Ciphertext P → Ciphertext P) : Apply P PUnit := do
  let balance ← onInner (ChainState.internalGetReceiverBalance key asset)
  modifyInner (ChainState.putReceiverBalance key asset (f balance))

def handleGas (tx : Transaction) (usedGas maxGas : Nat) : Apply P Nat := do
  let burnedGas := usedGas * TX_GAS_BURN_PERCENT / 100
  if usedGas < burnedGas then
    throw .gasOverflow
  let gasFee := usedGas - burnedGas
  if maxGas < usedGas then
    throw .gasOverflow
  let refundGas := maxGas - usedGas
  modify (addBurnedCoins burnedGas)
  modify (addGasFee gasFee)
  if 0 < refundGas then
    creditReceiver tx.source XELIS_ASSET (·.addScalar refundGas)
  return refundGas

/-- One deposit given back to the sender. -/
def refundDeposit (tx : Transaction) (decompressed : FiniteMap Hash (DecompressedDepositCt P))
    (e : Hash × ContractDeposit) : Apply P PUnit := do
  let balance ← onInner (ChainState.internalGetReceiverBalance tx.source e.1)
  match e.2 with
  | .pub amount => modifyInner (ChainState.putReceiverBalance tx.source e.1 (balance.addScalar amount))
  | .priv _ _ _ _ =>
    match decompressed[e.1]? with
    | none => throw .depositNotFound
    | some d =>
      modifyInner (ChainState.putReceiverBalance tx.source e.1 (balance.add ⟨d.commitment, d.senderHandle⟩))

def refundDeposits (tx : Transaction) (deposits : IndexMap Hash ContractDeposit)
    (decompressed : FiniteMap Hash (DecompressedDepositCt P)) : Apply P PUnit :=
  deposits.entries.forM (refundDeposit tx decompressed)

/-- The gas used, the exit code, and the state the calls left. An error in a call stops the machine. -/
def runContract (env : Env P) (s : ApplicableChainState P) (module : Module) (invoke : InvokeContract)
    (parameters : List ValueCell) (maxGas : Nat) (chainState : ContractChainState) :
    Option (Nat × Option Nat × ContractChainState) :=
  match env.run module invoke parameters maxGas s.inner.storage chainState with
  | .failed => none
  | .hookNotFound => some (0, none, chainState)
  | .ran calls gasUsage exitCode =>
    match chainState.execAll env.blake3 s.inner.storage calls with
    | some final => some (min gasUsage maxGas, exitCode, final)
    | none => some (min gasUsage maxGas, none, chainState)

/-- A success is merged; after a failure the outputs are dropped and the deposits go back. -/
def settleRun (tx : Transaction) (decompressed : FiniteMap Hash (DecompressedDepositCt P)) (contract : Hash)
    (deposits : IndexMap Hash ContractDeposit) (isSuccess : Bool) (chainState : ContractChainState) :
    Apply P (List ContractOutput) :=
  if isSuccess then do
    modify (mergeContractChanges contract chainState.cache chainState.tracker chainState.assets)
    return chainState.outputs
  else if !deposits.entries.isEmpty then do
    refundDeposits tx deposits decompressed
    return [ContractOutput.refundDeposits]
  else return []

def invokeContract (env : Env P) (tx : Transaction) (txHash : Hash)
    (decompressed : FiniteMap Hash (DecompressedDepositCt P)) (contract : Hash) (deposits : IndexMap Hash ContractDeposit)
    (parameters : List ValueCell) (maxGas : Nat) (invoke : InvokeContract) : Apply P Bool := do
  let s ← get
  let (module, chainState) ← Exec.ofExcept ((s.getContractEnvironmentFor contract deposits txHash).mapError .state)
  match runContract env s module invoke parameters maxGas chainState with
  | none => throw .anyError
  | some (usedGas, exitCode, chainState) =>
    let outputs ← settleRun tx decompressed contract deposits (exitCode == some 0) chainState
    let outputs := outputs ++ [.exitCode exitCode]
    let refundGas ← handleGas tx usedGas maxGas
    modify (setContractOutputs txHash (if 0 < refundGas then outputs ++ [.refundGas refundGas] else outputs))
    return exitCode == some 0

/-- The stages of a call: setting it up, running it, settling it and paying its gas. -/
theorem invokeContract_eq (env : Env P) (tx : Transaction) (txHash : Hash)
    (decompressed : FiniteMap Hash (DecompressedDepositCt P)) (contract : Hash) (deposits : IndexMap Hash ContractDeposit)
    (parameters : List ValueCell) (maxGas : Nat) (invoke : InvokeContract) (s : ApplicableChainState P) :
    invokeContract env tx txHash decompressed contract deposits parameters maxGas invoke s =
      match s.getContractEnvironmentFor contract deposits txHash with
      | .error e => .error (.state e) s
      | .ok (module, start) => match runContract env s module invoke parameters maxGas start with
        | none => .error .anyError s
        | some (usedGas, exitCode, final) =>
          match settleRun tx decompressed contract deposits (exitCode == some 0) final s with
          | .error e s₁ => .error e s₁
          | .ok outputs s₁ => match handleGas tx usedGas maxGas s₁ with
            | .error e s₂ => .error e s₂
            | .ok refund s₂ => .ok (exitCode == some 0) (setContractOutputs txHash
                (if 0 < refund then outputs ++ [.exitCode exitCode] ++ [.refundGas refund]
                  else outputs ++ [.exitCode exitCode]) s₂) := by
  unfold invokeContract
  rw [Exec.bind_apply, Exec.get_apply]
  dsimp only
  rw [Exec.bind_apply, Exec.ofExcept_apply]
  cases s.getContractEnvironmentFor contract deposits txHash with
  | error e => rfl
  | ok found =>
    obtain ⟨module, start⟩ := found
    dsimp only [Except.mapError]
    cases runContract env s module invoke parameters maxGas start with
    | none => rfl
    | some r =>
      obtain ⟨usedGas, exitCode, final⟩ := r
      dsimp only
      rw [Exec.bind_apply]
      cases settleRun tx decompressed contract deposits (exitCode == some 0) final s with
      | error e s₁ => rfl
      | ok outputs s₁ =>
        dsimp only
        rw [Exec.bind_apply]
        cases handleGas tx usedGas maxGas s₁ with
        | error e s₂ => rfl
        | ok refund s₂ => rfl

def applyTransfer (transfer : TransferPayload) : Apply P PUnit := do
  let balance ← onInner (ChainState.internalGetReceiverBalance transfer.destination transfer.asset)
  match RistrettoPoint.decompress (P := P) transfer.commitment, RistrettoPoint.decompress (P := P) transfer.receiverHandle with
  | some commitment, some handle =>
    modifyInner (ChainState.putReceiverBalance transfer.destination transfer.asset (balance.add ⟨commitment, handle⟩))
  | _, _ => throw (.proof .decompression)

/-- A contract that is gone spends nothing: the gas and the deposits go back. -/
def applyInvokeContract (env : Env P) (tx : Transaction) (txHash : Hash)
    (decompressed : FiniteMap Hash (DecompressedDepositCt P)) (payload : InvokeContractPayload) : Apply P PUnit := do
  let available ← onInner (ChainState.loadVersionedContract payload.contract)
  if available then
    let _ ← invokeContract env tx txHash decompressed payload.contract payload.deposits payload.parameters
      payload.maxGas (.entry payload.chunkId)
  else
    let _ ← handleGas tx 0 payload.maxGas
    refundDeposits tx payload.deposits decompressed

/-- The module is set first, and taken back when its constructor fails. -/
def applyDeployContract (env : Env P) (tx : Transaction) (txHash : Hash)
    (decompressed : FiniteMap Hash (DecompressedDepositCt P)) (payload : DeployContractPayload) : Apply P PUnit := do
  onInner (ChainState.setContractModule txHash payload.module)
  match payload.invoke with
  | none => pure ⟨⟩
  | some invoke =>
    let isSuccess ← invokeContract env tx txHash decompressed txHash invoke.deposits [] invoke.maxGas (.hook 0)
    if !isSuccess then
      removeContractModule txHash

def applyPayload (env : Env P) (tx : Transaction) (txHash : Hash)
    (decompressed : FiniteMap Hash (DecompressedDepositCt P)) : Apply P PUnit :=
  match tx.data with
  | .transfers transfers => transfers.forM applyTransfer
  | .burn payload =>
    if payload.asset = XELIS_ASSET then modify (addBurnedCoins payload.amount)
    else pure ⟨⟩
  | .multiSig payload => onInner (ChainState.setMultisigState tx.source payload)
  | .invokeContract payload => applyInvokeContract env tx txHash decompressed payload
  | .deployContract payload => applyDeployContract env tx txHash decompressed payload

def apply (env : Env P) (tx : Transaction) (txHash : Hash)
    (decompressed : FiniteMap Hash (DecompressedDepositCt P)) : Apply P PUnit := do
  onInner (ChainState.internalUpdateAccountNonce tx.source (tx.nonce + 1))
  applyPayload env tx txHash decompressed

/-- The points of the payload. The deposits of a constructor are left out. -/
def decompressPayload (tx : Transaction) :
    Option (List (DecompressedTransferCt P) × FiniteMap Hash (DecompressedDepositCt P)) :=
  match tx.data with
  | .transfers transfers => (transfers.mapM DecompressedTransferCt.decompress).map (·, ∅)
  | .invokeContract payload => (decompressDeposits payload.deposits).map ([], ·)
  | _ => some ([], ∅)

/-- The proof of one commitment, against the balance that is left: nothing is taken yet. -/
def checkCommitment (env : Env P) (tx : Transaction) (owner : P) (transfers : List (DecompressedTransferCt P))
    (deposits : FiniteMap Hash (DecompressedDepositCt P))
    (acc : Transcript P × List (Ciphertext P × Ciphertext P × Hash)) (commitment : SourceCommitment × P) :
    Apply P (Transcript P × List (Ciphertext P × Ciphertext P × Hash)) := do
  let asset := commitment.1.asset
  let output ← orProof (tx.getSenderOutputCt asset transfers deposits) .decompression
  let balance ← onInner (ChainState.internalGetSenderVerificationBalance tx.source asset tx.reference)
  let remaining := balance.sub output
  let transcript := if tx.version = .v0 then acc.1 else acc.1 ++ [balance]
  proofResult (env.preVerifyEqProof tx transcript commitment.1 owner remaining commitment.2)
  return (transcript, acc.2 ++ [(remaining, output, asset)])

/-- Taking one output from the sender. -/
def applyCommitment (tx : Transaction) (change : Ciphertext P × Ciphertext P × Hash) : Apply P PUnit := do
  let _ ← onInner (ChainState.internalGetSenderVerificationBalance tx.source change.2.2 tx.reference)
  modifyInner (ChainState.putSenderBalance tx.source change.2.2 change.1)
  onInner (ChainState.internalUpdateSenderEchange tx.source change.2.2 change.2.1)

/-- The proofs of the commitments against the current balances: the deposits and the changes to make come back. -/
def partialVerify (env : Env P) (tx : Transaction) :
    Apply P (FiniteMap Hash (DecompressedDepositCt P) × List (Ciphertext P × Ciphertext P × Hash)) := do
  let (transfers, deposits) ← orProof (tx.decompressPayload (P := P)) .decompression
  let newCommitments ← orProof (tx.sourceCommitments.mapM (fun c => RistrettoPoint.decompress (P := P) c.commitment))
    .decompression
  let owner ← orProof (RistrettoPoint.decompress tx.source) .decompression
  let (transcript, changes) ← (tx.sourceCommitments.zip newCommitments).foldlM
    (checkCommitment env tx owner transfers deposits) ([], [])
  require (env.verifySigma tx transcript) (.proof .genericProof)
  return (deposits, changes)

def applyWithPartialVerify (env : Env P) (tx : Transaction) (txHash : Hash) : Apply P PUnit := do
  let (deposits, changes) ← partialVerify env tx
  changes.forM (applyCommitment tx)
  apply env tx txHash deposits

end Xelis.Transaction
