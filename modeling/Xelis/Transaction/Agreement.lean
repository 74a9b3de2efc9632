import Xelis.Lib.Simulation
import Xelis.Transaction.Verify

/-! One transaction verified against two states: what the states must share for the verdicts to be the same. -/

namespace Xelis.Transaction

open Lib (FiniteMap IndexMap Exec)
open BlockchainVerificationState

variable {P S T ε ε' : Type} {R R' : S → T → Prop}
variable {α β : Type}

theorem require_agree (check : Bool) (e : VerificationError ε) (e' : VerificationError ε') :
    Exec.Agree R (require check e) (require check e') R := by
  cases check with
  | true => exact Exec.Agree.pure _
  | false => exact Exec.Agree.throw _ _

theorem orProof_agree (x : Option α) (e : ProofVerificationError) :
    Exec.Agree R (orProof x e : Exec (VerificationError ε) S α) (orProof x e : Exec (VerificationError ε') T α) R := by
  cases x with
  | some a => exact Exec.Agree.pure a
  | none => exact Exec.Agree.throw _ _

theorem proofResult_agree (x : Except ProofVerificationError PUnit) :
    Exec.Agree R (proofResult x : Exec (VerificationError ε) S PUnit) (proofResult x : Exec (VerificationError ε') T PUnit) R := by
  cases x with
  | ok u => exact Exec.Agree.pure _
  | error e => exact Exec.Agree.throw _ _

theorem onState_agree {x : Exec ε S α} {y : Exec ε' T α} (h : Exec.Agree R x y R') :
    Exec.Agree R (onState x) (onState y) R' := h.adaptExcept _ _

theorem verifyInvokeContract_agree [RistrettoPoint P] (deposits : IndexMap Hash ContractDeposit) (maxGas : Nat) :
    Exec.Agree R (verifyInvokeContract (P := P) deposits maxGas : Exec (VerificationError ε) S _)
      (verifyInvokeContract (P := P) deposits maxGas : Exec (VerificationError ε') T _) R := by
  unfold verifyInvokeContract
  refine (require_agree _ _ _).bind fun _ => (require_agree _ _ _).bind fun _ => ?_
  refine Exec.Agree.foldlM (fun acc e _ => ?_) _
  cases e.2 with
  | pub amount =>
    dsimp only
    split
    · exact Exec.Agree.throw _ _
    · exact Exec.Agree.pure _
  | priv commitment senderHandle receiverHandle proof =>
    exact (orProof_agree _ _).bind fun d => Exec.Agree.pure _

theorem verifyContractDeposits_agree (proofs : Proofs P) (tx : Transaction) (transcript : Transcript P) (source : P)
    (decompressed : FiniteMap Hash (DecompressedDepositCt P)) (deposits : IndexMap Hash ContractDeposit) :
    Exec.Agree R (verifyContractDeposits proofs tx transcript source decompressed deposits : Exec (VerificationError ε) S _)
      (verifyContractDeposits proofs tx transcript source decompressed deposits : Exec (VerificationError ε') T _) R := by
  unfold verifyContractDeposits
  refine Exec.Agree.foldlM (fun acc e _ => ?_) _
  cases e.2 with
  | pub amount => exact Exec.Agree.pure _
  | priv commitment senderHandle receiverHandle proof =>
    dsimp only
    cases decompressed[e.1]? with
    | none => exact Exec.Agree.throw _ _
    | some d => exact (proofResult_agree _).bind fun _ => Exec.Agree.pure _

section State

variable {s s' : S}

theorem state_of_agree {x : Exec (VerificationError ε) S α} (h : ∀ Q : S → S → Prop, Exec.Agree Q x x Q) {a : α}
    (hx : x s = .ok a s') : s' = s := by
  obtain ⟨-, -, hsame⟩ := (h fun s₁ _ => s₁ = s).of_ok (t := s) rfl hx
  exact hsame

variable {deposits : IndexMap Hash ContractDeposit}

theorem verifyInvokeContract_state [RistrettoPoint P] {maxGas : Nat} {a : FiniteMap Hash (DecompressedDepositCt P)}
    (h : (verifyInvokeContract deposits maxGas : Exec (VerificationError ε) S _) s = .ok a s') : s' = s :=
  state_of_agree (fun _ => verifyInvokeContract_agree deposits maxGas) h

theorem verifyContractDeposits_state {proofs : Proofs P} {tx : Transaction} {transcript : Transcript P} {source : P}
    {decompressed : FiniteMap Hash (DecompressedDepositCt P)} {a : List (P × CompressedPoint)}
    (h : (verifyContractDeposits proofs tx transcript source decompressed deposits : Exec (VerificationError ε) S _) s =
      .ok a s') : s' = s :=
  state_of_agree (fun _ => verifyContractDeposits_agree proofs tx transcript source decompressed deposits) h

end State

theorem verifyTransfersFormat_agree [RistrettoPoint P] (tx : Transaction) (transfers : List TransferPayload) :
    Exec.Agree R (verifyTransfersFormat tx transfers : Exec (VerificationError ε) S (List (DecompressedTransferCt P)))
      (verifyTransfersFormat tx transfers : Exec (VerificationError ε') T (List (DecompressedTransferCt P))) R := by
  unfold verifyTransfersFormat
  refine (require_agree _ _ _).bind fun _ => ?_
  refine (Exec.Agree.foldlM (R := R) (fun acc transfer _ => ?_) _).bind fun acc => ?_
  · refine (require_agree _ _ _).bind fun _ => (require_agree _ _ _).bind fun _ => ?_
    exact (orProof_agree _ _).bind fun d => Exec.Agree.pure _
  · exact (require_agree _ _ _).bind fun _ => Exec.Agree.pure _

def Deploys (tx : Transaction) : Prop := ∃ payload, tx.data = .deployContract payload

def callee [BlockchainVerificationState S P ε] (contract : Hash) : Exec (VerificationError ε) S Module := do
  let available ← onState (loadContractModule contract)
  require available .contractNotFound
  onState (getContractModule contract)

section Callee

variable [BlockchainVerificationState S P ε] {contract : Hash} {module : Module} {s t u : S}

theorem callee_ok (hload : loadContractModule contract s = .ok true t)
    (hget : getContractModule contract t = .ok module u) : callee contract s = .ok module u := by
  unfold callee onState
  rw [Exec.bind_apply, Exec.adaptExcept_apply, hload]
  dsimp only
  rw [Exec.bind_apply, require, if_pos rfl, Exec.pure_apply]
  dsimp only
  rw [Exec.adaptExcept_apply, hget]

theorem callee_absent (hload : loadContractModule contract s = .ok false t) :
    callee contract s = .error .contractNotFound t := by
  unfold callee onState
  rw [Exec.bind_apply, Exec.adaptExcept_apply, hload]
  rfl

theorem callee_error {e : ε} (hload : loadContractModule contract s = .error e t) :
    callee contract s = .error (.state e) t := by
  unfold callee onState
  rw [Exec.bind_apply, Exec.adaptExcept_apply, hload]

end Callee

/-- A receiver gets a transfer. -/
def credit [RistrettoPoint P] [BlockchainVerificationState S P ε] (key : PublicKey) (asset : Hash) (ct : Ciphertext P) :
    Exec (VerificationError ε) S PUnit := do
  let balance ← onState (getReceiverBalance key asset)
  modify (putReceiverBalance key asset (balance.add ct))

variable [RistrettoPoint P] [BlockchainVerificationState S P ε] [BlockchainVerificationState T P ε']

/-- What a transaction reads and writes agrees in both states: `before` it, with its account `loaded`, `during` its
checks while some assets are spent already, in the middle of `spending` the next one, and `after` it. -/
structure Agreement (before loaded : S → T → Prop) (during : List Hash → S → T → Prop)
    (spending : List Hash → Hash → S → T → Prop) (after : S → T → Prop) (tx : Transaction) (txHash : Hash) : Prop where
  preVerifyTx : Exec.Agree before (preVerifyTx tx : Exec ε S PUnit) (preVerifyTx tx : Exec ε' T PUnit) before
  getAccountNonce : Exec.Agree before (getAccountNonce tx.source : Exec ε S Nonce)
    (getAccountNonce tx.source : Exec ε' T Nonce) loaded
  updateAccountNonce : Exec.Agree loaded (updateAccountNonce tx.source (tx.nonce + 1) : Exec ε S PUnit)
    (updateAccountNonce tx.source (tx.nonce + 1) : Exec ε' T PUnit) (during [])
  getMultisigState : Exec.Agree (during []) (getMultisigState tx.source : Exec ε S (Option MultiSigPayload))
    (getMultisigState tx.source : Exec ε' T (Option MultiSigPayload)) (during [])
  callee : ∀ payload, tx.data = .invokeContract payload → Exec.Agree (during [])
    (callee payload.contract : Exec (VerificationError ε) S Module)
    (callee payload.contract : Exec (VerificationError ε') T Module) (during [])
  getSenderBalance : ∀ spent, ∀ commitment ∈ tx.sourceCommitments, Exec.Agree (during spent)
    (getSenderBalance tx.source commitment.asset tx.reference : Exec ε S (Ciphertext P))
    (getSenderBalance tx.source commitment.asset tx.reference : Exec ε' T (Ciphertext P)) (spending spent commitment.asset)
  putSenderBalance : ∀ spent (asset : Hash) (ct : Ciphertext P) s t, spending spent asset s t →
    spending spent asset (putSenderBalance tx.source asset ct s) (putSenderBalance tx.source asset ct t)
  addSenderOutput : ∀ spent (asset : Hash) (ct : Ciphertext P), Exec.Agree (spending spent asset)
    (addSenderOutput tx.source asset ct : Exec ε S PUnit) (addSenderOutput tx.source asset ct : Exec ε' T PUnit)
    (during (spent ++ [asset]))
  credit : ∀ payloads, tx.data = .transfers payloads → ∀ transfer ∈ payloads, ∀ ct : Ciphertext P,
    Exec.Agree (during (tx.sourceCommitments.map SourceCommitment.asset))
      (credit transfer.destination transfer.asset ct : Exec (VerificationError ε) S PUnit)
      (credit transfer.destination transfer.asset ct : Exec (VerificationError ε') T PUnit)
      (during (tx.sourceCommitments.map SourceCommitment.asset))
  setMultisigState : ∀ payload, tx.data = .multiSig payload →
    Exec.Agree (during (tx.sourceCommitments.map SourceCommitment.asset))
      (setMultisigState tx.source payload : Exec ε S PUnit) (setMultisigState tx.source payload : Exec ε' T PUnit) after
  setContractModule : ∀ payload, tx.data = .deployContract payload →
    Exec.Agree (during (tx.sourceCommitments.map SourceCommitment.asset))
      (setContractModule txHash payload.module : Exec ε S PUnit)
      (setContractModule txHash payload.module : Exec ε' T PUnit) after
  done : (∀ payload, tx.data ≠ .multiSig payload) → (∀ payload, tx.data ≠ .deployContract payload) →
    ∀ s t, during (tx.sourceCommitments.map SourceCommitment.asset) s t → after s t

section Parts

variable {before loaded after : S → T → Prop} {during : List Hash → S → T → Prop}
  {spending : List Hash → Hash → S → T → Prop} {tx : Transaction} {txHash : Hash}

theorem Agreement.verifyMultisigFormat (h : Agreement before loaded during spending after tx txHash) (payload : MultiSigPayload) :
    Exec.Agree (during []) (verifyMultisigFormat tx payload : Exec (VerificationError ε) S PUnit)
      (verifyMultisigFormat tx payload : Exec (VerificationError ε') T PUnit) (during []) := by
  unfold Transaction.verifyMultisigFormat
  refine (require_agree _ _ _).bind fun _ => (require_agree _ _ _).bind fun _ => ?_
  refine (require_agree _ _ _).bind fun _ => (require_agree _ _ _).bind fun _ => ?_
  split
  · exact (onState_agree h.getMultisigState).bind fun configured => require_agree _ _ _
  · exact Exec.Agree.pure _

theorem Agreement.verifyFormat (h : Agreement before loaded during spending after tx txHash) (proofs : Proofs P) :
    Exec.Agree (during []) (verifyFormat proofs tx : Exec (VerificationError ε) S _)
      (verifyFormat proofs tx : Exec (VerificationError ε') T _) (during []) := by
  unfold Transaction.verifyFormat
  cases hdata : tx.data with
  | transfers transfers => exact (verifyTransfersFormat_agree tx transfers).bind fun d => Exec.Agree.pure _
  | burn payload =>
    refine (require_agree _ _ _).bind fun _ => (require_agree _ _ _).bind fun _ => ?_
    exact Exec.Agree.pure _
  | multiSig payload => exact (h.verifyMultisigFormat payload).bind fun _ => Exec.Agree.pure _
  | invokeContract payload =>
    refine (verifyInvokeContract_agree _ _).bind fun deposits => ?_
    -- the module is loaded, required and read in one go
    have hcallee := (h.callee payload hdata).bind (W := during []) (f := fun module => do
        require (proofs.isEntryChunk module payload.chunkId) .invalidInvokeContract
        payload.parameters.forM (fun constant => require (proofs.verifyConstant module constant) .moduleError)
        return (([] : List (DecompressedTransferCt P)), deposits)) (g := fun module => do
        require (proofs.isEntryChunk module payload.chunkId) .invalidInvokeContract
        payload.parameters.forM (fun constant => require (proofs.verifyConstant module constant) .moduleError)
        return (([] : List (DecompressedTransferCt P)), deposits)) fun module => by
      refine (require_agree _ _ _).bind fun _ => ?_
      exact (Exec.Agree.forM fun constant _ => require_agree _ _ _).bind fun _ => Exec.Agree.pure _
    simpa only [Transaction.callee, bind_assoc] using hcallee
  | deployContract payload =>
    obtain ⟨module, invoke⟩ := payload
    cases invoke with
    | none =>
      refine (Exec.Agree.pure _).bind fun deposits => ?_
      exact (require_agree _ _ _).bind fun _ => Exec.Agree.pure _
    | some invoke =>
      refine (verifyInvokeContract_agree _ _).bind fun deposits => ?_
      exact (require_agree _ _ _).bind fun _ => Exec.Agree.pure _

theorem Agreement.verifySignatures (h : Agreement before loaded during spending after tx txHash) (proofs : Proofs P) (source : P) :
    Exec.Agree (during []) (verifySignatures proofs tx source : Exec (VerificationError ε) S PUnit)
      (verifySignatures proofs tx source : Exec (VerificationError ε') T PUnit) (during []) := by
  unfold Transaction.verifySignatures
  refine (require_agree _ _ _).bind fun _ => (onState_agree h.getMultisigState).bind fun config => ?_
  cases config with
  | none =>
    cases tx.multisig with
    | none => exact Exec.Agree.pure _
    | some multisig => exact Exec.Agree.throw _ _
  | some config =>
    cases tx.multisig with
    | none => exact Exec.Agree.throw _ _
    | some multisig =>
      refine (require_agree _ _ _).bind fun _ => (require_agree _ _ _).bind fun _ => ?_
      refine Exec.Agree.forM fun sig _ => ?_
      cases config.participants[sig.id]? with
      | none => exact Exec.Agree.throw _ _
      | some key => exact (orProof_agree _ _).bind fun point => require_agree _ _ _

theorem Agreement.verifyCommitment (h : Agreement before loaded during spending after tx txHash) (proofs : Proofs P) (source : P)
    (transfers : List (DecompressedTransferCt P)) (deposits : FiniteMap Hash (DecompressedDepositCt P))
    (transcript : Transcript P) (spent : List Hash) (commitment : SourceCommitment × P) (hmem : commitment.1 ∈ tx.sourceCommitments) :
    Exec.Agree (during spent)
      (verifyCommitment proofs tx source transfers deposits transcript commitment : Exec (VerificationError ε) S _)
      (verifyCommitment proofs tx source transfers deposits transcript commitment : Exec (VerificationError ε') T _)
      (during (spent ++ [commitment.1.asset])) := by
  unfold Transaction.verifyCommitment
  refine (orProof_agree _ _).bind fun output => (onState_agree (h.getSenderBalance spent _ hmem)).bind fun balance => ?_
  refine (Exec.Agree.modify (h.putSenderBalance spent commitment.1.asset _)).bind fun _ => ?_
  refine (proofResult_agree _).bind fun _ => ?_
  exact (onState_agree (h.addSenderOutput spent _ _)).bind fun _ => Exec.Agree.pure _

theorem Agreement.verifyPayload (h : Agreement before loaded during spending after tx txHash) (proofs : Proofs P) (source : P)
    (transfers : List (DecompressedTransferCt P)) (deposits : FiniteMap Hash (DecompressedDepositCt P))
    (transcript : Transcript P) :
    Exec.Agree (during (tx.sourceCommitments.map SourceCommitment.asset))
      (verifyPayload proofs tx txHash source transfers deposits transcript : Exec (VerificationError ε) S _)
      (verifyPayload proofs tx txHash source transfers deposits transcript : Exec (VerificationError ε') T _) after := by
  unfold Transaction.verifyPayload
  cases hdata : tx.data with
  | transfers payloads =>
    have hdone : ∀ s t, during (tx.sourceCommitments.map SourceCommitment.asset) s t → after s t := by
      refine h.done ?_ ?_ <;> exact fun payload hother => nomatch hdata.symm.trans hother
    refine Exec.Agree.mono ?_ (fun _ _ => id) hdone
    refine Exec.Agree.foldlM (fun acc e he => ?_) _
    refine (orProof_agree _ _).bind fun receiver => ?_
    have hcredit := (h.credit payloads hdata e.1 (List.of_mem_zip he).1 (e.2.getCiphertext .receiver)).bind (W := during (tx.sourceCommitments.map SourceCommitment.asset))
      (f := fun _ => do
        proofResult (proofs.preVerifyTransferProof tx transcript e.1 source receiver)
        pure (acc ++ [(e.2.commitment, e.1.commitment)]))
      (g := fun _ => do
        proofResult (proofs.preVerifyTransferProof tx transcript e.1 source receiver)
        pure (acc ++ [(e.2.commitment, e.1.commitment)]))
      fun _ => (proofResult_agree _).bind fun _ => Exec.Agree.pure _
    simpa only [Transaction.credit, bind_assoc] using hcredit
  | burn payload =>
    refine Exec.Agree.mono (Exec.Agree.pure _) (fun _ _ => id) (h.done ?_ ?_)
    all_goals exact fun payload hother => nomatch hdata.symm.trans hother
  | multiSig payload => exact (onState_agree (h.setMultisigState payload hdata)).bind fun _ => Exec.Agree.pure _
  | invokeContract payload =>
    refine Exec.Agree.mono (verifyContractDeposits_agree _ _ _ _ _ _) (fun _ _ => id) (h.done ?_ ?_)
    all_goals exact fun payload hother => nomatch hdata.symm.trans hother
  | deployContract payload =>
    have hset := h.setContractModule payload hdata
    obtain ⟨module, invoke⟩ := payload
    refine (require_agree _ _ _).bind fun _ => ?_
    cases invoke with
    | none =>
      refine (Exec.Agree.pure _).bind fun commitments => ?_
      exact (onState_agree hset).bind fun _ => Exec.Agree.pure _
    | some invoke =>
      refine (verifyContractDeposits_agree _ _ _ _ _ _).bind fun commitments => ?_
      exact (onState_agree hset).bind fun _ => Exec.Agree.pure _

theorem length_of_mapM {f : α → Option β} {xs : List α} {ys : List β} (h : xs.mapM f = some ys) :
    ys.length = xs.length := by
  induction xs generalizing ys with
  | nil =>
    cases h
    rfl
  | cons x xs ih =>
    rw [List.mapM_cons] at h
    obtain ⟨y, -, h⟩ := Option.bind_eq_some_iff.mp h
    obtain ⟨ys', hys, h⟩ := Option.bind_eq_some_iff.mp h
    cases h
    rw [List.length_cons, List.length_cons, ih hys]

/-- States that agree on what a transaction touches give it the same verdict, the same transcript and the same
commitments. -/
theorem Agreement.preVerify (h : Agreement before loaded during spending after tx txHash) (proofs : Proofs P) :
    Exec.Agree before (preVerify proofs tx txHash : Exec (VerificationError ε) S _)
      (preVerify proofs tx txHash : Exec (VerificationError ε') T _) after := by
  unfold Transaction.preVerify
  refine (require_agree _ _ _).bind fun _ => (onState_agree h.preVerifyTx).bind fun _ => ?_
  refine (onState_agree h.getAccountNonce).bind fun nonce => (require_agree _ _ _).bind fun _ => ?_
  refine (onState_agree h.updateAccountNonce).bind fun _ => (require_agree _ _ _).bind fun _ => ?_
  refine (h.verifyFormat proofs).bind fun formats => ?_
  cases hnew : tx.sourceCommitments.mapM (fun c => RistrettoPoint.decompress (P := P) c.commitment) with
  | none => exact fun s t _ => .error _ _ _ _
  | some newCommitments =>
    refine Exec.Agree.bind_value (fun _ => rfl) (fun _ => rfl) ?_
    refine (orProof_agree _ _).bind fun source => (h.verifySignatures proofs source).bind fun _ => ?_
    have hassets : (tx.sourceCommitments.zip newCommitments).map (fun c => c.1.asset) =
        tx.sourceCommitments.map SourceCommitment.asset := by
      have hfst : (tx.sourceCommitments.zip newCommitments).map Prod.fst = tx.sourceCommitments :=
        List.map_fst_zip (Nat.le_of_eq (length_of_mapM hnew).symm)
      rw [← congrArg (List.map SourceCommitment.asset) hfst, List.map_map]
      rfl
    have hloop : Exec.Agree (during [])
        ((tx.sourceCommitments.zip newCommitments).foldlM
          (Transaction.verifyCommitment proofs tx source formats.1 formats.2) [] : Exec (VerificationError ε) S _)
        ((tx.sourceCommitments.zip newCommitments).foldlM
          (Transaction.verifyCommitment proofs tx source formats.1 formats.2) [] : Exec (VerificationError ε') T _)
        (during (tx.sourceCommitments.map SourceCommitment.asset)) := by
      rw [← hassets]
      refine Exec.Agree.foldlM_done (D := fun done => during (done.map (fun c : SourceCommitment × P => c.1.asset)))
        (fun done c hc transcript => ?_) [] []
      rw [List.map_append]
      exact h.verifyCommitment proofs source _ _ transcript _ c (List.of_mem_zip hc).1
    exact hloop.bind fun transcript => (h.verifyPayload proofs source _ _ transcript).bind fun _ => Exec.Agree.pure _

end Parts

end Xelis.Transaction
