import Mathlib.Logic.Relation
import Xelis.Transaction.Accounting

namespace Xelis.Transaction

open Lib (FiniteMap IndexMap Exec)
open State State.ApplicableChainState

variable {P : Type} [RistrettoPoint P]

section Rules

/-- What makes a relation hold along the credits of a transaction, which only write receivers, the gas and the outputs. -/
structure CreditRule (R : ApplicableChainState P → ApplicableChainState P → Prop) : Prop where
  refl : ∀ s, R s s
  trans : ∀ a b c, R a b → R b c → R a c
  receiver : ∀ s key, R s { s with inner := s.inner.withReceiver key }
  load : ∀ s key asset found, s.inner.receiverBalances[key]?.bind (·[asset]?) = none →
    s.inner.storage.getNewVersionedBalance key asset s.inner.topoheight = .ok found →
      R s { s with inner := ChainState.setReceiverVersion key asset found.1 s.inner }
  credit : ∀ s key asset ct, R s { s with inner := ChainState.putReceiverBalance key asset ct s.inner }
  collect : ∀ s gas burned, R s (addGasFee gas (addBurnedCoins burned s))

variable {R : ApplicableChainState P → ApplicableChainState P → Prop} {tx : Transaction}

section Credits

variable (h : CreditRule R)

include h

theorem receiverBalance_moves (key : PublicKey) (asset : Hash) :
    Exec.Moves R (onInner (P := P) (ChainState.internalGetReceiverBalance key asset)) := by
  intro s
  unfold onInner
  rw [ChainState.internalGetReceiverBalance_eq]
  cases hentry : s.inner.receiverBalances[key]?.bind (·[asset]?) with
  | some version => exact h.receiver s key
  | none =>
    cases hload : s.inner.storage.getNewVersionedBalance key asset s.inner.topoheight with
    | error e => exact h.receiver s key
    | ok found =>
      refine h.trans _ _ _ (h.receiver s key) (h.load _ key asset found ?_ hload)
      exact (ChainState.receiverBalances_insert_getD s.inner key key asset).trans hentry

theorem creditReceiver_moves (key : PublicKey) (asset : Hash) (f : Ciphertext P → Ciphertext P) :
    Exec.Moves R (creditReceiver key asset f) :=
  (receiverBalance_moves h key asset).bind h.trans fun ct s => h.credit s key asset (f ct)

theorem handleGas_moves (usedGas maxGas : Nat) : Exec.Moves R (handleGas (P := P) tx usedGas maxGas) := by
  unfold handleGas
  dsimp only
  split
  · exact fun s => h.refl s
  split
  · exact fun s => h.refl s
  refine Exec.Moves.bind h.trans (fun s => h.collect s 0 _) fun _ => ?_
  refine Exec.Moves.bind h.trans (fun s => h.collect s _ 0) fun _ => ?_
  split
  · exact (creditReceiver_moves h _ _ _).bind h.trans fun _ s => h.refl s
  · exact fun s => h.refl s

theorem refundDeposit_moves (decompressed : FiniteMap Hash (DecompressedDepositCt P)) (e : Hash × ContractDeposit) :
    Exec.Moves R (refundDeposit tx decompressed e) := by
  unfold refundDeposit
  refine (receiverBalance_moves h _ _).bind h.trans fun ct => ?_
  cases e.2 with
  | pub amount => exact fun s => h.credit s _ _ _
  | priv commitment senderHandle receiverHandle proof =>
    dsimp only
    cases decompressed[e.1]? with
    | none => exact fun s => h.refl s
    | some d => exact fun s => h.credit s _ _ _

theorem refundDeposits_moves (deposits : IndexMap Hash ContractDeposit)
    (decompressed : FiniteMap Hash (DecompressedDepositCt P)) : Exec.Moves R (refundDeposits tx deposits decompressed) :=
  Exec.Moves.forM h.refl h.trans _ fun e _ => refundDeposit_moves h decompressed e

theorem applyTransfer_moves (transfer : TransferPayload) : Exec.Moves R (applyTransfer (P := P) transfer) := by
  unfold applyTransfer
  refine (receiverBalance_moves h _ _).bind h.trans fun ct => ?_
  cases RistrettoPoint.decompress (P := P) transfer.commitment with
  | none => exact fun s => h.refl s
  | some commitment =>
    cases RistrettoPoint.decompress (P := P) transfer.receiverHandle with
    | none => exact fun s => h.refl s
    | some handle => exact fun s => h.credit s _ _ _

end Credits

section Checks

variable (hrefl : ∀ s, R s s)

include hrefl

theorem senderBalance_moves (h : ∀ s asset account e, s.inner.findSender tx.source asset tx.reference = .ok (account, e) →
    R s { s with inner := ChainState.setAccount tx.source (ChainState.setEchange account asset e.getBalance.2) s.inner })
    (asset : Hash) :
    Exec.Moves R (onInner (P := P) (ChainState.internalGetSenderVerificationBalance tx.source asset tx.reference)) := by
  intro s
  unfold onInner
  rw [ChainState.internalGetSenderVerificationBalance_eq]
  cases hfind : s.inner.findSender tx.source asset tx.reference with
  | error e => exact hrefl s
  | ok found => exact h s asset found.1 found.2 hfind

variable (htrans : ∀ a b c, R a b → R b c → R a c)
  (hsender : ∀ asset, Exec.Moves R (onInner (ChainState.internalGetSenderVerificationBalance tx.source asset tx.reference)))

include htrans hsender

theorem checkCommitment_moves (env : Env P) (owner : P) (transfers : List (DecompressedTransferCt P))
    (deposits : FiniteMap Hash (DecompressedDepositCt P)) (acc : Transcript P × List (Ciphertext P × Ciphertext P × Hash))
    (c : SourceCommitment × P) : Exec.Moves R (checkCommitment env tx owner transfers deposits acc c) := by
  refine (orProof_moves hrefl _ _).bind htrans fun _ => (hsender _).bind htrans fun _ => ?_
  exact (proofResult_moves hrefl _).bind htrans fun _ s => hrefl s

/-- The checks of a transaction only look up balances of its sender. -/
theorem partialVerify_moves (env : Env P) : Exec.Moves R (partialVerify (P := P) env tx) := by
  refine (orProof_moves hrefl _ _).bind htrans fun payload => (orProof_moves hrefl _ _).bind htrans fun newCommitments => ?_
  refine (orProof_moves hrefl _ _).bind htrans fun owner => Exec.Moves.bind htrans ?_ fun verified => ?_
  · exact Exec.Moves.foldlM hrefl htrans _ (fun acc c _ => checkCommitment_moves hrefl htrans hsender env _ _ _ acc c) _
  · exact (require_moves hrefl _ _).bind htrans fun _ s => hrefl s

end Checks

end Rules

/-- One write that leaves the caches of the contracts alone. -/
inductive Touch (tx : Transaction) (s : ApplicableChainState P) : ApplicableChainState P → Prop
  | receiver (key : PublicKey) : Touch tx s { s with inner := s.inner.withReceiver key }
  | load (key : PublicKey) (asset : Hash) (found : VersionedBalance P × Bool)
      (hnone : s.inner.receiverBalances[key]?.bind (·[asset]?) = none)
      (hload : s.inner.storage.getNewVersionedBalance key asset s.inner.topoheight = .ok found) :
      Touch tx s { s with inner := ChainState.setReceiverVersion key asset found.1 s.inner }
  | credit (key : PublicKey) (asset : Hash) (ct : Ciphertext P) :
      Touch tx s { s with inner := ChainState.putReceiverBalance key asset ct s.inner }
  | sender (asset : Hash) (account : Account P) (e : Echange P)
      (hfind : s.inner.findSender tx.source asset tx.reference = .ok (account, e)) :
      Touch tx s { s with inner :=
        ChainState.setAccount tx.source (ChainState.setEchange account asset e.getBalance.2) s.inner }
  | spend (asset : Hash) (account : Account P) (e : Echange P) (left output : Ciphertext P)
      (hfind : s.inner.findSender tx.source asset tx.reference = .ok (account, e)) :
      Touch tx s { s with inner := ChainState.setAccount tx.source (ChainState.setEchange account asset
        ((e.getBalance.2.setBalance left).addOutputToSum output)) s.inner }
  | account (account account' : Account P) (hfind : s.inner.findAccount tx.source = .ok account)
      (hassets : account'.assets = account.assets)
      (hprevious : account'.nonce.previousTopoheight = account.nonce.previousTopoheight)
      (hnonce : account'.nonce.nonce = account.nonce.nonce ∨ account'.nonce.nonce = tx.nonce + 1) :
      Touch tx s { s with inner := ChainState.setAccount tx.source account' s.inner }
  | contract (hash : Hash) (c : VersionedState × Option Module) :
      Touch tx s { s with inner := ChainState.setContract hash c s.inner }
  | collect (gas burned : Nat) : Touch tx s (addGasFee gas (addBurnedCoins burned s))
  | outputs (txHash : Hash) (outputs : List ContractOutput) : Touch tx s (setContractOutputs txHash outputs s)

/-- Any number of such writes. -/
abbrev Touches (tx : Transaction) : ApplicableChainState P → ApplicableChainState P → Prop :=
  Relation.ReflTransGen (Touch tx)

variable {α β : Type} {x : Apply P α} {f : α → Apply P β}

section Writes

variable {tx : Transaction}

theorem Touches.bind (hx : Exec.Moves (Touches tx) x)
    (hf : ∀ a, Exec.Moves (Touches tx) (f a)) : Exec.Moves (Touches tx) (x >>= f) :=
  hx.bind (fun _ _ _ hab hbc => hab.trans hbc) hf

theorem Touches.forM (xs : List β) {f : β → Apply P PUnit} (h : ∀ b ∈ xs, Exec.Moves (Touches tx) (f b)) :
    Exec.Moves (Touches tx) (xs.forM f) :=
  Exec.Moves.forM (fun _ => .refl) (fun _ _ _ hab hbc => hab.trans hbc) xs h

theorem Touches.pure (a : α) : Exec.Moves (Touches tx) (pure a : Apply P α) := fun _ => .refl

theorem Touches.modify {f : ApplicableChainState P → ApplicableChainState P} (h : ∀ s, Touch tx s (f s)) :
    Exec.Moves (Touches tx) (modify f : Apply P PUnit) := fun s => .single (h s)

theorem Touches.creditRule (tx : Transaction) : CreditRule (Touches (P := P) tx) where
  refl _ := .refl
  trans _ _ _ hab hbc := hab.trans hbc
  receiver _ key := .single (.receiver key)
  load _ key asset found hnone hload := .single (.load key asset found hnone hload)
  credit _ key asset ct := .single (.credit key asset ct)
  collect _ gas burned := .single (.collect gas burned)

theorem senderBalance_touches (asset : Hash) :
    Exec.Moves (Touches tx) (onInner (P := P) (ChainState.internalGetSenderVerificationBalance tx.source asset tx.reference)) :=
  senderBalance_moves (fun _ => .refl) (fun _ asset account e hfind => .single (.sender asset account e hfind)) asset

theorem checkCommitment_touches (env : Env P) (owner : P) (transfers : List (DecompressedTransferCt P))
    (deposits : FiniteMap Hash (DecompressedDepositCt P)) (acc : Transcript P × List (Ciphertext P × Ciphertext P × Hash))
    (c : SourceCommitment × P) : Exec.Moves (Touches tx) (checkCommitment env tx owner transfers deposits acc c) :=
  checkCommitment_moves (fun _ => .refl) (Touches.creditRule tx).trans senderBalance_touches env owner transfers deposits acc c

theorem updateNonce_touches :
    Exec.Moves (Touches tx) (onInner (P := P) (ChainState.internalUpdateAccountNonce tx.source (tx.nonce + 1))) := by
  intro s
  unfold onInner
  rw [ChainState.internalUpdateAccountNonce_eq]
  cases hfind : s.inner.findAccount tx.source with
  | error e => exact .refl
  | ok account => exact .single (.account account _ hfind rfl rfl (.inr rfl))

theorem setMultisigState_touches (payload : MultiSigPayload) :
    Exec.Moves (Touches tx) (onInner (P := P) (ChainState.setMultisigState tx.source payload)) := by
  intro s
  unfold onInner
  rw [ChainState.setMultisigState_eq]
  cases hfind : s.inner.findAccount tx.source with
  | error e => exact .refl
  | ok account => exact .single (.account account _ hfind rfl rfl (.inl rfl))

theorem loadVersionedContract_touches (hash : Hash) :
    Exec.Moves (Touches tx) (onInner (P := P) (ChainState.loadVersionedContract hash)) := by
  intro s
  unfold onInner
  rw [ChainState.loadVersionedContract_eq]
  cases s.inner.findContract hash with
  | error e => exact .refl
  | ok contract => exact .single (.contract hash contract)

theorem setContractModule_touches (hash : Hash) (module : Module) :
    Exec.Moves (Touches tx) (onInner (P := P) (ChainState.setContractModule hash module)) := by
  intro s
  unfold onInner
  rw [ChainState.setContractModule_eq]
  cases s.inner.findContract hash with
  | error e => exact .refl
  | ok contract =>
    obtain ⟨state, found⟩ := contract
    cases state with
    | new => exact .single (.contract hash (.new, some module))
    | fetchedAt topo => exact .single (.contract hash (.fetchedAt topo, found))
    | updated topo => exact .single (.contract hash (.updated topo, found))

theorem removeContractModule_touches (hash : Hash) : Exec.Moves (Touches tx) (removeContractModule (P := P) hash) := by
  intro s
  simp only [removeContractModule, Exec.bind_apply, Exec.get_apply]
  cases s.inner.contracts[hash]? with
  | none => exact .refl
  | some contract => exact .single (.contract hash (contract.1.markUpdated, none))

theorem applyCommitment_touches (change : Ciphertext P × Ciphertext P × Hash) :
    Exec.Moves (Touches tx) (applyCommitment tx change) := by
  intro s
  rw [applyCommitment_eq]
  cases hfind : s.inner.findSender tx.source change.2.2 tx.reference with
  | error e => exact .refl
  | ok found => exact .single (.spend change.2.2 found.1 found.2 change.1 change.2.1 hfind)

end Writes

variable {a b c s s' : ApplicableChainState P}

section Calls

/-- The contract that a transaction calls. -/
def target (tx : Transaction) (txHash : Hash) : Hash :=
  match tx.data with
  | .invokeContract payload => payload.contract
  | _ => txHash

/-- The changes of a call that succeeded, put in the state of the block. -/
def Merges (env : Env P) (tx : Transaction) (txHash : Hash) (s s' : ApplicableChainState P) : Prop :=
  ∃ start module invoke parameters maxGas usedGas final,
    s.startOf (tx.target txHash) tx.deposits txHash = .ok start ∧
      runContract env s module invoke parameters maxGas start = some (usedGas, some 0, final) ∧
      s' = mergeContractChanges (tx.target txHash) final.cache final.tracker final.assets s

/-- Writes, with the changes of at most one call in between. -/
def Footprint (env : Env P) (tx : Transaction) (txHash : Hash) (s s' : ApplicableChainState P) : Prop :=
  Touches tx s s' ∨ ∃ s₁ s₂, Touches tx s s₁ ∧ Merges env tx txHash s₁ s₂ ∧ Touches tx s₂ s'

variable {env : Env P} {tx : Transaction} {txHash : Hash}

theorem Footprint.after {a b c : ApplicableChainState P} (hab : Touches tx a b) (hbc : Footprint env tx txHash b c) :
    Footprint env tx txHash a c := by
  rcases hbc with hbc | ⟨s₁, s₂, h₁, hmerge, h₂⟩
  · exact .inl (hab.trans hbc)
  · exact .inr ⟨s₁, s₂, hab.trans h₁, hmerge, h₂⟩

theorem Footprint.before (hab : Footprint env tx txHash a b) (hbc : Touches tx b c) : Footprint env tx txHash a c := by
  rcases hab with hab | ⟨s₁, s₂, h₁, hmerge, h₂⟩
  · exact .inl (hab.trans hbc)
  · exact .inr ⟨s₁, s₂, h₁, hmerge, h₂.trans hbc⟩

/-- A program made of writes followed by any other one. -/
theorem Footprint.bind_left (hx : Exec.Moves (Touches tx) x)
    (hf : ∀ a, Exec.Moves (Footprint env tx txHash) (f a)) : Exec.Moves (Footprint env tx txHash) (x >>= f) := by
  intro s
  have h := hx s
  rw [Exec.bind_apply]
  cases hxs : x s with
  | ok a s' =>
    rw [hxs] at h
    exact Footprint.after h (hf a s')
  | error e s' =>
    rw [hxs] at h
    exact .inl h

/-- Any program followed by one made of writes. -/
theorem Footprint.bind_right (hx : Exec.Moves (Footprint env tx txHash) x)
    (hf : ∀ a, Exec.Moves (Touches tx) (f a)) : Exec.Moves (Footprint env tx txHash) (x >>= f) := by
  intro s
  have h := hx s
  rw [Exec.bind_apply]
  cases hxs : x s with
  | ok a s' =>
    rw [hxs] at h
    exact Footprint.before h (hf a s')
  | error e s' =>
    rw [hxs] at h
    exact h

theorem Footprint.of_touches (h : Exec.Moves (Touches tx) x) :
    Exec.Moves (Footprint env tx txHash) x := fun s => .inl (h s)

theorem invokeContract_footprint {decompressed : FiniteMap Hash (DecompressedDepositCt P)} {contract : Hash}
    {deposits : IndexMap Hash ContractDeposit} (hcontract : contract = tx.target txHash) (hdeposits : deposits = tx.deposits)
    (parameters : List ValueCell) (maxGas : Nat) (invoke : InvokeContract) :
    Exec.Moves (Footprint env tx txHash)
      (invokeContract env tx txHash decompressed contract deposits parameters maxGas invoke) := by
  subst hcontract hdeposits
  intro s
  rw [invokeContract_eq]
  cases hstart : s.getContractEnvironmentFor (tx.target txHash) tx.deposits txHash with
  | error e => exact .inl .refl
  | ok found =>
    obtain ⟨module, start⟩ := found
    obtain ⟨-, hstart⟩ := getContractEnvironmentFor_ok hstart
    dsimp only
    cases hrun : runContract env s module invoke parameters maxGas start with
    | none => exact .inl .refl
    | some r =>
      obtain ⟨usedGas, exitCode, final⟩ := r
      dsimp only
      have hsettle : Footprint env tx txHash s
          (Exec.stateOf (settleRun tx decompressed (tx.target txHash) tx.deposits (exitCode == some 0) final s)) := by
        unfold settleRun
        by_cases hexit : exitCode = some 0
        · subst hexit
          exact .inr ⟨s, _, .refl, ⟨start, module, invoke, parameters, maxGas, usedGas, final, hstart, hrun, rfl⟩, .refl⟩
        · rw [if_neg (by simpa using hexit)]
          split
          · exact .inl (Touches.bind (refundDeposits_moves (Touches.creditRule tx) _ _) (fun _ => Touches.pure _) s)
          · exact .inl .refl
      cases hsettled : settleRun tx decompressed (tx.target txHash) tx.deposits (exitCode == some 0) final s with
      | error e s₁ =>
        rw [hsettled] at hsettle
        exact hsettle
      | ok outputs s₁ =>
        rw [hsettled] at hsettle
        dsimp only
        have hgas : Touches tx s₁ (Exec.stateOf (handleGas tx usedGas maxGas s₁)) := handleGas_moves (Touches.creditRule tx) usedGas maxGas s₁
        cases hgased : handleGas tx usedGas maxGas s₁ with
        | error e s₂ =>
          rw [hgased] at hgas
          exact Footprint.before hsettle hgas
        | ok refund s₂ =>
          rw [hgased] at hgas
          exact Footprint.before (Footprint.before hsettle hgas) (.single (.outputs _ _))

theorem applyInvokeContract_footprint {payload : InvokeContractPayload} (hdata : tx.data = .invokeContract payload)
    (decompressed : FiniteMap Hash (DecompressedDepositCt P)) :
    Exec.Moves (Footprint env tx txHash) (applyInvokeContract env tx txHash decompressed payload) := by
  refine Footprint.bind_left (loadVersionedContract_touches _) fun available => ?_
  cases available with
  | false =>
    exact Footprint.of_touches (Touches.bind (handleGas_moves (Touches.creditRule tx) _ _) fun _ => refundDeposits_moves (Touches.creditRule tx) _ _)
  | true =>
    refine Footprint.bind_right (invokeContract_footprint ?_ ?_ _ _ _) fun _ => Touches.pure _
    · simp only [target, hdata]
    · simp only [deposits, hdata]

theorem applyDeployContract_footprint {payload : DeployContractPayload} (hdata : tx.data = .deployContract payload)
    (decompressed : FiniteMap Hash (DecompressedDepositCt P)) :
    Exec.Moves (Footprint env tx txHash) (applyDeployContract env tx txHash decompressed payload) := by
  refine Footprint.bind_left (setContractModule_touches _ _) fun _ => ?_
  obtain ⟨module, invoke⟩ := payload
  cases invoke with
  | none => exact Footprint.of_touches (Touches.pure _)
  | some invoke =>
    refine Footprint.bind_right (invokeContract_footprint ?_ ?_ _ _ _) fun isSuccess => ?_
    · simp only [target, hdata]
    · simp only [deposits, hdata]
    · cases isSuccess with
      | true => exact Touches.pure _
      | false => exact removeContractModule_touches _

theorem applyPayload_footprint (env : Env P) (tx : Transaction) (txHash : Hash)
    (decompressed : FiniteMap Hash (DecompressedDepositCt P)) :
    Exec.Moves (Footprint env tx txHash) (applyPayload env tx txHash decompressed) := by
  unfold applyPayload
  cases hdata : tx.data with
  | transfers payloads => exact Footprint.of_touches (Touches.forM _ fun t _ => applyTransfer_moves (Touches.creditRule tx) t)
  | burn payload =>
    dsimp only
    split
    · exact Footprint.of_touches (Touches.modify fun s => .collect 0 _)
    · exact Footprint.of_touches (Touches.pure _)
  | multiSig payload => exact Footprint.of_touches (setMultisigState_touches payload)
  | invokeContract payload => exact applyInvokeContract_footprint hdata decompressed
  | deployContract payload => exact applyDeployContract_footprint hdata decompressed

/-- Whatever the outcome, a transaction only makes writes and merges the call it makes. -/
theorem applyWithPartialVerify_footprint (env : Env P) (tx : Transaction) (txHash : Hash) :
    Exec.Moves (Footprint env tx txHash) (applyWithPartialVerify env tx txHash) := by
  refine Footprint.bind_left (partialVerify_moves (fun _ => .refl) (Touches.creditRule tx).trans senderBalance_touches env) fun found => ?_
  refine Footprint.bind_left (Touches.forM _ fun change _ => applyCommitment_touches change) fun _ => ?_
  exact Footprint.bind_left updateNonce_touches fun _ => applyPayload_footprint env tx txHash found.1

end Calls

section Frames

variable {env : Env P} {tx : Transaction} {txHash : Hash}

/-- The part of the state that an application leaves alone, apart from its sender. -/
structure Framed (tx : Transaction) (s s' : ApplicableChainState P) : Prop where
  storage : s'.inner.storage = s.inner.storage
  topoheight : s'.inner.topoheight = s.inner.topoheight
  blockVersion : s'.inner.blockVersion = s.inner.blockVersion
  accounts : ∀ key, key ≠ tx.source → s'.inner.accounts[key]? = s.inner.accounts[key]?

omit [RistrettoPoint P] in
theorem Framed.trans (hab : Framed tx a b) (hbc : Framed tx b c) : Framed tx a c where
  storage := hbc.storage.trans hab.storage
  topoheight := hbc.topoheight.trans hab.topoheight
  blockVersion := hbc.blockVersion.trans hab.blockVersion
  accounts key hkey := (hbc.accounts key hkey).trans (hab.accounts key hkey)

theorem Touch.framed (h : Touch tx s s') : Framed tx s s' := by
  have hsender : ∀ account : Account P,
      Framed tx s { s with inner := ChainState.setAccount tx.source account s.inner } := fun account =>
    ⟨rfl, rfl, rfl, fun key hkey => FiniteMap.getElem?_insert_of_ne _ _ (Ne.symm hkey)⟩
  cases h with
  | credit key asset ct =>
    unfold ChainState.putReceiverBalance
    cases s.inner.receiverBalances[key]?.bind (·[asset]?) with
    | none => exact ⟨rfl, rfl, rfl, fun _ _ => rfl⟩
    | some version => exact ⟨rfl, rfl, rfl, fun _ _ => rfl⟩
  | sender asset account e hfind => exact hsender _
  | spend asset account e left output hfind => exact hsender _
  | account account account' hfind hassets hprevious hnonce => exact hsender _
  | _ => exact ⟨rfl, rfl, rfl, fun _ _ => rfl⟩

theorem Touches.framed (h : Touches tx s s') : Framed tx s s' := by
  induction h with
  | refl => exact ⟨rfl, rfl, rfl, fun _ _ => rfl⟩
  | tail _ hstep ih => exact ih.trans hstep.framed

omit [RistrettoPoint P] in
theorem Merges.framed (h : Merges env tx txHash s s') : Framed tx s s' := by
  obtain ⟨start, module, invoke, parameters, maxGas, usedGas, final, hstart, hrun, rfl⟩ := h
  exact ⟨rfl, rfl, rfl, fun _ _ => rfl⟩

theorem Footprint.framed (h : Footprint env tx txHash s s') : Framed tx s s' := by
  rcases h with htouch | ⟨s₁, s₂, h₁, hmerge, h₂⟩
  · exact htouch.framed
  · exact (h₁.framed.trans hmerge.framed).trans h₂.framed

end Frames

end Xelis.Transaction
