import Xelis.Mempool.Runs
import Xelis.Transaction.Agreement

namespace Xelis.Mempool

open Lib (FiniteMap Exec)
open State

variable {P : Type}

section FreshStates

/-- The same state over two pools, none of which has a cache for the sender. -/
structure OverPools (key : PublicKey) (s t : MempoolState P) : Prop where
  same : ∃ pool, t = { s with mempool := pool }
  first : s.mempool.caches[key]? = none
  second : t.mempool.caches[key]? = none

def LoadedOverPools (key : PublicKey) (s t : MempoolState P) : Prop := OverPools key s t ∧ s.accounts[key]?.isSome

variable {key : PublicKey} {s t : MempoolState P}

theorem OverPools.createSenderAccount_eq (h : OverPools key s t) (topoheight : TopoHeight) :
    MempoolState.createSenderAccount t.mempool s.storage key topoheight =
      MempoolState.createSenderAccount s.mempool s.storage key topoheight := by
  unfold MempoolState.createSenderAccount getCacheFor
  rw [h.first, h.second]

theorem OverPools.findAccount_eq (h : OverPools key s t) : t.findAccount key = s.findAccount key := by
  obtain ⟨pool, rfl⟩ := id h.same
  unfold MempoolState.findAccount
  dsimp only
  rw [h.createSenderAccount_eq]

theorem OverPools.setAccount (h : OverPools key s t) (other : PublicKey) (account : MempoolState.Account P) :
    OverPools key (MempoolState.setAccount other account s) (MempoolState.setAccount other account t) := by
  obtain ⟨⟨pool, rfl⟩, hfirst, hsecond⟩ := h
  exact ⟨⟨pool, rfl⟩, hfirst, hsecond⟩

theorem OverPools.loaded (h : OverPools key s t) (account : MempoolState.Account P) :
    LoadedOverPools key (MempoolState.setAccount key account s) (MempoolState.setAccount key account t) := by
  refine ⟨h.setAccount key account, ?_⟩
  rw [MempoolState.setAccount, FiniteMap.getElem?_insert_self']
  rfl

section Operations

theorem getAccountNonce_overPools :
    Exec.Agree (OverPools (P := P) key) (MempoolState.internalGetAccountNonce key) (MempoolState.internalGetAccountNonce key)
      (LoadedOverPools key) := by
  intro s t h
  rw [MempoolState.internalGetAccountNonce_eq, MempoolState.internalGetAccountNonce_eq, h.findAccount_eq]
  cases s.findAccount key with
  | ok account => exact .ok _ (h.loaded account)
  | error e => exact .error _ _ _ _

theorem updateAccountNonce_overPools (nonce : Nonce) :
    Exec.Agree (LoadedOverPools (P := P) key) (MempoolState.internalUpdateAccountNonce key nonce)
      (MempoolState.internalUpdateAccountNonce key nonce) (LoadedOverPools key) := by
  intro s t h
  obtain ⟨pool, rfl⟩ := id h.1.same
  simp only [MempoolState.internalUpdateAccountNonce, Exec.bind_apply, Exec.get_apply]
  cases s.accounts[key]? with
  | none => exact .error _ _ _ _
  | some account => exact .ok _ (h.1.loaded _)

theorem getMultisigState_overPools :
    Exec.Agree (LoadedOverPools (P := P) key) (MempoolState.getMultisigState key) (MempoolState.getMultisigState key)
      (LoadedOverPools key) := by
  intro s t h
  obtain ⟨pool, rfl⟩ := id h.1.same
  simp only [MempoolState.getMultisigState, Exec.bind_apply, Exec.get_apply]
  cases s.accounts[key]? with
  | none => exact .error _ _ _ _
  | some account => exact .ok _ h

theorem setMultisigState_overPools (payload : MultiSigPayload) :
    Exec.Agree (LoadedOverPools (P := P) key) (MempoolState.setMultisigState key payload) (MempoolState.setMultisigState key payload)
      (LoadedOverPools key) := by
  intro s t h
  obtain ⟨pool, rfl⟩ := id h.1.same
  simp only [MempoolState.setMultisigState, Exec.bind_apply, Exec.get_apply]
  cases s.accounts[key]? with
  | none => exact .error _ _ _ _
  | some account => exact .ok _ (h.1.loaded _)

theorem loadContractModule_overPools (contract : Hash) :
    Exec.Agree (LoadedOverPools (P := P) key) (MempoolState.loadContractModule contract) (MempoolState.loadContractModule contract)
      (LoadedOverPools key) := by
  intro s t h
  obtain ⟨⟨⟨pool, rfl⟩, hfirst, hsecond⟩, hloaded⟩ := h
  simp only [MempoolState.loadContractModule, Exec.bind_apply, Exec.get_apply]
  split
  · exact .ok _ ⟨⟨⟨pool, rfl⟩, hfirst, hsecond⟩, hloaded⟩
  · simp only [Exec.bind_apply, Exec.ofExcept_apply]
    cases s.storage.getContractAtMaximumTopoheightFor contract s.topoheight with
    | error e => exact .error _ _ _ _
    | ok found =>
      dsimp only
      cases found.bind (fun v => v.2.data) with
      | none => exact .error _ _ _ _
      | some module => exact .ok _ ⟨⟨⟨pool, rfl⟩, hfirst, hsecond⟩, hloaded⟩

theorem getContractModule_overPools (contract : Hash) :
    Exec.Agree (LoadedOverPools (P := P) key) (MempoolState.getContractModule contract) (MempoolState.getContractModule contract)
      (LoadedOverPools key) := by
  intro s t h
  obtain ⟨pool, rfl⟩ := id h.1.same
  simp only [MempoolState.getContractModule, Exec.bind_apply, Exec.get_apply]
  cases s.contracts[contract]? with
  | none => exact .error _ _ _ _
  | some module => exact .ok _ h

theorem setContractModule_overPools (hash : Hash) (module : Module) :
    Exec.Agree (LoadedOverPools (P := P) key) (MempoolState.setContractModule hash module) (MempoolState.setContractModule hash module)
      (LoadedOverPools key) := by
  intro s t h
  obtain ⟨⟨⟨pool, rfl⟩, hfirst, hsecond⟩, hloaded⟩ := h
  simp only [MempoolState.setContractModule, Exec.bind_apply, Exec.get_apply, Exec.set_apply]
  split
  · exact .error _ _ _ _
  · exact .ok _ ⟨⟨⟨pool, rfl⟩, hfirst, hsecond⟩, hloaded⟩

theorem putReceiverBalance_overPools (receiver : PublicKey) (asset : Hash) (ct : Ciphertext P) (h : LoadedOverPools key s t) :
    LoadedOverPools key (MempoolState.putReceiverBalance receiver asset ct s) (MempoolState.putReceiverBalance receiver asset ct t) := by
  obtain ⟨⟨⟨pool, rfl⟩, hfirst, hsecond⟩, hloaded⟩ := h
  unfold MempoolState.putReceiverBalance
  dsimp only
  cases s.receiverBalances[receiver]?.bind (·[asset]?) with
  | none => exact ⟨⟨⟨pool, rfl⟩, hfirst, hsecond⟩, hloaded⟩
  | some _ => exact ⟨⟨⟨pool, rfl⟩, hfirst, hsecond⟩, hloaded⟩

theorem putSenderBalance_overPools (asset : Hash) (ct : Ciphertext P) (h : LoadedOverPools key s t) :
    LoadedOverPools key (MempoolState.putSenderBalance key asset ct s) (MempoolState.putSenderBalance key asset ct t) := by
  obtain ⟨pool, rfl⟩ := id h.1.same
  unfold MempoolState.putSenderBalance
  dsimp only
  cases s.accounts[key]? with
  | none => exact h
  | some account =>
    dsimp only
    cases account.assets[asset]? with
    | none => exact h
    | some _ => exact h.1.loaded _

variable [RistrettoPoint P]

theorem preVerifyTx_overPools (txSize : Transaction → Nat) (tx : Transaction) :
    Exec.Agree (OverPools (P := P) key) ((MempoolState.verificationState txSize).preVerifyTx tx)
      ((MempoolState.verificationState txSize).preVerifyTx tx) (OverPools key) := by
  intro s t h
  obtain ⟨pool, rfl⟩ := id h.same
  exact Exec.Agree.ofExcept (fun _ => Iff.rfl) s { s with mempool := pool } h

theorem getReceiverBalance_overPools (receiver : PublicKey) (asset : Hash) :
    Exec.Agree (LoadedOverPools (P := P) key) (MempoolState.internalGetReceiverBalance receiver asset)
      (MempoolState.internalGetReceiverBalance receiver asset) (LoadedOverPools key) := by
  intro s t h
  obtain ⟨⟨⟨pool, rfl⟩, hfirst, hsecond⟩, hloaded⟩ := h
  simp only [MempoolState.internalGetReceiverBalance, Exec.bind_apply, Exec.get_apply, Exec.set_apply]
  cases (s.receiverBalances[receiver]?.getD ∅)[asset]? with
  | some ct => exact .ok _ ⟨⟨⟨pool, rfl⟩, hfirst, hsecond⟩, hloaded⟩
  | none =>
    simp only [Exec.bind_apply, Exec.ofExcept_apply]
    cases s.storage.getNewVersionedBalance receiver asset s.topoheight with
    | error e => exact .error _ _ _ _
    | ok found => exact .ok _ ⟨⟨⟨pool, rfl⟩, hfirst, hsecond⟩, hloaded⟩

theorem getSenderBalance_overPools (asset : Hash) (reference : Reference) :
    Exec.Agree (LoadedOverPools (P := P) key) (MempoolState.internalGetSenderBalance key asset reference)
      (MempoolState.internalGetSenderBalance key asset reference) (LoadedOverPools key) := by
  intro s t h
  obtain ⟨pool, rfl⟩ := id h.1.same
  simp only [MempoolState.internalGetSenderBalance, Exec.bind_apply, Exec.get_apply]
  cases haccount : s.accounts[key]? with
  | none =>
    have hloaded := h.2
    rw [haccount] at hloaded
    cases hloaded
  | some account =>
    dsimp only
    cases account.assets[asset]? with
    | some ct => exact .ok _ h
    | none =>
      have hfirst : s.mempool.getCacheFor key = none := h.1.first
      have hsecond : pool.getCacheFor key = none := h.1.second
      simp only [Exec.bind_apply, Exec.ofExcept_apply, MempoolState.findBalance, hfirst, hsecond]
      dsimp only [Option.bind_none]
      cases MempoolState.getVersionedBalanceForReference s.storage key asset s.topoheight reference with
      | error e => exact .error _ _ _ _
      | ok ct => exact .ok _ (h.1.loaded _)

theorem agreement_overPools (txSize : Transaction → Nat) {tx : Transaction} (hsource : tx.source = key) (txHash : Hash) :
    @Transaction.Agreement P (MempoolState P) (MempoolState P) BlockchainError BlockchainError _
      (MempoolState.verificationState txSize) (MempoolState.verificationState txSize) (OverPools key) (LoadedOverPools key)
      (fun _ => LoadedOverPools key) (fun _ _ => LoadedOverPools key) (LoadedOverPools key) tx txHash := by
  subst hsource
  let _ := MempoolState.verificationState (P := P) txSize
  exact
    { preVerifyTx := preVerifyTx_overPools txSize tx
      getAccountNonce := getAccountNonce_overPools
      updateAccountNonce := updateAccountNonce_overPools (tx.nonce + 1)
      getMultisigState := getMultisigState_overPools
      callee := fun payload _ => (Transaction.onState_agree (loadContractModule_overPools payload.contract)).bind fun _ =>
        (Transaction.require_agree _ _ _).bind fun _ => Transaction.onState_agree (getContractModule_overPools payload.contract)
      getSenderBalance := fun _ commitment _ => getSenderBalance_overPools commitment.asset tx.reference
      putSenderBalance := fun _ asset ct _ _ h => putSenderBalance_overPools asset ct h
      addSenderOutput := fun _ _ _ => Exec.Agree.pure _
      credit := fun _ _ transfer _ ct => (Transaction.onState_agree (getReceiverBalance_overPools transfer.destination transfer.asset)).bind
        fun balance => Exec.Agree.modify fun _ _ h => putReceiverBalance_overPools transfer.destination transfer.asset (balance.add ct) h
      setMultisigState := fun payload _ => setMultisigState_overPools payload
      setContractModule := fun payload _ => setContractModule_overPools txHash payload.module
      done := fun _ _ _ _ h => h }

/-- Neither does the one over a batch of transactions of one sender, which loads the sender when it has one: both return and leave
the same state over the two pools, or both refuse. -/
theorem verifyBatch_overPools (proofs : Proofs P) {txs : List (Transaction × Hash)} (hsource : ∀ e ∈ txs, e.1.source = key)
    (hsome : txs ≠ []) :
    letI := MempoolState.verificationState (P := P) proofs.txSize
    Exec.Agree (OverPools (P := P) key) (Transaction.verifyBatch proofs txs) (Transaction.verifyBatch proofs txs)
      (LoadedOverPools key) := by
  let _ := MempoolState.verificationState (P := P) proofs.txSize
  have hone : ∀ e ∈ txs, Exec.Agree (OverPools (P := P) key) (Transaction.preVerify proofs e.1 e.2) (Transaction.preVerify proofs e.1 e.2)
      (LoadedOverPools key) := fun e he => (agreement_overPools proofs.txSize (hsource e he) e.2).preVerify proofs
  unfold Transaction.verifyBatch
  have hall : Exec.Agree (OverPools (P := P) key) (txs.mapM fun e => Transaction.preVerify proofs e.1 e.2)
      (txs.mapM fun e => Transaction.preVerify proofs e.1 e.2) (LoadedOverPools key) := by
    cases txs with
    | nil => exact absurd rfl hsome
    | cons e rest =>
      rw [List.mapM_cons]
      refine (hone e List.mem_cons_self).bind fun first => ?_
      refine (Exec.Agree.mapM fun e' he' => ?_).bind fun others => Exec.Agree.pure _
      exact (hone e' (List.mem_cons_of_mem _ he')).mono (fun _ _ h => h.1) fun _ _ h => h
  refine hall.bind fun prepared => ?_
  unfold Transaction.verifyProofs
  exact (Transaction.require_agree _ _ _).bind fun _ => Transaction.require_agree _ _ _

theorem verifyBatch_overPools_burn :
    letI := MempoolState.verificationState (P := ℤ) Transaction.clearEnv.txSize
    Exec.Agree (OverPools (P := ℤ) 7#256) (Transaction.verifyBatch Transaction.clearEnv.toProofs [(Transaction.sampleBurn, 5#256)])
      (Transaction.verifyBatch Transaction.clearEnv.toProofs [(Transaction.sampleBurn, 5#256)]) (LoadedOverPools 7#256) :=
  verifyBatch_overPools Transaction.clearEnv.toProofs (fun _ he => List.mem_singleton.mp he ▸ rfl) (List.cons_ne_nil _ _)

end Operations

end FreshStates

end Xelis.Mempool
