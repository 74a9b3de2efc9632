import Xelis.Transaction.Footprint

namespace Xelis.State.ChainState

open Lib (FiniteMap Exec)

variable {P : Type}

/-- Nothing that finding a sender depends on has changed. -/
structure SameSenders (c c' : ChainState P) : Prop where
  storage : c'.storage = c.storage
  topoheight : c'.topoheight = c.topoheight
  accounts : c'.accounts = c.accounts

theorem SameSenders.refl (c : ChainState P) : SameSenders c c := ⟨rfl, rfl, rfl⟩

variable {c c' c'' : ChainState P}

theorem SameSenders.trans (h : SameSenders c c') (h' : SameSenders c' c'') : SameSenders c c'' :=
  ⟨h'.storage.trans h.storage, h'.topoheight.trans h.topoheight, h'.accounts.trans h.accounts⟩

theorem SameSenders.findAccount (h : SameSenders c c') (key : PublicKey) : c'.findAccount key = c.findAccount key := by
  unfold ChainState.findAccount
  rw [h.accounts, h.storage, h.topoheight]

theorem putReceiverBalance_sameSenders (key : PublicKey) (asset : Hash) (ct : Ciphertext P) (c : ChainState P) :
    SameSenders c (putReceiverBalance key asset ct c) := by
  unfold putReceiverBalance
  cases c.receiverBalances[key]?.bind (·[asset]?) with
  | some version => exact ⟨rfl, rfl, rfl⟩
  | none => exact .refl c

variable [RistrettoPoint P]

omit [RistrettoPoint P] in
theorem loadVersionedContract_sameSenders (hash : Hash) :
    Exec.Moves SameSenders (loadVersionedContract (P := P) hash) := by
  intro c
  rw [loadVersionedContract_eq]
  cases c.findContract hash with
  | ok contract => exact ⟨rfl, rfl, rfl⟩
  | error e => exact .refl c

omit [RistrettoPoint P] in
theorem setContractModule_sameSenders (hash : Hash) (module : Module) :
    Exec.Moves SameSenders (setContractModule (P := P) hash module) := by
  intro c
  rw [setContractModule_eq]
  cases c.findContract hash with
  | error e => exact .refl c
  | ok contract =>
    obtain ⟨state, module'⟩ := contract
    cases state with
    | new => exact ⟨rfl, rfl, rfl⟩
    | fetchedAt topo => exact ⟨rfl, rfl, rfl⟩
    | updated topo => exact ⟨rfl, rfl, rfl⟩

end Xelis.State.ChainState

namespace Xelis.Transaction

open Lib (FiniteMap IndexMap Exec)
open State State.ApplicableChainState

variable {P : Type}

section Payload

def SparesSenders (s s' : ApplicableChainState P) : Prop := ChainState.SameSenders s.inner s'.inner

theorem SparesSenders.refl (s : ApplicableChainState P) : SparesSenders s s := ChainState.SameSenders.refl s.inner

theorem SparesSenders.trans (a b c : ApplicableChainState P) (h : SparesSenders a b) (h' : SparesSenders b c) :
    SparesSenders a c :=
  ChainState.SameSenders.trans h h'

theorem onInner_moves {α : Type} {R : ChainState P → ChainState P → Prop} {x : Exec BlockchainError (ChainState P) α}
    (h : Exec.Moves R x) : Exec.Moves (fun s s' : ApplicableChainState P => R s.inner s'.inner) (onInner x) := by
  intro s
  have hx := h s.inner
  unfold onInner
  cases hr : x s.inner with
  | ok a inner =>
    rw [hr] at hx
    exact hx
  | error e inner =>
    rw [hr] at hx
    exact hx

variable [RistrettoPoint P]

theorem SparesSenders.creditRule : CreditRule (P := P) SparesSenders where
  refl := SparesSenders.refl
  trans := SparesSenders.trans
  receiver _ _ := ⟨rfl, rfl, rfl⟩
  load _ _ _ _ _ _ := ⟨rfl, rfl, rfl⟩
  credit s key asset ct := ChainState.putReceiverBalance_sameSenders key asset ct s.inner
  collect _ _ _ := ⟨rfl, rfl, rfl⟩

variable (tx : Transaction) (txHash : Hash) (decompressed : FiniteMap Hash (DecompressedDepositCt P))

theorem settleRun_senders (contract : Hash) (deposits : IndexMap Hash ContractDeposit) (isSuccess : Bool)
    (final : ContractChainState) :
    Exec.Moves SparesSenders (settleRun tx decompressed contract deposits isSuccess final) := by
  unfold settleRun
  split
  · exact fun s => ⟨rfl, rfl, rfl⟩
  · split
    · exact (refundDeposits_moves SparesSenders.creditRule deposits decompressed).bind SparesSenders.trans fun _ s => .refl _
    · exact fun s => .refl _

theorem invokeContract_senders (env : Env P) (contract : Hash) (deposits : IndexMap Hash ContractDeposit)
    (parameters : List ValueCell) (maxGas : Nat) (invoke : InvokeContract) :
    Exec.Moves SparesSenders (invokeContract env tx txHash decompressed contract deposits parameters maxGas invoke) := by
  intro s
  rw [invokeContract_eq]
  cases s.getContractEnvironmentFor contract deposits txHash with
  | error e => exact .refl _
  | ok found =>
    dsimp only
    cases runContract env s found.1 invoke parameters maxGas found.2 with
    | none => exact .refl _
    | some r =>
      obtain ⟨usedGas, exitCode, final⟩ := r
      dsimp only
      have hsettle := settleRun_senders tx decompressed contract deposits (exitCode == some 0) final s
      cases hsettled : settleRun tx decompressed contract deposits (exitCode == some 0) final s with
      | error e s₁ =>
        rw [hsettled] at hsettle
        exact hsettle
      | ok outputs s₁ =>
        rw [hsettled] at hsettle
        dsimp only
        have hgas : SparesSenders s₁ (Exec.stateOf (handleGas tx usedGas maxGas s₁)) :=
          handleGas_moves SparesSenders.creditRule usedGas maxGas s₁
        cases hgased : handleGas tx usedGas maxGas s₁ with
        | error e s₂ =>
          rw [hgased] at hgas
          exact SparesSenders.trans _ _ _ hsettle hgas
        | ok refund s₂ =>
          rw [hgased] at hgas
          exact SparesSenders.trans _ _ _ hsettle hgas

theorem applyPayload_senders (env : Env P) (hdata : ∀ payload, tx.data ≠ .multiSig payload) :
    Exec.Moves SparesSenders (applyPayload env tx txHash decompressed) := by
  unfold applyPayload
  cases hkind : tx.data with
  | transfers payloads =>
    exact Exec.Moves.forM SparesSenders.refl SparesSenders.trans _ fun transfer _ =>
      applyTransfer_moves SparesSenders.creditRule transfer
  | burn payload =>
    dsimp only
    split
    · exact fun s => .refl _
    · exact fun s => .refl _
  | multiSig payload => exact absurd hkind (hdata payload)
  | invokeContract payload =>
    refine (onInner_moves (ChainState.loadVersionedContract_sameSenders _)).bind SparesSenders.trans fun available => ?_
    cases available with
    | true =>
      exact (invokeContract_senders tx txHash decompressed env _ _ _ _ _).bind SparesSenders.trans fun _ s => .refl _
    | false =>
      exact (handleGas_moves SparesSenders.creditRule 0 _).bind SparesSenders.trans fun _ => refundDeposits_moves SparesSenders.creditRule _ decompressed
  | deployContract payload =>
    obtain ⟨module, invoke⟩ := payload
    refine (onInner_moves (ChainState.setContractModule_sameSenders _ _)).bind SparesSenders.trans fun _ => ?_
    cases invoke with
    | none => exact fun s => .refl _
    | some invoke =>
      refine (invokeContract_senders tx txHash decompressed env _ _ _ _ _).bind SparesSenders.trans fun isSuccess => ?_
      cases isSuccess with
      | true => exact fun s => .refl _
      | false =>
        intro s
        simp only [Bool.not_false, if_true, removeContractModule, Exec.bind_apply, Exec.get_apply]
        cases s.inner.contracts[txHash]? with
        | none => exact .refl _
        | some contract => exact ⟨rfl, rfl, rfl⟩

end Payload

section Multisig

/-- Every sender that is found has the multisig that was found for it before. -/
def KeepsMultisig (s s' : ApplicableChainState P) : Prop :=
  ∀ key account', s'.inner.findAccount key = .ok account' →
    ∃ account, s.inner.findAccount key = .ok account ∧ account'.multisig = account.multisig

theorem KeepsMultisig.refl (s : ApplicableChainState P) : KeepsMultisig s s := fun _ account h => ⟨account, h, rfl⟩

theorem KeepsMultisig.trans (a b c : ApplicableChainState P) (hab : KeepsMultisig a b) (hbc : KeepsMultisig b c) :
    KeepsMultisig a c := by
  intro key account'' hfind
  obtain ⟨account', hfind', heq'⟩ := hbc key account'' hfind
  obtain ⟨account, hfind, heq⟩ := hab key account' hfind'
  exact ⟨account, hfind, heq'.trans heq⟩

theorem SparesSenders.keepsMultisig {s s' : ApplicableChainState P} (h : SparesSenders s s') : KeepsMultisig s s' := by
  intro key account hfind
  rw [ChainState.SameSenders.findAccount h] at hfind
  exact ⟨account, hfind, rfl⟩

theorem findAccount_setAccount (c : ChainState P) (key : PublicKey) (account : Account P) (k : PublicKey) :
    (ChainState.setAccount key account c).findAccount k = if key = k then .ok account else c.findAccount k := by
  unfold ChainState.findAccount ChainState.setAccount
  dsimp only
  by_cases hkey : key = k
  · subst hkey
    rw [if_pos rfl, FiniteMap.getElem?_insert_self']
  · rw [if_neg hkey, FiniteMap.getElem?_insert_of_ne _ _ hkey]

theorem keepsMultisig_setAccount {s : ApplicableChainState P} {key : PublicKey} {account account' : Account P}
    (hfind : s.inner.findAccount key = .ok account) (hsame : account'.multisig = account.multisig) :
    KeepsMultisig s { s with inner := ChainState.setAccount key account' s.inner } := by
  intro k found hfound
  rw [findAccount_setAccount] at hfound
  split at hfound
  · subst_vars
    cases hfound
    exact ⟨account, hfind, hsame⟩
  · exact ⟨found, hfound, rfl⟩

variable [RistrettoPoint P] {env : Env P} {tx : Transaction} {txHash : Hash} {s s' : ApplicableChainState P}

theorem partialVerify_keepsMultisig (env : Env P) (tx : Transaction) : Exec.Moves KeepsMultisig (partialVerify (P := P) env tx) :=
  partialVerify_moves KeepsMultisig.refl KeepsMultisig.trans (senderBalance_moves KeepsMultisig.refl
    fun _ _ _ _ hfind => keepsMultisig_setAccount (ChainState.findSender_ok hfind).1 rfl) env

theorem applyCommitment_keepsMultisig (change : Ciphertext P × Ciphertext P × Hash) :
    Exec.Moves KeepsMultisig (applyCommitment tx change) := by
  intro s
  rw [applyCommitment_eq]
  cases hfind : s.inner.findSender tx.source change.2.2 tx.reference with
  | error e => exact .refl s
  | ok found => exact keepsMultisig_setAccount (ChainState.findSender_ok hfind).1 rfl

omit [RistrettoPoint P] in
theorem updateNonce_keepsMultisig (key : PublicKey) (nonce : Nonce) :
    Exec.Moves KeepsMultisig (onInner (P := P) (ChainState.internalUpdateAccountNonce key nonce)) := by
  intro s
  unfold onInner
  rw [ChainState.internalUpdateAccountNonce_eq]
  cases hfind : s.inner.findAccount key with
  | error e => exact .refl s
  | ok account => exact keepsMultisig_setAccount hfind rfl

theorem applyCommitments_keepsMultisig (tx : Transaction) (changes : List (Ciphertext P × Ciphertext P × Hash)) :
    Exec.Moves KeepsMultisig (changes.forM (applyCommitment tx)) :=
  Exec.Moves.forM KeepsMultisig.refl KeepsMultisig.trans changes fun change _ => applyCommitment_keepsMultisig change

def GivesMultisig (tx : Transaction) (key : PublicKey) (account account' : Account P) : Prop :=
  tx.source = key ∧ ∃ payload, tx.data = .multiSig payload ∧
    account'.multisig = (ChainState.withMultisig account payload).multisig

theorem applyWithPartialVerify_multisig (hrun : applyWithPartialVerify env tx txHash s = .ok ⟨⟩ s') (key : PublicKey)
    (account' : Account P) (hfind : s'.inner.findAccount key = .ok account') :
    ∃ account, s.inner.findAccount key = .ok account ∧
      (account'.multisig = account.multisig ∨ GivesMultisig tx key account account') := by
  obtain ⟨⟨deposits, changes⟩, s₁, hverify, hrun⟩ := Exec.bind_ok_iff.mp hrun
  obtain ⟨⟨⟩, s₂, hcharge, hrun⟩ := Exec.bind_ok_iff.mp hrun
  obtain ⟨⟨⟩, s₃, hnonce, hpayload⟩ := Exec.bind_ok_iff.mp hrun
  have hbefore : KeepsMultisig s s₃ := by
    have h₁ := partialVerify_keepsMultisig env tx s
    have h₂ := applyCommitments_keepsMultisig tx changes s₁
    have h₃ := updateNonce_keepsMultisig tx.source (tx.nonce + 1) s₂
    rw [hverify] at h₁
    rw [hcharge] at h₂
    rw [hnonce] at h₃
    exact (h₁.trans _ _ _ h₂).trans _ _ _ h₃
  by_cases hdata : ∃ payload, tx.data = .multiSig payload
  · obtain ⟨payload, hdata⟩ := hdata
    simp only [applyPayload, hdata, onInner, ChainState.setMultisigState_eq] at hpayload
    cases hsource : s₃.inner.findAccount tx.source with
    | error e => simp [hsource] at hpayload
    | ok found =>
      simp only [hsource, EStateM.Result.ok.injEq, true_and] at hpayload
      rw [← hpayload, findAccount_setAccount] at hfind
      split at hfind
      case isTrue hkey =>
        subst hkey
        obtain ⟨account, haccount, hsame⟩ := hbefore tx.source found hsource
        cases hfind
        refine ⟨account, haccount, .inr ⟨rfl, payload, hdata, ?_⟩⟩
        simp only [ChainState.withMultisig, hsame]
      case isFalse hkey =>
        obtain ⟨account, haccount, hsame⟩ := hbefore key account' hfind
        exact ⟨account, haccount, .inl hsame⟩
  · have hspared := applyPayload_senders tx txHash deposits env (fun payload h => hdata ⟨payload, h⟩) s₃
    rw [hpayload] at hspared
    obtain ⟨account, haccount, hsame⟩ := hbefore.trans _ _ _ (SparesSenders.keepsMultisig hspared) key account' hfind
    exact ⟨account, haccount, .inl hsame⟩

theorem applyWithPartialVerify_multisig_failed {e : VerificationError BlockchainError}
    (hrun : applyWithPartialVerify env tx txHash s = .error e s') : KeepsMultisig s s' := by
  have hverify := partialVerify_keepsMultisig env tx s
  rcases Exec.bind_error_iff.mp hrun with hrun | ⟨⟨deposits, changes⟩, s₁, hverified, hrun⟩
  · rw [hrun] at hverify
    exact hverify
  rw [hverified] at hverify
  have hcharge := applyCommitments_keepsMultisig tx changes s₁
  rcases Exec.bind_error_iff.mp hrun with hrun | ⟨⟨⟩, s₂, hcharged, hrun⟩
  · rw [hrun] at hcharge
    exact hverify.trans _ _ _ hcharge
  rw [hcharged] at hcharge
  have hnonce := updateNonce_keepsMultisig tx.source (tx.nonce + 1) s₂
  rcases Exec.bind_error_iff.mp hrun with hrun | ⟨⟨⟩, s₃, hupdated, hrun⟩
  · rw [hrun] at hnonce
    exact (hverify.trans _ _ _ hcharge).trans _ _ _ hnonce
  rw [hupdated] at hnonce
  refine ((hverify.trans _ _ _ hcharge).trans _ _ _ hnonce).trans _ _ _ ?_
  by_cases hdata : ∃ payload, tx.data = .multiSig payload
  · obtain ⟨payload, hdata⟩ := hdata
    simp only [applyPayload, hdata, onInner, ChainState.setMultisigState_eq] at hrun
    cases hsource : s₃.inner.findAccount tx.source with
    | ok found => simp [hsource] at hrun
    | error e =>
      simp only [hsource, EStateM.Result.error.injEq] at hrun
      rw [← hrun.2]
      exact .refl s₃
  · have hspared := applyPayload_senders tx txHash deposits env (fun payload h => hdata ⟨payload, h⟩) s₃
    rw [hrun] at hspared
    exact SparesSenders.keepsMultisig hspared

end Multisig

end Xelis.Transaction
