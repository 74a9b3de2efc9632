import Xelis.State.Credits

/-! A transaction looks at the account of its sender, at the storage and at the contracts: two chain states that share these
verify it alike, and what other senders have in the state stays as it is. -/

namespace Xelis.State

open Lib (FiniteMap Exec)
open Transaction (Deploys)

variable {P : Type} [RistrettoPoint P]

/-- The states find the same contract, or each of them has it as one that is not in the storage. -/
def SameOrNew (foreign : Prop) (found found' : Except BlockchainError (VersionedState × Option Module)) : Prop :=
  found = found' ∨ foreign ∧ (∃ module, found = .ok (.new, module)) ∧ ∃ module, found' = .ok (.new, module)

/-- Both states give the same answers about `key`; the contracts of others may differ in their modules. -/
structure Beside (key : PublicKey) (foreign : Hash → Prop) (c d : ChainState P) : Prop where
  storage : c.storage = d.storage
  topoheight : c.topoheight = d.topoheight
  blockVersion : c.blockVersion = d.blockVersion
  account : c.accounts[key]? = d.accounts[key]?
  contracts : ∀ hash, SameOrNew (foreign hash) (c.findContract hash) (d.findContract hash)
  receivers : Loadable (Known c.storage c.topoheight) c.receiverBalances
  receivers' : Loadable (Known d.storage d.topoheight) d.receiverBalances

/-- What a transaction leaves alone. -/
structure Kept (tx : Transaction) (txHash : Hash) (start c : ChainState P) : Prop where
  storage : c.storage = start.storage
  topoheight : c.topoheight = start.topoheight
  blockVersion : c.blockVersion = start.blockVersion
  others : ∀ key, key ≠ tx.source → c.accounts[key]? = start.accounts[key]?
  contracts : ∀ hash, c.findContract hash = start.findContract hash ∨
    tx.Deploys ∧ hash = txHash ∧ (∃ module, start.findContract hash = .ok (.new, module)) ∧
      ∃ module, c.findContract hash = .ok (.new, some module)

omit [RistrettoPoint P] in
theorem Kept.refl (tx : Transaction) (txHash : Hash) (c : ChainState P) : Kept tx txHash c c :=
  ⟨rfl, rfl, rfl, fun _ _ => rfl, fun _ => .inl rfl⟩

variable {c c' d' d : ChainState P}

theorem Beside.refl (key : PublicKey) (foreign : Hash → Prop)
    (h : Loadable (Known c.storage c.topoheight) c.receiverBalances) : Beside key foreign c c :=
  ⟨rfl, rfl, rfl, rfl, fun _ => .inl rfl, h, h⟩

section Steps

variable {tx : Transaction} {txHash : Hash} {foreign : Hash → Prop} {start c d : ChainState P}

/-- Side by side on one transaction, the first of them still next to where it started. -/
def Along (tx : Transaction) (txHash : Hash) (foreign : Hash → Prop) (start c d : ChainState P) : Prop :=
  Beside tx.source foreign c d ∧ Kept tx txHash start c

theorem Along.findAccount (h : Along tx txHash foreign start c d) : c.findAccount tx.source = d.findAccount tx.source := by
  rw [ChainState.findAccount, ChainState.findAccount, h.1.account, h.1.storage, h.1.topoheight]

theorem Along.findSender (h : Along tx txHash foreign start c d) (asset : Hash) :
    c.findSender tx.source asset tx.reference = d.findSender tx.source asset tx.reference := by
  rw [ChainState.findSender, ChainState.findSender, h.1.account, h.1.storage, h.1.topoheight]

theorem Along.setAccount (h : Along tx txHash foreign start c d) (account : Account P) :
    Along tx txHash foreign start (ChainState.setAccount tx.source account c) (ChainState.setAccount tx.source account d) := by
  refine ⟨⟨h.1.storage, h.1.topoheight, h.1.blockVersion, ?_, h.1.contracts, h.1.receivers, h.1.receivers'⟩,
    h.2.storage, h.2.topoheight, h.2.blockVersion, fun key hne => ?_, h.2.contracts⟩
  · rw [ChainState.accounts_setAccount, ChainState.accounts_setAccount]
  · rw [ChainState.setAccount, FiniteMap.getElem?_insert_of_ne _ _ (Ne.symm hne)]
    exact h.2.others key hne

theorem Along.keepContracts (h : Along tx txHash foreign start c d) {hash : Hash}
    {contract contract' : VersionedState × Option Module} (hc : c.findContract hash = .ok contract)
    (hd : d.findContract hash = .ok contract') :
    Along tx txHash foreign start (ChainState.setContract hash contract c) (ChainState.setContract hash contract' d) := by
  refine ⟨⟨h.1.storage, h.1.topoheight, h.1.blockVersion, h.1.account, fun hash' => ?_, h.1.receivers, h.1.receivers'⟩,
    h.2.storage, h.2.topoheight, h.2.blockVersion, h.2.others, fun hash' => ?_⟩
  · rw [ChainState.findContract_keep hc, ChainState.findContract_keep hd]
    exact h.1.contracts hash'
  · rw [ChainState.findContract_keep hc]
    exact h.2.contracts hash'

/-- The transaction deploys a contract that neither state knows from the storage. -/
theorem Along.deploy (h : Along tx txHash foreign start c d) (hdeploys : tx.Deploys) (module : Module)
    (hnew : ∃ module, c.findContract txHash = .ok (.new, module)) :
    Along tx txHash foreign start (ChainState.setContract txHash (.new, some module) c)
      (ChainState.setContract txHash (.new, some module) d) := by
  refine ⟨⟨h.1.storage, h.1.topoheight, h.1.blockVersion, h.1.account, fun hash => ?_, h.1.receivers, h.1.receivers'⟩,
    h.2.storage, h.2.topoheight, h.2.blockVersion, h.2.others, fun hash => ?_⟩
  · by_cases hhash : txHash = hash
    · subst hhash
      rw [ChainState.findContract_setContract_self, ChainState.findContract_setContract_self]
      exact .inl rfl
    · rw [ChainState.findContract_setContract_of_ne hhash, ChainState.findContract_setContract_of_ne hhash]
      exact h.1.contracts hash
  · by_cases hhash : txHash = hash
    · subst hhash
      rw [ChainState.findContract_setContract_self]
      refine .inr ⟨hdeploys, rfl, ?_, module, rfl⟩
      rcases h.2.contracts txHash with hsame | ⟨-, -, hstart, -⟩
      · rwa [hsame] at hnew
      · exact hstart
    · rw [ChainState.findContract_setContract_of_ne hhash]
      exact h.2.contracts hash

theorem Along.only (h : Along tx txHash foreign start c d) (hc : c.OnlyReceivers c')
    (hd : d.OnlyReceivers d') : Along tx txHash foreign start c' d' := by
  obtain ⟨balances, hload, rfl⟩ := hc
  obtain ⟨balances', hload', rfl⟩ := hd
  exact ⟨⟨h.1.storage, h.1.topoheight, h.1.blockVersion, h.1.account, h.1.contracts, hload, hload'⟩,
    h.2.storage, h.2.topoheight, h.2.blockVersion, h.2.others, h.2.contracts⟩

end Steps

section Operations

variable {tx : Transaction} {txHash : Hash} {foreign : Hash → Prop} {start : ChainState P}

theorem account_agree {α : Type} {x : Exec BlockchainError (ChainState P) α} (answer : Account P → α)
    (next : Account P → Account P)
    (hx : ∀ c : ChainState P, x c = match c.findAccount tx.source with
      | .ok account => .ok (answer account) (ChainState.setAccount tx.source (next account) c)
      | .error e => .error e c) :
    Exec.Agree (Along tx txHash foreign start) x x (Along tx txHash foreign start) := by
  intro c d h
  rw [hx c, hx d, h.findAccount]
  cases d.findAccount tx.source with
  | ok account => exact .ok _ (h.setAccount _)
  | error e => exact .error _ _ _ _

theorem getSenderBalance_beside (asset : Hash) :
    Exec.Agree (Along tx txHash foreign start)
      (ChainState.internalGetSenderVerificationBalance tx.source asset tx.reference : Exec BlockchainError (ChainState P) _)
      (ChainState.internalGetSenderVerificationBalance tx.source asset tx.reference) (Along tx txHash foreign start) := by
  intro c d h
  rw [ChainState.internalGetSenderVerificationBalance_eq, ChainState.internalGetSenderVerificationBalance_eq, h.findSender]
  cases d.findSender tx.source asset tx.reference with
  | ok found => exact .ok _ (h.setAccount _)
  | error e => exact .error _ _ _ _

theorem putSenderBalance_beside (h : Along tx txHash foreign start c d) (asset : Hash) (ct : Ciphertext P) :
    Along tx txHash foreign start (ChainState.putSenderBalance tx.source asset ct c)
      (ChainState.putSenderBalance tx.source asset ct d) := by
  unfold ChainState.putSenderBalance
  rw [h.1.account]
  cases d.accounts[tx.source]? with
  | none => exact h
  | some account =>
    dsimp only
    cases account.assets[asset]? with
    | none => exact h
    | some e => exact h.setAccount _

theorem addSenderOutput_beside (asset : Hash) (output : Ciphertext P) :
    Exec.Agree (Along tx txHash foreign start)
      (ChainState.internalUpdateSenderEchange tx.source asset output : Exec BlockchainError (ChainState P) PUnit)
      (ChainState.internalUpdateSenderEchange tx.source asset output) (Along tx txHash foreign start) := by
  intro c d h
  simp only [ChainState.internalUpdateSenderEchange, Exec.bind_apply, Exec.get_apply, h.1.account]
  cases d.accounts[tx.source]? with
  | none => exact .error _ _ _ _
  | some account =>
    dsimp only
    cases account.assets[asset]? with
    | none => exact .error _ _ _ _
    | some e => exact .ok PUnit.unit (h.setAccount _)

theorem chain_callee (txSize : Transaction → Nat) (contract : Hash) (c : ChainState P) :
    @Transaction.callee P (ChainState P) BlockchainError (ChainState.verificationState txSize) contract c =
      match c.findContract contract with
      | .ok (state, some module) => .ok module (ChainState.setContract contract (state, some module) c)
      | .ok (state, none) => .error .contractNotFound (ChainState.setContract contract (state, none) c)
      | .error e => .error (.state e) c := by
  let _ := ChainState.verificationState (P := P) txSize
  have hload := ChainState.loadVersionedContract_eq contract c
  cases hfind : c.findContract contract with
  | error e =>
    rw [hfind] at hload
    exact Transaction.callee_error hload
  | ok found =>
    rw [hfind] at hload
    obtain ⟨state, module⟩ := found
    cases module with
    | none => exact Transaction.callee_absent hload
    | some module =>
      refine Transaction.callee_ok hload ?_
      show ChainState.internalGetContractModule contract _ = _
      rw [ChainState.internalGetContractModule, Exec.bind_apply, Exec.get_apply]
      dsimp only [ChainState.setContract]
      rw [FiniteMap.getElem?_insert_self']
      rfl

theorem callee_beside (txSize : Transaction → Nat) {contract : Hash} (hown : ¬foreign contract) :
    Exec.Agree (Along tx txHash foreign start)
      (@Transaction.callee P (ChainState P) BlockchainError (ChainState.verificationState txSize) contract)
      (@Transaction.callee P (ChainState P) BlockchainError (ChainState.verificationState txSize) contract)
      (Along tx txHash foreign start) := by
  intro c d h
  rw [chain_callee, chain_callee]
  have hsame : c.findContract contract = d.findContract contract :=
    (h.1.contracts contract).resolve_right fun hforeign => hown hforeign.1
  rw [hsame]
  cases hfind : d.findContract contract with
  | error e => exact .error _ _ _ _
  | ok found =>
    obtain ⟨state, module⟩ := found
    cases module with
    | none => exact .error _ _ _ _
    | some module => exact .ok module (h.keepContracts (hsame.trans hfind) hfind)

theorem setContractModule_beside (hdeploys : tx.Deploys) (module : Module) :
    Exec.Agree (Along tx txHash foreign start)
      (ChainState.setContractModule txHash module : Exec BlockchainError (ChainState P) PUnit)
      (ChainState.setContractModule txHash module) (Along tx txHash foreign start) := by
  intro c d h
  rw [ChainState.setContractModule_eq, ChainState.setContractModule_eq]
  rcases h.1.contracts txHash with hsame | ⟨-, ⟨held, hc⟩, held', hd⟩
  · rw [hsame]
    cases hfind : d.findContract txHash with
    | error e => exact .error _ _ _ _
    | ok found =>
      obtain ⟨state, held⟩ := found
      cases state with
      | new => exact .ok PUnit.unit (h.deploy hdeploys module ⟨held, hsame.trans hfind⟩)
      | fetchedAt topo => exact .error _ _ _ _
      | updated topo => exact .error _ _ _ _
  · rw [hc, hd]
    exact .ok PUnit.unit (h.deploy hdeploys module ⟨held, hc⟩)

theorem credit_beside (txSize : Transaction → Nat) (key : PublicKey) (asset : Hash) (ct : Ciphertext P) :
    Exec.Agree (Along tx txHash foreign start)
      (@Transaction.credit P (ChainState P) BlockchainError _ (ChainState.verificationState txSize) key asset ct)
      (@Transaction.credit P (ChainState P) BlockchainError _ (ChainState.verificationState txSize) key asset ct)
      (Along tx txHash foreign start) := by
  refine credit_agree (ChainState.verificationState txSize) (ChainState.verificationState txSize) start.storage
    start.topoheight ChainState.OnlyReceivers ChainState.OnlyReceivers ?_ ?_ ?_ ct
  · intro c d h
    have hcredits := c.credits h.1.receivers key asset
    rwa [h.2.storage, h.2.topoheight] at hcredits
  · intro c d h
    have hcredits := d.credits h.1.receivers' key asset
    rwa [← h.1.storage, ← h.1.topoheight, h.2.storage, h.2.topoheight] at hcredits
  · intro c d c' d' h hc hd
    exact h.only hc hd

theorem preVerifyTx_beside (txSize : Transaction → Nat) :
    Exec.Agree (Along tx txHash foreign start)
      ((ChainState.verificationState txSize).preVerifyTx tx : Exec BlockchainError (ChainState P) PUnit)
      ((ChainState.verificationState txSize).preVerifyTx tx : Exec BlockchainError (ChainState P) PUnit)
      (Along tx txHash foreign start) := by
  intro c d h
  show Exec.Alike _ (Exec.ofExcept (preVerifyTx txSize c.storage tx c.topoheight c.blockVersion) c)
    (Exec.ofExcept (preVerifyTx txSize d.storage tx d.topoheight d.blockVersion) d)
  rw [h.1.storage, h.1.topoheight, h.1.blockVersion]
  exact Exec.Agree.ofExcept (fun _ => Iff.rfl) c d h

/-- A transaction that calls none of the contracts of others gets the same verdict in both states. -/
theorem beside_agreement (txSize : Transaction → Nat)
    (hcall : ∀ payload, tx.data = .invokeContract payload → ¬foreign payload.contract) :
    @Transaction.Agreement P (ChainState P) (ChainState P) BlockchainError BlockchainError _
      (ChainState.verificationState txSize) (ChainState.verificationState txSize) (Along tx txHash foreign start)
      (Along tx txHash foreign start) (fun _ => Along tx txHash foreign start) (fun _ _ => Along tx txHash foreign start)
      (Along tx txHash foreign start) tx txHash :=
  let _ := ChainState.verificationState (P := P) txSize
  { preVerifyTx := preVerifyTx_beside txSize
    getAccountNonce := account_agree (fun account => account.nonce.nonce) id fun c => by
      show ChainState.internalGetAccountNonce tx.source c = _
      rw [ChainState.internalGetAccountNonce, Exec.bind_apply, ChainState.getInternalAccount_eq]
      cases c.findAccount tx.source <;> rfl
    updateAccountNonce := account_agree (fun _ => PUnit.unit) _ (ChainState.internalUpdateAccountNonce_eq tx.source _)
    getMultisigState := account_agree (fun account => account.multisig.bind Prod.snd) id fun c => by
      show ChainState.getMultisigState tx.source c = _
      rw [ChainState.getMultisigState, Exec.bind_apply, ChainState.getInternalAccount_eq]
      cases c.findAccount tx.source <;> rfl
    callee := fun payload hdata => callee_beside txSize (hcall payload hdata)
    getSenderBalance := fun _ commitment _ => getSenderBalance_beside commitment.asset
    putSenderBalance := fun _ asset ct _ _ h => putSenderBalance_beside h asset ct
    addSenderOutput := fun _ asset ct => addSenderOutput_beside asset ct
    credit := fun _ _ transfer _ ct => credit_beside txSize transfer.destination transfer.asset ct
    setMultisigState := fun payload _ => account_agree (fun _ => PUnit.unit) _ (ChainState.setMultisigState_eq tx.source payload)
    setContractModule := fun payload hdata => setContractModule_beside ⟨payload, hdata⟩ payload.module
    done := fun _ _ _ _ h => h }

end Operations

theorem Beside.preVerify {e : Transaction × Hash} {foreign : Hash → Prop} (h : Beside e.1.source foreign c d)
    (hcall : ∀ payload, e.1.data = .invokeContract payload → ¬foreign payload.contract) (proofs : Proofs P) :
    Exec.Alike (Along e.1 e.2 foreign c) (c.preVerify proofs e) (d.preVerify proofs e) := by
  let _ := ChainState.verificationState (P := P) proofs.txSize
  exact (beside_agreement proofs.txSize hcall).preVerify proofs c d ⟨h, Kept.refl _ _ _⟩

section Accepted

variable {e : Transaction × Hash} {c c' : ChainState P} {proofs : Proofs P}
  {prepared : Transcript P × List (P × CompressedPoint)}

/-- A state next to itself, as far as the contracts are those that the transaction does not call. -/
theorem along_self (hload : Loadable (Known c.storage c.topoheight) c.receiverBalances) :
    Along e.1 e.2 (fun _ => False) c c c := ⟨Beside.refl _ _ hload, Kept.refl _ _ _⟩

theorem ChainState.preVerify_kept (hload : Loadable (Known c.storage c.topoheight) c.receiverBalances)
    (h : c.preVerify proofs e = .ok prepared c') :
    Kept e.1 e.2 c c' ∧ Loadable (Known c'.storage c'.topoheight) c'.receiverBalances := by
  let _ := ChainState.verificationState (P := P) proofs.txSize
  obtain ⟨d, -, hright⟩ := ((beside_agreement proofs.txSize fun _ _ => id).preVerify proofs).of_ok (along_self hload) h
  exact ⟨hright.2, hright.1.receivers⟩

theorem ChainState.preVerify_parts (hload : Loadable (Known c.storage c.topoheight) c.receiverBalances)
    (h : c.preVerify proofs e = .ok prepared c') :
    letI := ChainState.verificationState (P := P) proofs.txSize
    (∃ c₁ c₂ : ChainState P, ∃ formats, Kept e.1 e.2 c c₁ ∧ e.1.verifyFormat proofs c₁ = .ok formats c₂) ∧
      ∃ c₁ c₂ : ChainState P, ∃ source transfers deposits transcript values, Kept e.1 e.2 c c₁ ∧
        e.1.verifyPayload proofs e.2 source transfers deposits transcript c₁ = .ok values c₂ := by
  let _ := ChainState.verificationState (P := P) proofs.txSize
  have hself : Along e.1 e.2 (fun _ => False) c c c := along_self hload
  have hagree : Transaction.Agreement (Along e.1 e.2 (fun _ => False) c) _ _ _ _ e.1 e.2 :=
    beside_agreement proofs.txSize fun _ _ => id
  have h : e.1.preVerify proofs e.2 c = .ok prepared c' := h
  unfold Transaction.preVerify at h
  obtain ⟨_, c₁, h₁, h⟩ := Exec.bind_ok_iff.mp h
  obtain ⟨-, rfl⟩ := Transaction.require_ok_iff.mp h₁
  obtain ⟨_, c₂, h₂, h⟩ := Exec.bind_ok_iff.mp h
  obtain ⟨d₂, -, hs₂⟩ := (Transaction.onState_agree hagree.preVerifyTx).of_ok hself h₂
  obtain ⟨nonce, c₃, h₃, h⟩ := Exec.bind_ok_iff.mp h
  obtain ⟨d₃, -, hs₃⟩ := (Transaction.onState_agree hagree.getAccountNonce).of_ok hs₂ h₃
  obtain ⟨_, c₄, h₄, h⟩ := Exec.bind_ok_iff.mp h
  obtain ⟨-, rfl⟩ := Transaction.require_ok_iff.mp h₄
  obtain ⟨_, c₅, h₅, h⟩ := Exec.bind_ok_iff.mp h
  obtain ⟨d₅, -, hs₅⟩ := (Transaction.onState_agree hagree.updateAccountNonce).of_ok hs₃ h₅
  obtain ⟨_, c₆, h₆, h⟩ := Exec.bind_ok_iff.mp h
  obtain ⟨-, rfl⟩ := Transaction.require_ok_iff.mp h₆
  obtain ⟨formats, c₇, h₇, h⟩ := Exec.bind_ok_iff.mp h
  obtain ⟨d₇, -, hs₇⟩ := (hagree.verifyFormat proofs).of_ok hs₅ h₇
  refine ⟨⟨_, c₇, formats, hs₅.2, h₇⟩, ?_⟩
  obtain ⟨commitments, c₈, h₈, h⟩ := Exec.bind_ok_iff.mp h
  obtain ⟨-, rfl⟩ := Transaction.orProof_ok_iff.mp h₈
  obtain ⟨source, c₉, h₉, h⟩ := Exec.bind_ok_iff.mp h
  obtain ⟨-, rfl⟩ := Transaction.orProof_ok_iff.mp h₉
  obtain ⟨_, c₁₀, h₁₀, h⟩ := Exec.bind_ok_iff.mp h
  obtain ⟨d₁₀, -, hs₁₀⟩ := (hagree.verifySignatures proofs source).of_ok hs₇ h₁₀
  obtain ⟨transcript, c₁₁, h₁₁, h⟩ := Exec.bind_ok_iff.mp h
  obtain ⟨d₁₁, -, hs₁₁⟩ := (Exec.Agree.foldlM (fun transcript commitment hmem =>
    hagree.verifyCommitment proofs source formats.1 formats.2 transcript [] commitment (List.of_mem_zip hmem).1) []).of_ok
    hs₁₀ h₁₁
  obtain ⟨values, c₁₂, h₁₂, -⟩ := Exec.bind_ok_iff.mp h
  exact ⟨c₁₁, c₁₂, source, formats.1, formats.2, transcript, values, hs₁₁.2, h₁₂⟩

/-- A contract that is called is there. -/
theorem ChainState.preVerify_invoked (hload : Loadable (Known c.storage c.topoheight) c.receiverBalances)
    (h : c.preVerify proofs e = .ok prepared c') {payload : InvokeContractPayload} (hdata : e.1.data = .invokeContract payload) :
    ∃ state module, c.findContract payload.contract = .ok (state, some module) := by
  let _ := ChainState.verificationState (P := P) proofs.txSize
  obtain ⟨⟨c₁, c₂, formats, hkept, hformat⟩, -⟩ := ChainState.preVerify_parts hload h
  unfold Transaction.verifyFormat at hformat
  rw [hdata] at hformat
  obtain ⟨deposits, c₃, hdeposits, hformat⟩ := Exec.bind_ok_iff.mp hformat
  rw [← Transaction.verifyInvokeContract_state hdeposits] at hkept
  obtain ⟨available, c₄, hload, hformat⟩ := Exec.bind_ok_iff.mp hformat
  obtain ⟨_, c₅, havailable, -⟩ := Exec.bind_ok_iff.mp hformat
  obtain ⟨rfl, -⟩ := Transaction.require_ok_iff.mp havailable
  have hfound := Transaction.onState_ok_iff.mp hload
  change ChainState.loadVersionedContract payload.contract c₃ = _ at hfound
  rw [ChainState.loadVersionedContract_eq] at hfound
  have hsame : c₃.findContract payload.contract = c.findContract payload.contract := by
    refine (hkept.contracts payload.contract).resolve_right ?_
    rintro ⟨⟨deploy, hdeploy⟩, -⟩
    rw [hdata] at hdeploy
    cases hdeploy
  rw [hsame] at hfound
  cases hfind : c.findContract payload.contract with
  | error error =>
    rw [hfind] at hfound
    cases hfound
  | ok found =>
    obtain ⟨state, module⟩ := found
    cases module with
    | some module => exact ⟨state, module, rfl⟩
    | none =>
      rw [hfind] at hfound
      cases hfound

theorem ChainState.preVerify_deployed (hload : Loadable (Known c.storage c.topoheight) c.receiverBalances)
    (h : c.preVerify proofs e = .ok prepared c') (hdeploys : e.1.Deploys) :
    ∃ module, c.findContract e.2 = .ok (.new, module) := by
  let _ := ChainState.verificationState (P := P) proofs.txSize
  obtain ⟨payload, hdata⟩ := id hdeploys
  obtain ⟨-, c₁, c₂, source, transfers, deposits, transcript, values, hkept, hpayload⟩ := ChainState.preVerify_parts hload h
  have hnew : ∃ module, c₁.findContract e.2 = .ok (.new, module) := by
    unfold Transaction.verifyPayload at hpayload
    rw [hdata] at hpayload
    obtain ⟨_, c₃, h₃, hpayload⟩ := Exec.bind_ok_iff.mp hpayload
    obtain ⟨-, rfl⟩ := Transaction.require_ok_iff.mp h₃
    obtain ⟨c₅, hset⟩ : ∃ c₅, Transaction.onState (BlockchainVerificationState.setContractModule e.2 payload.module) c₁ =
        (.ok PUnit.unit c₅ : EStateM.Result (VerificationError BlockchainError) _ _) := by
      obtain ⟨module, invoke⟩ := payload
      cases invoke with
      | none =>
        obtain ⟨commitments, c₄, hnone, hpayload⟩ := Exec.bind_ok_iff.mp hpayload
        cases hnone
        obtain ⟨_, c₅, hset, -⟩ := Exec.bind_ok_iff.mp hpayload
        exact ⟨c₅, hset⟩
      | some invoke =>
        obtain ⟨commitments, c₄, hdeposits, hpayload⟩ := Exec.bind_ok_iff.mp hpayload
        obtain ⟨_, c₅, hset, -⟩ := Exec.bind_ok_iff.mp hpayload
        rw [Transaction.verifyContractDeposits_state hdeposits] at hset
        exact ⟨c₅, hset⟩
    have hset := Transaction.onState_ok_iff.mp hset
    change ChainState.setContractModule e.2 payload.module c₁ = _ at hset
    rw [ChainState.setContractModule_eq] at hset
    cases hfind : c₁.findContract e.2 with
    | error error =>
      rw [hfind] at hset
      cases hset
    | ok found =>
      obtain ⟨state, module⟩ := found
      cases state with
      | new => exact ⟨module, rfl⟩
      | fetchedAt topo =>
        rw [hfind] at hset
        cases hset
      | updated topo =>
        rw [hfind] at hset
        cases hset
  rcases hkept.contracts e.2 with hsame | ⟨-, -, hstart, -⟩
  · rwa [hsame] at hnew
  · exact hstart

end Accepted

end Xelis.State
