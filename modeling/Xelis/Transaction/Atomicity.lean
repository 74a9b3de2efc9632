import Xelis.State.Balances
import Xelis.State.Nonces
import Xelis.Transaction.Coverage

namespace Xelis.Transaction

open Lib (FiniteMap Exec History)
open State State.ApplicableChainState

variable {P : Type} [RistrettoPoint P]

/-- What writing the changes of a block stores. -/
def persisted (env : Env P) (s : ApplicableChainState P) : Option (Storage P) :=
  match applyChanges env s with
  | .ok _ s' => some s'.inner.storage
  | .error _ _ => none

def withSender (key : PublicKey) (account : Account P) (asset : Hash) (e : Echange P) (s : ApplicableChainState P) :
    ApplicableChainState P :=
  { s with inner := ChainState.setAccount key (ChainState.setEchange account asset e) s.inner }

section Checks

variable (env : Env P) (tx : Transaction) (owner : P) (transfers : List (DecompressedTransferCt P))
  (deposits : FiniteMap Hash (DecompressedDepositCt P)) (s : ApplicableChainState P)

def transcriptWith (transcript : Transcript P) (balance : Ciphertext P) : Transcript P :=
  if tx.version = .v0 then transcript else transcript ++ [balance]

/-- The commitments fail, and every balance that is looked at until they do is loaded already. -/
def failsOnLoaded : Transcript P → List (SourceCommitment × P) → Bool
  | transcript, [] => !env.verifySigma tx transcript
  | transcript, c :: cs =>
    match tx.getSenderOutputCt c.1.asset transfers deposits, s.inner.findSender tx.source c.1.asset tx.reference with
    | some output, .ok (_, e) =>
      if (echangeOf s tx.source c.1.asset).isNone then false
      else match env.preVerifyEqProof tx (transcriptWith tx transcript e.getBalance.1) c.1 owner
          (e.getBalance.1.sub output) c.2 with
        | .error _ => true
        | .ok _ => failsOnLoaded (transcriptWith tx transcript e.getBalance.1) cs
    | _, _ => true

theorem checkCommitment_eq (acc : Transcript P × List (Ciphertext P × Ciphertext P × Hash)) (c : SourceCommitment × P) :
    checkCommitment env tx owner transfers deposits acc c s =
      match tx.getSenderOutputCt c.1.asset transfers deposits with
      | none => .error (.proof .decompression) s
      | some output => match s.inner.findSender tx.source c.1.asset tx.reference with
        | .error e => .error (.state e) s
        | .ok (account, e) =>
          match env.preVerifyEqProof tx (transcriptWith tx acc.1 e.getBalance.1) c.1 owner (e.getBalance.1.sub output) c.2 with
          | .error error => .error (.proof error) (withSender tx.source account c.1.asset e.getBalance.2 s)
          | .ok _ => .ok (transcriptWith tx acc.1 e.getBalance.1,
                acc.2 ++ [(e.getBalance.1.sub output, output, c.1.asset)])
              (withSender tx.source account c.1.asset e.getBalance.2 s) := by
  unfold checkCommitment
  rw [Exec.bind_apply]
  cases tx.getSenderOutputCt c.1.asset transfers deposits with
  | none => rfl
  | some output =>
    show (onInner (ChainState.internalGetSenderVerificationBalance tx.source c.1.asset tx.reference) >>= _) s = _
    rw [Exec.bind_apply, onInner, ChainState.internalGetSenderVerificationBalance_eq]
    cases s.inner.findSender tx.source c.1.asset tx.reference with
    | error e => rfl
    | ok found =>
      dsimp only
      rw [Exec.bind_apply]
      unfold transcriptWith
      cases env.preVerifyEqProof tx (if tx.version = .v0 then acc.1 else acc.1 ++ [found.2.getBalance.1]) c.1 owner
          (found.2.getBalance.1.sub output) c.2 with
      | error error => rfl
      | ok _ => rfl

end Checks

section Loading

variable {env : Env P} {tx : Transaction} {s s' : ApplicableChainState P}

/-- The sender got a balance that it had not in the block. -/
def LoadsNew (tx : Transaction) (s s' : ApplicableChainState P) : Prop :=
  ∃ asset, echangeOf s tx.source asset = none ∧ echangeOf s' tx.source asset ≠ none

def Selected (s : ApplicableChainState P) : Prop :=
  ∀ (key : PublicKey) (asset : Hash) e, echangeOf s key asset = some e → e.getBalance.2 = e

variable {asset txHash : Hash} {account : Account P}

theorem findSender_of_loaded {e e' : Echange P}
    (hfind : s.inner.findSender tx.source asset tx.reference = .ok (account, e))
    (hloaded : echangeOf s tx.source asset = some e') :
    s.inner.accounts[tx.source]? = some account ∧ account.assets[asset]? = some e ∧ e = e' := by
  unfold echangeOf at hloaded
  obtain ⟨account', haccount, hasset⟩ := Option.bind_eq_some_iff.mp hloaded
  simp only [ChainState.findSender, haccount, hasset, Except.ok.injEq, Prod.mk.injEq] at hfind
  obtain ⟨rfl, rfl⟩ := hfind
  exact ⟨haccount, hasset, rfl⟩

theorem withSender_of_loaded (hselected : Selected s) {e : Echange P}
    (hfind : s.inner.findSender tx.source asset tx.reference = .ok (account, e))
    (hloaded : echangeOf s tx.source asset ≠ none) : withSender tx.source account asset e.getBalance.2 s = s := by
  obtain ⟨e', he'⟩ := Option.ne_none_iff_exists'.mp hloaded
  obtain ⟨haccount, hasset, rfl⟩ := findSender_of_loaded hfind he'
  rw [hselected _ _ _ he']
  have hechange : ChainState.setEchange account asset e = account := by
    unfold ChainState.setEchange
    rw [FiniteMap.insert_eq_self hasset]
  unfold withSender
  rw [hechange, ChainState.setAccount, FiniteMap.insert_eq_self haccount]

omit [RistrettoPoint P] in
theorem echangeOf_withSender (account : Account P) (asset : Hash) (e : Echange P) :
    echangeOf (withSender tx.source account asset e s) tx.source asset = some e := by
  unfold echangeOf withSender
  rw [ChainState.accounts_setAccount, Option.bind_some, ChainState.assets_setEchange]

theorem Touch.loaded (h : Touch tx s s') (hloaded : echangeOf s tx.source asset ≠ none) :
    echangeOf s' tx.source asset ≠ none := by
  have hsender : ∀ (account : Account P) (asset' : Hash) (e : Echange P), s.inner.findAccount tx.source = .ok account →
      echangeOf (withSender tx.source account asset' e s) tx.source asset ≠ none := by
    intro account asset' e hfind
    obtain ⟨e', he'⟩ := Option.ne_none_iff_exists'.mp hloaded
    obtain ⟨account', haccount, hasset⟩ := Option.bind_eq_some_iff.mp he'
    simp only [ChainState.findAccount, haccount, Except.ok.injEq] at hfind
    subst hfind
    by_cases ha : asset' = asset
    · subst ha
      rw [echangeOf_withSender]
      exact Option.some_ne_none _
    · unfold echangeOf withSender
      rw [ChainState.accounts_setAccount, Option.bind_some, ChainState.setEchange,
        FiniteMap.getElem?_insert_of_ne _ _ ha, hasset]
      exact Option.some_ne_none _
  cases h with
  | credit key asset' ct =>
    unfold ChainState.putReceiverBalance
    split
    · exact hloaded
    · exact hloaded
  | sender asset' account e hfind => exact hsender account asset' _ (ChainState.findSender_ok hfind).1
  | spend asset' account e left output hfind => exact hsender account asset' _ (ChainState.findSender_ok hfind).1
  | account account account' hfind hassets hprevious hnonce =>
    obtain ⟨e', he'⟩ := Option.ne_none_iff_exists'.mp hloaded
    obtain ⟨found, haccount, hasset⟩ := Option.bind_eq_some_iff.mp he'
    simp only [ChainState.findAccount, haccount, Except.ok.injEq] at hfind
    subst hfind
    unfold echangeOf
    rw [ChainState.accounts_setAccount, Option.bind_some, hassets, hasset]
    exact Option.some_ne_none _
  | _ => exact hloaded

theorem Touches.loaded (h : Touches tx s s') (hloaded : echangeOf s tx.source asset ≠ none) :
    echangeOf s' tx.source asset ≠ none := by
  induction h with
  | refl => exact hloaded
  | tail _ hstep ih => exact hstep.loaded ih

/-- The nonce of the sender is the one after the transaction. -/
def Bumped (tx : Transaction) (s : ApplicableChainState P) : Prop :=
  ∃ account, s.inner.accounts[tx.source]? = some account ∧ account.nonce.nonce = tx.nonce + 1

theorem Touch.bumped (h : Touch tx s s') (hbumped : Bumped tx s) : Bumped tx s' := by
  obtain ⟨account, haccount, hnonce⟩ := hbumped
  have hsame : ∀ account', s.inner.findAccount tx.source = .ok account' → account' = account := by
    intro account' hfind
    simp only [ChainState.findAccount, haccount, Except.ok.injEq] at hfind
    exact hfind.symm
  cases h with
  | credit key asset' ct =>
    unfold ChainState.putReceiverBalance
    split
    · exact ⟨account, haccount, hnonce⟩
    · exact ⟨account, haccount, hnonce⟩
  | sender asset account' e hfind =>
    obtain rfl := hsame account' (ChainState.findSender_ok hfind).1
    exact ⟨_, ChainState.accounts_setAccount _ _ _, hnonce⟩
  | spend asset account' e left output hfind =>
    obtain rfl := hsame account' (ChainState.findSender_ok hfind).1
    exact ⟨_, ChainState.accounts_setAccount _ _ _, hnonce⟩
  | account account' account'' hfind hassets hprevious hnonce' =>
    obtain rfl := hsame account' hfind
    refine ⟨_, ChainState.accounts_setAccount _ _ _, ?_⟩
    rcases hnonce' with hkept | hnew
    · exact hkept.trans hnonce
    · exact hnew
  | _ => exact ⟨account, haccount, hnonce⟩

theorem Touches.bumped (h : Touches tx s s') (hbumped : Bumped tx s) : Bumped tx s' := by
  induction h with
  | refl => exact hbumped
  | tail _ hstep ih => exact hstep.bumped ih

theorem Footprint.bumped (h : Footprint env tx txHash s s') (hbumped : Bumped tx s) : Bumped tx s' := by
  rcases h with htouches | ⟨s₁, s₂, h₁, ⟨start, module, invoke, parameters, maxGas, usedGas, final, -, -, rfl⟩, h₂⟩
  · exact htouches.bumped hbumped
  · exact h₂.bumped (h₁.bumped hbumped)

end Loading

variable {s' s'' s₁ s₂ : ApplicableChainState P}

section Stops

variable {env : Env P} {tx : Transaction} {s : ApplicableChainState P}

theorem LoadsNew.touches (h : LoadsNew tx s s') (htouches : Touches tx s' s'') : LoadsNew tx s s'' := by
  obtain ⟨asset, hnone, hloaded⟩ := h
  exact ⟨asset, hnone, htouches.loaded hloaded⟩

theorem checkCommitments_stop (env : Env P) (tx : Transaction) (owner : P) (transfers : List (DecompressedTransferCt P))
    (deposits : FiniteMap Hash (DecompressedDepositCt P)) (hselected : Selected s) (commitments : List (SourceCommitment × P))
    (acc : Transcript P × List (Ciphertext P × Ciphertext P × Hash)) :
    match commitments.foldlM (checkCommitment env tx owner transfers deposits) acc s with
    | .error _ s' => (failsOnLoaded env tx owner transfers deposits s acc.1 commitments = true ∧ s' = s) ∨
        (failsOnLoaded env tx owner transfers deposits s acc.1 commitments = false ∧ LoadsNew tx s s')
    | .ok acc' s' => (failsOnLoaded env tx owner transfers deposits s acc.1 commitments = !env.verifySigma tx acc'.1 ∧ s' = s) ∨
        (failsOnLoaded env tx owner transfers deposits s acc.1 commitments = false ∧ LoadsNew tx s s') := by
  induction commitments generalizing acc with
  | nil => exact .inl ⟨rfl, rfl⟩
  | cons c cs ih =>
    have hrest : ∀ acc₁ s₁, Touches tx s₁
        (Exec.stateOf (cs.foldlM (checkCommitment env tx owner transfers deposits) acc₁ s₁)) := by
      intro acc₁ s₁
      exact Exec.Moves.foldlM (fun _ => .refl) (fun _ _ _ hab hbc => hab.trans hbc) _
        (fun acc c _ => checkCommitment_touches env _ _ _ acc c) _ s₁
    rw [List.foldlM_cons, Exec.bind_apply, checkCommitment_eq]
    cases hout : tx.getSenderOutputCt c.1.asset transfers deposits with
    | none => exact .inl ⟨by simp only [failsOnLoaded, hout], rfl⟩
    | some output =>
      cases hfind : s.inner.findSender tx.source c.1.asset tx.reference with
      | error e => exact .inl ⟨by simp only [failsOnLoaded, hout, hfind], rfl⟩
      | ok found =>
        obtain ⟨account, e⟩ := found
        dsimp only
        by_cases hloaded : echangeOf s tx.source c.1.asset = none
        · -- the balance is loaded now, and stays
          have hfails : failsOnLoaded env tx owner transfers deposits s acc.1 (c :: cs) = false := by
            simp only [failsOnLoaded, hout, hfind, hloaded, Option.isNone_none, if_true]
          have hnew : LoadsNew tx s (withSender tx.source account c.1.asset e.getBalance.2 s) := by
            refine ⟨c.1.asset, hloaded, ?_⟩
            rw [echangeOf_withSender]
            exact Option.some_ne_none _
          cases env.preVerifyEqProof tx (transcriptWith tx acc.1 e.getBalance.1) c.1 owner (e.getBalance.1.sub output) c.2 with
          | error error => exact .inr ⟨hfails, hnew⟩
          | ok _ =>
            dsimp only
            have htouches := hrest (transcriptWith tx acc.1 e.getBalance.1,
              acc.2 ++ [(e.getBalance.1.sub output, output, c.1.asset)])
              (withSender tx.source account c.1.asset e.getBalance.2 s)
            have hafter := hnew.touches htouches
            split
            · rename_i hfold
              rw [hfold] at hafter
              exact .inr ⟨hfails, hafter⟩
            · rename_i hfold
              rw [hfold] at hafter
              exact .inr ⟨hfails, hafter⟩
        · -- nothing changes, and the rest goes on from the same state
          rw [withSender_of_loaded hselected hfind hloaded]
          have hfails : failsOnLoaded env tx owner transfers deposits s acc.1 (c :: cs) =
              match env.preVerifyEqProof tx (transcriptWith tx acc.1 e.getBalance.1) c.1 owner
                (e.getBalance.1.sub output) c.2 with
              | .error _ => true
              | .ok _ => failsOnLoaded env tx owner transfers deposits s (transcriptWith tx acc.1 e.getBalance.1) cs := by
            simp only [failsOnLoaded, hout, hfind, Option.isNone_iff_eq_none, hloaded, if_false]
          rw [hfails]
          cases env.preVerifyEqProof tx (transcriptWith tx acc.1 e.getBalance.1) c.1 owner (e.getBalance.1.sub output) c.2 with
          | error error => exact .inl ⟨rfl, rfl⟩
          | ok _ => exact ih _

/-- The checks of the transaction fail, and every balance that is looked at until they do is loaded already. -/
def checksFail (env : Env P) (tx : Transaction) (s : ApplicableChainState P) : Bool :=
  match tx.decompressPayload (P := P),
    tx.sourceCommitments.mapM (fun c => RistrettoPoint.decompress (P := P) c.commitment),
    RistrettoPoint.decompress (P := P) tx.source with
  | some (transfers, deposits), some newCommitments, some owner =>
    failsOnLoaded env tx owner transfers deposits s [] (tx.sourceCommitments.zip newCommitments)
  | _, _, _ => true

theorem partialVerify_stop (env : Env P) (tx : Transaction) (hselected : Selected s) :
    match partialVerify env tx s with
    | .error _ s' => (checksFail env tx s = true ∧ s' = s) ∨ (checksFail env tx s = false ∧ LoadsNew tx s s')
    | .ok _ s' => checksFail env tx s = false ∧ (s' = s ∨ LoadsNew tx s s') := by
  unfold partialVerify checksFail
  rw [Exec.bind_apply]
  cases tx.decompressPayload (P := P) with
  | none => exact .inl ⟨rfl, rfl⟩
  | some payload =>
    obtain ⟨transfers, deposits⟩ := payload
    dsimp only [orProof, Exec.pure_apply]
    rw [Exec.bind_apply]
    cases tx.sourceCommitments.mapM (fun c => RistrettoPoint.decompress (P := P) c.commitment) with
    | none => exact .inl ⟨rfl, rfl⟩
    | some newCommitments =>
      dsimp only [Exec.pure_apply]
      rw [Exec.bind_apply]
      cases RistrettoPoint.decompress (P := P) tx.source with
      | none => exact .inl ⟨rfl, rfl⟩
      | some owner =>
        dsimp only [Exec.pure_apply]
        rw [Exec.bind_apply]
        have hstop := checkCommitments_stop env tx owner transfers deposits hselected
          (tx.sourceCommitments.zip newCommitments) ([], [])
        cases hfold : (tx.sourceCommitments.zip newCommitments).foldlM
            (checkCommitment env tx owner transfers deposits) ([], []) s with
        | error e s' =>
          rw [hfold] at hstop
          exact hstop
        | ok verified s' =>
          obtain ⟨transcript, changes⟩ := verified
          rw [hfold] at hstop
          dsimp only at hstop ⊢
          rw [Exec.bind_apply]
          unfold require
          cases hsigma : env.verifySigma tx transcript with
          | false =>
            rw [hsigma] at hstop
            exact hstop
          | true =>
            rw [hsigma] at hstop
            rcases hstop with ⟨hfails, rfl⟩ | ⟨hfails, hnew⟩
            · exact ⟨hfails, .inl rfl⟩
            · exact ⟨hfails, .inr hnew⟩

end Stops

section Atomicity

variable {env : Env P} {tx : Transaction} {txHash : Hash} {s s' : ApplicableChainState P}

/-- The transaction fails before it changes anything: its checks fail on balances that are loaded already, or it has no
commitment and its sender has no account. -/
def failsUntouched (env : Env P) (tx : Transaction) (s : ApplicableChainState P) : Bool :=
  checksFail env tx s || (tx.sourceCommitments.isEmpty && !(s.inner.findAccount tx.source).isOk)

/-- What holds of the state of a block in which the transaction is executed: nothing of the block is stored yet, what
was received is marked so, and the nonce of the sender is not after the one of the transaction. -/
structure InBlock (tx : Transaction) (s : ApplicableChainState P) : Prop where
  nonces : s.inner.storage.nonces.Below s.inner.topoheight
  balances : s.inner.storage.balances.Below s.inner.topoheight
  received : ∀ key asset version, entryOf s key asset = some version → version.balanceType = .input
  selected : Selected s
  nonce : ∀ account, s.inner.accounts[tx.source]? = some account → account.nonce.nonce ≤ tx.nonce

theorem partialVerify_nil (env : Env P) (hnil : tx.sourceCommitments = []) (s : ApplicableChainState P) :
    Exec.stateOf (partialVerify env tx s) = s := by
  unfold partialVerify
  rw [hnil, Exec.bind_apply]
  cases tx.decompressPayload (P := P) with
  | none => rfl
  | some payload =>
    cases hsource : RistrettoPoint.decompress (P := P) tx.source with
    | none => rfl
    | some owner =>
      show Exec.stateOf ((require (env.verifySigma tx []) _ >>= _) s) = s
      cases env.verifySigma tx [] with
      | false => rfl
      | true => rfl

variable {decompressed : FiniteMap Hash (DecompressedDepositCt P)} {changes : List (Ciphertext P × Ciphertext P × Hash)}

theorem applyCommitments_nil
    (hverify : partialVerify env tx s = .ok (decompressed, changes) s₁) (hnil : tx.sourceCommitments = []) :
    s₁ = s ∧ changes = [] := by
  obtain ⟨transfers, newCommitments, owner, transcript, -, -, hcheck⟩ := partialVerify_ok hverify
  rw [hnil] at hcheck
  cases hcheck
  exact ⟨rfl, rfl⟩

theorem LoadsNew.commitments (env : Env P) (tx : Transaction) (s : ApplicableChainState P)
    (h : LoadsNew tx s (Exec.stateOf (partialVerify env tx s))) : tx.sourceCommitments ≠ [] := by
  intro hnil
  obtain ⟨asset, hnone, hloaded⟩ := h
  rw [partialVerify_nil env hnil] at hloaded
  exact hloaded hnone

/-- After the checks and the charge, an account that is missing was never looked at. -/
theorem commitments_nil_of_no_account (hverify : partialVerify env tx s = .ok (decompressed, changes) s₁)
    (hcharge : changes.forM (applyCommitment tx) s₁ = .ok ⟨⟩ s₂) {e : BlockchainError}
    (hfind : s₂.inner.findAccount tx.source = .error e) : tx.sourceCommitments = [] := by
  obtain ⟨transfers, newCommitments, owner, transcript, -, hnew, hcheck⟩ := partialVerify_ok hverify
  obtain ⟨-, -, changes', hchanges, hassets, -⟩ := checkCommitments_ok _ hcheck
  rw [List.nil_append] at hchanges
  have hchanges : changes = changes' := hchanges
  subst hchanges
  have hnone : Loaded tx.source [] s := fun _ ha => absurd ha List.not_mem_nil
  have hloaded := checkCommitments_loaded _ hnone hcheck
  rw [List.nil_append, ← hassets] at hloaded
  have hempty : changes = [] := by
    cases hc : changes with
    | nil => rfl
    | cons c cs =>
      obtain ⟨account, e', haccount, hasset⟩ := hloaded c.2.2 (by simp [hc])
      have hstart : echangeOf s₁ tx.source c.2.2 ≠ none := by
        unfold echangeOf
        rw [haccount, Option.bind_some, hasset]
        exact Option.some_ne_none _
      have htouches : Touches tx s₁ s₂ := by
        have h : Touches tx s₁ (Exec.stateOf (changes.forM (applyCommitment tx) s₁)) :=
          Touches.forM changes (fun change _ => applyCommitment_touches change) s₁
        rw [hcharge] at h
        exact h
      obtain ⟨e'', he''⟩ := Option.ne_none_iff_exists'.mp (htouches.loaded hstart)
      obtain ⟨account', haccount', -⟩ := Option.bind_eq_some_iff.mp he''
      simp [ChainState.findAccount, haccount'] at hfind
  rw [hempty, List.map_nil, map_asset_zip hnew, eq_comm, List.map_eq_nil_iff] at hassets
  exact hassets

/-- The ways in which a transaction fails: before it changed anything, with a new balance of its sender in the state,
or with the nonce of its sender moved on. -/
theorem applyWithPartialVerify_fails (hselected : Selected s) {e : VerificationError BlockchainError}
    (h : tx.applyWithPartialVerify env txHash s = .error e s') :
    (failsUntouched env tx s = true ∧ s' = s) ∨
      (failsUntouched env tx s = false ∧ (LoadsNew tx s s' ∨ Bumped tx s')) := by
  have hstop := partialVerify_stop env tx hselected
  have hcommitments := LoadsNew.commitments env tx s
  unfold applyWithPartialVerify at h
  rw [Exec.bind_apply] at h
  cases hverify : partialVerify env tx s with
  | error e₁ s₁ =>
    rw [hverify] at hstop hcommitments h
    cases h
    rcases hstop with ⟨hfails, rfl⟩ | ⟨hfails, hnew⟩
    · exact .inl ⟨by simp only [failsUntouched, hfails, Bool.true_or], rfl⟩
    · refine .inr ⟨?_, .inl hnew⟩
      simp only [failsUntouched, hfails, Bool.false_or, List.isEmpty_eq_false_iff.mpr (hcommitments hnew), Bool.false_and]
  | ok verified s₁ =>
    obtain ⟨decompressed, changes⟩ := verified
    rw [hverify] at hstop hcommitments h
    obtain ⟨hfails, hstop⟩ := hstop
    obtain ⟨s₂, hcharge⟩ := charge_total hverify
    have hcharged : Touches tx s₁ s₂ := by
      have h : Touches tx s₁ (Exec.stateOf (changes.forM (applyCommitment tx) s₁)) :=
        Touches.forM changes (fun change _ => applyCommitment_touches change) s₁
      rw [hcharge] at h
      exact h
    dsimp only at h
    rw [Exec.bind_apply, hcharge] at h
    dsimp only at h
    unfold apply at h
    rw [Exec.bind_apply] at h
    unfold onInner at h
    rw [ChainState.internalUpdateAccountNonce_eq] at h
    cases hfind : s₂.inner.findAccount tx.source with
    | error e₂ =>
      simp only [hfind, EStateM.Result.error.injEq] at h
      have hnil := commitments_nil_of_no_account hverify hcharge hfind
      obtain ⟨rfl, rfl⟩ := applyCommitments_nil hverify hnil
      cases hcharge
      refine .inl ⟨?_, h.2.symm⟩
      simp only [failsUntouched, hnil, List.isEmpty_nil, hfind, Bool.true_and, Bool.or_eq_true]
      exact .inr rfl
    | ok account =>
      simp only [hfind] at h
      let moved : Account P := { account with nonce := { account.nonce with nonce := tx.nonce + 1 } }
      have hfootprint := applyPayload_footprint env tx txHash decompressed
        { s₂ with inner := ChainState.setAccount tx.source moved s₂.inner }
      rw [h] at hfootprint
      have hbumped : Bumped tx s' := hfootprint.bumped ⟨moved, ChainState.accounts_setAccount _ _ _, rfl⟩
      refine .inr ⟨?_, .inr hbumped⟩
      simp only [failsUntouched, hfails, Bool.false_or, Bool.and_eq_false_iff, List.isEmpty_eq_false_iff, Bool.not_eq_false']
      by_cases hnil : tx.sourceCommitments = []
      · obtain ⟨rfl, rfl⟩ := applyCommitments_nil hverify hnil
        cases hcharge
        rw [hfind]
        exact .inr rfl
      · exact .inl hnil

variable {storage : Storage P}

theorem persisted_some (h : persisted env s = some storage) :
    ∃ r, applyChanges env s = .ok ⟨⟩ r ∧ r.inner.storage = storage := by
  unfold persisted at h
  cases hwrite : applyChanges env s with
  | error e r => simp [hwrite] at h
  | ok _ r =>
    simp only [hwrite, Option.some.injEq] at h
    exact ⟨r, rfl, h⟩

/-- A balance that was loaded is stored again, and marked as one that was spent from. -/
theorem persisted_ne_of_loads (hblock : InBlock tx s) (hframed : Framed tx s s') (hloads : LoadsNew tx s s')
    (hpersisted : persisted env s = some storage) : persisted env s' ≠ some storage := by
  intro hpersisted'
  obtain ⟨asset, hnone, hloaded⟩ := hloads
  obtain ⟨e, he⟩ := Option.ne_none_iff_exists'.mp hloaded
  obtain ⟨r, hwrite, hpersisted⟩ := persisted_some hpersisted
  obtain ⟨r', hwrite', hpersisted'⟩ := persisted_some hpersisted'
  obtain ⟨version, hversion, htype⟩ := balanceType_of_spent hwrite' he
  rw [hpersisted', ← hpersisted, hframed.topoheight] at hversion
  refine htype (balanceType_of_unspent hwrite hnone (hblock.received _ _) ?_ hversion)
  exact hblock.balances.versions _ _ (Nat.le_refl _)

/-- A nonce that moved on is stored. -/
theorem persisted_ne_of_bumped (hblock : InBlock tx s) (hframed : Framed tx s s') (hbumped : Bumped tx s')
    (hpersisted : persisted env s = some storage) : persisted env s' ≠ some storage := by
  intro hpersisted'
  obtain ⟨account, haccount, hnonce⟩ := hbumped
  obtain ⟨r, hwrite, hpersisted⟩ := persisted_some hpersisted
  obtain ⟨r', hwrite', hpersisted'⟩ := persisted_some hpersisted'
  have hsettled := applyChanges_nonces hwrite tx.source
  have hsettled' := applyChanges_nonces hwrite' tx.source
  rw [haccount, hframed.topoheight, hframed.storage, hpersisted', ← hpersisted] at hsettled'
  have hversion : r.inner.storage.nonces.version (Storage.keyBytes tx.source) s.inner.topoheight = some account.nonce :=
    (congrArg (fun history => history.version s.inner.topoheight) hsettled').trans (History.version_push_self _ _ _)
  cases hbefore : s.inner.accounts[tx.source]? with
  | some account' =>
    rw [hbefore] at hsettled
    have hversion' := (congrArg (fun history => history.version s.inner.topoheight) hsettled).trans
      (History.version_push_self _ _ _)
    have hsame : account'.nonce = account.nonce := Option.some.inj (hversion'.symm.trans hversion)
    have hle := hblock.nonce account' hbefore
    rw [hsame, hnonce] at hle
    exact Nat.not_succ_le_self _ hle
  | none =>
    rw [hbefore] at hsettled
    rcases hsettled with hkept | ⟨-, hfirst⟩
    · have hnothing := (congrArg (fun history => history.version s.inner.topoheight) hkept).trans
        (hblock.nonces.versions _ _ (Nat.le_refl _))
      exact absurd (hversion.symm.trans hnothing) (Option.some_ne_none _)
    · have hversion' := (congrArg (fun history => history.version s.inner.topoheight) hfirst).trans
        (History.version_push_self _ _ _)
      have hsame : (⟨none, 0⟩ : VersionedNonce) = account.nonce := Option.some.inj (hversion'.symm.trans hversion)
      rw [← hsame] at hnonce
      exact Nat.succ_ne_zero _ hnonce.symm

/-- A transaction that fails leaves no trace in what its block stores exactly when it fails before it changes
anything. -/
theorem failed_transaction_persists_nothing_iff (env : Env P) (tx : Transaction) (txHash : Hash)
    (s s' : ApplicableChainState P) (e : VerificationError BlockchainError) (hblock : InBlock tx s)
    (hwritten : (persisted env s).isSome = true) (hfailed : tx.applyWithPartialVerify env txHash s = .error e s') :
    persisted env s' = persisted env s ↔ failsUntouched env tx s = true := by
  obtain ⟨storage, hpersisted⟩ := Option.isSome_iff_exists.mp hwritten
  have hframed := (applyWithPartialVerify_footprint env tx txHash s).framed
  rw [hfailed] at hframed
  rcases applyWithPartialVerify_fails hblock.selected hfailed with ⟨huntouched, rfl⟩ | ⟨htouched, htrace⟩
  · exact ⟨fun _ => huntouched, fun _ => rfl⟩
  · rw [htouched, hpersisted]
    refine ⟨fun hsame => absurd hsame ?_, fun hfalse => absurd hfalse Bool.false_ne_true⟩
    rcases htrace with hloads | hbumped
    · exact persisted_ne_of_loads hblock hframed hloads hpersisted
    · exact persisted_ne_of_bumped hblock hframed hbumped hpersisted

end Atomicity

/-- A machine whose contracts all return one. -/
def refusingEnv : Env ℤ := { clearEnv with run := fun _ _ _ _ _ _ => .ran [] 0 (some 1) }

/-- A block that starts on a chain with a second asset. -/
def tokenState : ApplicableChainState ℤ :=
  ApplicableChainState.new (sampleStorage.addAsset 9#256 0 ⟨none, ⟨8, "TOKEN", "TKN", none, none⟩⟩) false 0 1 .v3 0 1#256
    ⟨⟨.v3, [], 0, 1, 0, [], 0#256, [5#256]⟩, []⟩

/-- The deposit of its constructor is private, so that it cannot be given back. -/
def failingDeploy : Transaction :=
  sampleTx (.deployContract ⟨[], some ⟨0, .single 9#256 (.priv 50#256 0#256 0#256 [])⟩⟩)
    (10 * COIN_VALUE - 10000 - BURN_PER_CONTRACT)

/-- The nonce and the balance of the sender, and whether the contract is there, once the block was written. -/
def senderAfter (s : ApplicableChainState ℤ) : Option (Option Nonce × Option (Ciphertext ℤ) × Bool) :=
  (persisted refusingEnv s).map (fun storage =>
    (match storage.getNonceAtMaximumTopoheight 7#256 1 with
      | .ok (some (_, version)) => some version.nonce
      | _ => none,
    match storage.getBalanceAtMaximumTopoheight 7#256 XELIS_ASSET 1 with
      | .ok (some (_, version)) => some version.finalBalance
      | _ => none,
    storage.hasContractPointer 5#256))

theorem senderAfter_failingDeploy :
    senderAfter (Exec.stateOf (failingDeploy.applyWithPartialVerify refusingEnv 5#256 tokenState)) =
      some (some 1, some ⟨10 * COIN_VALUE - 10000 - BURN_PER_CONTRACT, 0⟩, true) := by
  decide +kernel

theorem senderAfter_unchanged :
    senderAfter tokenState = some (some 0, some ⟨10 * COIN_VALUE, 0⟩, false) := by
  decide +kernel

/-- A deployment that was verified fails because its deposit cannot be given back. Its sender still pays, its nonce is
used and its contract is there. -/
theorem failed_deploy_is_persisted :
    isOk (preVerify refusingEnv.toProofs failingDeploy 5#256 tokenState.inner) = true ∧
    ∃ e s', failingDeploy.applyWithPartialVerify refusingEnv 5#256 tokenState = .error e s' ∧
      persisted refusingEnv s' ≠ persisted refusingEnv tokenState := by
  refine ⟨by decide +kernel, ?_⟩
  have hfails : isOk (failingDeploy.applyWithPartialVerify refusingEnv 5#256 tokenState) = false := by decide +kernel
  have hafter := senderAfter_failingDeploy
  cases happly : failingDeploy.applyWithPartialVerify refusingEnv 5#256 tokenState with
  | ok a s' =>
    rw [happly] at hfails
    cases hfails
  | error e s' =>
    refine ⟨e, s', rfl, fun hsame => ?_⟩
    rw [happly] at hafter
    have hbefore := senderAfter_unchanged
    simp only [senderAfter, Exec.stateOf, hsame] at hafter hbefore
    rw [hbefore] at hafter
    revert hafter
    decide

/-- The same transaction of an account that is not known. -/
def strangerDeploy : Transaction := { failingDeploy with source := 6#256 }

theorem strangerDeploy_persists_nothing :
    ∃ e s', strangerDeploy.applyWithPartialVerify refusingEnv 5#256 tokenState = .error e s' ∧
      persisted refusingEnv s' = persisted refusingEnv tokenState := by
  have hfails : isOk (strangerDeploy.applyWithPartialVerify refusingEnv 5#256 tokenState) = false := by decide +kernel
  cases happly : strangerDeploy.applyWithPartialVerify refusingEnv 5#256 tokenState with
  | ok a s' =>
    rw [happly] at hfails
    cases hfails
  | error e s' =>
    have hblock : InBlock strangerDeploy tokenState := by
      refine ⟨?_, ?_, ?_, ?_, ?_⟩
      · exact (Storage.VersionedTrees.Below.empty 1).setLast (Storage.keyBytes 7#256) Nat.one_pos (⟨none, 0⟩ : VersionedNonce)
      · exact (Storage.VersionedTrees.Below.empty 1).setLast _ Nat.one_pos
          (⟨none, none, ⟨10 * COIN_VALUE, 0⟩, .input⟩ : VersionedBalance ℤ)
      · intro key asset version hentry
        simp [entryOf, tokenState, ApplicableChainState.new, ChainState.new] at hentry
      · intro key asset e he
        simp [echangeOf, tokenState, ApplicableChainState.new, ChainState.new] at he
      · intro account haccount
        simp [tokenState, ApplicableChainState.new, ChainState.new] at haccount
    have hwritten : (persisted refusingEnv tokenState).isSome = true := by decide +kernel
    have huntouched : failsUntouched refusingEnv strangerDeploy tokenState = true := by decide +kernel
    exact ⟨e, s', rfl, (failed_transaction_persists_nothing_iff refusingEnv strangerDeploy 5#256 tokenState s' e hblock
      hwritten happly).mpr huntouched⟩

end Xelis.Transaction
