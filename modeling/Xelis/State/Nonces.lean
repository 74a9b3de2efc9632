import Xelis.Lib.MapLoops
import Xelis.State.Written
import Xelis.Storage.Versions

namespace Xelis.State.ApplicableChainState

open Lib (FiniteMap Exec History)
open Storage (VersionedTrees keyBytes)

variable {P : Type}
variable {s s' : ApplicableChainState P}
variable {kinds : List WriteKind}

theorem Steps.nonces (hkinds : .nonce ∉ kinds) (h : Steps kinds s s') : s'.inner.storage.nonces = s.inner.storage.nonces := by
  refine StepsAt.eq_of_step (fun s => s.inner.storage.nonces) (fun _ _ hstep => ?_) h
  cases hstep with
  | nonce hkind key v => exact absurd hkind hkinds
  | _ => rfl

theorem Steps.nonces_below (h : Steps kinds s s') (hbelow : s.inner.storage.nonces.Below (s.inner.topoheight + 1)) :
    s'.inner.storage.nonces.Below (s.inner.topoheight + 1) := by
  unfold Steps at h
  induction h with
  | refl => exact hbelow
  | tail _ hstep ih =>
    cases hstep with
    | nonce hkind key v => exact ih.setLast (keyBytes key) (Nat.lt_succ_self _) v
    | _ => exact ih

/-- What becomes of the nonce of an account when the changes of the block at `t` are written: a sender gets the one of
the block, and the other accounts keep theirs or get their first one. -/
def NonceSettled (t : TopoHeight) (account : Option (Account P)) (before after : History VersionedNonce) : Prop :=
  match account with
  | some account => after = before.push t account.nonce
  | none => after = before ∨ (before.last = none ∧ after = before.push t ⟨none, 0⟩)

theorem nonces_setLast_of_ne (nonces : VersionedTrees VersionedNonce) {key key' : PublicKey} (hne : key' ≠ key)
    (t : TopoHeight) (v : VersionedNonce) :
    (nonces.setLast (keyBytes key') t v).history (keyBytes key) = nonces.history (keyBytes key) :=
  VersionedTrees.history_setLast_of_ne _ _ _ _ fun hc => hne (Storage.keyBytes_injective hc)

section Stages

variable [RistrettoPoint P]

theorem applyAccount_nonces {e : PublicKey × Account P} (h : applyAccount e s = .ok ⟨⟩ s') :
    s'.inner.storage.nonces = s.inner.storage.nonces.setLast (keyBytes e.1) s.inner.topoheight e.2.nonce := by
  have hsteps := applyAccount_after_nonce e s
  rw [h] at hsteps
  exact hsteps.nonces (by simp)

omit [RistrettoPoint P] in
theorem registerNonce_eq (key : PublicKey) (s : ApplicableChainState P) :
    registerNonce key s = .ok ⟨⟩
      (if !s.inner.accounts.contains key && !s.inner.storage.hasNonce key then
        s.withStorage (·.setLastNonceTo key s.inner.topoheight ⟨none, 0⟩) else s) := by
  simp only [registerNonce, Exec.bind_apply, Exec.get_apply]
  split
  · rfl
  · rfl

omit [RistrettoPoint P] in
/-- An account that received gets its first nonce unless it is a sender or has one. -/
theorem applyBalances_nonces {e : PublicKey × FiniteMap Hash (VersionedBalance P)} (h : applyBalances e s = .ok ⟨⟩ s') :
    s'.inner.storage.nonces =
      if !s.inner.accounts.contains e.1 && !s.inner.storage.nonces.pointers.contains (keyBytes e.1) then
        s.inner.storage.nonces.setLast (keyBytes e.1) s.inner.topoheight ⟨none, 0⟩
      else s.inner.storage.nonces := by
  rw [applyBalances_eq] at h
  obtain ⟨⟨⟩, s₁, hstore, h⟩ := Exec.bind_ok_iff.mp h
  obtain ⟨⟨⟩, s₂, hnonce, hregister⟩ := Exec.bind_ok_iff.mp h
  have hsteps₁ := Steps.of_ok (storeBalances_steps e.1 _) hstore
  have hsteps₃ := Steps.of_ok (registerAccount_steps e.1) hregister
  rw [registerNonce_eq, EStateM.Result.ok.injEq] at hnonce
  rw [Steps.nonces (by simp) hsteps₃, ← hnonce.2, ← hsteps₁.sameBlock.accounts, ← hsteps₁.sameBlock.topoheight,
    ← Steps.nonces (by simp) hsteps₁]
  unfold Storage.hasNonce
  split
  · rfl
  · rfl

/-- The senders are the first to be written. -/
theorem accounts_nonces (h : s.inner.accounts.toList.forM applyAccount s = .ok ⟨⟩ s') (key : PublicKey) :
    s'.inner.storage.nonces.history (keyBytes key) =
      (s.inner.storage.nonces.history (keyBytes key)).extend s.inner.topoheight (s.inner.accounts[key]?.map (·.nonce)) := by
  have hloop := Exec.forM_toList (k := key) (I := fun s₁ => s₁.inner.topoheight = s.inner.topoheight)
    (v := fun s₁ => s₁.inner.storage.nonces.history (keyBytes key))
    (R := fun account history => history =
      (s.inner.storage.nonces.history (keyBytes key)).push s.inner.topoheight account.nonce) rfl ?_ ?_ ?_ h
  · cases haccount : s.inner.accounts[key]? with
    | none =>
      rw [haccount] at hloop
      exact hloop
    | some account =>
      rw [haccount] at hloop
      exact hloop
  · exact fun e s₁ s₂ htopo hstep => (Steps.of_ok (applyAccount_steps e) hstep).sameBlock.topoheight.trans htopo
  · intro account s₁ s₂ _ htopo hbefore hstep
    rw [applyAccount_nonces hstep, htopo, ← hbefore]
    exact VersionedTrees.history_setLast_self _ _ _ _
  · intro e s₁ s₂ hne _ hstep
    rw [applyAccount_nonces hstep]
    exact nonces_setLast_of_ne _ hne _ _

omit [RistrettoPoint P] in
theorem balances_nonces {balances : List (PublicKey × FiniteMap Hash (VersionedBalance P))}
    (h : balances.forM applyBalances s = .ok ⟨⟩ s') {key : PublicKey} {before : History VersionedNonce}
    (hsettled : NonceSettled s.inner.topoheight s.inner.accounts[key]? before (s.inner.storage.nonces.history (keyBytes key))) :
    NonceSettled s.inner.topoheight s.inner.accounts[key]? before (s'.inner.storage.nonces.history (keyBytes key)) := by
  refine (Exec.forM_keeps (I := fun s₁ => SameBlock s s₁ ∧
    NonceSettled s.inner.topoheight s.inner.accounts[key]? before (s₁.inner.storage.nonces.history (keyBytes key))) ?_
    ⟨.refl s, hsettled⟩ h).2
  rintro e - s₁ s₂ ⟨hsame, hsettled₁⟩ hstep
  refine ⟨hsame.trans (Steps.of_ok (applyBalances_steps e) hstep).sameBlock, ?_⟩
  rw [applyBalances_nonces hstep, hsame.accounts, hsame.topoheight]
  split
  case isFalse => exact hsettled₁
  case isTrue hfirst =>
    by_cases hkey : e.1 = key
    · subst hkey
      simp only [Std.ExtTreeMap.contains_eq_isSome_getElem?, Bool.and_eq_true, Bool.not_eq_true', Option.isSome_eq_false_iff,
        Option.isNone_iff_eq_none] at hfirst
      rw [hfirst.1] at hsettled₁ ⊢
      rw [VersionedTrees.history_setLast_self]
      have hlast : (s₁.inner.storage.nonces.history (keyBytes e.1)).last = none := hfirst.2
      rcases hsettled₁ with hkept | ⟨-, hwritten⟩
      · rw [hkept] at hlast ⊢
        exact .inr ⟨hlast, rfl⟩
      · rw [hwritten, History.last_push] at hlast
        cases hlast
    · rw [nonces_setLast_of_ne _ hkey]
      exact hsettled₁

theorem applyChanges_nonces {env : Env P} (h : applyChanges env s = .ok ⟨⟩ s') (key : PublicKey) :
    NonceSettled s.inner.topoheight s.inner.accounts[key]? (s.inner.storage.nonces.history (keyBytes key))
      (s'.inner.storage.nonces.history (keyBytes key)) := by
  obtain ⟨s₁, s₂, s₃, s₄, s₅, s₆, s₇, hstages⟩ := applyChanges_ok h
  have hassets := assets_steps hstages.assets
  have hcaches := caches_steps hstages.caches
  have htransfers := transfers_steps hstages.transfers
  have hcontracts := contracts_steps hstages.contracts
  have houtputs := outputs_steps hstages.outputs
  have hnonces : s₆.inner.storage.nonces = s₁.inner.storage.nonces := by
    rw [Steps.nonces (by simp) houtputs, Steps.nonces (by simp) hcontracts, Steps.nonces (by simp) htransfers,
      Steps.nonces (by simp) hcaches, Steps.nonces (by simp) hassets]
  have hsame : SameBlock s s₆ :=
    (accounts_steps hstages.accounts).sameBlock.trans (hassets.sameBlock.trans (hcaches.sameBlock.trans
      (htransfers.sameBlock.trans (hcontracts.sameBlock.trans houtputs.sameBlock))))
  have hsettled : NonceSettled s₆.inner.topoheight s₆.inner.accounts[key]? (s.inner.storage.nonces.history (keyBytes key))
      (s₆.inner.storage.nonces.history (keyBytes key)) := by
    have haccounts := accounts_nonces hstages.accounts key
    rw [hsame.topoheight, hsame.accounts, hnonces, haccounts]
    cases s.inner.accounts[key]? with
    | none => exact .inl rfl
    | some account => rfl
  have hsettled' := balances_nonces hstages.balances hsettled
  rw [hsame.topoheight, hsame.accounts] at hsettled'
  rw [hstages.written]
  exact hsettled'

end Stages

end Xelis.State.ApplicableChainState
