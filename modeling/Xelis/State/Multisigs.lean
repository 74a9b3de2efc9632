import Xelis.Lib.MapLoops
import Xelis.State.Written
import Xelis.Storage.MultisigChain

namespace Xelis.State.ApplicableChainState

open Lib (Exec)

variable {P : Type}

def writtenMultisig (account : Account P) : Option (Versioned (Option MultiSigPayload)) :=
  account.multisig.bind fun m => if m.1.shouldBeStored then some ⟨m.1.getTopoheight, m.2⟩ else none

theorem Steps.multisig {kinds : List WriteKind} (hkinds : .multisig ∉ kinds) {s s' : ApplicableChainState P}
    (h : Steps kinds s s') : s'.inner.storage.multisig = s.inner.storage.multisig := by
  refine StepsAt.eq_of_step (fun s => s.inner.storage.multisig) (fun _ _ hstep => ?_) h
  cases hstep with
  | multisig hkind key v => exact absurd hkind hkinds
  | _ => rfl

variable {s s' : ApplicableChainState P}

theorem Steps.multisigHistory {kinds : List WriteKind} (hkinds : .multisig ∉ kinds)
    (h : Steps kinds s s') (key : PublicKey) :
    s'.inner.storage.multisigHistory key = s.inner.storage.multisigHistory key :=
  Storage.multisigHistory_congr (h.multisig hkinds) key

theorem applyMultisig_eq (e : PublicKey × Account P) (s : ApplicableChainState P) :
    applyMultisig e s = .ok ⟨⟩ (match writtenMultisig e.2 with
      | some v => s.withStorage (·.setLastMultisigTo e.1 s.inner.topoheight v)
      | none => s) := by
  unfold applyMultisig writtenMultisig
  rw [Exec.bind_apply, Exec.get_apply]
  cases e.2.multisig with
  | none => rfl
  | some multisig =>
    obtain ⟨state, data⟩ := multisig
    dsimp only [Option.bind_some]
    split
    · rfl
    · rfl

variable {e : PublicKey × Account P}

theorem applyMultisig_multisig (h : applyMultisig e s = .ok ⟨⟩ s') (key : PublicKey) :
    s'.inner.storage.multisigHistory key =
      if e.1 = key then (s.inner.storage.multisigHistory key).extend s.inner.topoheight (writtenMultisig e.2)
      else s.inner.storage.multisigHistory key := by
  rw [applyMultisig_eq, EStateM.Result.ok.injEq] at h
  rw [← h.2]
  cases writtenMultisig e.2 with
  | none => exact (ite_self _).symm
  | some v =>
    by_cases hkey : e.1 = key
    · subst hkey
      rw [if_pos rfl]
      exact Storage.multisigHistory_setLast_self _ _ _ _
    · rw [if_neg hkey]
      exact Storage.multisigHistory_setLast_of_ne _ hkey _ _

section Stages

variable [RistrettoPoint P]

theorem applyAccount_multisig (h : applyAccount e s = .ok ⟨⟩ s') (key : PublicKey) :
    s'.inner.storage.multisigHistory key =
      if e.1 = key then (s.inner.storage.multisigHistory key).extend s.inner.topoheight (writtenMultisig e.2)
      else s.inner.storage.multisigHistory key := by
  unfold applyAccount at h
  obtain ⟨_, _, hget, h⟩ := Exec.bind_ok_iff.mp h
  cases hget
  obtain ⟨⟨⟩, s₁, hnonce, h⟩ := Exec.bind_ok_iff.mp h
  cases hnonce
  obtain ⟨⟨⟩, s₂, hmultisig, h⟩ := Exec.bind_ok_iff.mp h
  obtain ⟨⟨⟩, s₃, hentry, hassets⟩ := Exec.bind_ok_iff.mp h
  cases hentry
  have hspent := Steps.of_ok (Steps.forM _ fun echange _ => applyEchange_steps e.1 echange) hassets
  rw [hspent.multisigHistory (by simp)]
  exact applyMultisig_multisig hmultisig key

theorem accounts_multisig (h : s.inner.accounts.toList.forM applyAccount s = .ok ⟨⟩ s') (key : PublicKey) :
    s'.inner.storage.multisigHistory key =
      (s.inner.storage.multisigHistory key).extend s.inner.topoheight (s.inner.accounts[key]?.bind writtenMultisig) := by
  have hloop := Exec.forM_toList (k := key) (I := fun s₁ => s₁.inner.topoheight = s.inner.topoheight)
    (v := fun s₁ => s₁.inner.storage.multisigHistory key)
    (R := fun account history => history =
      (s.inner.storage.multisigHistory key).extend s.inner.topoheight (writtenMultisig account)) rfl ?_ ?_ ?_ h
  · cases haccount : s.inner.accounts[key]? with
    | none =>
      rw [haccount] at hloop
      exact hloop
    | some account =>
      rw [haccount] at hloop
      exact hloop
  · exact fun e s₁ s₂ htopo hstep => (Steps.of_ok (applyAccount_steps e) hstep).sameBlock.topoheight.trans htopo
  · intro account s₁ s₂ _ htopo hbefore hstep
    rw [applyAccount_multisig hstep key, if_pos rfl, htopo, hbefore]
  · intro e s₁ s₂ hne _ hstep
    rw [applyAccount_multisig hstep key, if_neg hne]

theorem applyChanges_multisigs {env : Env P} (h : applyChanges env s = .ok ⟨⟩ s') (key : PublicKey) :
    s'.inner.storage.multisigHistory key =
      (s.inner.storage.multisigHistory key).extend s.inner.topoheight (s.inner.accounts[key]?.bind writtenMultisig) := by
  obtain ⟨s₁, s₂, s₃, s₄, s₅, s₆, s₇, hstages⟩ := applyChanges_ok h
  have hassets := assets_steps hstages.assets
  have hcaches := caches_steps hstages.caches
  have htransfers := transfers_steps hstages.transfers
  have hcontracts := contracts_steps hstages.contracts
  have houtputs := outputs_steps hstages.outputs
  have hbalances := balances_steps hstages.balances
  rw [hstages.written]
  show s₇.inner.storage.multisigHistory key = _
  rw [hbalances.multisigHistory (by simp), houtputs.multisigHistory (by simp), hcontracts.multisigHistory (by simp),
    htransfers.multisigHistory (by simp), hcaches.multisigHistory (by simp), hassets.multisigHistory (by simp)]
  exact accounts_multisig hstages.accounts key

end Stages

end Xelis.State.ApplicableChainState
