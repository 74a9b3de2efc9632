import Xelis.State.MempoolState
import Xelis.Transaction.Agreement

namespace Xelis.State

open Lib (FiniteMap Exec)

variable {P V : Type}

def heldAt (balances : FiniteMap PublicKey (FiniteMap Hash V)) (key : PublicKey) (asset : Hash) : Option V :=
  balances[key]?.bind (·[asset]?)

/-- Every balance held could be loaded. -/
def Loadable (known : PublicKey → Hash → Prop) (balances : FiniteMap PublicKey (FiniteMap Hash V)) : Prop :=
  ∀ key asset, (heldAt balances key asset).isSome → known key asset

theorem loadable_empty (known : PublicKey → Hash → Prop) : Loadable known (∅ : FiniteMap PublicKey (FiniteMap Hash V)) := by
  intro key asset h
  rw [heldAt, Std.ExtTreeMap.getElem?_empty] at h
  cases h

theorem heldAt_insert (balances : FiniteMap PublicKey (FiniteMap Hash V)) (key : PublicKey) (assets : FiniteMap Hash V)
    (k : PublicKey) (a : Hash) :
    heldAt (balances.insert key assets) k a = if k = key then assets[a]? else heldAt balances k a := by
  unfold heldAt
  by_cases hk : k = key
  · subst hk
    rw [if_pos rfl, FiniteMap.getElem?_insert_self', Option.bind_some]
  · rw [if_neg hk, FiniteMap.getElem?_insert_of_ne _ _ (Ne.symm hk)]

theorem getElem?_getD_empty (balances : FiniteMap PublicKey (FiniteMap Hash V)) (key : PublicKey) (asset : Hash) :
    (balances[key]?.getD ∅)[asset]? = heldAt balances key asset := by
  unfold heldAt
  cases balances[key]? with
  | none => exact Std.ExtTreeMap.getElem?_empty
  | some assets => rfl

section Loadable

variable {known : PublicKey → Hash → Prop} {balances : FiniteMap PublicKey (FiniteMap Hash V)}

theorem Loadable.entry (h : Loadable known balances) (key : PublicKey) :
    Loadable known (balances.insert key (balances[key]?.getD ∅)) := by
  intro k a hheld
  rw [heldAt_insert] at hheld
  split at hheld
  · rename_i hk
    subst hk
    rw [getElem?_getD_empty] at hheld
    exact h k a hheld
  · exact h k a hheld

theorem Loadable.insert (h : Loadable known balances) {key : PublicKey} {asset : Hash} (hknown : known key asset) (v : V) :
    Loadable known (balances.insert key ((balances[key]?.getD ∅).insert asset v)) := by
  intro k a hheld
  rw [heldAt_insert] at hheld
  split at hheld
  · rename_i hk
    subst hk
    by_cases ha : asset = a
    · subst ha
      exact hknown
    · rw [FiniteMap.getElem?_insert_of_ne _ _ ha, getElem?_getD_empty] at hheld
      exact h k a hheld
  · exact h k a hheld

end Loadable

variable [RistrettoPoint P]

/-- The storage has a balance to start from. -/
def Known (storage : Storage P) (topoheight : TopoHeight) (key : PublicKey) (asset : Hash) : Prop :=
  ∃ found, storage.getNewVersionedBalance key asset topoheight = .ok found

theorem not_known {storage : Storage P} {topoheight : TopoHeight} {key : PublicKey} {asset : Hash} {e : BlockchainError}
    (h : storage.getNewVersionedBalance key asset topoheight = .error e) : ¬Known storage topoheight key asset := by
  rintro ⟨found, hfound⟩
  rw [h] at hfound
  cases hfound

/-- What a credit does: it goes through exactly when the storage has a balance to start from, and then changes the
balances of receivers only. -/
def Credits {S : Type} (storage : Storage P) (topoheight : TopoHeight) (key : PublicKey) (asset : Hash) (s : S)
    (get : Exec BlockchainError S (Ciphertext P)) (put : Ciphertext P → S → S) (only : S → Prop) : Prop :=
  (Known storage topoheight key asset ∧ ∃ balance s', get s = .ok balance s' ∧ ∀ ct, only (put ct s')) ∨
    ¬Known storage topoheight key asset ∧ ∃ e s', get s = .error e s'

variable {key : PublicKey} {asset : Hash}

/-- Only the balances of receivers differ, and those held can be loaded. -/
def ChainState.OnlyReceivers (c c' : ChainState P) : Prop :=
  ∃ balances, Loadable (Known c.storage c.topoheight) balances ∧ c' = { c with receiverBalances := balances }

theorem ChainState.credits (c : ChainState P) (h : Loadable (Known c.storage c.topoheight) c.receiverBalances)
    (key : PublicKey) (asset : Hash) :
    Credits c.storage c.topoheight key asset c (internalGetReceiverBalance key asset)
      (putReceiverBalance key asset) c.OnlyReceivers := by
  have hput (c' : ChainState P) (balances : FiniteMap PublicKey (FiniteMap Hash (VersionedBalance P)))
      (hc' : c' = { c with receiverBalances := balances }) (hload : Loadable (Known c.storage c.topoheight) balances)
      (hknown : Known c.storage c.topoheight key asset) (ct : Ciphertext P) :
      c.OnlyReceivers (putReceiverBalance key asset ct c') := by
    subst hc'
    unfold putReceiverBalance
    split
    · exact ⟨_, hload.insert hknown _, rfl⟩
    · exact ⟨_, hload, rfl⟩
  unfold Credits
  rw [internalGetReceiverBalance_eq]
  have hentry := h.entry key
  cases hheld : heldAt c.receiverBalances key asset with
  | some version =>
    have hknown : Known c.storage c.topoheight key asset := h key asset (by rw [hheld]; rfl)
    rw [show c.receiverBalances[key]?.bind (·[asset]?) = some version from hheld]
    exact .inl ⟨hknown, _, _, rfl, hput _ _ rfl hentry hknown⟩
  | none =>
    rw [show c.receiverBalances[key]?.bind (·[asset]?) = none from hheld]
    cases hfound : c.storage.getNewVersionedBalance key asset c.topoheight with
    | error e => exact .inr ⟨not_known hfound, _, _, rfl⟩
    | ok found =>
      have hknown : Known c.storage c.topoheight key asset := ⟨found, hfound⟩
      exact .inl ⟨hknown, _, _, rfl, hput _ _ rfl (hentry.insert hknown _) hknown⟩

def MempoolState.OnlyReceivers (m m' : MempoolState P) : Prop :=
  ∃ balances, Loadable (Known m.storage m.topoheight) balances ∧ m' = { m with receiverBalances := balances }

theorem MempoolState.credits (m : MempoolState P) (h : Loadable (Known m.storage m.topoheight) m.receiverBalances)
    (key : PublicKey) (asset : Hash) :
    Credits m.storage m.topoheight key asset m (internalGetReceiverBalance key asset)
      (putReceiverBalance key asset) m.OnlyReceivers := by
  have hput (m' : MempoolState P) (balances : FiniteMap PublicKey (FiniteMap Hash (Ciphertext P)))
      (hm' : m' = { m with receiverBalances := balances }) (hload : Loadable (Known m.storage m.topoheight) balances)
      (hknown : Known m.storage m.topoheight key asset) (ct : Ciphertext P) :
      m.OnlyReceivers (putReceiverBalance key asset ct m') := by
    subst hm'
    unfold putReceiverBalance
    split
    · exact ⟨_, hload.insert hknown _, rfl⟩
    · exact ⟨_, hload, rfl⟩
  unfold Credits
  have hentry := h.entry key
  simp only [internalGetReceiverBalance, Exec.bind_apply, Exec.get_apply, Exec.set_apply, getElem?_getD_empty]
  cases hheld : heldAt m.receiverBalances key asset with
  | some ct =>
    have hknown : Known m.storage m.topoheight key asset := h key asset (by rw [hheld]; rfl)
    exact .inl ⟨hknown, _, _, rfl, hput _ _ rfl hentry hknown⟩
  | none =>
    simp only [Exec.bind_apply, Exec.ofExcept_apply]
    cases hfound : m.storage.getNewVersionedBalance key asset m.topoheight with
    | error e => exact .inr ⟨not_known hfound, _, _, rfl⟩
    | ok found =>
      have hknown : Known m.storage m.topoheight key asset := ⟨found, hfound⟩
      exact .inl ⟨hknown, _, _, rfl, hput _ _ rfl (hentry.insert hknown _) hknown⟩

theorem credit_agree {S T : Type} (instS : BlockchainVerificationState S P BlockchainError)
    (instT : BlockchainVerificationState T P BlockchainError) (storage : Storage P) (topoheight : TopoHeight)
    {R Q : S → T → Prop} (onlyS : S → S → Prop) (onlyT : T → T → Prop)
    (hS : ∀ s t, R s t → Credits storage topoheight key asset s (instS.getReceiverBalance key asset)
      (instS.putReceiverBalance key asset) (onlyS s))
    (hT : ∀ s t, R s t → Credits storage topoheight key asset t (instT.getReceiverBalance key asset)
      (instT.putReceiverBalance key asset) (onlyT t))
    (hQ : ∀ s t s' t', R s t → onlyS s s' → onlyT t t' → Q s' t') (ct : Ciphertext P) :
    Exec.Agree R (Transaction.credit key asset ct : Exec (VerificationError BlockchainError) S PUnit)
      (Transaction.credit key asset ct : Exec (VerificationError BlockchainError) T PUnit) Q := by
  intro s t hst
  unfold Transaction.credit Transaction.onState
  rw [Exec.bind_apply, Exec.bind_apply, Exec.adaptExcept_apply, Exec.adaptExcept_apply]
  rcases hS s t hst with ⟨hknown, balance, s', hget, honly⟩ | ⟨hunknown, e, s', hget⟩
  · rcases hT s t hst with ⟨-, balance', t', hget', honly'⟩ | ⟨hunknown, -⟩
    · rw [hget, hget']
      exact .ok PUnit.unit (hQ s t _ _ hst (honly _) (honly' _))
    · exact absurd hknown hunknown
  · rcases hT s t hst with ⟨hknown, -⟩ | ⟨-, e', t', hget'⟩
    · exact absurd hknown hunknown
    · rw [hget, hget']
      exact .error _ _ _ _

end Xelis.State
