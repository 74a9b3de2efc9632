import Xelis.State.Balances
import Xelis.Storage.BalanceSearch

namespace Xelis.State

open Lib (FiniteMap Exec)

variable {P : Type}

theorem Echange.getBalance_getBalance (e : Echange P) : e.getBalance.2.getBalance = e.getBalance := by
  obtain ⟨allow, newVersion, version, outputSum, used⟩ := e
  cases used with
  | true => rfl
  | false =>
    unfold Echange.getBalance Echange.useOutput VersionedBalance.selectBalance
    cases hbalance : version.outputBalance with
    | none => simp [hbalance]
    | some balance =>
      cases allow with
      | true => simp [hbalance]
      | false => simp [hbalance]

theorem Echange.getBalance_spend [RistrettoPoint P] (e : Echange P) (rest output : Ciphertext P) :
    ((e.getBalance.2.setBalance rest).addOutputToSum output).getBalance =
      (rest, (e.getBalance.2.setBalance rest).addOutputToSum output) := by
  obtain ⟨allow, newVersion, version, outputSum, used⟩ := e
  unfold Echange.getBalance Echange.setBalance Echange.addOutputToSum Echange.useOutput VersionedBalance.selectBalance
    VersionedBalance.setSelected
  cases used with
  | true =>
    cases hbalance : version.outputBalance with
    | none => simp [hbalance]
    | some balance => simp [hbalance]
  | false =>
    cases hbalance : version.outputBalance with
    | none => simp [hbalance]
    | some balance =>
      cases allow with
      | true => simp [hbalance]
      | false => simp [hbalance]

namespace ChainState

/-- What an account spent in the block in one asset. -/
def echange (c : ChainState P) (key : PublicKey) (asset : Hash) : Option (Echange P) :=
  c.accounts[key]?.bind (·.assets[asset]?)

variable {c c' : ChainState P} {key : PublicKey} {account account' : Account P}

theorem echange_of_findAccount [RistrettoPoint P] (hfind : c.findAccount key = .ok account) (asset : Hash) :
    c.echange key asset = account.assets[asset]? := by
  unfold findAccount at hfind
  unfold echange
  cases haccount : c.accounts[key]? with
  | some found =>
    rw [haccount] at hfind
    cases hfind
    rfl
  | none =>
    rw [haccount] at hfind
    have hfind : createSenderAccount c.storage key c.topoheight = .ok account := hfind
    rw [assets_createSenderAccount hfind, Std.ExtTreeMap.getElem?_empty]
    rfl

theorem echange_setAccount (account : Account P) (k : PublicKey) (asset : Hash) :
    (setAccount key account c).echange k asset = if k = key then account.assets[asset]? else c.echange k asset := by
  unfold echange setAccount
  dsimp only
  by_cases hk : k = key
  · subst hk
    rw [if_pos rfl, FiniteMap.getElem?_insert_self']
    rfl
  · rw [if_neg hk, FiniteMap.getElem?_insert_of_ne _ _ (Ne.symm hk)]

/-- Nothing that a lookup of a balance to spend from depends on has changed. -/
structure SameSpendings (c c' : ChainState P) : Prop where
  storage : c'.storage = c.storage
  topoheight : c'.topoheight = c.topoheight
  echange : ∀ key asset, c'.echange key asset = c.echange key asset

theorem SameSpendings.refl (c : ChainState P) : SameSpendings c c := ⟨rfl, rfl, fun _ _ => rfl⟩

theorem SameSpendings.trans {c'' : ChainState P} (h : SameSpendings c c') (h' : SameSpendings c' c'') :
    SameSpendings c c'' :=
  ⟨h'.storage.trans h.storage, h'.topoheight.trans h.topoheight, fun key asset =>
    (h'.echange key asset).trans (h.echange key asset)⟩

theorem sameSpendings_setAccount [RistrettoPoint P] (hfind : c.findAccount key = .ok account) (hassets : account'.assets = account.assets) :
    SameSpendings c (setAccount key account' c) := by
  refine ⟨rfl, rfl, fun k asset => ?_⟩
  rw [echange_setAccount, hassets]
  split
  · subst_vars
    exact (echange_of_findAccount hfind asset).symm
  · rfl

section Operations

variable [RistrettoPoint P]

theorem internalUpdateAccountNonce_sameSpendings (key : PublicKey) (nonce : Nonce) :
    Exec.Moves SameSpendings (internalUpdateAccountNonce (P := P) key nonce) := by
  intro c
  rw [internalUpdateAccountNonce_eq]
  cases hfind : c.findAccount key with
  | ok account => exact sameSpendings_setAccount hfind rfl
  | error e => exact .refl c

theorem setMultisigState_sameSpendings (key : PublicKey) (payload : MultiSigPayload) :
    Exec.Moves SameSpendings (setMultisigState (P := P) key payload) := by
  intro c
  rw [setMultisigState_eq]
  cases hfind : c.findAccount key with
  | ok account => exact sameSpendings_setAccount hfind rfl
  | error e => exact .refl c

end Operations

end ChainState

end Xelis.State
