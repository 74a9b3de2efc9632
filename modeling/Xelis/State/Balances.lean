import Xelis.Lib.MapLoops
import Xelis.State.Written
import Xelis.Storage.Versions

namespace Xelis.State.ApplicableChainState

open Lib (FiniteMap Exec)
open Storage (VersionedTrees)

variable {P : Type}

/-- What an account received in the block in one asset. -/
def entryOf (s : ApplicableChainState P) (key : PublicKey) (asset : Hash) : Option (VersionedBalance P) :=
  s.inner.receiverBalances[key]?.bind (·[asset]?)

/-- What an account spent in the block in one asset. -/
def echangeOf (s : ApplicableChainState P) (key : PublicKey) (asset : Hash) : Option (Echange P) :=
  s.inner.accounts[key]?.bind (·.assets[asset]?)

structure SameBalances (a b : Storage P) : Prop where
  balances : b.balances = a.balances
  assets : b.assets = a.assets
  assetsCache : b.assetsCache = a.assetsCache

variable {a b c storage : Storage P} {kinds : List WriteKind} {s s' s₁ s₂ : ApplicableChainState P} {key k : PublicKey}
  {asset : Hash} {topoheight t : TopoHeight}

section Lookups

/-- What the lookups of a block depend on. -/
structure SameLookups (s s' : ApplicableChainState P) : Prop where
  block : SameBlock s s'
  balances : SameBalances s.inner.storage s'.inner.storage

theorem SameBalances.refl (a : Storage P) : SameBalances a a := ⟨rfl, rfl, rfl⟩

theorem SameBalances.trans (hab : SameBalances a b) (hbc : SameBalances b c) : SameBalances a c :=
  ⟨hbc.balances.trans hab.balances, hbc.assets.trans hab.assets, hbc.assetsCache.trans hab.assetsCache⟩

theorem Steps.sameBalances (hbalance : .balance ∉ kinds) (hasset : .asset ∉ kinds)
    (h : Steps kinds s s') : SameBalances s.inner.storage s'.inner.storage := by
  unfold Steps at h
  induction h with
  | refl => exact .refl _
  | tail _ hstep ih =>
    refine ih.trans ?_
    cases hstep with
    | balance hkind key asset v => exact absurd hkind hbalance
    | asset hkind asset v => exact absurd hkind hasset
    | _ => exact ⟨rfl, rfl, rfl⟩

theorem Steps.receiverBalances {kinds : List WriteKind} (hkinds : .receiver ∉ kinds) {s s' : ApplicableChainState P}
    (h : Steps kinds s s') : s'.inner.receiverBalances = s.inner.receiverBalances := by
  refine StepsAt.eq_of_step (fun s => s.inner.receiverBalances) (fun _ _ hstep => ?_) h
  cases hstep with
  | receiver hkind receiverBalances => exact absurd hkind hkinds
  | _ => rfl

theorem SameLookups.refl (s : ApplicableChainState P) : SameLookups s s := ⟨.refl s, .refl _⟩

theorem SameLookups.steps (hbalance : .balance ∉ kinds) (hasset : .asset ∉ kinds)
    (h : SameLookups s s₁) (hsteps : Steps kinds s₁ s₂) : SameLookups s s₂ :=
  ⟨h.block.trans hsteps.sameBlock, h.balances.trans (hsteps.sameBalances hbalance hasset)⟩

theorem hasBalanceFor_congr (h : SameBalances a b) (key : PublicKey) (asset : Hash) :
    b.hasBalanceFor key asset = a.hasBalanceFor key asset := by
  unfold Storage.hasBalanceFor Storage.hasAsset
  rw [h.balances, h.assets, h.assetsCache]

theorem getBalanceAtMaximumTopoheight_congr (h : SameBalances a b) (key : PublicKey) (asset : Hash)
    (topoheight : TopoHeight) :
    b.getBalanceAtMaximumTopoheight key asset topoheight = a.getBalanceAtMaximumTopoheight key asset topoheight := by
  unfold Storage.getBalanceAtMaximumTopoheight Storage.getBalanceAtExactTopoheight
    Storage.hasBalanceAtExactTopoheight Storage.loadBalancePrevious Storage.getLastTopoheightForBalance
  rw [hasBalanceFor_congr h, h.balances]

variable [RistrettoPoint P]

theorem getNewVersionedBalance_congr (h : SameBalances a b) (key : PublicKey) (asset : Hash) (topoheight : TopoHeight) :
    b.getNewVersionedBalance key asset topoheight = a.getNewVersionedBalance key asset topoheight := by
  unfold Storage.getNewVersionedBalance
  rw [getBalanceAtMaximumTopoheight_congr h]

theorem mergeEchange_congr (h : SameBalances a b) (blockVersion : BlockVersion) (topoheight : TopoHeight)
    (key : PublicKey) (asset : Hash) (e : Echange P) (received : Option (VersionedBalance P)) :
    mergeEchange b blockVersion topoheight key asset e received =
      mergeEchange a blockVersion topoheight key asset e received := by
  cases received with
  | some final => rfl
  | none =>
    unfold mergeEchange
    rw [getNewVersionedBalance_congr h]

theorem balanceType_getNewVersionedBalance
    {found : VersionedBalance P × Bool} (h : storage.getNewVersionedBalance key asset topoheight = .ok found) :
    found.1.balanceType = .input := by
  unfold Storage.getNewVersionedBalance at h
  cases hget : storage.getBalanceAtMaximumTopoheight key asset topoheight with
  | error e => simp [hget, bind, Except.bind] at h
  | ok version =>
    cases version with
    | none =>
      simp only [hget, bind, Except.bind, pure, Except.pure, Except.ok.injEq] at h
      rw [← h]
      rfl
    | some version =>
      simp only [hget, bind, Except.bind, pure, Except.pure, Except.ok.injEq] at h
      rw [← h]
      rfl

end Lookups

variable {entry received : Option (VersionedBalance P)}

section Senders

variable [RistrettoPoint P]

omit [RistrettoPoint P] in
theorem entryOf_setReceiverVersion (s : ApplicableChainState P) (key : PublicKey) (asset : Hash)
    (version : VersionedBalance P) (k : PublicKey) (a : Hash) :
    entryOf { s with inner := ChainState.setReceiverVersion key asset version s.inner } k a =
      if k = key ∧ a = asset then some version else entryOf s k a :=
  ChainState.receiverBalances_setReceiverVersion key asset version s.inner k a

/-- The balance of an account after its spendings were moved to it. -/
def Merged (s : ApplicableChainState P) (key : PublicKey) (asset : Hash) (echange : Option (Echange P))
    (entry : Option (VersionedBalance P)) : Prop :=
  match echange with
  | none => entry = entryOf s key asset
  | some e => ∃ version, mergeEchange s.inner.storage s.inner.blockVersion s.inner.topoheight key asset e
      (entryOf s key asset) = .ok version ∧ entry = some version

variable {e : Hash × Echange P}

theorem applyEchange_ok (h : applyEchange key e s = .ok ⟨⟩ s') :
    ∃ version, mergeEchange s.inner.storage s.inner.blockVersion s.inner.topoheight key e.1 e.2 (entryOf s key e.1) =
        .ok version ∧ s' = { s with inner := ChainState.setReceiverVersion key e.1 version s.inner } := by
  unfold applyEchange at h
  obtain ⟨_, _, hget, h⟩ := Exec.bind_ok_iff.mp h
  cases hget
  obtain ⟨version, s₁, hmerge, h⟩ := Exec.bind_ok_iff.mp h
  rw [Exec.ofExcept_apply] at hmerge
  cases hm : mergeEchange s.inner.storage s.inner.blockVersion s.inner.topoheight key e.1 e.2
      (s.inner.receiverBalances[key]?.bind (·[e.1]?)) with
  | error error => simp [hm] at hmerge
  | ok merged =>
    simp only [hm, EStateM.Result.ok.injEq] at hmerge
    obtain ⟨rfl, rfl⟩ := hmerge
    cases h
    exact ⟨merged, hm, rfl⟩

/-- What was looked up at the start can be looked up again. -/
theorem Merged.of_same (hsame : SameLookups s s₁)
    (hentry : entryOf s₁ key asset = entryOf s key asset) {echange : Option (Echange P)}
    (h : Merged s₁ key asset echange entry) : Merged s key asset echange entry := by
  cases echange with
  | none => exact h.trans hentry
  | some e =>
    obtain ⟨version, hmerge, rfl⟩ := h
    rw [hentry, hsame.block.blockVersion, hsame.block.topoheight, mergeEchange_congr hsame.balances] at hmerge
    exact ⟨version, hmerge, rfl⟩

theorem applyEchange_merged (h : applyEchange key e s = .ok ⟨⟩ s') :
    Merged s key e.1 (some e.2) (entryOf s' key e.1) ∧
      ∀ k a, ¬(k = key ∧ a = e.1) → entryOf s' k a = entryOf s k a := by
  obtain ⟨version, hmerge, rfl⟩ := applyEchange_ok h
  refine ⟨⟨version, hmerge, ?_⟩, fun k a hne => ?_⟩
  · rw [entryOf_setReceiverVersion, if_pos ⟨rfl, rfl⟩]
  · rw [entryOf_setReceiverVersion, if_neg hne]

/-- The spendings of one account. -/
theorem echanges_merged {assets : FiniteMap Hash (Echange P)}
    (h : assets.toList.forM (applyEchange key) s = .ok ⟨⟩ s') (asset : Hash) :
    Merged s key asset assets[asset]? (entryOf s' key asset) := by
  have hloop := Exec.forM_toList (k := asset) (I := SameLookups s) (v := fun s₁ => entryOf s₁ key asset)
    (R := fun e entry => Merged s key asset (some e) entry) (.refl s) ?_ ?_ ?_ h
  · cases hecho : assets[asset]? with
    | none =>
      rw [hecho] at hloop
      exact hloop
    | some e =>
      rw [hecho] at hloop
      exact hloop
  · exact fun e s₁ s₂ hsame hstep => hsame.steps (by simp) (by simp) (Steps.of_ok (applyEchange_steps key e) hstep)
  · exact fun e s₁ s₂ _ hsame hentry hstep => (applyEchange_merged hstep).1.of_same hsame hentry
  · exact fun e s₁ s₂ hne _ hstep => (applyEchange_merged hstep).2 key asset fun hc => hne hc.2.symm

/-- The spendings of an account leave the other ones alone. -/
theorem echanges_others {assets : List (Hash × Echange P)}
    (h : assets.forM (applyEchange key) s = .ok ⟨⟩ s') (hne : k ≠ key) (a : Hash) : entryOf s' k a = entryOf s k a := by
  refine Exec.forM_keeps (I := fun s₁ => entryOf s₁ k a = entryOf s k a) ?_ rfl h
  intro e _ s₁ s₂ hentry hstep
  exact ((applyEchange_merged hstep).2 k a fun hc => hne hc.1).trans hentry

/-- Up to the spendings of a sender, no balance changes. -/
theorem applyAccount_start {e : PublicKey × Account P} (h : applyAccount e s = .ok ⟨⟩ s') :
    ∃ s₁, Steps [.receiver, .nonce, .multisig] s s₁ ∧ (∀ k a, entryOf s₁ k a = entryOf s k a) ∧
      e.2.assets.toList.forM (applyEchange e.1) s₁ = .ok ⟨⟩ s' := by
  unfold applyAccount at h
  obtain ⟨_, _, hget, h⟩ := Exec.bind_ok_iff.mp h
  cases hget
  obtain ⟨⟨⟩, s₁, hnonce, h⟩ := Exec.bind_ok_iff.mp h
  cases hnonce
  obtain ⟨⟨⟩, s₂, hmultisig, h⟩ := Exec.bind_ok_iff.mp h
  obtain ⟨⟨⟩, s₃, hreceiver, h⟩ := Exec.bind_ok_iff.mp h
  cases hreceiver
  have hsteps₁ : Steps [.receiver, .nonce, .multisig] s
      (s.withStorage (·.setLastNonceTo e.1 s.inner.topoheight e.2.nonce)) := .single (.nonce (by simp) e.1 e.2.nonce)
  have hsteps₂ := Steps.of_ok (applyMultisig_steps e) hmultisig
  have hentries : s₂.inner.receiverBalances = s.inner.receiverBalances :=
    hsteps₂.receiverBalances (by decide)
  have hsteps : Steps [.receiver, .nonce, .multisig] s s₂ := hsteps₁.trans (hsteps₂.mono (by simp))
  refine ⟨_, hsteps.trans (.single (.receiver List.mem_cons_self _)), fun k a => ?_, h⟩
  refine (ChainState.receiverBalances_insert_getD s₂.inner e.1 k a).trans ?_
  rw [hentries]
  rfl

theorem applyAccount_merged {e : PublicKey × Account P} (h : applyAccount e s = .ok ⟨⟩ s') :
    (∀ asset, Merged s e.1 asset e.2.assets[asset]? (entryOf s' e.1 asset)) ∧
      ∀ k a, k ≠ e.1 → entryOf s' k a = entryOf s k a := by
  obtain ⟨s₁, hsteps, hentries, hassets⟩ := applyAccount_start h
  refine ⟨fun asset => ?_, fun k a hne => (echanges_others hassets hne a).trans (hentries k a)⟩
  exact (echanges_merged hassets asset).of_same ((SameLookups.refl s).steps (by simp) (by simp) hsteps) (hentries _ _)

/-- After the senders, every balance has its spendings. -/
theorem accounts_merged (h : s.inner.accounts.toList.forM applyAccount s = .ok ⟨⟩ s')
    (key : PublicKey) (asset : Hash) : Merged s key asset (echangeOf s key asset) (entryOf s' key asset) := by
  have hloop := Exec.forM_toList (k := key) (I := SameLookups s) (v := fun s₁ => entryOf s₁ key asset)
    (R := fun account entry => Merged s key asset account.assets[asset]? entry) (.refl s) ?_ ?_ ?_ h
  · unfold echangeOf
    cases haccount : s.inner.accounts[key]? with
    | none =>
      rw [haccount] at hloop
      exact hloop
    | some account =>
      rw [haccount] at hloop
      exact hloop
  · exact fun e s₁ s₂ hsame hstep => hsame.steps (by simp) (by simp) (Steps.of_ok (applyAccount_steps e) hstep)
  · exact fun account s₁ s₂ _ hsame hentry hstep => ((applyAccount_merged hstep).1 asset).of_same hsame hentry
  · exact fun e s₁ s₂ hne _ hstep => (applyAccount_merged hstep).2 key asset hne.symm

end Senders

section Transfers

variable [RistrettoPoint P]

/-- The balance of an account after a transfer of the contracts. -/
def Credited (s : ApplicableChainState P) (key : PublicKey) (asset : Hash) (amount : Option Nat)
    (entry : Option (VersionedBalance P)) : Prop :=
  match amount with
  | none => entry = entryOf s key asset
  | some amount => ∃ version : VersionedBalance P,
      (entryOf s key asset = some version ∨ (entryOf s key asset = none ∧
        ∃ new, s.inner.storage.getNewVersionedBalance key asset s.inner.topoheight = .ok (version, new))) ∧
      entry = some { version with finalBalance := version.finalBalance.addScalar amount }

theorem Credited.of_same (hsame : SameLookups s s₁)
    (hentry : entryOf s₁ key asset = entryOf s key asset) {amount : Option Nat}
    (h : Credited s₁ key asset amount entry) : Credited s key asset amount entry := by
  cases amount with
  | none => exact h.trans hentry
  | some amount =>
    obtain ⟨version, hfound, rfl⟩ := h
    rw [hentry, hsame.block.topoheight, getNewVersionedBalance_congr hsame.balances] at hfound
    exact ⟨version, hfound, rfl⟩

omit [RistrettoPoint P] in
theorem entryOf_putReceiverBalance (s : ApplicableChainState P) (key : PublicKey) (asset : Hash) (ct : Ciphertext P)
    (k : PublicKey) (a : Hash) :
    entryOf { s with inner := ChainState.putReceiverBalance key asset ct s.inner } k a =
      if k = key ∧ a = asset then (entryOf s key asset).map (fun version => { version with finalBalance := ct })
      else entryOf s k a := by
  unfold ChainState.putReceiverBalance
  cases hentry : s.inner.receiverBalances[key]?.bind (·[asset]?) with
  | none =>
    dsimp only
    by_cases hka : k = key ∧ a = asset
    · obtain ⟨rfl, rfl⟩ := hka
      rw [if_pos ⟨rfl, rfl⟩, show entryOf s k a = none from hentry]
      rfl
    · rw [if_neg hka]
  | some version =>
    refine (entryOf_setReceiverVersion s key asset _ k a).trans ?_
    rw [show entryOf s key asset = some version from hentry, Option.map_some]

theorem applyContractTransfer_credited {e : Hash × Nat} (h : applyContractTransfer key e s = .ok ⟨⟩ s') :
    Credited s key e.1 (some e.2) (entryOf s' key e.1) ∧
      ∀ k a, ¬(k = key ∧ a = e.1) → entryOf s' k a = entryOf s k a := by
  unfold applyContractTransfer at h
  obtain ⟨balance, s₁, hload, h⟩ := Exec.bind_ok_iff.mp h
  cases h
  unfold liftInner at hload
  rw [ChainState.internalGetReceiverBalance_eq] at hload
  have hwith : ∀ k a, entryOf { s with inner := s.inner.withReceiver key } k a = entryOf s k a :=
    fun k a => ChainState.receiverBalances_insert_getD s.inner key k a
  cases hentry : s.inner.receiverBalances[key]?.bind (·[e.1]?) with
  | some version =>
    simp only [hentry, EStateM.Result.ok.injEq] at hload
    obtain ⟨rfl, rfl⟩ := hload
    refine ⟨⟨version, .inl hentry, ?_⟩, fun k a hne => ?_⟩
    · rw [entryOf_putReceiverBalance, if_pos ⟨rfl, rfl⟩, hwith]
      exact congrArg (Option.map _) hentry
    · rw [entryOf_putReceiverBalance, if_neg hne, hwith]
  | none =>
    cases hnew : s.inner.storage.getNewVersionedBalance key e.1 s.inner.topoheight with
    | error error => simp [hentry, hnew] at hload
    | ok found =>
      obtain ⟨version, new⟩ := found
      simp only [hentry, hnew, EStateM.Result.ok.injEq] at hload
      obtain ⟨rfl, rfl⟩ := hload
      have hset : ∀ k a, entryOf { s with inner := ChainState.setReceiverVersion key e.1 version (s.inner.withReceiver key) } k a =
          if k = key ∧ a = e.1 then some version else entryOf s k a := by
        intro k a
        refine (ChainState.receiverBalances_setReceiverVersion key e.1 version (s.inner.withReceiver key) k a).trans ?_
        exact congrArg (ite _ _) (hwith k a)
      refine ⟨⟨version, .inr ⟨hentry, new, hnew⟩, ?_⟩, fun k a hne => ?_⟩
      · rw [entryOf_putReceiverBalance, if_pos ⟨rfl, rfl⟩, hset, if_pos ⟨rfl, rfl⟩]
        rfl
      · rw [entryOf_putReceiverBalance, if_neg hne, hset, if_neg hne]

theorem assetTransfers_credited {amounts : FiniteMap Hash Nat}
    (h : amounts.toList.forM (applyContractTransfer key) s = .ok ⟨⟩ s') (asset : Hash) :
    Credited s key asset amounts[asset]? (entryOf s' key asset) := by
  have hloop := Exec.forM_toList (k := asset) (I := SameLookups s) (v := fun s₁ => entryOf s₁ key asset)
    (R := fun amount entry => Credited s key asset (some amount) entry) (.refl s) ?_ ?_ ?_ h
  · cases hamount : amounts[asset]? with
    | none =>
      rw [hamount] at hloop
      exact hloop
    | some amount =>
      rw [hamount] at hloop
      exact hloop
  · exact fun e s₁ s₂ hsame hstep => hsame.steps (by simp) (by simp) (Steps.of_ok (applyContractTransfer_steps key e) hstep)
  · exact fun amount s₁ s₂ _ hsame hentry hstep => (applyContractTransfer_credited hstep).1.of_same hsame hentry
  · exact fun e s₁ s₂ hne _ hstep => (applyContractTransfer_credited hstep).2 key asset fun hc => hne hc.2.symm

/-- The amount that the contracts of a block transfer to an account in an asset. -/
def transferOf (tracker : ContractEventTracker) (key : PublicKey) (asset : Hash) : Option Nat :=
  tracker.transfers[key]?.bind (·[asset]?)

theorem transfers_credited {tracker : ContractEventTracker}
    (h : tracker.transfers.toList.forM (fun e => e.2.toList.forM (applyContractTransfer e.1)) s = .ok ⟨⟩ s')
    (key : PublicKey) (asset : Hash) : Credited s key asset (transferOf tracker key asset) (entryOf s' key asset) := by
  have hsteps : ∀ e : PublicKey × FiniteMap Hash Nat,
      Exec.Moves (Steps (P := P) [.receiver]) (e.2.toList.forM (applyContractTransfer e.1)) :=
    fun e => Steps.forM _ fun a _ => applyContractTransfer_steps e.1 a
  have hloop := Exec.forM_toList (k := key) (I := SameLookups s) (v := fun s₁ => entryOf s₁ key asset)
    (R := fun amounts entry => Credited s key asset amounts[asset]? entry) (.refl s) ?_ ?_ ?_ h
  · unfold transferOf
    cases hamounts : tracker.transfers[key]? with
    | none =>
      rw [hamounts] at hloop
      exact hloop
    | some amounts =>
      rw [hamounts] at hloop
      exact hloop
  · exact fun e s₁ s₂ hsame hstep => hsame.steps (by simp) (by simp) (Steps.of_ok (hsteps e) hstep)
  · exact fun amounts s₁ s₂ _ hsame hentry hstep => (assetTransfers_credited hstep asset).of_same hsame hentry
  · intro e s₁ s₂ hne _ hstep
    refine Exec.forM_keeps (I := fun s₃ => entryOf s₃ key asset = entryOf s₁ key asset) ?_ rfl hstep
    intro a _ s₃ s₄ hentry ha
    exact ((applyContractTransfer_credited ha).2 key asset fun hc => hne hc.1.symm).trans hentry

end Transfers

section Stored

variable [RistrettoPoint P]

open Storage (getBalanceKeyFor)

section

omit [RistrettoPoint P]

theorem storeBalances_history {balances : FiniteMap Hash (VersionedBalance P)}
    (h : balances.toList.forM (fun b => modifyStorage (·.setLastBalanceTo key b.1 t b.2)) s = .ok ⟨⟩ s') (asset : Hash) :
    s'.inner.storage.balances.history (getBalanceKeyFor key asset) =
      (s.inner.storage.balances.history (getBalanceKeyFor key asset)).extend t balances[asset]? := by
  have hloop := Exec.forM_toList (k := asset) (I := fun _ => True)
    (v := fun s₁ => s₁.inner.storage.balances.history (getBalanceKeyFor key asset))
    (R := fun version history => history = (s.inner.storage.balances.history (getBalanceKeyFor key asset)).push t version)
    trivial (fun _ _ _ _ _ => trivial) ?_ ?_ h
  · cases hversion : balances[asset]? with
    | none =>
      rw [hversion] at hloop
      exact hloop
    | some version =>
      rw [hversion] at hloop
      exact hloop
  · intro version s₁ s₂ _ _ hbefore hstep
    cases hstep
    rw [← hbefore]
    exact VersionedTrees.history_setLast_self _ _ _ _
  · intro e s₁ s₂ hne _ hstep
    cases hstep
    exact VersionedTrees.history_setLast_of_ne _ _ _ _ fun hc => hne (Storage.keyBytes_append_inj hc).2

theorem storeBalances_others {balances : List (Hash × VersionedBalance P)}
    (h : balances.forM (fun b => modifyStorage (·.setLastBalanceTo key b.1 t b.2)) s = .ok ⟨⟩ s') (hne : key ≠ k)
    (asset : Hash) : s'.inner.storage.balances.history (getBalanceKeyFor k asset) =
      s.inner.storage.balances.history (getBalanceKeyFor k asset) := by
  refine Exec.forM_keeps (I := fun s₁ => s₁.inner.storage.balances.history (getBalanceKeyFor k asset) =
    s.inner.storage.balances.history (getBalanceKeyFor k asset)) ?_ rfl h
  intro b _ s₁ s₂ hkept hstep
  cases hstep
  refine Eq.trans ?_ hkept
  exact VersionedTrees.history_setLast_of_ne _ _ _ _ fun hc => hne (Storage.keyBytes_append_inj hc).1

theorem Steps.balances (hkinds : .balance ∉ kinds)
    (h : Steps kinds s s') : s'.inner.storage.balances = s.inner.storage.balances := by
  refine StepsAt.eq_of_step (fun s => s.inner.storage.balances) (fun _ _ hstep => ?_) h
  cases hstep with
  | balance hkind key asset v => exact absurd hkind hkinds
  | _ => rfl

end

omit [RistrettoPoint P] in
theorem applyBalances_history {e : PublicKey × FiniteMap Hash (VersionedBalance P)}
    (h : applyBalances e s = .ok ⟨⟩ s') :
    (∀ asset, s'.inner.storage.balances.history (getBalanceKeyFor e.1 asset) =
      (s.inner.storage.balances.history (getBalanceKeyFor e.1 asset)).extend s.inner.topoheight e.2[asset]?) ∧
    ∀ k asset, e.1 ≠ k → s'.inner.storage.balances.history (getBalanceKeyFor k asset) =
      s.inner.storage.balances.history (getBalanceKeyFor k asset) := by
  unfold applyBalances at h
  obtain ⟨_, _, hget, h⟩ := Exec.bind_ok_iff.mp h
  cases hget
  obtain ⟨⟨⟩, s₁, hstore, h⟩ := Exec.bind_ok_iff.mp h
  obtain ⟨⟨⟩, s₂, hnonce, hregister⟩ := Exec.bind_ok_iff.mp h
  have hafter : s'.inner.storage.balances = s₁.inner.storage.balances := by
    rw [Steps.balances (by simp) (Steps.of_ok (registerAccount_steps e.1) hregister),
      Steps.balances (by simp) (Steps.of_ok (registerNonce_steps e.1) hnonce)]
  rw [hafter]
  exact ⟨storeBalances_history hstore, fun k asset hne => storeBalances_others hstore hne asset⟩

omit [RistrettoPoint P] in
theorem balances_history
    (h : s.inner.receiverBalances.toList.forM applyBalances s = .ok ⟨⟩ s') (key : PublicKey) (asset : Hash) :
    s'.inner.storage.balances.history (getBalanceKeyFor key asset) =
      (s.inner.storage.balances.history (getBalanceKeyFor key asset)).extend s.inner.topoheight (entryOf s key asset) := by
  have hloop := Exec.forM_toList (k := key) (I := fun s₁ => s₁.inner.topoheight = s.inner.topoheight)
    (v := fun s₁ => s₁.inner.storage.balances.history (getBalanceKeyFor key asset))
    (R := fun assets history => history =
      (s.inner.storage.balances.history (getBalanceKeyFor key asset)).extend s.inner.topoheight assets[asset]?)
    rfl ?_ ?_ ?_ h
  · unfold entryOf
    cases hassets : s.inner.receiverBalances[key]? with
    | none =>
      rw [hassets] at hloop
      exact hloop
    | some assets =>
      rw [hassets] at hloop
      exact hloop
  · exact fun e s₁ s₂ htopo hstep => (Steps.of_ok (applyBalances_steps e) hstep).sameBlock.topoheight.trans htopo
  · intro assets s₁ s₂ _ htopo hbefore hstep
    rw [(applyBalances_history hstep).1 asset, hbefore, htopo]
  · exact fun e s₁ s₂ hne _ hstep => (applyBalances_history hstep).2 key asset hne

end Stored

section Changes

variable [RistrettoPoint P]

open Storage (getBalanceKeyFor)

variable {env : Env P}

/-- The balances that writing a block leaves: spendings are moved to what was received, then come the transfers of
the contracts, and everything that is held in the end is stored. The transfers see the assets that the block created. -/
theorem applyChanges_balances (h : applyChanges env s = .ok ⟨⟩ s') :
    ∃ s₃ : ApplicableChainState P, SameBlock s s₃ ∧ s₃.inner.storage.balances = s.inner.storage.balances ∧
      ∀ key asset, Merged s key asset (echangeOf s key asset) (entryOf s₃ key asset) ∧
        ∃ entry, Credited s₃ key asset (transferOf s.contractManager.tracker key asset) entry ∧
          s'.inner.storage.balances.history (getBalanceKeyFor key asset) =
            (s.inner.storage.balances.history (getBalanceKeyFor key asset)).extend s.inner.topoheight entry := by
  obtain ⟨s₁, s₂, s₃, s₄, s₅, s₆, s₇, hstages⟩ := applyChanges_ok h
  have haccounts := accounts_steps hstages.accounts
  have hassets := assets_steps hstages.assets
  have hcaches := caches_steps hstages.caches
  have htransfers := transfers_steps hstages.transfers
  have hcontracts := contracts_steps hstages.contracts
  have houtputs := outputs_steps hstages.outputs
  have hblock₃ : SameBlock s s₃ := haccounts.sameBlock.trans (hassets.sameBlock.trans hcaches.sameBlock)
  have hblock₆ : SameBlock s s₆ := hblock₃.trans (htransfers.sameBlock.trans (hcontracts.sameBlock.trans houtputs.sameBlock))
  have hbalances₃ : s₃.inner.storage.balances = s.inner.storage.balances := by
    rw [Steps.balances (by simp) hcaches, Steps.balances (by simp) hassets, Steps.balances (by simp) haccounts]
  have hbalances₆ : s₆.inner.storage.balances = s.inner.storage.balances := by
    rw [Steps.balances (by simp) houtputs, Steps.balances (by simp) hcontracts, Steps.balances (by simp) htransfers,
      hbalances₃]
  have hentries₃ : ∀ key asset, entryOf s₃ key asset = entryOf s₁ key asset := by
    intro key asset
    unfold entryOf
    rw [Steps.receiverBalances (by simp) hcaches, Steps.receiverBalances (by simp) hassets]
  have hentries₆ : ∀ key asset, entryOf s₆ key asset = entryOf s₄ key asset := by
    intro key asset
    unfold entryOf
    rw [Steps.receiverBalances (by simp) houtputs, Steps.receiverBalances (by simp) hcontracts]
  refine ⟨s₃, hblock₃, hbalances₃, fun key asset => ⟨?_, entryOf s₄ key asset, ?_, ?_⟩⟩
  · rw [hentries₃]
    exact accounts_merged hstages.accounts key asset
  · exact transfers_credited hstages.transfers key asset
  · rw [hstages.written, ← hentries₆, ← hbalances₆, ← hblock₆.topoheight]
    exact balances_history hstages.balances key asset

variable {version : VersionedBalance P}

theorem balanceType_mergeEchange {blockVersion : BlockVersion} {e : Echange P}
    (h : mergeEchange storage blockVersion topoheight key asset e received = .ok version) : version.balanceType ≠ .input := by
  cases received with
  | some final =>
    cases h
    exact nofun
  | none =>
    unfold mergeEchange at h
    dsimp only at h
    split at h
    · split at h
      · cases h
      · split at h
        · cases h
          exact nofun
        · cases h
          exact nofun
    · cases h
      exact nofun

theorem balanceType_of_spent (h : applyChanges env s = .ok ⟨⟩ s')
    {e : Echange P} (he : echangeOf s key asset = some e) :
    ∃ version, s'.inner.storage.balances.version (getBalanceKeyFor key asset) s.inner.topoheight = some version ∧
      version.balanceType ≠ .input := by
  obtain ⟨s₃, -, -, hentries⟩ := applyChanges_balances h
  obtain ⟨hmerged, entry, hcredited, hhistory⟩ := hentries key asset
  rw [he] at hmerged
  obtain ⟨merged, hmerge, hentry₃⟩ := hmerged
  have htype := balanceType_mergeEchange hmerge
  have hfinal : ∃ version : VersionedBalance P, entry = some version ∧ version.balanceType ≠ .input := by
    cases htransfer : transferOf s.contractManager.tracker key asset with
    | none =>
      rw [htransfer] at hcredited
      exact ⟨merged, hcredited.trans hentry₃, htype⟩
    | some amount =>
      rw [htransfer] at hcredited
      obtain ⟨version, hfound | ⟨hnone, -⟩, hentry⟩ := hcredited
      · rw [hentry₃, Option.some.injEq] at hfound
        subst hfound
        exact ⟨_, hentry, htype⟩
      · rw [hentry₃] at hnone
        cases hnone
  obtain ⟨version, rfl, hinput⟩ := hfinal
  refine ⟨version, ?_, hinput⟩
  have hversion := congrArg (fun history => history.version s.inner.topoheight) hhistory
  exact hversion.trans (Lib.History.version_push_self _ _ _)

theorem balanceType_of_unspent (h : applyChanges env s = .ok ⟨⟩ s') (he : echangeOf s key asset = none)
    (hreceived : ∀ version, entryOf s key asset = some version → version.balanceType = .input)
    (hnew : s.inner.storage.balances.version (getBalanceKeyFor key asset) s.inner.topoheight = none)
    (hversion : s'.inner.storage.balances.version (getBalanceKeyFor key asset) s.inner.topoheight = some version) :
    version.balanceType = .input := by
  obtain ⟨s₃, -, -, hentries⟩ := applyChanges_balances h
  obtain ⟨hmerged, entry, hcredited, hhistory⟩ := hentries key asset
  rw [he] at hmerged
  have hmerged : entryOf s₃ key asset = entryOf s key asset := hmerged
  have hstored := (congrArg (fun history => history.version s.inner.topoheight) hhistory).symm.trans hversion
  cases entry with
  | none => exact absurd (hstored.symm.trans hnew) (Option.some_ne_none _)
  | some stored =>
    rw [Lib.History.extend_some, Lib.History.version_push_self, Option.some.injEq] at hstored
    subst hstored
    cases htransfer : transferOf s.contractManager.tracker key asset with
    | none =>
      rw [htransfer] at hcredited
      exact hreceived stored (hmerged.symm.trans hcredited.symm)
    | some amount =>
      rw [htransfer] at hcredited
      obtain ⟨found, hfound | ⟨-, new, hload⟩, hentry⟩ := hcredited
      · rw [Option.some.injEq] at hentry
        rw [hentry]
        exact hreceived found (hmerged.symm.trans hfound)
      · rw [Option.some.injEq] at hentry
        rw [hentry]
        exact balanceType_getNewVersionedBalance hload

end Changes

end Xelis.State.ApplicableChainState
