import Xelis.Blockchain.FinalBalances

namespace Xelis.Blockchain

open Lib (FiniteMap Exec)
open Storage (keyBytes)
open State State.ApplicableChainState
open Transaction (Touch Touches Footprint Selected InBlock)

variable {P : Type} [RistrettoPoint P]

variable {key : PublicKey} {asset txHash : Hash}

section States

/-- What holds of the state of the block at `t` while its transactions are executed. -/
structure Promised (t : TopoHeight) (s : ApplicableChainState P) : Prop where
  topoheight : s.inner.topoheight = t
  nonces : s.inner.storage.nonces.Below t
  balances : s.inner.storage.balances.Below t
  received : ∀ key asset version, ApplicableChainState.entryOf s key asset = some version → version.balanceType = .input
  selected : Selected s

variable {t : TopoHeight} {tx : Transaction} {s s' : ApplicableChainState P}
variable {account account' : Account P}

omit [RistrettoPoint P] in
theorem Promised.setAccount (h : Promised t s)
    (hfind : s.inner.findAccount key = .ok account) (hselected : ∀ (asset : Hash) e, account'.assets[asset]? = some e →
      account.assets[asset]? = some e ∨ e.getBalance.2 = e) :
    Promised t { s with inner := ChainState.setAccount key account' s.inner } := by
  refine ⟨h.topoheight, h.nonces, h.balances, h.received, fun k asset e he => ?_⟩
  unfold echangeOf at he
  by_cases hkey : key = k
  · subst hkey
    rw [ChainState.accounts_setAccount, Option.bind_some] at he
    rcases hselected asset e he with hold | hnew
    · cases haccount : s.inner.accounts[key]? with
      | some found =>
        simp only [ChainState.findAccount, haccount, Except.ok.injEq] at hfind
        subst hfind
        refine h.selected key asset e ?_
        unfold echangeOf
        rw [haccount, Option.bind_some, hold]
      | none =>
        simp only [ChainState.findAccount, haccount] at hfind
        rw [ChainState.assets_createSenderAccount hfind, Std.ExtTreeMap.getElem?_empty] at hold
        cases hold
    · exact hnew
  · refine h.selected k asset e ?_
    unfold echangeOf
    rw [← he]
    exact congrArg (Option.bind · _) (FiniteMap.getElem?_insert_of_ne _ _ hkey).symm

omit [RistrettoPoint P] in
theorem setEchange_selected {e : Echange P} (he : e.getBalance.2 = e) (a : Hash)
    (e' : Echange P) (h : (ChainState.setEchange account asset e).assets[a]? = some e') :
    account.assets[a]? = some e' ∨ e'.getBalance.2 = e' := by
  by_cases ha : asset = a
  · subst ha
    rw [ChainState.assets_setEchange, Option.some.injEq] at h
    rw [← h]
    exact .inr he
  · rw [ChainState.setEchange, FiniteMap.getElem?_insert_of_ne _ _ ha] at h
    exact .inl h

theorem Touch.promised (h : Promised t s) (htouch : Touch tx s s') : Promised t s' := by
  cases htouch with
  | receiver key =>
    refine ⟨h.topoheight, h.nonces, h.balances, fun k a version hentry => ?_, h.selected⟩
    refine h.received k a version ?_
    rw [← hentry]
    exact (ChainState.receiverBalances_insert_getD s.inner key k a).symm
  | load key asset found hnone hload =>
    refine ⟨h.topoheight, h.nonces, h.balances, fun k a version hentry => ?_, h.selected⟩
    rw [entryOf_setReceiverVersion] at hentry
    split at hentry
    · rw [Option.some.injEq] at hentry
      rw [← hentry]
      exact balanceType_getNewVersionedBalance hload
    · exact h.received k a version hentry
  | credit key asset ct =>
    have hsame : Promised t { s with inner := ChainState.putReceiverBalance key asset ct s.inner } := by
      have hframe : ∀ k a version, ApplicableChainState.entryOf { s with inner := ChainState.putReceiverBalance key asset ct s.inner } k a =
          some version → version.balanceType = .input := by
        intro k a version hentry
        rw [entryOf_putReceiverBalance] at hentry
        split at hentry
        · obtain ⟨found, hfound, rfl⟩ := Option.map_eq_some_iff.mp hentry
          exact h.received key asset found hfound
        · exact h.received k a version hentry
      unfold ChainState.putReceiverBalance at hframe ⊢
      split
      · rename_i version hversion
        rw [hversion] at hframe
        exact ⟨h.topoheight, h.nonces, h.balances, hframe, h.selected⟩
      · exact h
    exact hsame
  | sender asset account e hfind =>
    exact h.setAccount (ChainState.findSender_ok hfind).1 (setEchange_selected (congrArg Prod.snd (Echange.getBalance_getBalance e)))
  | spend asset account e left output hfind =>
    exact h.setAccount (ChainState.findSender_ok hfind).1 (setEchange_selected (congrArg Prod.snd (Echange.getBalance_spend e left output)))
  | account account account' hfind hassets hprevious hnonce =>
    refine h.setAccount hfind fun asset e he => .inl ?_
    rw [← hassets]
    exact he
  | contract hash c => exact { h with }
  | collect gas burned => exact { h with }
  | outputs txHash outputs => exact { h with }

theorem Touches.promised (h : Promised t s) (htouches : Touches tx s s') : Promised t s' := by
  induction htouches with
  | refl => exact h
  | tail _ hstep ih => exact Touch.promised ih hstep

theorem Footprint.promised {env : Env P} (h : Promised t s) (hfootprint : Footprint env tx txHash s s') :
    Promised t s' := by
  rcases hfootprint with htouches | ⟨s₁, s₂, h₁, ⟨start, module, invoke, parameters, maxGas, usedGas, final, -, -, rfl⟩, h₂⟩
  · exact Touches.promised h htouches
  · have hs₁ := Touches.promised h h₁
    refine Touches.promised ?_ h₂
    exact ⟨hs₁.topoheight, hs₁.nonces, hs₁.balances, hs₁.received, hs₁.selected⟩

omit [RistrettoPoint P] in
theorem nonce_createSenderAccount {storage : Storage P}
    (hbelow : storage.nonces.Below t) (h : ChainState.createSenderAccount storage key t = .ok account) :
    lastNonce storage.nonces key = some account.nonce.nonce := by
  obtain ⟨found, multisig, hget, -, rfl⟩ := ChainState.createSenderAccount_ok h
  exact getNonce_of_below hbelow hget

/-- No nonce of the sender is after the one that follows the transaction. -/
def NonceBound (tx : Transaction) (s : ApplicableChainState P) : Prop :=
  ∀ account, s.inner.findAccount tx.source = .ok account → account.nonce.nonce ≤ tx.nonce + 1

theorem Touch.nonceBound (h : NonceBound tx s) (htouch : Touch tx s s') : NonceBound tx s' := by
  have hset : ∀ account' : Account P, account'.nonce.nonce ≤ tx.nonce + 1 →
      NonceBound tx { s with inner := ChainState.setAccount tx.source account' s.inner } := by
    intro account' hle account hfind
    rw [ChainState.findAccount, ChainState.accounts_setAccount, Except.ok.injEq] at hfind
    rw [← hfind]
    exact hle
  cases htouch with
  | credit key asset ct =>
    unfold ChainState.putReceiverBalance
    split
    · exact h
    · exact h
  | sender asset account e hfind => exact hset _ (h account (ChainState.findSender_ok hfind).1)
  | spend asset account e left output hfind => exact hset _ (h account (ChainState.findSender_ok hfind).1)
  | account account account' hfind hassets hprevious hnonce =>
    refine hset account' ?_
    rcases hnonce with hkept | hnew
    · rw [hkept]
      exact h account hfind
    · exact Nat.le_of_eq hnew
  | _ => exact h

theorem Touches.nonceBound (h : NonceBound tx s) (htouches : Touches tx s s') : NonceBound tx s' := by
  induction htouches with
  | refl => exact h
  | tail _ hstep ih => exact Touch.nonceBound ih hstep

theorem Footprint.nonceBound {env : Env P} (h : NonceBound tx s)
    (hfootprint : Footprint env tx txHash s s') : NonceBound tx s' := by
  rcases hfootprint with htouches | ⟨s₁, s₂, h₁, ⟨start, module, invoke, parameters, maxGas, usedGas, final, -, -, rfl⟩, h₂⟩
  · exact Touches.nonceBound h htouches
  · have hs₁ : NonceBound tx s₁ := Touches.nonceBound h h₁
    refine Touches.nonceBound ?_ h₂
    exact hs₁

end States

section Runs

variable {t : TopoHeight} {env : Env P} {hash : Hash}

/-- What holds while the transactions of the block at `t` are executed, also after some of them failed. -/
structure RunPromised (t : TopoHeight) (run : BlockRun P) : Prop where
  state : Promised t run.chainState
  checked : ∀ (key : PublicKey) (entry : AccountEntry) n, run.nonceChecker.cache[key]? = some entry →
    lastNonce run.storage.nonces key = some n → n ≤ entry.expectedNonce
  senders : ∀ (key : PublicKey) (account : Account P), run.chainState.inner.accounts[key]? = some account →
    ∃ entry : AccountEntry, run.nonceChecker.cache[key]? = some entry ∧ account.nonce.nonce ≤ entry.expectedNonce

variable {run run' : BlockRun P}
variable {tx : Transaction} {nonceChecker : NonceChecker}

section

omit [RistrettoPoint P]

theorem RunPromised.link (h : RunPromised t run) (txHash hash : Hash) : RunPromised t (run.link txHash hash) := by
  refine ⟨⟨h.state.topoheight, ?_, ?_, h.state.received, h.state.selected⟩, fun key entry n hentry hn => ?_, h.senders⟩
  · show (run.link txHash hash).storage.nonces.Below t
    rw [nonces_link]
    exact h.state.nonces
  · show (run.link txHash hash).storage.balances.Below t
    rw [balances_link]
    exact h.state.balances
  · rw [nonces_link] at hn
    exact h.checked key entry n hentry hn

theorem RunPromised.entryFor (h : RunPromised t run) {entry : AccountEntry}
    (hentry : run.nonceChecker.entryFor run.storage key t = .ok entry) :
    (∀ n, lastNonce run.storage.nonces key = some n → n ≤ entry.expectedNonce) ∧
      ∀ account, run.chainState.inner.findAccount key = .ok account → account.nonce.nonce ≤ entry.expectedNonce := by
  have hlast : ∀ n, lastNonce run.storage.nonces key = some n → n ≤ entry.expectedNonce := by
    intro n hn
    rcases entryFor_ok h.state.nonces hentry with hcached | ⟨-, hlast⟩
    · exact h.checked key entry n hcached hn
    · exact Nat.le_of_eq (Option.some.inj (hn.symm.trans hlast))
  refine ⟨hlast, fun account hfind => ?_⟩
  unfold ChainState.findAccount at hfind
  cases haccount : run.chainState.inner.accounts[key]? with
  | some found =>
    simp only [haccount, Except.ok.injEq] at hfind
    subst hfind
    obtain ⟨cached, hcached, hle⟩ := h.senders key found haccount
    simp only [NonceChecker.entryFor, hcached, Except.ok.injEq] at hentry
    subst hentry
    exact hle
  | none =>
    simp only [haccount, h.state.topoheight] at hfind
    exact hlast _ (nonce_createSenderAccount h.state.nonces hfind)

theorem RunPromised.inBlock (h : RunPromised t run)
    (hnonce : run.nonceChecker.useNonce run.storage tx.source tx.nonce run.chainState.inner.topoheight =
      .ok (true, nonceChecker)) : InBlock tx run.chainState := by
  rw [h.state.topoheight] at hnonce
  obtain ⟨entry, entry', hentry, -, hexpected, -⟩ := useNonce_ok hnonce
  refine ⟨?_, ?_, h.state.received, h.state.selected, fun account haccount => ?_⟩
  · rw [h.state.topoheight]
    exact h.state.nonces
  · rw [h.state.topoheight]
    exact h.state.balances
  · rw [← hexpected]
    exact (h.entryFor hentry).2 account (by simp only [ChainState.findAccount, haccount])

theorem RunPromised.advance (h : RunPromised t run) {valid : Bool}
    (hnonce : run.nonceChecker.useNonce run.storage tx.source tx.nonce t = .ok (valid, nonceChecker))
    (hchecker : run'.nonceChecker = nonceChecker) (hstate : Promised t run'.chainState)
    (hnonces : run'.storage.nonces = run.storage.nonces)
    (hothers : ∀ key, key ≠ tx.source → run'.chainState.inner.accounts[key]? = run.chainState.inner.accounts[key]?)
    (hsource : ∀ account, run'.chainState.inner.accounts[tx.source]? = some account →
      (valid = true ∧ account.nonce.nonce ≤ tx.nonce + 1) ∨ run.chainState.inner.findAccount tx.source = .ok account) :
    RunPromised t run' := by
  obtain ⟨entry, entry', hentry, hcache, hmoved⟩ := useNonce_ok hnonce
  obtain ⟨hlast, hfound⟩ := h.entryFor hentry
  have hle : entry.expectedNonce ≤ entry'.expectedNonce := by
    cases valid with
    | true => exact (by rw [hmoved.1, hmoved.2]; exact Nat.le_succ _)
    | false => exact Nat.le_of_eq (congrArg (·.expectedNonce) (show entry' = entry from hmoved).symm)
  refine ⟨hstate, fun key found n hfound' hn => ?_, fun key account haccount => ?_⟩
  · rw [hchecker, hcache] at hfound'
    rw [hnonces] at hn
    by_cases hkey : tx.source = key
    · subst hkey
      rw [FiniteMap.getElem?_insert_self', Option.some.injEq] at hfound'
      rw [← hfound']
      exact Nat.le_trans (hlast n hn) hle
    · rw [FiniteMap.getElem?_insert_of_ne _ _ hkey] at hfound'
      exact h.checked key found n hfound' hn
  · rw [hchecker, hcache]
    by_cases hkey : tx.source = key
    · subst hkey
      refine ⟨entry', FiniteMap.getElem?_insert_self' _ _ _, ?_⟩
      rcases hsource account haccount with ⟨rfl, hnext⟩ | hold
      · rw [hmoved.2]
        exact hnext
      · exact Nat.le_trans (hfound account hold) hle
    · rw [hothers key (Ne.symm hkey)] at haccount
      obtain ⟨found, hfound', hbound⟩ := h.senders key account haccount
      exact ⟨found, by rw [FiniteMap.getElem?_insert_of_ne _ _ hkey, hfound'], hbound⟩

end

theorem TransactionStep.promised (h : RunPromised t run)
    (hstep : TransactionStep env hash tx txHash run run') : RunPromised t run' := by
  have happlied : ∀ {nonceChecker : NonceChecker} {r : EStateM.Result (VerificationError BlockchainError) _ PUnit},
      run.nonceChecker.useNonce run.storage tx.source tx.nonce t = .ok (true, nonceChecker) →
      tx.applyWithPartialVerify env txHash run.chainState = r →
      Promised t (Exec.stateOf r) ∧ Transaction.Framed tx run.chainState (Exec.stateOf r) ∧ NonceBound tx (Exec.stateOf r) := by
    intro nonceChecker r hnonce happly
    have hfootprint := Transaction.applyWithPartialVerify_footprint env tx txHash run.chainState
    rw [happly] at hfootprint
    obtain ⟨entry, entry', hentry, -, hexpected, -⟩ := useNonce_ok hnonce
    refine ⟨Footprint.promised h.state hfootprint, hfootprint.framed, Footprint.nonceBound ?_ hfootprint⟩
    intro account hfind
    have hle := (h.entryFor hentry).2 account hfind
    rw [hexpected] at hle
    exact Nat.le_succ_of_le hle
  cases hstep with
  | skipped hexecuted => exact h
  | refused nonceChecker hexecuted hnonce =>
    rw [h.state.topoheight] at hnonce
    refine h.advance hnonce rfl h.state rfl (fun _ _ => rfl) fun account haccount => .inr ?_
    have haccount : run.chainState.inner.accounts[tx.source]? = some account := haccount
    simp only [ChainState.findAccount, haccount]
  | failed nonceChecker e chainState hexecuted hnonce happly =>
    rw [h.state.topoheight] at hnonce
    obtain ⟨hstate, hframed, hbound⟩ := happlied hnonce happly
    refine h.advance hnonce rfl hstate (congrArg (·.nonces) hframed.storage) hframed.accounts fun account haccount => .inl ?_
    have haccount : chainState.inner.accounts[tx.source]? = some account := haccount
    exact ⟨rfl, hbound account (by simp only [Exec.stateOf, ChainState.findAccount, haccount])⟩
  | executed nonceChecker chainState nextNonce inner hexecuted hnonce happly hnext hupdate =>
    rw [h.state.topoheight] at hnonce
    obtain ⟨hstate, hframed, hbound⟩ := happlied hnonce happly
    obtain ⟨entry, entry', hentry, hcache, hexpected, hexpected'⟩ := useNonce_ok hnonce
    have hnew : nextNonce = tx.nonce + 1 := by
      rw [getNewNonce_insert hcache hnext, hexpected']
    obtain ⟨account, hfind, hupdate⟩ := ChainState.internalUpdateAccountNonce_ok hupdate
    have hset : Promised t { chainState with inner } := by
      rw [hupdate]
      exact Promised.setAccount (s := chainState) hstate hfind fun asset e he => .inl he
    have haccounts : ∀ key, key ≠ tx.source → inner.accounts[key]? = run.chainState.inner.accounts[key]? := by
      intro key hkey
      rw [hupdate]
      exact (FiniteMap.getElem?_insert_of_ne _ _ (Ne.symm hkey)).trans (hframed.accounts key hkey)
    have hnonces : inner.storage.nonces = run.storage.nonces := by
      rw [hupdate]
      exact congrArg (·.nonces) hframed.storage
    refine h.advance hnonce rfl ?_ hnonces haccounts fun account' haccount => .inl ⟨rfl, ?_⟩
    · exact { hset with }
    · have haccount : inner.accounts[tx.source]? = some account' := haccount
      rw [hupdate, ChainState.accounts_setAccount, Option.some.injEq] at haccount
      rw [← haccount]
      exact Nat.le_of_eq hnew

theorem executeTransaction_promised {e : Transaction × Hash} (h : RunPromised t run)
    (hrun : executeTransaction env hash e.1 e.2 run = .ok ⟨⟩ run') : RunPromised t run' :=
  TransactionStep.promised (h.link e.2 hash) (executeTransaction_step hrun)

/-- When the nonce of a transaction is taken, nothing of its block is stored yet. -/
def AppliedInBlock (hash : Hash) (e : Transaction × Hash) (run : BlockRun P) : Prop :=
  accepts (run.link e.2 hash) e.1.source e.1.nonce = true → InBlock e.1 (run.link e.2 hash).chainState

omit [RistrettoPoint P] in
theorem RunPromised.applied (h : RunPromised t run) (e : Transaction × Hash) : AppliedInBlock hash e run := by
  intro haccepts
  unfold accepts at haccepts
  split at haccepts
  · rename_i nonceChecker hnonce
    exact (h.link e.2 hash).inBlock hnonce
  · cases haccepts

end Runs

section Orders

variable {env : Env P} {devPublicKey : PublicKey} {t : TopoHeight} {o o' o₁ : Ordering P} {block : Block}
variable {node : Node P} {version : BlockVersion} {baseTopoHeight : TopoHeight} {hash : Hash}
variable {pastBurnedSupply blockReward : Nat}

/-- What holds between two blocks, before the one at `t`, also after transactions that failed. -/
structure OrderPromised (t : TopoHeight) (storage : Storage P) (nonceChecker : NonceChecker) : Prop where
  nonces : storage.nonces.Below t
  balances : storage.balances.Below t
  checked : ∀ (key : PublicKey) (entry : AccountEntry) n, nonceChecker.cache[key]? = some entry →
    lastNonce storage.nonces key = some n → n ≤ entry.expectedNonce

omit [RistrettoPoint P] in
theorem OrderPromised.blockRun (h : OrderPromised t o.storage o.nonceChecker) :
    RunPromised t (o.blockRun node version baseTopoHeight hash block t pastBurnedSupply) where
  state := by
    refine ⟨rfl, h.nonces, h.balances, fun key asset found hentry => ?_, fun key asset e he => ?_⟩
    · simp [ApplicableChainState.entryOf, Ordering.blockRun, BlockRun.new, ApplicableChainState.new, ChainState.new] at hentry
    · simp [echangeOf, Ordering.blockRun, BlockRun.new, ApplicableChainState.new, ChainState.new] at he
  checked := h.checked
  senders key account haccount := by
    simp [Ordering.blockRun, BlockRun.new, ApplicableChainState.new, ChainState.new] at haccount

omit [RistrettoPoint P] in
theorem Steps.balances_below {kinds : List WriteKind} {s s' : ApplicableChainState P} (h : Steps kinds s s')
    (hbelow : s.inner.storage.balances.Below (s.inner.topoheight + 1)) :
    s'.inner.storage.balances.Below (s.inner.topoheight + 1) := by
  unfold Steps at h
  induction h with
  | refl => exact hbelow
  | tail _ hstep ih =>
    cases hstep with
    | balance hkind key asset v => exact ih.setLast (Storage.getBalanceKeyFor key asset) (Nat.lt_succ_self _) v
    | _ => exact ih

/-- Writing a block leaves no nonce behind the one that the checker expects. -/
theorem RunPromised.written {run : BlockRun P} {s s' : ApplicableChainState P} (h : RunPromised t run)
    (hsame : SameBlock run.chainState s) (hnonces : s.inner.storage.nonces = run.storage.nonces)
    (hbalances : s.inner.storage.balances = run.storage.balances) (hwrite : applyChanges env s = .ok ⟨⟩ s') :
    OrderPromised (t + 1) s'.inner.storage run.nonceChecker := by
  have htopo : s.inner.topoheight = t := hsame.topoheight.trans h.state.topoheight
  have hsteps := Steps.of_ok (applyChanges_steps env) hwrite
  refine ⟨?_, ?_, fun key entry n hentry hn => ?_⟩
  · rw [← htopo]
    refine State.ApplicableChainState.Steps.nonces_below hsteps ?_
    rw [hnonces, htopo]
    exact h.state.nonces.mono (Nat.le_succ t)
  · rw [← htopo]
    refine Steps.balances_below hsteps ?_
    rw [hbalances, htopo]
    exact h.state.balances.mono (Nat.le_succ t)
  · have hsettled := applyChanges_nonces hwrite key
    rw [htopo, hnonces, hsame.accounts] at hsettled
    cases haccount : run.chainState.inner.accounts[key]? with
    | some account =>
      rw [haccount] at hsettled
      obtain ⟨entry', hentry', hle⟩ := h.senders key account haccount
      rw [hentry, Option.some.injEq] at hentry'
      subst hentry'
      rw [(NonceSettled.stored h.state.nonces hsettled rfl).2, Option.some.injEq] at hn
      exact hn ▸ hle
    | none =>
      rw [haccount] at hsettled
      cases hlast : lastNonce run.storage.nonces key with
      | some m =>
        rw [(NonceSettled.stored h.state.nonces hsettled hlast).2, Option.some.injEq] at hn
        exact hn ▸ h.checked key entry m hentry hlast
      | none =>
        -- a pointer without its version stays one
        rcases hsettled with hkept | ⟨hnone, -⟩
        · have hpointers : s'.inner.storage.nonces.pointers[keyBytes key]? = run.storage.nonces.pointers[keyBytes key]? :=
            congrArg (·.last) hkept
          have hversions : ∀ u, s'.inner.storage.nonces.version (keyBytes key) u = run.storage.nonces.version (keyBytes key) u :=
            congrFun (congrArg (·.version) hkept)
          simp only [lastNonce, hpointers, hversions] at hn hlast
          rw [hlast] at hn
          cases hn
        · have hnone : run.storage.nonces.pointers[keyBytes key]? = none := hnone
          simp [lastNonce, hnone] at hlast

omit [RistrettoPoint P] in
theorem OrderPromised.prepared (h : OrderPromised t o.storage o.nonceChecker)
    (hprepare : prepareBlock hash t o = .ok (block, pastBurnedSupply, blockReward) o₁) :
    OrderPromised t o₁.storage o₁.nonceChecker := by
  have hnonces := prepareBlock_nonces hash t o
  have hbalances := prepareBlock_balances hash t o
  rw [hprepare] at hnonces hbalances
  obtain ⟨hnonces, hchecker⟩ : o₁.storage.nonces = o.storage.nonces ∧ o₁.nonceChecker = o.nonceChecker := hnonces
  have hbalances : o₁.storage.balances = o.storage.balances := hbalances.1
  refine ⟨?_, ?_, ?_⟩
  · rw [hnonces]
    exact h.nonces
  · rw [hbalances]
    exact h.balances
  · rw [hnonces, hchecker]
    exact h.checked

theorem OrderPromised.orderBlock (h : OrderPromised t o.storage o.nonceChecker)
    (horder : Blockchain.orderBlock node version baseTopoHeight hash t o = .ok ⟨⟩ o') :
    OrderPromised (t + 1) o'.storage o'.nonceChecker := by
  obtain ⟨block, burned, reward, o₁, run, hprepare, hexecute, hstorage, hchecker⟩ := orderBlock_ok horder
  obtain ⟨run₁, s₁, s₂, htxs, hreward, hwrite, rfl⟩ := executeBlock_ok hexecute
  rw [hstorage, hchecker]
  have hrun : RunPromised t run₁ :=
    Exec.forM_keeps (fun _ _ _ _ => executeTransaction_promised) (h.prepared hprepare).blockRun htxs
  have hrewarded := Steps.of_ok (rewardBlock_steps _ _ _ _ _) hreward
  exact hrun.written hrewarded.sameBlock (Steps.nonces (by simp) hrewarded) (Steps.balances (by simp) hrewarded) hwrite

variable (node version baseTopoHeight)

def AppliedInOrder : TopoHeight → List Hash → Ordering P → Prop
  | _, [], _ => True
  | t, hash :: hashes, o =>
    (∀ block pastBurnedSupply blockReward o₁, prepareBlock hash t o = .ok (block, pastBurnedSupply, blockReward) o₁ →
      Exec.Along (AppliedInBlock hash) (fun e => executeTransaction node.env hash e.1 e.2)
        (block.transactions.zip block.header.txsHashes)
        (o₁.blockRun node version baseTopoHeight hash block t pastBurnedSupply)) ∧
    ∀ o', Blockchain.orderBlock node version baseTopoHeight hash t o = .ok ⟨⟩ o' → AppliedInOrder (t + 1) hashes o'

variable {node version baseTopoHeight}

theorem OrderPromised.applied {hashes : List Hash} (h : OrderPromised t o.storage o.nonceChecker) :
    AppliedInOrder node version baseTopoHeight t hashes o := by
  induction hashes generalizing t o with
  | nil => exact trivial
  | cons hash hashes ih =>
    refine ⟨fun block burned reward o₁ hprepare => ?_, fun o' horder => ih (h.orderBlock horder)⟩
    exact Exec.Along.of_keeps (I := RunPromised t) (fun e _ hrun => hrun.applied e) (fun _ _ _ => executeTransaction_promised)
      (h.prepared hprepare).blockRun

/-- Along an order that is laid over a clean storage, every transaction whose nonce is taken is applied when nothing of
its block is stored yet, whatever happened to the transactions and blocks before it. -/
theorem orderFrom_appliedInBlock (node : Node P) (version : BlockVersion) (baseTopoHeight topoheight : TopoHeight)
    (hashes : List Hash) (o : Ordering P) (hnonces : o.storage.nonces.Below topoheight)
    (hbalances : o.storage.balances.Below topoheight) (hchecker : o.nonceChecker = {}) :
    AppliedInOrder node version baseTopoHeight topoheight hashes o := by
  refine OrderPromised.applied ⟨hnonces, hbalances, fun key entry n hentry => ?_⟩
  rw [hchecker, Std.ExtTreeMap.getElem?_empty] at hentry
  cases hentry

/-- Also behind a transaction that fails and one whose nonce is refused. -/
theorem orderFrom_appliedInBlock_failing :
    AppliedInOrder clearNode .v3 0 1 [1#256] (sampleOrdering [failingBurn, burnWithNonce 0, burnWithNonce 1]) :=
  orderFrom_appliedInBlock clearNode .v3 0 1 [1#256] _ (sampleOrdering_below _)
    ((Storage.VersionedTrees.Below.empty 1).setLast _ Nat.one_pos
      (⟨none, none, ⟨10 * COIN_VALUE, 0⟩, .input⟩ : VersionedBalance ℤ)) rfl

end Orders

end Xelis.Blockchain
