import Xelis.Blockchain.Nonces
import Xelis.State.Multisigs
import Xelis.Transaction.Senders

namespace Xelis.Blockchain

open Lib (Exec History)
open Storage (Continues MultisigChain NoMultisigUnder linkAfter)
open State State.ApplicableChainState
open Transaction (KeepsMultisig)

variable {P : Type}

section Senders

/-- The topoheight that the multisig of a sender points back to. -/
def multisigLink (account : Account P) : Option TopoHeight := account.multisig.bind (·.1.getTopoheight)

def SetsMultisig (key : PublicKey) (tx : Transaction) : Prop := tx.source = key ∧ ∃ payload, tx.data = .multiSig payload

variable {account : Account P}

theorem multisigLink_of_written {v : Versioned (Option MultiSigPayload)}
    (h : writtenMultisig account = some v) : v.previousTopoheight = multisigLink account := by
  unfold writtenMultisig at h
  unfold multisigLink
  cases hmultisig : account.multisig with
  | none => simp [hmultisig] at h
  | some multisig =>
    rw [hmultisig, Option.bind_some, Option.ite_none_right_eq_some, Option.some.injEq] at h
    rw [← h.2]
    rfl

/-- Setting the multisig again keeps what it points back to. -/
theorem multisigLink_withMultisig (account : Account P) (payload : MultiSigPayload) :
    multisigLink (ChainState.withMultisig account payload) = multisigLink account := by
  unfold multisigLink ChainState.withMultisig
  cases account.multisig with
  | none => rfl
  | some multisig =>
    obtain ⟨state, data⟩ := multisig
    cases state with
    | new => rfl
    | fetchedAt topo => rfl
    | updated topo => rfl

variable {storage storage' : Storage P}

theorem createSenderAccount_multisig {key : PublicKey} {t : TopoHeight}
    (h : ChainState.createSenderAccount storage key t = .ok account) :
    ∃ r, storage.getMultisigAtMaximumTopoheightFor key t = .ok r ∧ multisigLink account = linkAfter r ∧
      writtenMultisig account = none := by
  obtain ⟨found, r, -, hmultisig, rfl⟩ := ChainState.createSenderAccount_ok h
  refine ⟨r, hmultisig, ?_, ?_⟩
  · unfold multisigLink linkAfter
    cases r with
    | none => rfl
    | some r => cases hdata : r.2.data <;> simp [hdata, VersionedState.getTopoheight]
  · unfold writtenMultisig
    cases r with
    | none => rfl
    | some r => cases hdata : r.2.data <;> simp [hdata, VersionedState.shouldBeStored, VersionedState.isFetchedAt]

theorem createSenderAccount_congr (hnonces : storage'.nonces = storage.nonces)
    (hmultisig : storage'.multisig = storage.multisig) (key : PublicKey) (t : TopoHeight) :
    ChainState.createSenderAccount storage' key t = ChainState.createSenderAccount storage key t := by
  unfold ChainState.createSenderAccount
  rw [Storage.getNonceAtMaximumTopoheight_eq, Storage.getNonceAtMaximumTopoheight_eq, hnonces,
    Storage.getMultisig_congr hmultisig]

end Senders

variable {run run' : BlockRun P}

section Transactions

variable [RistrettoPoint P] {env : Env P} {hash : Hash} {t : TopoHeight} {changed : PublicKey → Prop}

/-- While the block at `t` is executed, every sender points back to what a lookup finds for it, and its multisig is only
written when it is one of the `changed`. -/
structure MultisigsKnown (t : TopoHeight) (changed : PublicKey → Prop) (run : BlockRun P) : Prop where
  topoheight : run.chainState.inner.topoheight = t
  known : ∀ key account, run.chainState.inner.findAccount key = .ok account →
    ∃ r, run.storage.getMultisigAtMaximumTopoheightFor key t = .ok r ∧ multisigLink account = linkAfter r ∧
      (writtenMultisig account ≠ none → changed key)

section

omit [RistrettoPoint P]

theorem MultisigsKnown.congr (h : MultisigsKnown t changed run)
    (htopo : run'.chainState.inner.topoheight = run.chainState.inner.topoheight)
    (haccounts : run'.chainState.inner.accounts = run.chainState.inner.accounts)
    (hnonces : run'.storage.nonces = run.storage.nonces) (hmultisig : run'.storage.multisig = run.storage.multisig) :
    MultisigsKnown t changed run' := by
  have hfind : ∀ key, run'.chainState.inner.findAccount key = run.chainState.inner.findAccount key := by
    intro key
    have hload := createSenderAccount_congr hnonces hmultisig key run.chainState.inner.topoheight
    unfold ChainState.findAccount
    rw [haccounts, htopo]
    cases run.chainState.inner.accounts[key]? with
    | some account => rfl
    | none => exact hload
  refine ⟨htopo.trans h.topoheight, fun key account haccount => ?_⟩
  rw [hfind] at haccount
  rw [Storage.getMultisig_congr hmultisig]
  exact h.known key account haccount

theorem multisig_link (run : BlockRun P) (txHash hash : Hash) :
    (run.link txHash hash).storage.multisig = run.storage.multisig := by
  obtain ⟨_, hlink⟩ := run.link_eq txHash hash
  rw [hlink]
  rfl

theorem MultisigsKnown.step {run run' : BlockRun P} {changed' : PublicKey → Prop} (h : MultisigsKnown t changed run)
    (htopo : run'.chainState.inner.topoheight = run.chainState.inner.topoheight)
    (hmultisig : run'.storage.multisig = run.storage.multisig) (hle : ∀ key, changed key → changed' key)
    (hgives : ∀ key account', run'.chainState.inner.findAccount key = .ok account' →
      ∃ account, run.chainState.inner.findAccount key = .ok account ∧ (account'.multisig = account.multisig ∨
        changed' key ∧ ∃ payload, account'.multisig = (ChainState.withMultisig account payload).multisig)) :
    MultisigsKnown t changed' run' := by
  refine ⟨htopo.trans h.topoheight, fun key account' hfind => ?_⟩
  obtain ⟨account, haccount, hgiven⟩ := hgives key account' hfind
  obtain ⟨r, hr, hlink, hwritten⟩ := h.known key account haccount
  refine ⟨r, ?_, ?_, fun hnew => ?_⟩
  · rw [Storage.getMultisig_congr hmultisig]
    exact hr
  · rcases hgiven with hsame | ⟨-, payload, hsame⟩
    · rw [multisigLink, hsame]
      exact hlink
    · rw [multisigLink, hsame]
      exact (multisigLink_withMultisig account payload).trans hlink
  · rcases hgiven with hsame | ⟨hchanged, -⟩
    · unfold writtenMultisig at hnew hwritten
      rw [hsame] at hnew
      exact hle key (hwritten hnew)
    · exact hchanged

end

/-- The accounts whose multisig changes in one step: the one of a transaction that is executed. -/
def changedBy (changed : PublicKey → Prop) (hash txHash : Hash) (tx : Transaction) (run run' : BlockRun P) (key : PublicKey) : Prop :=
  changed key ∨ (marks hash txHash run run' = true ∧ SetsMultisig key tx)

theorem TransactionStep.multisigs {tx : Transaction} {txHash : Hash} (h : MultisigsKnown t changed run)
    (hstep : TransactionStep env hash tx txHash run run') :
    MultisigsKnown t (changedBy changed hash txHash tx run run') run' ∧ run'.storage.multisig = run.storage.multisig := by
  have hkeeps : ∀ {s' : ApplicableChainState P} {changed' : PublicKey → Prop}, KeepsMultisig run.chainState s' →
      ∀ key account', s'.inner.findAccount key = .ok account' → ∃ account, run.chainState.inner.findAccount key = .ok account ∧
        (account'.multisig = account.multisig ∨
          changed' key ∧ ∃ payload, account'.multisig = (ChainState.withMultisig account payload).multisig) := by
    intro s' changed' hk key account' hfind
    obtain ⟨account, haccount, hsame⟩ := hk key account' hfind
    exact ⟨account, haccount, .inl hsame⟩
  cases hstep with
  | skipped hexecuted => exact ⟨h.step rfl rfl (fun _ => .inl) (hkeeps (.refl _)), rfl⟩
  | refused nonceChecker hexecuted hnonce => exact ⟨h.step rfl rfl (fun _ => .inl) (hkeeps (.refl _)), rfl⟩
  | failed nonceChecker e chainState hexecuted hnonce happly =>
    have hframed := (Transaction.applyWithPartialVerify_footprint env tx txHash run.chainState).framed
    rw [happly] at hframed
    have hmultisig := congrArg (·.multisig) hframed.storage
    exact ⟨h.step hframed.topoheight hmultisig (fun _ => .inl)
      (hkeeps (Transaction.applyWithPartialVerify_multisig_failed happly)), hmultisig⟩
  | executed nonceChecker chainState nextNonce inner hexecuted hnonce happly hnext hupdate =>
    have hframed := (Transaction.applyWithPartialVerify_footprint env tx txHash run.chainState).framed
    rw [happly] at hframed
    have hnonces := Transaction.updateNonce_keepsMultisig tx.source nextNonce chainState
    simp only [onInner, hupdate] at hnonces
    obtain ⟨account, -, hupdate⟩ := ChainState.internalUpdateAccountNonce_ok hupdate
    have hstorage : inner.storage = run.chainState.inner.storage ∧ inner.topoheight = run.chainState.inner.topoheight := by
      rw [hupdate]
      exact ⟨hframed.storage, hframed.topoheight⟩
    have hmarked : ∀ run' : BlockRun P, marks hash txHash run run' = true →
        run'.chainState.inner.topoheight = inner.topoheight → run'.chainState.inner.accounts = inner.accounts →
        run'.storage.nonces = inner.storage.nonces → run'.storage.multisig = inner.storage.multisig →
        MultisigsKnown t (changedBy changed hash txHash tx run run') run' ∧
          run'.storage.multisig = run.storage.multisig := by
      intro run' hmarks htopo haccounts hnonces' hmultisig
      have hafter : MultisigsKnown t (changedBy changed hash txHash tx run run')
          { run with chainState := { chainState with inner } } := by
        refine h.step hstorage.2 (congrArg (·.multisig) hstorage.1) (fun _ => .inl) fun key account' hfind => ?_
        obtain ⟨account₁, hfind₁, hsame₁⟩ := hnonces key account' hfind
        obtain ⟨account, haccount, hgiven⟩ := Transaction.applyWithPartialVerify_multisig happly key account₁ hfind₁
        refine ⟨account, haccount, ?_⟩
        rw [hsame₁]
        rcases hgiven with hsame | ⟨hsource, payload, hdata, hset⟩
        · exact .inl hsame
        · exact .inr ⟨.inr ⟨hmarks, hsource, payload, hdata⟩, payload, hset⟩
      refine ⟨hafter.congr htopo haccounts hnonces' hmultisig, ?_⟩
      rw [hmultisig]
      exact congrArg (·.multisig) hstorage.1
    exact hmarked _ (marks_executed hexecuted { chainState with inner } _ _ _) rfl rfl rfl rfl

theorem executeTransaction_multisigs {tx : Transaction} {txHash : Hash}
    (h : MultisigsKnown t changed run) (hrun : executeTransaction env hash tx txHash run = .ok ⟨⟩ run') :
    MultisigsKnown t (changedBy changed hash txHash tx run run') run' ∧ run'.storage.multisig = run.storage.multisig := by
  have hmarks := marks_link hash txHash run run'
  have hlinked : MultisigsKnown t changed (run.link txHash hash) :=
    h.congr rfl rfl (nonces_link run txHash hash) (multisig_link run txHash hash)
  obtain ⟨hknown, hmultisig⟩ := (executeTransaction_step hrun).multisigs hlinked
  refine ⟨?_, hmultisig.trans (multisig_link run txHash hash)⟩
  unfold changedBy at hknown ⊢
  rw [hmarks] at hknown
  exact hknown

theorem executeTransactions_multisigs {txs : List (Transaction × Hash)}
    (h : MultisigsKnown t changed run) (hrun : executeTransactions env hash txs run = .ok ⟨⟩ run') :
    MultisigsKnown t (fun key => changed key ∨ ∃ tx ∈ executedBy env hash txs run, SetsMultisig key tx) run' ∧
      run'.storage.multisig = run.storage.multisig := by
  induction txs generalizing run changed with
  | nil =>
    cases hrun
    exact ⟨⟨h.topoheight, fun key account hfind => (h.known key account hfind).imp fun r hr =>
      ⟨hr.1, hr.2.1, fun hnew => .inl (hr.2.2 hnew)⟩⟩, rfl⟩
  | cons e txs ih =>
    obtain ⟨⟨⟩, run₁, he, hrest⟩ := Exec.bind_ok_iff.mp hrun
    obtain ⟨h₁, hmultisig₁⟩ := executeTransaction_multisigs h he
    obtain ⟨h', hmultisig'⟩ := ih h₁ hrest
    have hlist : executedBy env hash (e :: txs) run =
        if marks hash e.2 run run₁ then e.1 :: executedBy env hash txs run₁ else executedBy env hash txs run₁ := by
      simp only [executedBy, he]
    refine ⟨⟨h'.topoheight, fun key account hfind => ?_⟩, hmultisig'.trans hmultisig₁⟩
    obtain ⟨r, hr, hlink, hchanged⟩ := h'.known key account hfind
    refine ⟨r, hr, hlink, fun hnew => ?_⟩
    rw [hlist]
    rcases hchanged hnew with (hbefore | ⟨hmarks, hsets⟩) | ⟨tx, htx, hsets⟩
    · exact .inl hbefore
    · exact .inr ⟨e.1, by rw [if_pos hmarks]; exact List.mem_cons_self, hsets⟩
    · refine .inr ⟨tx, ?_, hsets⟩
      split
      · exact List.mem_cons_of_mem _ htx
      · exact htx

end Transactions

section Blocks

variable [RistrettoPoint P] {env : Env P} {devPublicKey : PublicKey} {hash : Hash} {t : TopoHeight}

def MultisigsLinked (s : Storage P) : Prop := ∀ key, (s.multisigHistory key).Linked (·.previousTopoheight)

/-- The block may write the multisig of every account whose multisig one of its executed transactions changes. -/
def BlockContinues (env : Env P) (hash : Hash) (txs : List (Transaction × Hash)) (t : TopoHeight) (run : BlockRun P) : Prop :=
  ∀ tx ∈ executedBy env hash txs run, ∀ payload, tx.data = .multiSig payload →
    Continues (run.storage.multisigHistory tx.source) t

theorem executeBlock_multisigs {block : Block} {blockReward : Nat}
    (htopo : run.chainState.inner.topoheight = t) (hsenders : run.chainState.inner.accounts = ∅)
    (hlinked : MultisigsLinked run.storage)
    (hcontinues : BlockContinues env hash (block.transactions.zip block.header.txsHashes) t run)
    (hrun : executeBlock env devPublicKey hash block blockReward run = .ok ⟨⟩ run') : MultisigsLinked run'.storage := by
  have hstart : MultisigsKnown t (fun _ => False) run := by
    refine ⟨htopo, fun key account hfind => ?_⟩
    simp only [ChainState.findAccount, hsenders, Std.ExtTreeMap.getElem?_empty, htopo] at hfind
    obtain ⟨r, hr, hlink, hnone⟩ := createSenderAccount_multisig hfind
    exact ⟨r, hr, hlink, fun hnew => absurd hnone hnew⟩
  obtain ⟨run₁, s₁, s₂, htxs, hreward, hwrite, rfl⟩ := executeBlock_ok hrun
  obtain ⟨hknown, hmultisig⟩ := executeTransactions_multisigs hstart htxs
  have hrewarded := Steps.of_ok (rewardBlock_steps _ _ _ _ _) hreward
  have hbefore : s₁.inner.storage.multisig = run.storage.multisig :=
    (hrewarded.multisig (by simp)).trans hmultisig
  intro key
  show (s₂.inner.storage.multisigHistory key).Linked _
  rw [applyChanges_multisigs hwrite key, hrewarded.sameBlock.topoheight, hrewarded.sameBlock.accounts,
    Storage.multisigHistory_congr hbefore, hknown.topoheight]
  cases haccount : run₁.chainState.inner.accounts[key]? with
  | none => exact hlinked key
  | some account =>
    rw [Option.bind_some]
    cases hwritten : writtenMultisig account with
    | none => exact hlinked key
    | some v =>
      -- the version that is written points back to what the lookup found when the account was loaded
      obtain ⟨r, hr, hlink, hchanged⟩ := hknown.known key account (ChainState.findAccount_of_some haccount)
      obtain ⟨r', hr'⟩ := (run.storage.multisigHistory key).exists_found t
      have hsame : r' = r := by
        rw [Storage.getMultisig_congr hmultisig,
          Storage.getMultisigAtMaximumTopoheightFor_found (hlinked key) hr', Except.ok.injEq] at hr
        exact hr
      subst hsame
      have hsets : ∃ tx ∈ executedBy env hash (block.transactions.zip block.header.txsHashes) run, SetsMultisig key tx := by
        rcases hchanged (by rw [hwritten]; exact Option.some_ne_none v) with hfalse | hsets
        · exact hfalse.elim
        · exact hsets
      obtain ⟨tx, htx, rfl, payload, hdata⟩ := hsets
      exact (hcontinues tx htx payload hdata).push_linked (hlinked tx.source) hr'
        ((multisigLink_of_written hwritten).trans hlink)

end Blocks

section Runs

variable [RistrettoPoint P]

/-- What happens to a chain: a block is executed at a topoheight, the data of a topoheight is taken back, or something
else is done that does not concern the multisigs. -/
inductive ChainAction (P : Type) where
  | order (version : BlockVersion) (baseTopoHeight : TopoHeight) (hash : Hash) (topoheight : TopoHeight) (o : Ordering P)
  | takeBack (topoheight : TopoHeight)
  | other

namespace ChainAction

variable (node : Node P)

def Leads : ChainAction P → Storage P → Storage P → Prop
  | order version baseTopoHeight hash topoheight o, s, s' =>
    o.storage = s ∧ ∃ o', orderBlock node version baseTopoHeight hash topoheight o = .ok ⟨⟩ o' ∧ o'.storage = s'
  | takeBack topoheight, s, s' => Storage.deleteVersionedDataAtTopoheight topoheight s = .ok ⟨⟩ s'
  | other, s, s' => s'.multisig = s.multisig

/-- A block that is executed continues the multisigs it changes, and a topoheight that is taken back is not the
beginning of the key of a multisig. -/
def ContinuesMultisigs : ChainAction P → Storage P → Prop
  | order version baseTopoHeight hash topoheight o, _ =>
    ∀ block pastBurnedSupply blockReward o₁, prepareBlock hash topoheight o = .ok (block, pastBurnedSupply, blockReward) o₁ →
      BlockContinues node.env hash (block.transactions.zip block.header.txsHashes) topoheight
        (o₁.blockRun node version baseTopoHeight hash block topoheight pastBurnedSupply)
  | takeBack topoheight, s => NoMultisigUnder topoheight s
  | other, _ => True

end ChainAction

inductive Reached (node : Node P) (allowed : ChainAction P → Storage P → Prop) : Storage P → Prop
  | start {s : Storage P} (hempty : s.multisig = .empty) : Reached node allowed s
  | step {s s' : Storage P} (action : ChainAction P) (hreached : Reached node allowed s) (hallowed : allowed action s)
      (hleads : action.Leads node s s') : Reached node allowed s'

omit [RistrettoPoint P] in
theorem prepareBlock_multisig (hash : Hash) (t : TopoHeight) :
    Exec.Moves (fun o o' : Ordering P => o'.storage.multisig = o.storage.multisig ∧ o'.nonceChecker = o.nonceChecker)
      (prepareBlock hash t) :=
  prepareBlock_keeps (f := fun storage => storage.multisig) (fun _ _ _ => rfl) (fun _ _ _ => rfl) (fun _ _ _ => rfl) hash t

variable {node : Node P} {s s' : Storage P}

omit [RistrettoPoint P] in
theorem multisigsLinked_congr (h : s'.multisig = s.multisig) (hlinked : MultisigsLinked s) : MultisigsLinked s' := by
  intro key
  rw [Storage.multisigHistory_congr h]
  exact hlinked key

theorem ChainAction.Leads.linked {action : ChainAction P} (hleads : action.Leads node s s')
    (hcontinues : action.ContinuesMultisigs node s) (hlinked : MultisigsLinked s) : MultisigsLinked s' := by
  cases action with
  | order version baseTopoHeight hash topoheight o =>
    obtain ⟨rfl, o', horder, rfl⟩ := hleads
    obtain ⟨block, pastBurnedSupply, blockReward, o₁, run, hprepare, hexecute, hstorage, -⟩ := orderBlock_ok horder
    have hprepared := prepareBlock_multisig hash topoheight o
    rw [hprepare] at hprepared
    have hlinked₁ : MultisigsLinked
        (o₁.blockRun node version baseTopoHeight hash block topoheight pastBurnedSupply).storage :=
      multisigsLinked_congr hprepared.1 hlinked
    rw [hstorage]
    exact executeBlock_multisigs rfl rfl hlinked₁ (hcontinues block pastBurnedSupply blockReward o₁ hprepare) hexecute
  | takeBack topoheight =>
    have hleft := Storage.deleteVersionedData_leavesMultisigs topoheight s
    rw [show Storage.deleteVersionedDataAtTopoheight topoheight s = .ok ⟨⟩ s' from hleads] at hleft
    exact multisigsLinked_congr (hleft hcontinues) hlinked
  | other => exact multisigsLinked_congr hleads hlinked

theorem Reached.linked (h : Reached node (ChainAction.ContinuesMultisigs node) s) : MultisigsLinked s := by
  induction h with
  | start hempty =>
    intro key
    rw [Storage.multisigHistory_empty hempty]
    exact History.Linked.empty
  | step action _ hallowed hleads ih => exact hleads.linked hallowed ih

/-- As long as no block sets a multisig again after its deletion, or at or below a topoheight that it is stored at, the
versions of every account point to the newest one before them, and every lookup finds the newest one. -/
theorem multisigs_chained (node : Node P) (s : Storage P) (h : Reached node (ChainAction.ContinuesMultisigs node) s)
    (key : PublicKey) : s.MultisigChain key :=
  Storage.MultisigChain.of_linked (h.linked key)

end Runs

section Samples

open Transaction (sampleStorage sampleTx)

def multisigTx (payload : MultiSigPayload) (nonce : Nonce) : Transaction :=
  { sampleTx (.multiSig payload) (10 * COIN_VALUE - 10000 * (nonce + 1)) with nonce }

/-- A chain with three more blocks to order: in the first one the account sets its multisig, in the second one it
deletes it, and in the third one it sets it again. -/
def multisigOrdering : Ordering ℤ :=
  let add (payload : MultiSigPayload) (nonce : Nat) (storage : Storage ℤ) : Storage ℤ :=
    storage.saveBlock ⟨.v3, [], 0, nonce + 1, 0, [], 8#256, [BitVec.ofNat 256 (20 + nonce)]⟩ [multisigTx payload nonce] 1 0
      (BitVec.ofNat 256 (nonce + 1))
  let storage : Storage ℤ := { sampleStorage with supply := ∅, burnedSupply := ∅ }
  let storage := storage.setSupplyAtTopoHeight 0 0
  let storage := add ⟨1, [6#256]⟩ 2 (add ⟨0, []⟩ 1 (add ⟨1, [5#256]⟩ 0 storage))
  { storage := { storage with burnedSupply := storage.burnedSupply.insert 0 0 } }

/-- What the stored multisig of the account points back to. -/
def previousMultisig (t : TopoHeight) (o : Ordering ℤ) : Option (Option TopoHeight) :=
  ((o.storage.multisigHistory 7#256).version t).map (·.previousTopoheight)

theorem Reached.orderFrom {P : Type} [RistrettoPoint P] {node : Node P} {version : BlockVersion}
    {baseTopoHeight t : TopoHeight} {hashes : List Hash} {o o' : Ordering P} (hreached : Reached node (fun _ _ => True) o.storage)
    (h : orderFrom node version baseTopoHeight t hashes o = .ok ⟨⟩ o') : Reached node (fun _ _ => True) o'.storage := by
  induction hashes generalizing t o with
  | nil =>
    cases h
    exact hreached
  | cons hash hashes ih =>
    obtain ⟨⟨⟩, o₁, hblock, hrest⟩ := Exec.bind_ok_iff.mp h
    exact ih (hreached.step (.order version baseTopoHeight hash t o) trivial ⟨rfl, o₁, hblock, rfl⟩) hrest

/-- The multisig that is set again after its deletion points to nothing, although it is the third version. -/
theorem multisig_set_again_unlinked :
    ¬∀ s, Reached clearNode (fun _ _ => True) s → ∀ key, s.MultisigChain key := by
  intro hall
  have hrun : (match orderFrom clearNode .v3 0 1 [1#256, 2#256, 3#256] multisigOrdering with
      | .ok _ o => (previousMultisig 2 o, previousMultisig 3 o)
      | .error _ _ => (none, none)) = (some (some 1), some none) := by decide +kernel
  cases horder : orderFrom clearNode .v3 0 1 [1#256, 2#256, 3#256] multisigOrdering with
  | error e o =>
    rw [horder] at hrun
    cases hrun
  | ok _ o =>
    rw [horder, Prod.mk.injEq] at hrun
    obtain ⟨hsecond, hthird⟩ := hrun
    have hchain := hall o.storage (Reached.orderFrom (.start rfl) horder) 7#256
    obtain ⟨v, hv, hnone⟩ := Option.map_eq_some_iff.mp hthird
    obtain ⟨v', hv', -⟩ := Option.map_eq_some_iff.mp hsecond
    have hempty := hchain.first 3 v hv hnone 2 (by decide)
    rw [hv'] at hempty
    cases hempty

theorem Reached.ordered {hash : Hash} {t : TopoHeight} {o o' : Ordering ℤ}
    (hreached : Reached clearNode (ChainAction.ContinuesMultisigs clearNode) o.storage)
    (hcontinues : ∀ key, Continues (o.storage.multisigHistory key) t) (h : orderBlock clearNode .v3 0 hash t o = .ok ⟨⟩ o') :
    Reached clearNode (ChainAction.ContinuesMultisigs clearNode) o'.storage := by
  refine hreached.step (.order .v3 0 hash t o) (fun block pastBurnedSupply blockReward o₁ hprepare tx _ payload _ => ?_) ⟨rfl, o', h, rfl⟩
  have hprepared := prepareBlock_multisig hash t o
  rw [hprepare] at hprepared
  have hsame : o₁.storage.multisigHistory tx.source = o.storage.multisigHistory tx.source :=
    Storage.multisigHistory_congr hprepared.1 tx.source
  show Continues (o₁.storage.multisigHistory tx.source) t
  rw [hsame]
  exact hcontinues tx.source

/-- The account sets its first multisig, and deletes it: the deletion points back to what was set. -/
theorem multisigs_chained_deleted :
    ∃ o : Ordering ℤ, previousMultisig 2 o = some (some 1) ∧ o.storage.MultisigChain 7#256 := by
  cases hset : orderBlock clearNode .v3 0 1#256 1 multisigOrdering with
  | error e o =>
    have hrun : Transaction.isOk (orderBlock clearNode .v3 0 1#256 1 multisigOrdering) = true := by decide +kernel
    rw [hset] at hrun
    cases hrun
  | ok _ o₁ =>
    have hstored : (Exec.stateOf (orderBlock clearNode .v3 0 1#256 1 multisigOrdering)).storage.multisig.versions.toList =
        [(Storage.getVersionedMultisigKey 7#256 1, ⟨none, some ⟨1, [5#256]⟩⟩)] := by decide +kernel
    rw [hset] at hstored
    have hversion (key : PublicKey) (u : Nat) (v : Versioned (Option MultiSigPayload))
        (hv : (o₁.storage.multisigHistory key).version u = some v) : u = 1 ∧ v.data.isSome := by
      have hmem := Std.ExtTreeMap.mem_toList_iff_getElem?_eq_some.mpr hv
      rw [show o₁.storage.multisig.versions.toList = _ from hstored, List.mem_singleton, Prod.mk.injEq] at hmem
      exact ⟨(Storage.getVersionedMultisigKey_inj hmem.1).2, hmem.2 ▸ rfl⟩
    have hdeletion : previousMultisig 2 (Exec.stateOf (orderBlock clearNode .v3 0 2#256 2
        (Exec.stateOf (orderBlock clearNode .v3 0 1#256 1 multisigOrdering)))) = some (some 1) ∧
        Transaction.isOk (orderBlock clearNode .v3 0 2#256 2
          (Exec.stateOf (orderBlock clearNode .v3 0 1#256 1 multisigOrdering))) = true := by decide +kernel
    rw [hset] at hdeletion
    change previousMultisig 2 (Exec.stateOf (orderBlock clearNode .v3 0 2#256 2 o₁)) = _ ∧ Transaction.isOk (orderBlock _ _ _ _ _ o₁) = _
      at hdeletion
    obtain ⟨hprevious, hdeleted⟩ := hdeletion
    cases hdelete : orderBlock clearNode .v3 0 2#256 2 o₁ with
    | error e o =>
      rw [hdelete] at hdeleted
      cases hdeleted
    | ok _ o₂ =>
      rw [hdelete] at hprevious
      refine ⟨o₂, hprevious, multisigs_chained clearNode o₂.storage (Reached.ordered (Reached.ordered (.start rfl) (fun key => ?_) hset)
        (fun key => ⟨fun u hu => ?_, fun u v hu => ?_⟩) hdelete) 7#256⟩
      · rw [Storage.multisigHistory_empty rfl]
        exact Continues.of_empty 1
      · refine Option.eq_none_iff_forall_ne_some.mpr fun v hv => ?_
        obtain ⟨rfl, -⟩ := hversion key u v hv
        exact absurd hu (by decide)
      · obtain ⟨rfl, hsome⟩ := hversion key u v hu.version
        exact Or.inl ⟨by decide, hsome⟩

end Samples

end Xelis.Blockchain
