import Xelis.Blockchain.Nonces
import Xelis.Lib.Tally
import Xelis.Transaction.Spendings

namespace Xelis.Blockchain

open Lib (Exec Book History)
open Storage (getBalanceKeyFor cleanBalance_link cleanBalance_final)
open State State.ApplicableChainState
open Transaction (Pays partialVerify)

variable {P : Type} [RistrettoPoint P] {clean : PublicKey → Hash → VersionedBalance P} {env : Env P} {hash : Hash}
variable {key devPublicKey miner : PublicKey}

section Turns

/-- What a turn gives to accounts: the credits of a transaction that is executed. -/
def creditsOf (env : Env P) (hash : Hash) (e : Transaction × Hash) (run run' : BlockRun P) :
    Book PublicKey Hash (Ciphertext P) :=
  if marks hash e.2 run run' then e.1.credits env e.2 (run.link e.2 hash).chainState else 0

/-- What a turn takes from accounts: the outputs of a transaction that is executed. -/
def debitsOf (hash : Hash) (e : Transaction × Hash) (run run' : BlockRun P) : Book PublicKey Hash (Ciphertext P) :=
  if marks hash e.2 run run' then e.1.debits else 0

/-- What a transaction that is not executed leaves in the balances nevertheless. -/
def leftOf (clean : PublicKey → Hash → VersionedBalance P) (hash : Hash) (e : Transaction × Hash) (run run' : BlockRun P) :
    Book PublicKey Hash (Ciphertext P) :=
  if marks hash e.2 run run' then 0 else balanceFrom clean run'.chainState - balanceFrom clean run.chainState

/-- What a turn changes of the balances altogether. -/
def changeOf (clean : PublicKey → Hash → VersionedBalance P) (env : Env P) (hash : Hash) :
    Transaction × Hash → BlockRun P → BlockRun P → Book PublicKey Hash (Ciphertext P) :=
  creditsOf env hash - debitsOf hash + leftOf clean hash

def FailsCharged (env : Env P) (hash : Hash) (e : Transaction × Hash) (run : BlockRun P) : Prop :=
  ∃ nonceChecker error chainState found s₁, (run.link e.2 hash).storage.isTxExecutedInABlock e.2 = false ∧
    (run.link e.2 hash).nonceChecker.useNonce (run.link e.2 hash).storage e.1.source e.1.nonce
      (run.link e.2 hash).chainState.inner.topoheight = .ok (true, nonceChecker) ∧
    partialVerify env e.1 (run.link e.2 hash).chainState = .ok found s₁ ∧
    e.1.applyWithPartialVerify env e.2 (run.link e.2 hash).chainState = .error error chainState

omit [RistrettoPoint P] in
theorem balances_link (run : BlockRun P) (txHash hash : Hash) :
    (run.link txHash hash).storage.balances = run.storage.balances := by
  obtain ⟨_, hlink⟩ := run.link_eq txHash hash
  rw [hlink]
  rfl

omit [RistrettoPoint P] in
theorem sameFinals_link (run : BlockRun P) (txHash hash : Hash) :
    SameFinals run.chainState (run.link txHash hash).chainState :=
  ⟨balances_link run txHash hash, rfl, fun _ _ => rfl, fun _ _ => rfl⟩

theorem sameFinals_marked {nonce : Nonce} {s : ApplicableChainState P} {inner : ChainState P}
    (hupdate : ChainState.internalUpdateAccountNonce key nonce s.inner = .ok ⟨⟩ inner) (txHash hash : Hash) :
    SameFinals s { s with inner := { inner with storage := inner.storage.setTxExecutedInBlock txHash hash } } := by
  have hsame := ChainState.internalUpdateAccountNonce_sameSpendings key nonce s.inner
  rw [hupdate] at hsame
  obtain ⟨account, -, rfl⟩ := ChainState.internalUpdateAccountNonce_ok hupdate
  exact ⟨rfl, rfl, fun _ _ => rfl, hsame.echange⟩

variable {run run' : BlockRun P}

theorem TransactionStep.balances {tx : Transaction} {txHash : Hash} (h : Tracked clean run.chainState)
    (hassets : tx.verifyCommitmentAssets = true) (hstep : TransactionStep env hash tx txHash run run') :
    Tracked clean run'.chainState ∧ (marks hash txHash run run' = true →
      balanceFrom clean run'.chainState =
        balanceFrom clean run.chainState + (tx.credits env txHash run.chainState - tx.debits)) := by
  cases hstep with
  | skipped hexecuted =>
    rw [marks_of_same rfl]
    exact ⟨h, nofun⟩
  | refused nonceChecker hexecuted hnonce =>
    have hmarks : marks hash txHash run ({ run with nonceChecker }.orphan txHash) = false := marks_of_same rfl
    rw [hmarks]
    exact ⟨h, nofun⟩
  | failed nonceChecker e chainState hexecuted hnonce happly =>
    have hframed := (Transaction.applyWithPartialVerify_footprint env tx txHash run.chainState).framed
    have htracked := Transaction.applyWithPartialVerify_tracked env txHash hassets h
    rw [happly] at hframed htracked
    have hmarks : marks hash txHash run ({ run with nonceChecker, chainState }.orphan txHash) = false :=
      marks_of_same (congrArg (·.txsExecuted) hframed.storage)
    rw [hmarks]
    exact ⟨htracked, nofun⟩
  | executed nonceChecker chainState nextNonce inner hexecuted hnonce happly hnext hupdate =>
    have htracked := Transaction.applyWithPartialVerify_tracked env txHash hassets h
    rw [happly] at htracked
    have hsame := sameFinals_marked hupdate txHash hash
    refine ⟨htracked.congr hsame, fun _ => ?_⟩
    exact hsame.balanceFrom.trans (Transaction.balanceFrom_of_applied h hassets happly)

variable {e : Transaction × Hash}

theorem executeTransaction_balances (h : Tracked clean run.chainState)
    (hassets : e.1.verifyCommitmentAssets = true) (hrun : executeTransaction env hash e.1 e.2 run = .ok ⟨⟩ run') :
    Tracked clean run'.chainState ∧
      balanceFrom clean run'.chainState = balanceFrom clean run.chainState + changeOf clean env hash e run run' := by
  have hlinked := sameFinals_link run e.2 hash
  obtain ⟨htracked, hexecuted⟩ := (executeTransaction_step hrun).balances (h.congr hlinked) hassets
  rw [marks_link, hlinked.balanceFrom] at hexecuted
  refine ⟨htracked, ?_⟩
  show _ = _ + (creditsOf env hash e run run' - debitsOf hash e run run' + leftOf clean hash e run run')
  unfold creditsOf debitsOf leftOf
  cases hmarks : marks hash e.2 run run' with
  | true =>
    rw [hexecuted hmarks]
    simp only [if_true, add_zero]
  | false => simp only [Bool.false_eq_true, if_false, sub_zero, zero_add, add_sub_cancel]

/-- A turn writes no balance. -/
theorem executeTransaction_frame (hrun : executeTransaction env hash e.1 e.2 run = .ok ⟨⟩ run') :
    run'.chainState.inner.topoheight = run.chainState.inner.topoheight ∧ run'.storage.balances = run.storage.balances := by
  have hframed := (Transaction.applyWithPartialVerify_footprint env e.1 e.2 (run.link e.2 hash).chainState).framed
  rw [← balances_link run e.2 hash]
  cases executeTransaction_step hrun with
  | skipped hexecuted => exact ⟨rfl, rfl⟩
  | refused nonceChecker hexecuted hnonce => exact ⟨rfl, rfl⟩
  | failed nonceChecker error chainState hexecuted hnonce happly =>
    rw [happly] at hframed
    exact ⟨hframed.topoheight, congrArg (·.balances) hframed.storage⟩
  | executed nonceChecker chainState nextNonce inner hexecuted hnonce happly hnext hupdate =>
    rw [happly] at hframed
    have hsame := sameFinals_marked hupdate e.2 hash
    exact ⟨hsame.topoheight.trans hframed.topoheight, hsame.balances.trans (congrArg (·.balances) hframed.storage)⟩

theorem leftOf_eq_zero (hcharged : ¬FailsCharged env hash e run)
    (hrun : executeTransaction env hash e.1 e.2 run = .ok ⟨⟩ run') : leftOf clean hash e run run' = 0 := by
  have hlinked := sameFinals_link run e.2 hash
  have hkept : marks hash e.2 run run' = true ∨ balanceFrom clean run'.chainState = balanceFrom clean run.chainState := by
    rw [← marks_link, ← hlinked.balanceFrom]
    cases executeTransaction_step hrun with
    | skipped hexecuted => exact .inr rfl
    | refused nonceChecker hexecuted hnonce => exact .inr rfl
    | failed nonceChecker error chainState hexecuted hnonce happly =>
      refine .inr ?_
      rcases Exec.bind_error_iff.mp happly with hverify | ⟨found, s₁, hverify, -⟩
      · exact Transaction.balanceFrom_of_refused hverify
      · exact absurd ⟨nonceChecker, error, chainState, found, s₁, hexecuted, hnonce, hverify, happly⟩ hcharged
    | executed nonceChecker chainState nextNonce inner hexecuted hnonce happly hnext hupdate =>
      exact .inl (marks_executed hexecuted { chainState with inner } _ _ _)
  unfold leftOf
  rcases hkept with hmarks | hsame
  · rw [if_pos hmarks]
  · rw [hsame, sub_self, ite_self]

end Turns

section Rewards

variable {s s' : ApplicableChainState P}

def rewards (devPublicKey miner : PublicKey) (height blockReward totalFees gasFee : Nat) :
    Book PublicKey Hash (Ciphertext P) :=
  let percentage := getBlockDevFee height
  let devFeePart := if percentage ≠ 0 then blockReward * percentage / 100 else 0
  (if percentage ≠ 0 then Book.single devPublicKey XELIS_ASSET (.ofScalar devFeePart) else 0) +
    Book.single miner XELIS_ASSET (.ofScalar (blockReward - devFeePart + totalFees + gasFee))

theorem rewardMiner_balances (h : Tracked clean s) {reward : Nat} (hrun : rewardMiner key reward s = .ok ⟨⟩ s') :
    Tracked clean s' ∧ s'.inner.gasFee = s.inner.gasFee ∧
      balanceFrom clean s' = balanceFrom clean s + Book.single key XELIS_ASSET (.ofScalar reward) := by
  have hblock := (Steps.of_ok (rewardMiner_steps key reward) hrun).sameBlock
  have hpays : Pays clean s s' (Book.single key XELIS_ASSET (.ofScalar reward)) ∧ LinkedEntries clean s' ∧
      s'.inner.gasFee = s.inner.gasFee := by
    unfold rewardMiner liftInner at hrun
    cases hreward : ChainState.rewardMiner key reward s.inner with
    | error e inner => simp [hreward] at hrun
    | ok u inner =>
      simp only [hreward, EStateM.Result.ok.injEq, true_and] at hrun
      subst hrun
      obtain ⟨balance, inner₁, hload, hput⟩ := Exec.bind_ok_iff.mp hreward
      cases hput
      have hlookup : onInner (ChainState.internalGetReceiverBalance key XELIS_ASSET) s = .ok balance { s with inner := inner₁ } := by
        unfold onInner
        rw [hload]
      refine ⟨Transaction.lookup_put_pays h.starts hlookup (Ciphertext.addScalar_eq balance reward), ?_, ?_⟩
      · exact (h.entries.lookup h.starts hload).putReceiverBalance key XELIS_ASSET _
      · rw [← (ChainState.internalGetReceiverBalance_ok hload).2.1.gasFee]
        show (ChainState.putReceiverBalance _ _ _ inner₁).gasFee = _
        unfold ChainState.putReceiverBalance
        split
        · rfl
        · rfl
  obtain ⟨hpays, hentries, hgas⟩ := hpays
  have hechange : ∀ k a, echangeOf s' k a = echangeOf s k a := by
    intro k a
    unfold echangeOf
    rw [hblock.accounts]
  refine ⟨⟨hpays.starts, hentries, fun k a e he => ?_⟩, hgas, ?_⟩
  · rw [hechange] at he
    exact h.spendings k a e he
  · funext k a
    have hspent : s'.inner.spent k a = s.inner.spent k a := by
      unfold ChainState.spent
      rw [hblock.accounts]
    show receivedFrom clean s' k a - s'.inner.spent k a = receivedFrom clean s k a - s.inner.spent k a + _
    rw [hpays.received, hspent]
    exact add_sub_right_comm _ _ _

theorem rewardBlock_balances (h : Tracked clean s) {height blockReward totalFees : Nat}
    (hrun : rewardBlock devPublicKey miner height blockReward totalFees s = .ok ⟨⟩ s') :
    Tracked clean s' ∧ balanceFrom clean s' =
      balanceFrom clean s + rewards devPublicKey miner height blockReward totalFees s.inner.gasFee := by
  unfold rewardBlock at hrun
  unfold rewards
  dsimp only at hrun ⊢
  by_cases hpercentage : getBlockDevFee height ≠ 0
  · simp only [if_pos hpercentage] at hrun ⊢
    obtain ⟨⟨⟩, s₁, hdev, hrun⟩ := Exec.bind_ok_iff.mp hrun
    obtain ⟨_, _, hget, hminer⟩ := Exec.bind_ok_iff.mp hrun
    cases hget
    obtain ⟨htracked, hgas, hbalance⟩ := rewardMiner_balances h hdev
    obtain ⟨htracked', -, hbalance'⟩ := rewardMiner_balances htracked hminer
    refine ⟨htracked', ?_⟩
    rw [hbalance', hbalance, hgas, add_assoc]
  · simp only [if_neg hpercentage] at hrun ⊢
    obtain ⟨_, _, hget, hminer⟩ := Exec.bind_ok_iff.mp hrun
    cases hget
    obtain ⟨htracked, -, hbalance⟩ := rewardMiner_balances h hminer
    refine ⟨htracked, ?_⟩
    rw [hbalance, zero_add]

end Rewards

section Blocks

variable {devPublicKey : PublicKey} {block : Block} {blockReward : Nat} {run run' : BlockRun P} {t : TopoHeight}

abbrev hashed (block : Block) : List (Transaction × Hash) := block.transactions.zip block.header.txsHashes

def contractTransfers (s : ApplicableChainState P) : Book PublicKey Hash (Ciphertext P) := fun key asset =>
  .ofScalar ((transferOf s.contractManager.tracker key asset).getD 0)

/-- Everything that a block gives to accounts: the credits of the transactions that it executes, its rewards, and what
contracts transferred. -/
def blockCredits (env : Env P) (devPublicKey : PublicKey) (hash : Hash) (block : Block) (blockReward : Nat) (run : BlockRun P) :
    Book PublicKey Hash (Ciphertext P) :=
  Exec.tally (creditsOf env hash) (fun e => executeTransaction env hash e.1 e.2) (hashed block) run +
    match executeTransactions env hash (hashed block) run with
    | .ok _ run₁ =>
      rewards devPublicKey block.header.miner block.header.height blockReward run₁.totalFees run₁.chainState.inner.gasFee +
        contractTransfers run₁.chainState
    | .error _ _ => 0

/-- Everything that a block takes from accounts: the outputs of the transactions that it executes. -/
def blockDebits (env : Env P) (hash : Hash) (block : Block) (run : BlockRun P) : Book PublicKey Hash (Ciphertext P) :=
  Exec.tally (debitsOf hash) (fun e => executeTransaction env hash e.1 e.2) (hashed block) run

/-- What the transactions that a block does not execute leave in the balances nevertheless. -/
def leftBehind (env : Env P) (hash : Hash) (block : Block) (run : BlockRun P) : Book PublicKey Hash (Ciphertext P) :=
  Exec.tally (leftOf (newestBalances run.storage.balances) hash) (fun e => executeTransaction env hash e.1 e.2) (hashed block) run

theorem leftBehind_eq_zero (hcharged : Exec.Along (fun e run => ¬FailsCharged env hash e run)
    (fun e => executeTransaction env hash e.1 e.2) (hashed block) run) : leftBehind env hash block run = 0 :=
  Exec.tally_eq_zero (fun _ _ _ => leftOf_eq_zero) hcharged

theorem executeBlock_balances (htopo : run.chainState.inner.topoheight = t) (hsenders : run.chainState.inner.accounts = ∅)
    (hreceivers : run.chainState.inner.receiverBalances = ∅) (hready : BalancesReady run.storage.balances t)
    (hassets : ∀ tx ∈ block.transactions, tx.verifyCommitmentAssets = true)
    (hrun : executeBlock env devPublicKey hash block blockReward run = .ok ⟨⟩ run') (key : PublicKey) (asset : Hash) :
    ∃ entry, run'.storage.balanceHistory key asset = (run.storage.balanceHistory key asset).extend t entry ∧
      Holds (newestBalances run.storage.balances) key asset
        ((newestBalances run.storage.balances key asset).finalBalance + (blockCredits env devPublicKey hash block blockReward run
          key asset - blockDebits env hash block run key asset + leftBehind env hash block run key asset)) entry := by
  have hstart : Tracked (newestBalances run.storage.balances) run.chainState := by
    refine ⟨?_, fun k a version hentry => ?_, fun k a e he => ?_⟩
    · rw [htopo]
      exact hready.startsFrom
    · simp [ApplicableChainState.entryOf, hreceivers] at hentry
    · simp [echangeOf, hsenders] at he
  obtain ⟨run₁, s₁, s₂, htxs, hreward, hwrite, rfl⟩ := executeBlock_ok hrun
  have hloop : (Tracked (newestBalances run.storage.balances) run₁.chainState ∧
        run₁.chainState.inner.topoheight = t ∧ run₁.storage.balances = run.storage.balances) ∧
      balanceFrom (newestBalances run.storage.balances) run₁.chainState =
        balanceFrom (newestBalances run.storage.balances) run.chainState +
          Exec.tally (changeOf (newestBalances run.storage.balances) env hash) (fun e => executeTransaction env hash e.1 e.2)
            (hashed block) run := by
    refine Exec.forM_tally (I := fun run₁ => Tracked (newestBalances run.storage.balances) run₁.chainState ∧
      run₁.chainState.inner.topoheight = t ∧ run₁.storage.balances = run.storage.balances)
      (q := fun run₁ => balanceFrom (newestBalances run.storage.balances) run₁.chainState) ?_ ⟨hstart, htopo, rfl⟩ htxs
    rintro e he run₂ run₃ ⟨h₂, htopo₂, hbalances₂⟩ hstep
    obtain ⟨h₃, hchange⟩ := executeTransaction_balances h₂ (hassets e.1 (List.of_mem_zip he).1) hstep
    have hframed := executeTransaction_frame hstep
    exact ⟨⟨h₃, hframed.1.trans htopo₂, hframed.2.trans hbalances₂⟩, hchange⟩
  obtain ⟨⟨htracked, htopo₁, hbalances₁⟩, hloop⟩ := hloop
  obtain ⟨hrewarded, hbalance⟩ := rewardBlock_balances htracked hreward
  have hsteps := Steps.of_ok (rewardBlock_steps _ _ _ _ _) hreward
  have hbalances : s₁.inner.storage.balances = run.storage.balances := (hsteps.balances (by simp)).trans hbalances₁
  obtain ⟨entry, hhistory, hholds⟩ := applyChanges_final key asset hrewarded hwrite
  refine ⟨entry, ?_, ?_⟩
  · rw [hsteps.sameBlock.topoheight, htopo₁] at hhistory
    refine hhistory.trans (congrArg (History.extend · t entry) ?_)
    exact congrArg (·.history (getBalanceKeyFor key asset)) hbalances
  · have hbegin : balanceFrom (newestBalances run.storage.balances) run.chainState key asset =
        (newestBalances run.storage.balances key asset).finalBalance := by
      have hentry : ApplicableChainState.entryOf run.chainState key asset = none := by simp [ApplicableChainState.entryOf, hreceivers]
      have hechange : echangeOf run.chainState key asset = none := by simp [echangeOf, hsenders]
      rw [balanceFrom, receivedFrom, spent_of_no_echange hechange, sub_zero, hentry, Option.getD_none]
    have hturns : Exec.tally (changeOf (newestBalances run.storage.balances) env hash)
          (fun e => executeTransaction env hash e.1 e.2) (hashed block) run =
        Exec.tally (creditsOf env hash) (fun e => executeTransaction env hash e.1 e.2) (hashed block) run -
          blockDebits env hash block run + leftBehind env hash block run := by
      unfold changeOf
      rw [Exec.tally_add, Exec.tally_sub]
      rfl
    have hcredits : blockCredits env devPublicKey hash block blockReward run key asset =
        Exec.tally (creditsOf env hash) (fun e => executeTransaction env hash e.1 e.2) (hashed block) run key asset +
          (rewards devPublicKey block.header.miner block.header.height blockReward run₁.totalFees
            run₁.chainState.inner.gasFee key asset +
          .ofScalar ((transferOf s₁.contractManager.tracker key asset).getD 0)) := by
      unfold blockCredits
      rw [show executeTransactions env hash (hashed block) run = .ok ⟨⟩ run₁ from htxs, hsteps.sameBlock.contractManager]
      rfl
    have htotal : balanceFrom (newestBalances run.storage.balances) s₁ key asset =
        (newestBalances run.storage.balances key asset).finalBalance +
          (Exec.tally (creditsOf env hash) (fun e => executeTransaction env hash e.1 e.2) (hashed block) run key asset -
            blockDebits env hash block run key asset + leftBehind env hash block run key asset) +
          rewards devPublicKey block.header.miner block.header.height blockReward run₁.totalFees
            run₁.chainState.inner.gasFee key asset := by
      rw [hbalance, hloop, hturns]
      show balanceFrom _ run.chainState key asset + _ + _ = _
      rw [hbegin]
      rfl
    rw [htotal] at hholds
    rw [hcredits]
    convert hholds using 1
    abel

end Blocks

section Runs

/-- The storages whose balances are ready for a block at a topoheight: where a chain begins, after a block was executed
whose transactions were verified to commit to each asset once, after the last topoheights were taken back, and after what
does not concern the balances. -/
inductive Ordered (node : Node P) : TopoHeight → Storage P → Prop
  | start {t : TopoHeight} {s : Storage P} (hready : BalancesReady s.balances t) : Ordered node t s
  | order {t : TopoHeight} {version : BlockVersion} {baseTopoHeight : TopoHeight} {hash : Hash} {o o₁ o' : Ordering P}
      {block : Block} {pastBurnedSupply blockReward : Nat} (hordered : Ordered node t o.storage)
      (hprepare : prepareBlock hash t o = .ok (block, pastBurnedSupply, blockReward) o₁)
      (hassets : ∀ tx ∈ block.transactions, tx.verifyCommitmentAssets = true)
      (horder : orderBlock node version baseTopoHeight hash t o = .ok ⟨⟩ o') : Ordered node (t + 1) o'.storage
  | takeBack {T n : TopoHeight} {s s' : Storage P} (hordered : Ordered node (T + n) s)
      (hdelete : (List.range' T n).forM Storage.deleteVersionedDataAtTopoheight s = .ok ⟨⟩ s') : Ordered node T s'
  | other {t : TopoHeight} {s s' : Storage P} (hordered : Ordered node t s) (hsame : s'.balances = s.balances) :
      Ordered node t s'

variable {node : Node P} {version : BlockVersion} {baseTopoHeight t : TopoHeight} {o o₁ o' : Ordering P} {block : Block}
  {pastBurnedSupply blockReward : Nat}

omit [RistrettoPoint P] in
theorem prepareBlock_balances (hash : Hash) (t : TopoHeight) :
    Exec.Moves (fun o o' : Ordering P => o'.storage.balances = o.storage.balances ∧ o'.nonceChecker = o.nonceChecker)
      (prepareBlock hash t) :=
  prepareBlock_keeps (f := fun storage => storage.balances) (fun _ _ _ => rfl) (fun _ _ _ => rfl) (fun _ _ _ => rfl) hash t

theorem orderBlock_balances (hready : BalancesReady o.storage.balances t)
    (hprepare : prepareBlock hash t o = .ok (block, pastBurnedSupply, blockReward) o₁)
    (hassets : ∀ tx ∈ block.transactions, tx.verifyCommitmentAssets = true)
    (horder : orderBlock node version baseTopoHeight hash t o = .ok ⟨⟩ o') (key : PublicKey) (asset : Hash) :
    ∃ entry, o'.storage.balanceHistory key asset = (o.storage.balanceHistory key asset).extend t entry ∧
      Holds (newestBalances o.storage.balances) key asset
        ((newestBalances o.storage.balances key asset).finalBalance +
          (blockCredits node.env node.devPublicKey hash block blockReward
              (o₁.blockRun node version baseTopoHeight hash block t pastBurnedSupply) key asset -
            blockDebits node.env hash block (o₁.blockRun node version baseTopoHeight hash block t pastBurnedSupply) key asset +
            leftBehind node.env hash block (o₁.blockRun node version baseTopoHeight hash block t pastBurnedSupply) key asset))
        entry := by
  obtain ⟨block', pastBurnedSupply', blockReward', o₁', run, hprepare', hexecute, hstorage, -⟩ := orderBlock_ok horder
  rw [hprepare] at hprepare'
  cases hprepare'
  have hprepared := prepareBlock_balances hash t o
  rw [hprepare] at hprepared
  have hbalances : (o₁.blockRun node version baseTopoHeight hash block t pastBurnedSupply).storage.balances = o.storage.balances :=
    hprepared.1
  have hready' : BalancesReady (o₁.blockRun node version baseTopoHeight hash block t pastBurnedSupply).storage.balances t := by
    rw [hbalances]
    exact hready
  have hexecuted := executeBlock_balances rfl rfl rfl hready' hassets hexecute key asset
  have hhistory : ∀ s : Storage P, s.balanceHistory key asset = s.balances.history (getBalanceKeyFor key asset) := fun _ => rfl
  rw [hhistory, hhistory, hbalances] at hexecuted
  rw [hstorage]
  exact hexecuted

theorem Ordered.ready {s : Storage P} (h : Ordered node t s) : BalancesReady s.balances t := by
  induction h with
  | start hready => exact hready
  | @order t version baseTopoHeight hash o o₁ o' block pastBurnedSupply blockReward _ hprepare hassets horder ih =>
    have hextended : ∀ key asset, (o'.storage.balanceHistory key asset).Linked VersionedBalance.previousTopoheight ∧
        (o'.storage.balanceHistory key asset).Below (t + 1) := by
      intro key asset
      obtain ⟨entry, hhistory, hholds⟩ := orderBlock_balances ih hprepare hassets horder key asset
      rw [hhistory]
      exact ih.extend hholds
    exact ⟨fun key asset => (hextended key asset).1, fun key asset => (hextended key asset).2⟩
  | takeBack _ hdelete ih => exact ih.takeBack hdelete
  | other _ hsame ih =>
    rw [hsame]
    exact ih

/-- Every balance that the block stored is linked to the one before it, and is that balance with what the block gave to the
account and without what it took. -/
def FinalsBalanced (node : Node P) (hash : Hash) (t : TopoHeight) (block : Block) (blockReward : Nat) (run : BlockRun P)
    (storage : Storage P) : Prop :=
  ∀ key asset v, (storage.balanceHistory key asset).version t = some v →
    ∃ previous, (storage.balanceHistory key asset).Earlier t previous ∧ v.previousTopoheight = previous.map Prod.fst ∧
      v.finalBalance = previous.elim 0 (·.2.finalBalance) +
        blockCredits node.env node.devPublicKey hash block blockReward run key asset - blockDebits node.env hash block run key asset

/-- In whatever branch a balance is written, it is the one before with everything that was given and taken, exactly when the
transactions that were not executed left nothing behind; and they do not unless one of them fails after it was charged. -/
theorem finalBalances_balanced (node : Node P) (version : BlockVersion) (baseTopoHeight t : TopoHeight) (hash : Hash)
    (o o₁ o' : Ordering P) (block : Block) (pastBurnedSupply blockReward : Nat) (hordered : Ordered node t o.storage)
    (hprepare : prepareBlock hash t o = .ok (block, pastBurnedSupply, blockReward) o₁)
    (hassets : ∀ tx ∈ block.transactions, tx.verifyCommitmentAssets = true)
    (horder : orderBlock node version baseTopoHeight hash t o = .ok ⟨⟩ o') :
    let run := o₁.blockRun node version baseTopoHeight hash block t pastBurnedSupply
    (FinalsBalanced node hash t block blockReward run o'.storage ↔
      ∀ key asset, ((o'.storage.balanceHistory key asset).version t).isSome →
        leftBehind node.env hash block run key asset = 0) ∧
    (Exec.Along (fun e run => ¬FailsCharged node.env hash e run) (fun e => executeTransaction node.env hash e.1 e.2)
      (hashed block) run → FinalsBalanced node hash t block blockReward run o'.storage) := by
  intro run
  have hready := hordered.ready
  have hstored : ∀ key asset v, (o'.storage.balanceHistory key asset).version t = some v →
      ∃ previous, (o'.storage.balanceHistory key asset).Earlier t previous ∧ v.previousTopoheight = previous.map Prod.fst ∧
        v.finalBalance = previous.elim 0 (·.2.finalBalance) +
          blockCredits node.env node.devPublicKey hash block blockReward run key asset - blockDebits node.env hash block run key asset +
          leftBehind node.env hash block run key asset := by
    intro key asset v hv
    obtain ⟨entry, hhistory, hholds⟩ := orderBlock_balances hready hprepare hassets horder key asset
    have hbelow := hready.below key asset
    have hearlier := (hready.linked key asset).earlier_newestVersion hbelow
    rw [hhistory] at hv ⊢
    cases entry with
    | none =>
      have hnone := hbelow.version t (Nat.le_refl t)
      rw [History.extend_none] at hv
      rw [show (o.storage.balanceHistory key asset).version t = none from hnone] at hv
      cases hv
    | some stored =>
      rw [History.extend_some, History.version_push_self, Option.some.injEq] at hv
      subst hv
      refine ⟨_, hearlier.extend (some stored), ?_, ?_⟩
      · rw [hholds.1, newestBalances, cleanBalance_link]
      · rw [hholds.2, newestBalances, cleanBalance_final, add_sub_assoc, add_assoc]
  have hiff : FinalsBalanced node hash t block blockReward run o'.storage ↔
      ∀ key asset, ((o'.storage.balanceHistory key asset).version t).isSome →
        leftBehind node.env hash block run key asset = 0 := by
    constructor
    · intro hbalanced key asset hsome
      obtain ⟨v, hv⟩ := Option.isSome_iff_exists.mp hsome
      obtain ⟨previous, hearlier, -, hfinal⟩ := hstored key asset v hv
      obtain ⟨previous', hearlier', -, hfinal'⟩ := hbalanced key asset v hv
      rw [hearlier'.unique hearlier, hfinal, add_eq_left] at hfinal'
      exact hfinal'
    · intro hleft key asset v hv
      obtain ⟨previous, hearlier, hlink, hfinal⟩ := hstored key asset v hv
      refine ⟨previous, hearlier, hlink, ?_⟩
      rw [hfinal, hleft key asset (by rw [hv]; rfl), add_zero]
  refine ⟨hiff, fun hcharged => hiff.mpr fun key asset _ => ?_⟩
  rw [leftBehind_eq_zero hcharged]
  rfl

end Runs

section Samples

open Transaction (clearEnv refusingEnv failingDeploy)

/-- The node whose contracts all return one. -/
def refusingNode : Node ℤ := { clearNode with env := refusingEnv }

/-- The chain with one more block to order, and a second asset. -/
def tokenOrdering (txs : List Transaction) : Ordering ℤ :=
  { sampleOrdering txs with storage := (sampleOrdering txs).storage.addAsset 9#256 0 ⟨none, ⟨8, "TOKEN", "TKN", none, none⟩⟩ }

/-- The balance that the first block stores for the account, and what it was given and taken makes of the one before. -/
def firstBlockBalance (node : Node ℤ) (o : Ordering ℤ) : Option (Ciphertext ℤ × Ciphertext ℤ) :=
  match prepareBlock 1#256 1 o, orderBlock node .v3 0 1#256 1 o with
  | .ok (block, pastBurnedSupply, blockReward) o₁, .ok _ o' =>
    let run := o₁.blockRun node .v3 0 1#256 block 1 pastBurnedSupply
    ((o'.storage.balanceHistory 7#256 XELIS_ASSET).version 1).map (fun v => (v.finalBalance,
      ((o'.storage.balanceHistory 7#256 XELIS_ASSET).version 0).elim 0 (·.finalBalance) +
        blockCredits node.env node.devPublicKey 1#256 block blockReward run 7#256 XELIS_ASSET -
        blockDebits node.env 1#256 block run 7#256 XELIS_ASSET))
  | _, _ => none

def firstBlockCommits (o : Ordering ℤ) : Bool :=
  match prepareBlock 1#256 1 o with
  | .ok (block, _, _) _ => block.transactions.all (·.verifyCommitmentAssets)
  | .error _ _ => false

theorem firstBlockBalance_failingDeploy : firstBlockBalance refusingNode (tokenOrdering [failingDeploy]) =
    some (⟨10 * COIN_VALUE - 10000 - BURN_PER_CONTRACT, 0⟩, ⟨10 * COIN_VALUE, 0⟩) := by
  decide +kernel

theorem firstBlockCommits_failingDeploy : firstBlockCommits (tokenOrdering [failingDeploy]) = true := by decide +kernel

theorem sampleOrdering_ready (txs : List Transaction) : BalancesReady (sampleOrdering txs).storage.balances 1 :=
  BalancesReady.single 7#256 XELIS_ASSET (⟨none, none, ⟨10 * COIN_VALUE, 0⟩, .input⟩ : VersionedBalance ℤ) rfl

theorem firstBlock_unbalanced {node : Node ℤ} {o : Ordering ℤ} {stored due : Ciphertext ℤ} (hne : stored ≠ due)
    (hready : BalancesReady o.storage.balances 1) (hcommits : firstBlockCommits o = true)
    (hrun : firstBlockBalance node o = some (stored, due)) :
    ∃ (o₁ o' : Ordering ℤ) (block : Block) (pastBurnedSupply blockReward : Nat),
      Ordered node 1 o.storage ∧ prepareBlock 1#256 1 o = .ok (block, pastBurnedSupply, blockReward) o₁ ∧
      (∀ tx ∈ block.transactions, tx.verifyCommitmentAssets = true) ∧ orderBlock node .v3 0 1#256 1 o = .ok ⟨⟩ o' ∧
      ¬FinalsBalanced node 1#256 1 block blockReward (o₁.blockRun node .v3 0 1#256 block 1 pastBurnedSupply) o'.storage := by
  unfold firstBlockBalance at hrun
  unfold firstBlockCommits at hcommits
  cases hprepare : prepareBlock 1#256 1 o with
  | error e o₁ => simp [hprepare] at hrun
  | ok prepared o₁ =>
    obtain ⟨block, pastBurnedSupply, blockReward⟩ := prepared
    cases horder : orderBlock node .v3 0 1#256 1 o with
    | error e o' => simp [hprepare, horder] at hrun
    | ok _ o' =>
      rw [hprepare] at hcommits
      simp only [hprepare, horder] at hrun
      obtain ⟨v, hv, hvalues⟩ := Option.map_eq_some_iff.mp hrun
      rw [Prod.mk.injEq] at hvalues
      refine ⟨o₁, o', block, pastBurnedSupply, blockReward, .start hready, rfl, List.all_eq_true.mp hcommits, rfl,
        fun hbalanced => hne ?_⟩
      obtain ⟨previous, hearlier, -, hfinal⟩ := hbalanced 7#256 XELIS_ASSET v hv
      have hzero : previous.elim 0 (·.2.finalBalance) =
          ((o'.storage.balanceHistory 7#256 XELIS_ASSET).version 0).elim 0 (·.finalBalance) := hearlier.elim_one _
      rw [← hvalues.1, ← hvalues.2, hfinal, hzero]

/-- A deployment that fails because its deposit cannot be given back is not executed, but its sender has paid for it. -/
theorem failed_deploy_unbalances : ∃ (o o₁ o' : Ordering ℤ) (block : Block) (pastBurnedSupply blockReward : Nat),
    Ordered refusingNode 1 o.storage ∧ prepareBlock 1#256 1 o = .ok (block, pastBurnedSupply, blockReward) o₁ ∧
    (∀ tx ∈ block.transactions, tx.verifyCommitmentAssets = true) ∧
    orderBlock refusingNode .v3 0 1#256 1 o = .ok ⟨⟩ o' ∧
    ¬FinalsBalanced refusingNode 1#256 1 block blockReward
      (o₁.blockRun refusingNode .v3 0 1#256 block 1 pastBurnedSupply) o'.storage := by
  have hready : BalancesReady (tokenOrdering [failingDeploy]).storage.balances 1 := sampleOrdering_ready [failingDeploy]
  exact ⟨tokenOrdering [failingDeploy], firstBlock_unbalanced (by decide) hready firstBlockCommits_failingDeploy
    firstBlockBalance_failingDeploy⟩

/-- One unit is burned, which is the only transaction of its block. -/
theorem burnWithNonce_balanced : ∃ (o₁ o' : Ordering ℤ) (block : Block) (pastBurnedSupply blockReward : Nat),
    prepareBlock 1#256 1 (sampleOrdering [burnWithNonce 0]) = .ok (block, pastBurnedSupply, blockReward) o₁ ∧
    orderBlock clearNode .v3 0 1#256 1 (sampleOrdering [burnWithNonce 0]) = .ok ⟨⟩ o' ∧
    FinalsBalanced clearNode 1#256 1 block blockReward
      (o₁.blockRun clearNode .v3 0 1#256 block 1 pastBurnedSupply) o'.storage := by
  have hrun : (firstBlockBalance clearNode (sampleOrdering [burnWithNonce 0])).isSome = true := by decide +kernel
  have hcommits : firstBlockCommits (sampleOrdering [burnWithNonce 0]) = true := by decide +kernel
  have happlies : firstBlockApplies (sampleOrdering [burnWithNonce 0]) = true := by decide +kernel
  have hready := sampleOrdering_ready [burnWithNonce 0]
  generalize sampleOrdering [burnWithNonce 0] = o at hrun hcommits happlies hready ⊢
  unfold firstBlockBalance at hrun
  unfold firstBlockCommits at hcommits
  unfold firstBlockApplies at happlies
  cases hprepare : prepareBlock 1#256 1 o with
  | error e o₁ => simp [hprepare] at hrun
  | ok prepared o₁ =>
    obtain ⟨block, pastBurnedSupply, blockReward⟩ := prepared
    cases horder : orderBlock clearNode .v3 0 1#256 1 o with
    | error e o' => simp [hprepare, horder] at hrun
    | ok _ o' =>
      rw [hprepare] at hcommits
      simp only [hprepare] at happlies
      refine ⟨o₁, o', block, pastBurnedSupply, blockReward, rfl, rfl, ?_⟩
      refine (finalBalances_balanced clearNode .v3 0 1 1#256 o o₁ o' block pastBurnedSupply blockReward (.start hready) hprepare
        (List.all_eq_true.mp hcommits) horder).2 ?_
      unfold hashed
      split at happlies
      case h_1 e htxs =>
        rw [htxs]
        refine ⟨?_, fun _ _ => trivial⟩
        rintro ⟨nonceChecker, error, chainState, found, s₁, -, -, -, happly⟩
        rw [show clearNode.env = clearEnv from rfl] at happly
        rw [happly] at happlies
        cases happlies
      case h_2 => cases happlies

end Samples

end Xelis.Blockchain
