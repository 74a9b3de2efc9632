import Xelis.Blockchain.NonceChecker
import Xelis.State.Written
import Xelis.Storage.Blocks
import Xelis.Transaction.Apply

namespace Xelis.Blockchain

open Lib (Exec)
open State (ApplicableChainState ChainState Env)
open State.ApplicableChainState (Steps Write liftInner applyChanges rewardMiner_steps)

variable {P : Type} [RistrettoPoint P]

/-- What the execution of a block works on. -/
structure BlockRun (P : Type) where
  chainState : ApplicableChainState P
  nonceChecker : NonceChecker
  orphanedTransactions : List Hash
  totalFees : Nat

namespace BlockRun

def storage (run : BlockRun P) : Storage P := run.chainState.inner.storage

def withStorage (run : BlockRun P) (f : Storage P → Storage P) : BlockRun P :=
  { run with chainState := { run.chainState with
      inner := { run.chainState.inner with storage := f run.chainState.inner.storage } } }

def link (run : BlockRun P) (txHash hash : Hash) : BlockRun P :=
  run.withStorage (·.addBlockLinkedToTxIfNotPresent txHash hash)

omit [RistrettoPoint P] in
theorem link_eq (run : BlockRun P) (txHash hash : Hash) :
    ∃ blocks, run.link txHash hash = run.withStorage ({ · with txBlocks := blocks }) := by
  obtain ⟨blocks, hlinked⟩ := Storage.addBlockLinkedToTxIfNotPresent_eq run.storage txHash hash
  exact ⟨blocks, congrArg (fun s => run.withStorage fun _ => s) hlinked⟩

/-- An orphaned transaction is kept once. -/
def orphan (run : BlockRun P) (txHash : Hash) : BlockRun P :=
  { run with orphanedTransactions :=
      if run.orphanedTransactions.contains txHash then run.orphanedTransactions
      else run.orphanedTransactions ++ [txHash] }

/-- Where the execution of a block starts. -/
def new (storage : Storage P) (mainnet : Bool) (stableTopoheight topoheight : TopoHeight) (blockVersion : BlockVersion)
    (burnedSupply : Nat) (hash : Hash) (block : Block) (nonceChecker : NonceChecker)
    (orphanedTransactions : List Hash) : BlockRun P :=
  { chainState := ApplicableChainState.new storage mainnet stableTopoheight topoheight blockVersion burnedSupply hash block
    nonceChecker, orphanedTransactions, totalFees := 0 }

end BlockRun

/-- One transaction of the block. A transaction that fails is skipped, but what it did to the state of the block
and its nonce stay. -/
def executeTransaction (env : Env P) (hash : Hash) (tx : Transaction) (txHash : Hash) :
    Exec BlockchainError (BlockRun P) PUnit := fun run =>
  let run := run.link txHash hash
  if run.storage.isTxExecutedInABlock txHash then .ok ⟨⟩ run
  else match run.nonceChecker.useNonce run.storage tx.source tx.nonce run.chainState.inner.topoheight with
    | .error e => .error e run
    | .ok (false, nonceChecker) => .ok ⟨⟩ ({ run with nonceChecker }.orphan txHash)
    | .ok (true, nonceChecker) =>
      match tx.applyWithPartialVerify env txHash run.chainState with
      | .error _ chainState => .ok ⟨⟩ ({ run with nonceChecker, chainState }.orphan txHash)
      | .ok _ chainState =>
        let run := { run with nonceChecker, chainState }
        match nonceChecker.getNewNonce tx.source with
        | .error e => .error e run
        | .ok nextNonce =>
          match ChainState.internalUpdateAccountNonce tx.source nextNonce chainState.inner with
          | .error e inner => .error e { run with chainState := { chainState with inner } }
          | .ok _ inner =>
            let run := { run with chainState := { chainState with inner } }
            let run := run.withStorage (·.setTxExecutedInBlock txHash hash)
            .ok ⟨⟩ { run with
              orphanedTransactions := run.orphanedTransactions.erase txHash
              totalFees := run.totalFees + tx.fee }

inductive TransactionStep (env : Env P) (hash : Hash) (tx : Transaction) (txHash : Hash) (run : BlockRun P) :
    BlockRun P → Prop
  | skipped (hexecuted : run.storage.isTxExecutedInABlock txHash = true) : TransactionStep env hash tx txHash run run
  | refused (nonceChecker : NonceChecker) (hexecuted : run.storage.isTxExecutedInABlock txHash = false)
      (hnonce : run.nonceChecker.useNonce run.storage tx.source tx.nonce run.chainState.inner.topoheight =
        .ok (false, nonceChecker)) :
      TransactionStep env hash tx txHash run ({ run with nonceChecker }.orphan txHash)
  | failed (nonceChecker : NonceChecker) (e : VerificationError BlockchainError) (chainState : ApplicableChainState P)
      (hexecuted : run.storage.isTxExecutedInABlock txHash = false)
      (hnonce : run.nonceChecker.useNonce run.storage tx.source tx.nonce run.chainState.inner.topoheight =
        .ok (true, nonceChecker))
      (happly : tx.applyWithPartialVerify env txHash run.chainState = .error e chainState) :
      TransactionStep env hash tx txHash run ({ run with nonceChecker, chainState }.orphan txHash)
  | executed (nonceChecker : NonceChecker) (chainState : ApplicableChainState P) (nextNonce : Nonce) (inner : ChainState P)
      (hexecuted : run.storage.isTxExecutedInABlock txHash = false)
      (hnonce : run.nonceChecker.useNonce run.storage tx.source tx.nonce run.chainState.inner.topoheight =
        .ok (true, nonceChecker))
      (happly : tx.applyWithPartialVerify env txHash run.chainState = .ok ⟨⟩ chainState)
      (hnext : nonceChecker.getNewNonce tx.source = .ok nextNonce)
      (hupdate : ChainState.internalUpdateAccountNonce tx.source nextNonce chainState.inner = .ok ⟨⟩ inner) :
      TransactionStep env hash tx txHash run
        { chainState := { chainState with
            inner := { inner with storage := inner.storage.setTxExecutedInBlock txHash hash } }
          nonceChecker
          orphanedTransactions := run.orphanedTransactions.erase txHash
          totalFees := run.totalFees + tx.fee }

variable {hash txHash : Hash} {run run' : BlockRun P}

theorem executeTransaction_step {env : Env P} {tx : Transaction}
    (h : executeTransaction env hash tx txHash run = .ok ⟨⟩ run') :
    TransactionStep env hash tx txHash (run.link txHash hash) run' := by
  unfold executeTransaction at h
  dsimp only at h
  cases hexecuted : (run.link txHash hash).storage.isTxExecutedInABlock txHash with
  | true =>
    simp only [hexecuted, if_true] at h
    cases h
    exact .skipped hexecuted
  | false =>
    simp only [hexecuted, Bool.false_eq_true, if_false] at h
    cases hnonce : (run.link txHash hash).nonceChecker.useNonce (run.link txHash hash).storage tx.source tx.nonce
        (run.link txHash hash).chainState.inner.topoheight with
    | error e => simp [hnonce] at h
    | ok used =>
      obtain ⟨valid, nonceChecker⟩ := used
      cases valid with
      | false =>
        simp only [hnonce] at h
        cases h
        exact .refused nonceChecker hexecuted hnonce
      | true =>
        simp only [hnonce] at h
        cases happly : tx.applyWithPartialVerify env txHash (run.link txHash hash).chainState with
        | error e chainState =>
          simp only [happly] at h
          cases h
          exact .failed nonceChecker e chainState hexecuted hnonce happly
        | ok _ chainState =>
          simp only [happly] at h
          cases hnext : nonceChecker.getNewNonce tx.source with
          | error e => simp [hnext] at h
          | ok nextNonce =>
            simp only [hnext] at h
            cases hupdate : ChainState.internalUpdateAccountNonce tx.source nextNonce chainState.inner with
            | error e inner => simp [hupdate] at h
            | ok _ inner =>
              simp only [hupdate] at h
              cases h
              exact .executed nonceChecker chainState nextNonce inner hexecuted hnonce happly hnext hupdate

def executeTransactions (env : Env P) (hash : Hash) (txs : List (Transaction × Hash)) :
    Exec BlockchainError (BlockRun P) PUnit :=
  txs.forM (fun e => executeTransaction env hash e.1 e.2)

def DEV_FEES : List (Nat × Nat) := [(0, 10), (3250000, 5)]

/-- The last threshold that is reached decides. -/
def getBlockDevFee (height : Nat) : Nat :=
  DEV_FEES.foldl (fun percentage threshold => if threshold.1 ≤ height then threshold.2 else percentage) 0

def rewardMiner (key : PublicKey) (reward : Nat) : Exec BlockchainError (ApplicableChainState P) PUnit :=
  liftInner (ChainState.rewardMiner key reward)

/-- The part of the developers first, then the miner with the fees and the gas. -/
def rewardBlock (devPublicKey miner : PublicKey) (height blockReward totalFees : Nat) :
    Exec BlockchainError (ApplicableChainState P) PUnit := do
  let percentage := getBlockDevFee height
  let devFeePart := if percentage ≠ 0 then blockReward * percentage / 100 else 0
  if percentage ≠ 0 then
    rewardMiner devPublicKey devFeePart
  let gasFee := (← get).inner.gasFee
  rewardMiner miner (blockReward - devFeePart + totalFees + gasFee)

theorem rewardBlock_steps (devPublicKey miner : PublicKey) (height blockReward totalFees : Nat) :
    Exec.Moves (Steps [.receiver]) (rewardBlock (P := P) devPublicKey miner height blockReward totalFees) := by
  have hminer : ∀ devFeePart, Exec.Moves (Steps [.receiver]) (do
      let gasFee := (← get).inner.gasFee
      rewardMiner miner (blockReward - devFeePart + totalFees + gasFee) : Write P PUnit) := by
    intro devFeePart
    exact Steps.bind (fun _ => .refl) fun _ => rewardMiner_steps _ _
  unfold rewardBlock
  dsimp only
  split
  · exact Steps.bind (rewardMiner_steps _ _) fun _ => hminer _
  · exact hminer _

/-- Rewards, then everything is written. -/
def finishBlock (env : Env P) (devPublicKey miner : PublicKey) (height blockReward totalFees : Nat) :
    Exec BlockchainError (ApplicableChainState P) PUnit := do
  rewardBlock devPublicKey miner height blockReward totalFees
  applyChanges env

def onChainState {α : Type} (x : Exec BlockchainError (ApplicableChainState P) α) :
    Exec BlockchainError (BlockRun P) α := fun run =>
  match x run.chainState with
  | .ok a chainState => .ok a { run with chainState }
  | .error e chainState => .error e { run with chainState }

def executeBlock (env : Env P) (devPublicKey : PublicKey) (hash : Hash) (block : Block) (blockReward : Nat) :
    Exec BlockchainError (BlockRun P) PUnit := do
  executeTransactions env hash (block.transactions.zip block.header.txsHashes)
  let totalFees := (← get).totalFees
  onChainState (finishBlock env devPublicKey block.header.miner block.header.height blockReward totalFees)

theorem executeBlock_ok {env : Env P} {devPublicKey : PublicKey} {block : Block} {blockReward : Nat}
    (h : executeBlock env devPublicKey hash block blockReward run = .ok ⟨⟩ run') :
    ∃ run₁ s₁ s₂, executeTransactions env hash (block.transactions.zip block.header.txsHashes) run = .ok ⟨⟩ run₁ ∧
      rewardBlock devPublicKey block.header.miner block.header.height blockReward run₁.totalFees run₁.chainState =
        .ok ⟨⟩ s₁ ∧
      applyChanges env s₁ = .ok ⟨⟩ s₂ ∧ run' = { run₁ with chainState := s₂ } := by
  obtain ⟨⟨⟩, run₁, htxs, h⟩ := Exec.bind_ok_iff.mp h
  obtain ⟨_, _, hget, h⟩ := Exec.bind_ok_iff.mp h
  cases hget
  unfold onChainState at h
  cases hfinish : finishBlock env devPublicKey block.header.miner block.header.height blockReward run₁.totalFees
      run₁.chainState with
  | error e s => simp [hfinish] at h
  | ok _ s₂ =>
    simp only [hfinish, EStateM.Result.ok.injEq, true_and] at h
    obtain ⟨⟨⟩, s₁, hreward, hwrite⟩ := Exec.bind_ok_iff.mp hfinish
    exact ⟨run₁, s₁, s₂, htxs, hreward, hwrite, h.symm⟩

end Xelis.Blockchain
