import Xelis.Blockchain.FinalBalances

namespace Xelis.Blockchain

open Lib (Exec)
open State State.ApplicableChainState
open Transaction (Covered HonestTransfers coins)

variable {P : Type} [RistrettoPoint P] {secret : PublicKey → P →+ P} {env : Env P} {hash : Hash}
variable {run run' : BlockRun P} {e : Transaction × Hash}

/-- What a turn adds to the ledger: what the contract of a transaction that is executed issues. -/
def issuedBy (env : Env P) (hash : Hash) (e : Transaction × Hash) (run run' : BlockRun P) : Hash → P :=
  if marks hash e.2 run run' then e.1.issued env e.2 (run.link e.2 hash).chainState else 0

/-- What a turn takes from the ledger: what a transaction that is executed pays to nobody in the block, and the private
deposits that its contract cannot hold. -/
def removedBy (secret : PublicKey → P →+ P) (env : Env P) (hash : Hash) (e : Transaction × Hash) (run run' : BlockRun P) :
    Hash → P :=
  if marks hash e.2 run run' then fun asset => coins (e.1.retained asset) +
    e.1.decompressPayload.elim 0 fun d => e.1.kept secret env e.2 d.2 (run.link e.2 hash).chainState asset
  else 0

theorem total_link (secret : PublicKey → P →+ P) (run : BlockRun P) (txHash hash : Hash) :
    (run.link txHash hash).chainState.total secret = run.chainState.total secret := by
  obtain ⟨_, hlink⟩ := run.link_eq txHash hash
  rw [hlink]
  rfl

theorem total_marked {nonce : Nonce} {key : PublicKey} {s : ApplicableChainState P} {inner : ChainState P}
    (hupdate : ChainState.internalUpdateAccountNonce key nonce s.inner = .ok ⟨⟩ inner) (secret : PublicKey → P →+ P)
    (txHash hash : Hash) :
    ApplicableChainState.total secret { s with inner := { inner with storage := inner.storage.setTxExecutedInBlock txHash hash } } =
      s.total secret := by
  have hfunds := ChainState.internalUpdateAccountNonce_sameFunds key nonce s.inner
  rw [hupdate] at hfunds
  have hunmoved : Unmoved s { s with inner } := ⟨hfunds, rfl, rfl, rfl, rfl⟩
  exact (show _ = ApplicableChainState.total secret { s with inner } from rfl).trans (hunmoved.total_eq secret)

/-- A turn moves value, and adds and takes no more than its transaction does. -/
theorem executeTransaction_conserves (hcovered : Covered e.1) (hassets : e.1.verifyCommitmentAssets = true)
    (hhonest : HonestTransfers secret e.1) (hwaste : ¬WastesNonce env hash e run)
    (hrun : executeTransaction env hash e.1 e.2 run = .ok ⟨⟩ run') :
    run'.chainState.total secret =
      run.chainState.total secret + (issuedBy env hash e run run' - removedBy secret env hash e run run') := by
  unfold issuedBy removedBy
  rw [← marks_link, ← total_link secret run e.2 hash]
  cases executeTransaction_step hrun with
  | skipped hexecuted =>
    rw [marks_of_same rfl]
    simp only [Bool.false_eq_true, if_false, sub_zero, add_zero]
  | refused nonceChecker hexecuted hnonce =>
    have hmarks : marks hash e.2 (run.link e.2 hash) ({ run.link e.2 hash with nonceChecker }.orphan e.2) = false :=
      marks_of_same rfl
    rw [hmarks]
    simp only [Bool.false_eq_true, if_false, sub_zero, add_zero]
    rfl
  | failed nonceChecker error chainState hexecuted hnonce happly =>
    exact absurd ⟨nonceChecker, error, chainState, hexecuted, hnonce, happly⟩ hwaste
  | executed nonceChecker chainState nextNonce inner hexecuted hnonce happly hnext hupdate =>
    have hfunded := Transaction.creditsFunded_of_covered hcovered (Transaction.nodup_of_verifyCommitmentAssets hassets) env e.2
      secret hhonest (run.link e.2 hash).chainState
    rw [happly] at hfunded
    obtain ⟨transfers, decompressed, hd, hequation⟩ := hfunded
    have hmarks : ∀ _ _, marks hash e.2 _ _ = true := marks_executed hexecuted { chainState with inner } nonceChecker
    rw [hmarks, total_marked hupdate]
    funext asset
    simp only [if_true, hd, Option.elim_some, Pi.add_apply, Pi.sub_apply]
    rw [← add_sub_assoc, ← hequation asset]
    abel

/-- While no transaction fails once its nonce was taken, a block whose transactions are covered moves value between
accounts, contracts and the collected fees, and changes what there is of an asset only by what its contracts issue and
what its transactions pay to nobody. -/
theorem executeTransactions_conserves (env : Env P) (secret : PublicKey → P →+ P) (hash : Hash) (txs : List (Transaction × Hash))
    (run run' : BlockRun P) (hcovered : ∀ e ∈ txs, Covered e.1) (hassets : ∀ e ∈ txs, e.1.verifyCommitmentAssets = true)
    (hhonest : ∀ e ∈ txs, HonestTransfers secret e.1)
    (hwaste : Exec.Along (fun e run => ¬WastesNonce env hash e run) (fun e => executeTransaction env hash e.1 e.2) txs run)
    (hrun : executeTransactions env hash txs run = .ok ⟨⟩ run') :
    run'.chainState.total secret = run.chainState.total secret +
      Exec.tally (issuedBy env hash - removedBy secret env hash) (fun e => executeTransaction env hash e.1 e.2) txs run := by
  induction txs generalizing run with
  | nil =>
    cases hrun
    exact (add_zero _).symm
  | cons e es ih =>
    obtain ⟨⟨⟩, run₁, hturn, hrest⟩ := Exec.bind_ok_iff.mp hrun
    have hmoved := executeTransaction_conserves (hcovered e List.mem_cons_self) (hassets e List.mem_cons_self)
      (hhonest e List.mem_cons_self) hwaste.1 hturn
    have hmoved' := ih run₁ (fun e he => hcovered e (List.mem_cons_of_mem _ he)) (fun e he => hassets e (List.mem_cons_of_mem _ he))
      (fun e he => hhonest e (List.mem_cons_of_mem _ he)) (hwaste.2 run₁ hturn) hrest
    have htally := @Exec.tally_cons _ _ _ _ _ (fun e => executeTransaction env hash e.1 e.2) es
      (issuedBy env hash - removedBy secret env hash) e run run₁ hturn
    rw [hmoved', hmoved, htally, add_assoc]
    rfl

section Samples

open Transaction (clearEnv sampleStorage sampleTx isOk exists_of_isOk)

/-- What the two accounts take off a commitment. -/
def sampleSecret (key : PublicKey) : ℤ →+ ℤ := (if key = 7#256 then 3 else 5 : ℤ) • AddMonoidHom.id ℤ

/-- A transfer that both sides open to the same amount, and a burn behind it. -/
def transferThenBurn : List (Transaction × Hash) :=
  [(sampleTx (.transfers [⟨XELIS_ASSET, 9#256, none, 50#256, 5#256, 3#256, []⟩]) (10 * COIN_VALUE - 10000 - 50), 5#256),
    ({ sampleTx (.burn ⟨XELIS_ASSET, COIN_VALUE⟩) (10 * COIN_VALUE - 20000 - 50 - COIN_VALUE) with nonce := 1 }, 6#256)]

def transferRun : BlockRun ℤ :=
  BlockRun.new sampleStorage false 0 1 .v3 0 1#256 ⟨⟨.v3, [], 0, 1, 0, [], 0#256, [5#256, 6#256]⟩, []⟩ {} []

theorem transferThenBurn_along : Exec.Along (fun e run => ¬WastesNonce clearEnv 1#256 e run)
    (fun e => executeTransaction clearEnv 1#256 e.1 e.2) transferThenBurn transferRun := by
  have happlied (e : Transaction × Hash) (run : BlockRun ℤ)
      (h : isOk (e.1.applyWithPartialVerify clearEnv e.2 (run.link e.2 1#256).chainState) = true) :
      ¬WastesNonce clearEnv 1#256 e run := by
    rintro ⟨nonceChecker, error, chainState, -, -, hfails⟩
    rw [hfails] at h
    cases h
  refine ⟨happlied _ _ (by decide +kernel), fun run hturn => ⟨happlied _ run ?_, fun _ _ => trivial⟩⟩
  have hsecond : isOk ((transferThenBurn[1]).1.applyWithPartialVerify clearEnv 6#256
      ((Exec.stateOf (executeTransaction clearEnv 1#256 (transferThenBurn[0]).1 5#256 transferRun)).link 6#256 1#256).chainState) =
      true := by
    decide +kernel
  rw [show executeTransaction clearEnv 1#256 (transferThenBurn[0]).1 5#256 transferRun = .ok ⟨⟩ run from hturn] at hsecond
  exact hsecond

theorem executeTransactions_conserves_transfer :
    ∃ run', executeTransactions clearEnv 1#256 transferThenBurn transferRun = .ok ⟨⟩ run' ∧
      run'.chainState.total sampleSecret = transferRun.chainState.total sampleSecret +
        Exec.tally (issuedBy clearEnv 1#256 - removedBy sampleSecret clearEnv 1#256)
          (fun e => executeTransaction clearEnv 1#256 e.1 e.2) transferThenBurn transferRun := by
  have hexecuted : isOk (executeTransactions clearEnv 1#256 transferThenBurn transferRun) = true := by decide +kernel
  obtain ⟨⟨⟩, run', hrun⟩ := exists_of_isOk hexecuted
  have hassets : ∀ e ∈ transferThenBurn, e.1.verifyCommitmentAssets = true := by decide
  refine ⟨run', hrun, executeTransactions_conserves clearEnv sampleSecret 1#256 _ transferRun run' (fun e he => ?_) hassets ?_
    transferThenBurn_along hrun⟩
  · refine (Transaction.covered_iff (hassets e he)).mpr fun module invoke hdata => ?_
    rcases List.mem_pair.mp he with rfl | rfl <;> cases hdata
  · refine List.forall_mem_cons.mpr ⟨fun t ht d hd => ?_, List.forall_mem_singleton.mpr trivial⟩
    rw [List.mem_singleton.mp ht] at hd ⊢
    cases hd
    decide

end Samples

end Xelis.Blockchain
