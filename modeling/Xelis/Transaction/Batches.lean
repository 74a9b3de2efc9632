import Xelis.State.Verification

namespace Xelis.Transaction

open Lib (Exec)

variable {P S ε : Type}

/-- The proofs that are left for the end of the batch. -/
def proofsHold (proofs : Proofs P) (tx : Transaction) (prepared : Transcript P × List (P × CompressedPoint)) : Bool :=
  proofs.verifySigma tx prepared.1 && proofs.verifyRange tx prepared.1 prepared.2

theorem verifyProofs_ok_iff {proofs : Proofs P} {txs : List Transaction}
    {prepared : List (Transcript P × List (P × CompressedPoint))} {s s' : S} :
    (verifyProofs proofs txs prepared : Exec (VerificationError ε) S PUnit) s = .ok ⟨⟩ s' ↔
      (txs.zip prepared).all (fun e => proofsHold proofs e.1 e.2) = true ∧ s = s' := by
  have hall : (txs.zip prepared).all (fun e => proofsHold proofs e.1 e.2) =
      ((txs.zip prepared).all (fun e => proofs.verifySigma e.1 e.2.1) &&
        (txs.zip prepared).all (fun e => proofs.verifyRange e.1 e.2.1 e.2.2)) := by
    unfold proofsHold
    induction txs.zip prepared with
    | nil => rfl
    | cons e l ih =>
      simp only [List.all_cons, ih]
      ac_rfl
  rw [hall, Bool.and_eq_true, verifyProofs, Exec.bind_ok_iff]
  constructor
  · rintro ⟨⟨⟩, s₁, hsigma, hrange⟩
    obtain ⟨hsigmas, rfl⟩ := require_ok_iff.mp hsigma
    obtain ⟨hranges, rfl⟩ := require_ok_iff.mp hrange
    exact ⟨⟨hsigmas, hranges⟩, rfl⟩
  · rintro ⟨⟨hsigma, hrange⟩, rfl⟩
    exact ⟨⟨⟩, s, require_ok_iff.mpr ⟨hsigma, rfl⟩, require_ok_iff.mpr ⟨hrange, rfl⟩⟩

variable [RistrettoPoint P] [BlockchainVerificationState S P ε]

theorem verify_ok_iff (proofs : Proofs P) (tx : Transaction) (txHash : Hash) (s s' : S) :
    tx.verify proofs txHash s = .ok ⟨⟩ s' ↔ ∃ prepared, tx.preVerify proofs txHash s = .ok prepared s' ∧
      proofsHold proofs tx prepared = true := by
  rw [verify, Exec.bind_ok_iff]
  constructor
  · rintro ⟨prepared, s₁, hprepared, hproofs⟩
    obtain ⟨hhold, rfl⟩ := verifyProofs_ok_iff.mp hproofs
    exact ⟨prepared, hprepared, by simpa using hhold⟩
  · rintro ⟨prepared, hprepared, hproofs⟩
    exact ⟨prepared, s', hprepared, verifyProofs_ok_iff.mpr ⟨by simpa using hproofs, rfl⟩⟩

/-- The transactions are accepted one after the other, each on the state that the one before left. -/
def InTurn (proofs : Proofs P) : List (Transaction × Hash) → S → Prop
  | [], _ => True
  | e :: rest, s => ∃ prepared s', e.1.preVerify proofs e.2 s = .ok prepared s' ∧
    proofsHold proofs e.1 prepared = true ∧ InTurn proofs rest s'

theorem verifyBatch_ok_iff (proofs : Proofs P) (txs : List (Transaction × Hash)) (s : S) :
    (∃ s', verifyBatch proofs txs s = .ok ⟨⟩ s') ↔ InTurn proofs txs s := by
  have hbatch : (∃ s', verifyBatch proofs txs s = .ok ⟨⟩ s') ↔ ∃ prepared s',
      txs.mapM (fun e => preVerify proofs e.1 e.2) s = .ok prepared s' ∧
        ((txs.map Prod.fst).zip prepared).all (fun e => proofsHold proofs e.1 e.2) = true := by
    constructor
    · rintro ⟨s', h⟩
      obtain ⟨prepared, s₁, hprepared, hproofs⟩ := Exec.bind_ok_iff.mp h
      exact ⟨prepared, s₁, hprepared, (verifyProofs_ok_iff.mp hproofs).1⟩
    · rintro ⟨prepared, s', hprepared, hproofs⟩
      exact ⟨s', Exec.bind_ok_iff.mpr
        ⟨prepared, s', hprepared, verifyProofs_ok_iff.mpr ⟨hproofs, rfl⟩⟩⟩
  rw [hbatch]
  clear hbatch
  induction txs generalizing s with
  | nil => exact iff_of_true ⟨[], s, rfl, rfl⟩ trivial
  | cons e rest ih =>
    rw [List.mapM_cons]
    constructor
    · rintro ⟨prepared, s', hrun, hproofs⟩
      obtain ⟨first, s₁, hfirst, hrun⟩ := Exec.bind_ok_iff.mp hrun
      obtain ⟨others, s₂, hothers, hreturn⟩ := Exec.bind_ok_iff.mp hrun
      cases hreturn
      rw [List.map_cons, List.zip_cons_cons, List.all_cons, Bool.and_eq_true] at hproofs
      exact ⟨first, s₁, hfirst, hproofs.1, (ih s₁).mp ⟨others, _, hothers, hproofs.2⟩⟩
    · rintro ⟨first, s₁, hfirst, hproof, hrest⟩
      obtain ⟨others, s₂, hothers, hproofs⟩ := (ih s₁).mpr hrest
      refine ⟨first :: others, s₂, ?_, ?_⟩
      · refine Exec.bind_ok_iff.mpr ⟨first, s₁, hfirst, ?_⟩
        exact Exec.bind_ok_iff.mpr ⟨others, s₂, hothers, rfl⟩
      · rw [List.map_cons, List.zip_cons_cons, List.all_cons, Bool.and_eq_true]
        exact ⟨hproof, hproofs⟩

end Xelis.Transaction

namespace Xelis.State

variable {P : Type} [RistrettoPoint P]

def ChainState.InTurn (proofs : Proofs P) : List (Transaction × Hash) → ChainState P → Prop
  | [], _ => True
  | e :: rest, c => ∃ prepared c', c.preVerify proofs e = .ok prepared c' ∧
    Transaction.proofsHold proofs e.1 prepared = true ∧ InTurn proofs rest c'

theorem ChainState.verifyBatch_ok_iff (proofs : Proofs P) (txs : List (Transaction × Hash)) (c : ChainState P) :
    (∃ c', c.verifyBatch proofs txs = .ok ⟨⟩ c') ↔ ChainState.InTurn proofs txs c := by
  let _ := ChainState.verificationState (P := P) proofs.txSize
  refine (Transaction.verifyBatch_ok_iff proofs txs c).trans ?_
  induction txs generalizing c with
  | nil => exact Iff.rfl
  | cons e rest ih =>
    refine exists_congr fun prepared => exists_congr fun c' => and_congr_right fun _ => and_congr_right fun _ => ?_
    exact ih c'

theorem ChainState.InTurn.of_append {proofs : Proofs P} {txs rest : List (Transaction × Hash)} {c : ChainState P}
    (h : ChainState.InTurn proofs (txs ++ rest) c) : ChainState.InTurn proofs txs c := by
  induction txs generalizing c with
  | nil => exact trivial
  | cons e txs ih =>
    obtain ⟨prepared, c', hc, hproofs, hturn⟩ := h
    exact ⟨prepared, c', hc, hproofs, ih hturn⟩

end Xelis.State
