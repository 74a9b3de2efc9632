import Xelis.Wallet.Fees

namespace Xelis.Wallet

open Lib (Exec)
open Wire (CurveScalar RangeProof)

variable {P S R : Type} [RistrettoPoint P] [CurveScalar S] [RangeProof R]

namespace TransactionBuilder

def build (prover : Prover P S R) (builder : TransactionBuilder S R) :
    Exec GenerationError (TransactionBuilderState P) (Wire.Transaction S R) := do
  let unsigned ← builder.buildUnsigned prover
  return unsigned.finalize prover.sign

/-- The costs of these assets, and of no others, were taken from the balances. -/
structure Charged (builder : TransactionBuilder S R) (assets : List Hash) (state state' : TransactionBuilderState P) : Prop where
  frame : state' = { state with nonce := state'.nonce, balances := state'.balances }
  charged : ∀ asset ∈ assets, ∃ current left, state.balances[asset]? = some current ∧ state'.balances[asset]? = some left ∧
    left.amount + builder.getTransactionCost (builder.estimateFees state.registeredKeys) asset = current.amount
  other : ∀ asset ∉ assets, state'.balances[asset]? = state.balances[asset]?

/-- A build takes the nonce in any case, and the costs of the assets it uses: of all of them when it succeeds, of those that it
came to first when it fails. -/
structure Leaves {α : Type} (prover : Prover P S R) (builder : TransactionBuilder S R) (state : TransactionBuilderState P)
    (outcome : EStateM.Result GenerationError (TransactionBuilderState P) α) : Prop where
  nonce : (Exec.stateOf outcome).nonce = (state.nonce + 1) % U64_RANGE
  ok : ∀ a state', outcome = .ok a state' → builder.Charged builder.data.usedAssets state state'
  error : ∀ e state', outcome = .error e state' → ∃ assets,
    assets <+: prover.iterate builder.data.usedAssets ∧ builder.Charged assets state state'

variable {prover : Prover P S R} {builder : TransactionBuilder S R} {state state' : TransactionBuilderState P}
  {transfers : List (TransferWithCommitment P)} {fee : Nat}
variable {e : GenerationError}

theorem commitSource_error {asset : Hash} {balance : Nat}
    (h : builder.commitSource prover fee transfers asset balance state = .error e state') : state' = state := by
  unfold commitSource at h
  simp only [Exec.bind_apply, Exec.get_apply] at h
  cases hcurrent : state.balances[asset]? with
  | none =>
    simp only [hcurrent] at h
    cases h
    rfl
  | some current =>
    simp only [hcurrent] at h
    cases hct : current.ciphertext.takeCiphertext with
    | none =>
      simp only [hct] at h
      cases h
      rfl
    | some ct =>
      simp only [hct] at h
      cases h

variable {sources done : List (Hash × Nat)}

/-- The assets before the one that fails are spent. -/
theorem commitSources_error (hnodup : (sources.map Prod.fst).Nodup)
    (h : builder.commitSources prover fee transfers sources state = .error e state') :
    ∃ done, done <+: sources ∧ Spent builder fee transfers done state state' := by
  induction sources generalizing state with
  | nil => cases h
  | cons source sources ih =>
    rw [List.map_cons, List.nodup_cons] at hnodup
    rcases Exec.bind_error_iff.mp h with hfirst | ⟨commitment, state₁, hfirst, hrest⟩
    · rw [commitSource_error hfirst]
      exact ⟨[], List.nil_prefix, rfl, fun _ _ => rfl, fun e he => absurd he List.not_mem_nil⟩
    · rcases Exec.bind_error_iff.mp hrest with hsources | ⟨_, _, _, hreturn⟩
      · obtain ⟨done, hstart, hspent⟩ := ih hnodup.2 hsources
        have hfresh : source.1 ∉ done.map Prod.fst := fun hmem => hnodup.1 ((List.IsPrefix.map Prod.fst hstart).subset hmem)
        exact ⟨source :: done, (List.prefix_cons_inj source).mpr hstart, hspent.cons hfresh hfirst⟩
      · cases hreturn

omit [RistrettoPoint P] [CurveScalar S] [RangeProof R] in
theorem newBalance_ok {asset : Hash} {balance : Nat} (h : builder.newBalance state fee asset = .ok balance) :
    ∃ current, state.balances[asset]? = some current ∧ balance + builder.getTransactionCost fee asset = current.amount := by
  unfold newBalance at h
  split at h
  · cases h
  · rename_i current hcurrent
    dsimp only at h
    split at h
    · rename_i hcovered
      cases h
      exact ⟨current, hcurrent, Nat.sub_add_cancel hcovered⟩
    · cases h

theorem charged_of_spent {balances : List Nat} {nonce : Nonce}
    (hbalances : (prover.iterate builder.data.usedAssets).mapM (builder.newBalance state (builder.estimateFees state.registeredKeys)) = .ok balances)
    (hdone : done <+: (prover.iterate builder.data.usedAssets).zip balances)
    (hspent : Spent builder (builder.estimateFees state.registeredKeys) transfers done { state with nonce } state') :
    state'.nonce = nonce ∧ done.map Prod.fst <+: prover.iterate builder.data.usedAssets ∧ builder.Charged (done.map Prod.fst) state state' := by
  have hall := forall₂_of_mapM hbalances
  have hframe := hspent.frame
  refine ⟨congrArg TransactionBuilderState.nonce hframe, ?_, ?_, fun asset hasset => ?_, hspent.other⟩
  · have hstart := hdone.map Prod.fst
    rwa [List.map_fst_zip hall.length_eq.le] at hstart
  · rw [hframe]
  · obtain ⟨source, hsource, rfl⟩ := List.mem_map.mp hasset
    obtain ⟨current, ct, hcurrent, -, hleft⟩ := hspent.spent source hsource
    obtain ⟨current', hcurrent', hcost⟩ := newBalance_ok (List.forall₂_iff_zip.mp hall |>.2 (hdone.subset hsource))
    cases hcurrent.symm.trans hcurrent'
    exact ⟨current, _, hcurrent, hleft, hcost⟩

omit [RistrettoPoint P] in
theorem charged_nil (nonce : Nonce) : builder.Charged [] state { state with nonce } where
  frame := rfl
  charged _ hasset := absurd hasset List.not_mem_nil
  other _ _ := rfl

theorem buildUnsigned_leaves (prover : Prover P S R) (builder : TransactionBuilder S R) (state : TransactionBuilderState P) :
    Leaves prover builder state (builder.buildUnsigned prover state) := by
  have hnothing (e : GenerationError) : Leaves prover builder state (.error e { state with nonce := (state.nonce + 1) % U64_RANGE } :
      EStateM.Result GenerationError (TransactionBuilderState P) (UnsignedTransaction S R)) :=
    ⟨rfl, fun _ _ h => (nomatch h), fun _ _ h => by cases h; exact ⟨[], List.nil_prefix, charged_nil _⟩⟩
  unfold buildUnsigned
  simp only [Exec.bind_apply, Exec.get_apply, Exec.modify_apply, Exec.ofExcept_apply]
  cases builder.prepare prover state.mainnet with
  | error e => exact hnothing e
  | ok transfers =>
    dsimp only
    cases hbalances : (prover.iterate builder.data.usedAssets).mapM (builder.newBalance state (builder.estimateFees state.registeredKeys)) with
    | error e => exact hnothing e
    | ok balances =>
      dsimp only
      have hkeys : ((prover.iterate builder.data.usedAssets).zip balances).map Prod.fst = prover.iterate builder.data.usedAssets :=
        List.map_fst_zip (forall₂_of_mapM hbalances).length_eq.le
      have hnodup : (((prover.iterate builder.data.usedAssets).zip balances).map Prod.fst).Nodup := by
        rw [hkeys]
        exact nodup_iterate prover builder.data
      cases hsources : builder.commitSources prover (builder.estimateFees state.registeredKeys) transfers
          ((prover.iterate builder.data.usedAssets).zip balances) { state with nonce := (state.nonce + 1) % U64_RANGE } with
      | error e state₁ =>
        obtain ⟨done, hdone, hspent⟩ := commitSources_error hnodup hsources
        obtain ⟨hnonce, hstart, hcharged⟩ := charged_of_spent hbalances hdone hspent
        exact ⟨hnonce, fun _ _ h => (nomatch h), fun _ _ h => by cases h; exact ⟨_, hstart, hcharged⟩⟩
      | ok commitments state₁ =>
        dsimp only
        obtain ⟨-, hspent⟩ := commitSources_ok hnodup hsources
        obtain ⟨hnonce, hstart, hcharged⟩ := charged_of_spent hbalances List.prefix_rfl hspent
        rw [hkeys] at hcharged
        have hall (e : GenerationError) : Leaves prover builder state
            (.error e state₁ : EStateM.Result GenerationError (TransactionBuilderState P) (UnsignedTransaction S R)) :=
          ⟨hnonce, fun _ _ h => (nomatch h), fun _ _ h => by cases h; exact ⟨_, List.prefix_rfl, hcharged⟩⟩
        cases builder.buildData prover transfers with
        | error e => exact hall e
        | ok data =>
          dsimp only
          cases prove prover (balances ++ transfers.map (fun transfer => transfer.inner.amount)) with
          | error e => exact hall e
          | ok rangeProof =>
            have hset (asset : Hash) : asset ∈ builder.data.usedAssets ↔ asset ∈ prover.iterate builder.data.usedAssets :=
              (prover.iterate_perm _).mem_iff.symm
            refine ⟨hnonce, fun _ _ h => ?_, fun _ _ h => (nomatch h)⟩
            cases h
            exact ⟨hcharged.frame, fun asset hasset => hcharged.charged asset ((hset asset).mp hasset),
              fun asset hasset => hcharged.other asset (fun hmem => hasset ((hset asset).mpr hmem))⟩

/-- Nothing is given back by a build that fails. -/
theorem build_leaves (prover : Prover P S R) (builder : TransactionBuilder S R) (state : TransactionBuilderState P) :
    Leaves prover builder state (builder.buildUnsigned prover state) ∧ Leaves prover builder state (builder.build prover state) := by
  have hunsigned := buildUnsigned_leaves prover builder state
  refine ⟨hunsigned, ?_⟩
  unfold build
  rw [Exec.bind_apply]
  cases h : builder.buildUnsigned prover state with
  | error e state₁ =>
    rw [h] at hunsigned
    exact ⟨hunsigned.nonce, fun _ _ h => (nomatch h), fun _ _ h => by cases h; exact hunsigned.error e state₁ rfl⟩
  | ok unsigned state₁ =>
    rw [h] at hunsigned
    exact ⟨hunsigned.nonce, fun _ _ h => by cases h; exact hunsigned.ok unsigned state₁ rfl, fun _ _ h => (nomatch h)⟩

def emptyBurn : TransactionBuilder (Fin Wire.GROUP_ORDER) IVec where
  version := .v2
  source := 1
  requiredThresholds := none
  data := .burn { asset := XELIS_ASSET, amount := 0 }
  feeBuilder := .default

noncomputable def leftOf (builder : TransactionBuilder (Fin Wire.GROUP_ORDER) IVec) : Option (GenerationError × Nonce × Option Nat) :=
  match builder.buildUnsigned plainProver richState with
  | .ok _ _ => none
  | .error e state => some (e, state.nonce, state.balances[XELIS_ASSET]?.map Balance.amount)

theorem leftOf_emptyBurn : leftOf emptyBurn = some (.burnZero, 1, some (10 ^ 15 - 20000)) := by decide +kernel

/-- It is refused after the nonce and the fee were taken. -/
theorem emptyBurn_charged : ∃ e state', emptyBurn.buildUnsigned plainProver richState = .error e state' ∧
    state'.nonce ≠ richState.nonce ∧
    state'.balances[XELIS_ASSET]?.map Balance.amount ≠ richState.balances[XELIS_ASSET]?.map Balance.amount := by
  have hleft := leftOf_emptyBurn
  unfold leftOf at hleft
  cases hbuild : emptyBurn.buildUnsigned plainProver richState with
  | ok unsigned state' =>
    rw [hbuild] at hleft
    cases hleft
  | error e state' =>
    rw [hbuild] at hleft
    obtain ⟨hnonce, hbalance⟩ := Prod.mk.inj (Prod.mk.inj (Option.some.inj hleft)).2
    refine ⟨e, state', rfl, ?_, ?_⟩
    · rw [hnonce]
      exact Nat.one_ne_zero
    · rw [hbalance]
      decide +kernel

end TransactionBuilder

end Xelis.Wallet
