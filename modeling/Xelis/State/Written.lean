import Mathlib.Logic.Relation
import Xelis.State.ApplyChanges
import Xelis.State.Ledger

namespace Xelis.State.ApplicableChainState

open Lib (FiniteMap Exec)

variable {P : Type}

inductive WriteKind where
  | receiver
  | nonce
  | multisig
  | asset
  | supply
  | contractData
  | contractBalance
  | contract
  | output
  | balance
  | registration
  | burned
  deriving DecidableEq

def WriteKind.all : List WriteKind :=
  [.receiver, .nonce, .multisig, .asset, .supply, .contractData, .contractBalance, .contract, .output, .balance,
    .registration, .burned]

theorem WriteKind.subset_all (kinds : List WriteKind) : kinds ⊆ all := by
  intro kind _
  cases kind <;> decide

def withStorage (s : ApplicableChainState P) (f : Storage P → Storage P) : ApplicableChainState P :=
  { s with inner := { s.inner with storage := f s.inner.storage } }

inductive Step (t : TopoHeight) (kinds : List WriteKind) (s : ApplicableChainState P) : ApplicableChainState P → Prop
  | receiver (h : .receiver ∈ kinds) (receiverBalances : FiniteMap PublicKey (FiniteMap Hash (VersionedBalance P))) :
      Step t kinds s { s with inner := { s.inner with receiverBalances } }
  | nonce (h : .nonce ∈ kinds) (key : PublicKey) (v : VersionedNonce) :
      Step t kinds s (s.withStorage (·.setLastNonceTo key t v))
  | multisig (h : .multisig ∈ kinds) (key : PublicKey) (v : Versioned (Option MultiSigPayload)) :
      Step t kinds s (s.withStorage (·.setLastMultisigTo key t v))
  | asset (h : .asset ∈ kinds) (asset : Hash) (v : Versioned AssetData) :
      Step t kinds s (s.withStorage (·.addAsset asset t v))
  | supply (h : .supply ∈ kinds) (asset : Hash) (v : Versioned Nat) :
      Step t kinds s (s.withStorage (·.setLastSupplyForAsset asset t v))
  | contractData (h : .contractData ∈ kinds) (blake3 : IVec → Hash) (contract : Hash) (key : ValueCell)
      (v : Versioned (Option ValueCell)) :
      Step t kinds s (s.withStorage (·.setLastContractDataTo blake3 contract key t v))
  | contractBalance (h : .contractBalance ∈ kinds) (contract asset : Hash) (v : Versioned Nat) :
      Step t kinds s (s.withStorage (·.setLastContractBalanceTo contract asset t v))
  | contract (h : .contract ∈ kinds) (hash : Hash) (v : Versioned (Option Module)) :
      Step t kinds s (s.withStorage (·.setLastContractTo hash t v))
  | output (h : .output ∈ kinds) (txHash : Hash) (outputs : List ContractOutput) :
      Step t kinds s (s.withStorage (fun storage =>
        { storage with contractsOutputs := storage.contractsOutputs.insert txHash outputs }))
  | balance (h : .balance ∈ kinds) (key : PublicKey) (asset : Hash) (v : VersionedBalance P) :
      Step t kinds s (s.withStorage (·.setLastBalanceTo key asset t v))
  | registration (h : .registration ∈ kinds) (key : PublicKey) :
      Step t kinds s (s.withStorage (·.setAccountRegistrationTopoheight key t))
  | burned (h : .burned ∈ kinds) (burned : Nat) :
      Step t kinds s (s.withStorage (fun storage =>
        { storage with burnedSupply := storage.burnedSupply.insert t burned }))

abbrev StepsAt (t : TopoHeight) (kinds : List WriteKind) : ApplicableChainState P → ApplicableChainState P → Prop :=
  Relation.ReflTransGen (Step t kinds)

/-- Any number of writes for the topoheight of the block. -/
def Steps (kinds : List WriteKind) (s s' : ApplicableChainState P) : Prop := StepsAt s.inner.topoheight kinds s s'

/-- The part of the state that is only read when the changes are written. -/
structure SameBlock (s s' : ApplicableChainState P) : Prop where
  topoheight : s'.inner.topoheight = s.inner.topoheight
  blockVersion : s'.inner.blockVersion = s.inner.blockVersion
  accounts : s'.inner.accounts = s.inner.accounts
  contracts : s'.inner.contracts = s.inner.contracts
  contractManager : s'.contractManager = s.contractManager
  burnedSupply : s'.burnedSupply = s.burnedSupply

variable {a b c s s' : ApplicableChainState P} {α β : Type} {x y : Write P α} {f : α → Write P β}

section Rules

variable {t : TopoHeight} {kinds kinds' : List WriteKind}

theorem SameBlock.refl (s : ApplicableChainState P) : SameBlock s s := ⟨rfl, rfl, rfl, rfl, rfl, rfl⟩

theorem SameBlock.trans (hab : SameBlock a b) (hbc : SameBlock b c) : SameBlock a c where
  topoheight := hbc.topoheight.trans hab.topoheight
  blockVersion := hbc.blockVersion.trans hab.blockVersion
  accounts := hbc.accounts.trans hab.accounts
  contracts := hbc.contracts.trans hab.contracts
  contractManager := hbc.contractManager.trans hab.contractManager
  burnedSupply := hbc.burnedSupply.trans hab.burnedSupply

theorem Step.sameBlock (h : Step t kinds s s') : SameBlock s s' := by
  cases h with
  | _ => exact ⟨rfl, rfl, rfl, rfl, rfl, rfl⟩

theorem StepsAt.sameBlock (h : StepsAt t kinds s s') : SameBlock s s' := by
  induction h with
  | refl => exact .refl _
  | tail _ hstep ih => exact ih.trans hstep.sameBlock

/-- What every step leaves alone. -/
theorem StepsAt.eq_of_step (g : ApplicableChainState P → α) (hkeep : ∀ a b, Step t kinds a b → g b = g a)
    (h : StepsAt t kinds s s') : g s' = g s := by
  induction h with
  | refl => rfl
  | tail _ hstep ih => exact (hkeep _ _ hstep).trans ih

theorem Steps.sameBlock (h : Steps kinds s s') : SameBlock s s' := StepsAt.sameBlock h

theorem Step.mono (hsub : kinds ⊆ kinds') (h : Step t kinds s s') : Step t kinds' s s' := by
  cases h with
  | receiver h b => exact .receiver (hsub h) b
  | nonce h key v => exact .nonce (hsub h) key v
  | multisig h key v => exact .multisig (hsub h) key v
  | asset h asset v => exact .asset (hsub h) asset v
  | supply h asset v => exact .supply (hsub h) asset v
  | contractData h blake3 contract key v => exact .contractData (hsub h) blake3 contract key v
  | contractBalance h contract asset v => exact .contractBalance (hsub h) contract asset v
  | contract h hash v => exact .contract (hsub h) hash v
  | output h txHash outputs => exact .output (hsub h) txHash outputs
  | balance h key asset v => exact .balance (hsub h) key asset v
  | registration h key => exact .registration (hsub h) key
  | burned h b => exact .burned (hsub h) b

theorem Steps.mono (hsub : kinds ⊆ kinds') (h : Steps kinds s s') : Steps kinds' s s' := by
  unfold Steps at h ⊢
  induction h with
  | refl => exact .refl
  | tail _ hstep ih => exact ih.tail (hstep.mono hsub)

theorem Steps.trans (hab : Steps kinds a b) (hbc : Steps kinds b c) : Steps kinds a c := by
  refine Relation.ReflTransGen.trans hab ?_
  have htopo := hab.sameBlock.topoheight
  unfold Steps at hbc
  rw [htopo] at hbc
  exact hbc

theorem Steps.bind (hx : Exec.Moves (Steps kinds) x)
    (hf : ∀ a, Exec.Moves (Steps kinds) (f a)) : Exec.Moves (Steps kinds) (x >>= f) :=
  Exec.Moves.bind (fun _ _ _ hab hbc => hab.trans hbc) hx hf

theorem Steps.forM (xs : List β) {f : β → Write P PUnit} (h : ∀ b ∈ xs, Exec.Moves (Steps kinds) (f b)) :
    Exec.Moves (Steps kinds) (xs.forM f) :=
  Exec.Moves.forM (fun _ => .refl) (fun _ _ _ hab hbc => hab.trans hbc) xs h

theorem Steps.read {f : ApplicableChainState P → Write P α}
    (h : ∀ s, Exec.Moves (StepsAt s.inner.topoheight kinds) (f s)) : Exec.Moves (Steps kinds) (MonadState.get >>= f) :=
  fun s => h s s

theorem Steps.widen (hsub : kinds ⊆ kinds') (h : Exec.Moves (Steps kinds) x) :
    Exec.Moves (Steps kinds') x := fun s => (h s).mono hsub

namespace StepsAt

theorem bind (hx : Exec.Moves (StepsAt t kinds) x)
    (hf : ∀ a, Exec.Moves (StepsAt t kinds) (f a)) : Exec.Moves (StepsAt t kinds) (x >>= f) :=
  Exec.Moves.bind (fun _ _ _ hab hbc => hab.trans hbc) hx hf

theorem forM (xs : List β) {f : β → Write P PUnit} (h : ∀ b ∈ xs, Exec.Moves (StepsAt t kinds) (f b)) :
    Exec.Moves (StepsAt t kinds) (xs.forM f) :=
  Exec.Moves.forM (fun _ => .refl) (fun _ _ _ hab hbc => hab.trans hbc) xs h

theorem pure (a : α) : Exec.Moves (StepsAt t kinds) (Pure.pure a : Write P α) := fun _ => .refl

theorem ofExcept (x : Except BlockchainError α) : Exec.Moves (StepsAt t kinds) (Exec.ofExcept x : Write P α) := by
  intro s
  cases x with
  | error e => exact .refl
  | ok a => exact .refl

theorem modify {f : ApplicableChainState P → ApplicableChainState P} (h : ∀ s, Step t kinds s (f s)) :
    Exec.Moves (StepsAt t kinds) (modifyThe (ApplicableChainState P) f : Write P PUnit) := fun s => .single (h s)

theorem ite {c : Prop} [Decidable c] (hx : Exec.Moves (StepsAt t kinds) x)
    (hy : Exec.Moves (StepsAt t kinds) y) : Exec.Moves (StepsAt t kinds) (if c then x else y) := by
  split
  · exact hx
  · exact hy

end StepsAt

end Rules

section Stages

variable [RistrettoPoint P]

omit [RistrettoPoint P] in
theorem applyMultisig_steps (e : PublicKey × Account P) : Exec.Moves (Steps [.multisig]) (applyMultisig e) := by
  refine Steps.read fun s => ?_
  cases e.2.multisig with
  | none => exact StepsAt.pure _
  | some multisig =>
    exact StepsAt.ite (StepsAt.modify fun _ => .multisig List.mem_cons_self e.1 _) (StepsAt.pure _)

theorem applyEchange_steps (key : PublicKey) (e : Hash × Echange P) :
    Exec.Moves (Steps [.receiver]) (applyEchange key e) :=
  Steps.read fun _ => StepsAt.bind (StepsAt.ofExcept _) fun _ =>
    StepsAt.modify fun _ => .receiver List.mem_cons_self _

theorem applyAccount_after_nonce (e : PublicKey × Account P) (s : ApplicableChainState P) :
    Steps [.receiver, .multisig] (s.withStorage (·.setLastNonceTo e.1 s.inner.topoheight e.2.nonce))
      (Exec.stateOf (applyAccount e s)) := by
  have hentry : Exec.Moves (Steps [.receiver, .multisig]) (modifyThe (ApplicableChainState P) (fun s =>
      let balances := s.inner.receiverBalances[e.1]?.getD ∅
      { s with inner := { s.inner with receiverBalances := s.inner.receiverBalances.insert e.1 balances } }) :
        Write P PUnit) :=
    fun s => StepsAt.modify (fun _ => .receiver List.mem_cons_self _) s
  have hassets : Exec.Moves (Steps [.receiver, .multisig]) (e.2.assets.toList.forM (applyEchange e.1) : Write P PUnit) :=
    Steps.forM _ fun echange _ => Steps.widen (by simp) (applyEchange_steps e.1 echange)
  exact Steps.bind (Steps.widen (by simp) (applyMultisig_steps e)) (fun _ => Steps.bind hentry fun _ => hassets)
    (s.withStorage (·.setLastNonceTo e.1 s.inner.topoheight e.2.nonce))

theorem applyAccount_steps (e : PublicKey × Account P) :
    Exec.Moves (Steps [.receiver, .nonce, .multisig]) (applyAccount e) := by
  intro s
  have hnonce : Steps [.receiver, .nonce, .multisig] s
      (s.withStorage (·.setLastNonceTo e.1 s.inner.topoheight e.2.nonce)) := .single (.nonce (by simp) e.1 e.2.nonce)
  exact hnonce.trans ((applyAccount_after_nonce e s).mono (by simp))

section

omit [RistrettoPoint P]

theorem applyAsset_steps (e : Hash × Option AssetChanges) : Exec.Moves (Steps [.asset, .supply]) (applyAsset (P := P) e) := by
  refine Steps.read fun s => ?_
  cases e.2 with
  | none => exact StepsAt.pure _
  | some changes =>
    obtain ⟨data, supply⟩ := changes
    cases supply with
    | none =>
      dsimp only
      split
      · exact StepsAt.bind (StepsAt.modify fun _ => .asset (by simp) e.1 _) fun _ => StepsAt.pure _
      · exact StepsAt.pure _
    | some supply =>
      have hsupply : Exec.Moves (StepsAt s.inner.topoheight [.asset, .supply]) (if supply.1.shouldBeStored then
          modifyStorage (P := P) (·.setLastSupplyForAsset e.1 s.inner.topoheight ⟨supply.1.getTopoheight, supply.2⟩)
        else pure ⟨⟩) := StepsAt.ite (StepsAt.modify fun _ => .supply (by simp) e.1 _) (StepsAt.pure _)
      dsimp only
      split
      · exact StepsAt.bind (StepsAt.modify fun _ => .asset (by simp) e.1 _) fun _ => hsupply
      · exact hsupply

theorem applyContractData_steps (env : Env P) (contract : Hash) (e : ValueCell × VersionedState × Option ValueCell) :
    Exec.Moves (Steps [.contractData]) (applyContractData env contract e) :=
  Steps.read fun _ => StepsAt.ite
    (StepsAt.modify fun _ => .contractData List.mem_cons_self env.blake3 contract e.1 _) (StepsAt.pure _)

theorem applyContractBalance_steps (contract : Hash) (e : Hash × Option (VersionedState × Nat)) :
    Exec.Moves (Steps [.contractBalance]) (applyContractBalance (P := P) contract e) := by
  refine Steps.read fun s => ?_
  cases e.2 with
  | none => exact StepsAt.pure _
  | some balance =>
    exact StepsAt.ite (StepsAt.modify fun _ => .contractBalance List.mem_cons_self contract e.1 _) (StepsAt.pure _)

end

omit [RistrettoPoint P] in
theorem applyCache_steps (env : Env P) (e : Hash × ContractCache) :
    Exec.Moves (Steps [.contractData, .contractBalance]) (applyCache env e) :=
  Steps.bind
    (Steps.widen (by simp) (Steps.forM _ fun d _ => applyContractData_steps env e.1 d)) fun _ =>
    Steps.widen (by simp) (Steps.forM _ fun b _ => applyContractBalance_steps e.1 b)

theorem internalGetReceiverBalance_steps (t : TopoHeight) (key : PublicKey) (asset : Hash) :
    Exec.Moves (StepsAt t [.receiver]) (liftInner (P := P) (ChainState.internalGetReceiverBalance key asset)) := by
  intro s
  unfold liftInner
  rw [ChainState.internalGetReceiverBalance_eq]
  cases s.inner.receiverBalances[key]?.bind (·[asset]?) with
  | some version => exact .single (.receiver List.mem_cons_self _)
  | none =>
    cases s.inner.storage.getNewVersionedBalance key asset s.inner.topoheight with
    | error e => exact .single (.receiver List.mem_cons_self _)
    | ok found => exact .single (.receiver List.mem_cons_self _)

omit [RistrettoPoint P] in
theorem putReceiverBalance_step (t : TopoHeight) (key : PublicKey) (asset : Hash) (ct : Ciphertext P)
    (s : ApplicableChainState P) :
    Step t [.receiver] s { s with inner := ChainState.putReceiverBalance key asset ct s.inner } := by
  unfold ChainState.putReceiverBalance
  cases s.inner.receiverBalances[key]?.bind (·[asset]?) with
  | some version => exact .receiver List.mem_cons_self _
  | none => exact .receiver List.mem_cons_self s.inner.receiverBalances

theorem applyContractTransfer_steps (key : PublicKey) (e : Hash × Nat) :
    Exec.Moves (Steps [.receiver]) (applyContractTransfer (P := P) key e) := fun s =>
  StepsAt.bind (internalGetReceiverBalance_steps _ key e.1)
    (fun _ => StepsAt.modify fun _ => putReceiverBalance_step _ _ _ _ _) s

theorem rewardMiner_steps (key : PublicKey) (reward : Nat) :
    Exec.Moves (Steps [.receiver]) (liftInner (P := P) (ChainState.rewardMiner key reward)) := by
  intro s
  have hload := internalGetReceiverBalance_steps (P := P) s.inner.topoheight key XELIS_ASSET s
  unfold liftInner at hload ⊢
  simp only [ChainState.rewardMiner, Exec.bind_apply]
  cases hbalance : ChainState.internalGetReceiverBalance key XELIS_ASSET s.inner with
  | error e inner =>
    rw [hbalance] at hload
    exact hload
  | ok balance inner =>
    rw [hbalance] at hload
    exact hload.tail (putReceiverBalance_step _ _ _ _ _)

section

omit [RistrettoPoint P]

theorem applyContract_steps (e : Hash × VersionedState × Option Module) :
    Exec.Moves (Steps [.contract]) (applyContract (P := P) e) :=
  Steps.read fun _ => StepsAt.ite (StepsAt.modify fun _ => .contract List.mem_cons_self e.1 _) (StepsAt.pure _)

theorem applyOutputs_steps (e : Hash × List ContractOutput) : Exec.Moves (Steps [.output]) (applyOutputs (P := P) e) :=
  fun s => StepsAt.modify (fun _ => .output List.mem_cons_self e.1 e.2) s

theorem registerNonce_steps (key : PublicKey) : Exec.Moves (Steps [.nonce]) (registerNonce (P := P) key) :=
  Steps.read fun _ => StepsAt.ite (StepsAt.modify fun _ => .nonce List.mem_cons_self key _) (StepsAt.pure _)

theorem registerAccount_steps (key : PublicKey) : Exec.Moves (Steps [.registration]) (registerAccount (P := P) key) :=
  Steps.read fun _ => StepsAt.bind (StepsAt.ofExcept _) fun _ =>
    StepsAt.ite (StepsAt.modify fun _ => .registration List.mem_cons_self key) (StepsAt.pure _)

theorem storeBalances_steps (key : PublicKey) (balances : List (Hash × VersionedBalance P)) :
    Exec.Moves (Steps [.balance]) (do
      let topoheight := (← get).inner.topoheight
      balances.forM (fun b => modifyStorage (·.setLastBalanceTo key b.1 topoheight b.2)) : Write P PUnit) :=
  Steps.read fun _ => StepsAt.forM _ fun b _ => StepsAt.modify fun _ => .balance List.mem_cons_self key b.1 b.2

theorem applyBalances_eq (e : PublicKey × FiniteMap Hash (VersionedBalance P)) :
    applyBalances e = (do
      (do
        let topoheight := (← get).inner.topoheight
        e.2.toList.forM (fun b => modifyStorage (·.setLastBalanceTo e.1 b.1 topoheight b.2)))
      registerNonce e.1
      registerAccount e.1 : Write P PUnit) := rfl

end

omit [RistrettoPoint P] in
theorem applyBalances_steps (e : PublicKey × FiniteMap Hash (VersionedBalance P)) :
    Exec.Moves (Steps [.balance, .nonce, .registration]) (applyBalances e) := by
  rw [applyBalances_eq]
  exact Steps.bind (Steps.widen (by simp) (storeBalances_steps e.1 _)) fun _ =>
    Steps.bind (Steps.widen (by simp) (registerNonce_steps e.1)) fun _ =>
      Steps.widen (by simp) (registerAccount_steps e.1)

/-- Everything that writing a block can do, whether it succeeds or not. -/
theorem applyChanges_steps (env : Env P) : Exec.Moves (Steps WriteKind.all) (applyChanges env) := by
  have hread : Exec.Moves (Steps WriteKind.all) (MonadState.get : Write P (ApplicableChainState P)) := fun _ => .refl
  have hstage : ∀ {β : Type} {kinds : List WriteKind} {f : β → Write P PUnit},
      (∀ b, Exec.Moves (Steps kinds) (f b)) → ∀ xs : List β, Exec.Moves (Steps WriteKind.all) (xs.forM f) :=
    fun hf xs => Steps.forM xs fun b _ => Steps.widen (WriteKind.subset_all _) (hf b)
  refine Steps.bind hread fun s => Steps.bind (hstage applyAccount_steps _) fun _ => ?_
  refine Steps.bind hread fun s => Steps.bind (hstage applyAsset_steps _) fun _ => ?_
  refine Steps.bind hread fun s => Steps.bind (hstage (applyCache_steps env) _) fun _ => ?_
  refine Steps.bind hread fun s => Steps.bind (hstage (fun e => Steps.forM _ fun a _ => applyContractTransfer_steps e.1 a) _)
    fun _ => ?_
  refine Steps.bind hread fun s => Steps.bind (hstage applyContract_steps _) fun _ => ?_
  refine Steps.bind hread fun s => Steps.bind (hstage applyOutputs_steps _) fun _ => ?_
  refine Steps.bind hread fun s => Steps.bind (hstage applyBalances_steps _) fun _ => ?_
  exact Steps.read fun s => StepsAt.modify fun _ => .burned (by decide) s.burnedSupply

/-- The states between the stages of a block that was written. -/
structure StagesOf (env : Env P) (s s₁ s₂ s₃ s₄ s₅ s₆ s₇ s' : ApplicableChainState P) : Prop where
  accounts : s.inner.accounts.toList.forM applyAccount s = .ok ⟨⟩ s₁
  assets : s.contractManager.assets.toList.forM applyAsset s₁ = .ok ⟨⟩ s₂
  caches : s.contractManager.caches.toList.forM (applyCache env) s₂ = .ok ⟨⟩ s₃
  transfers : s.contractManager.tracker.transfers.toList.forM
    (fun e => e.2.toList.forM (applyContractTransfer e.1)) s₃ = .ok ⟨⟩ s₄
  contracts : s.inner.contracts.toList.forM applyContract s₄ = .ok ⟨⟩ s₅
  outputs : s.contractManager.outputs.toList.forM applyOutputs s₅ = .ok ⟨⟩ s₆
  balances : s₆.inner.receiverBalances.toList.forM applyBalances s₆ = .ok ⟨⟩ s₇
  written : s' = s₇.withStorage (fun storage =>
    { storage with burnedSupply := storage.burnedSupply.insert s.inner.topoheight s.burnedSupply })

omit [RistrettoPoint P] in
/-- The footprint of a stage that came to its end. -/
theorem Steps.of_ok {kinds : List WriteKind} (h : Exec.Moves (Steps kinds) x)
    {a : α} (hok : x s = .ok a s') : Steps kinds s s' := Exec.Moves.of_ok h hok

theorem accounts_steps {accounts : List (PublicKey × Account P)}
    (h : accounts.forM applyAccount s = .ok ⟨⟩ s') : Steps [.receiver, .nonce, .multisig] s s' :=
  Steps.of_ok (Steps.forM _ fun e _ => applyAccount_steps e) h

omit [RistrettoPoint P] in
theorem assets_steps {assets : List (Hash × Option AssetChanges)}
    (h : assets.forM applyAsset s = .ok ⟨⟩ s') : Steps [.asset, .supply] s s' :=
  Steps.of_ok (Steps.forM _ fun e _ => applyAsset_steps e) h

omit [RistrettoPoint P] in
theorem caches_steps {env : Env P} {caches : List (Hash × ContractCache)}
    (h : caches.forM (applyCache env) s = .ok ⟨⟩ s') : Steps [.contractData, .contractBalance] s s' :=
  Steps.of_ok (Steps.forM _ fun e _ => applyCache_steps env e) h

theorem transfers_steps {transfers : List (PublicKey × FiniteMap Hash Nat)}
    (h : transfers.forM (fun e => e.2.toList.forM (applyContractTransfer e.1)) s = .ok ⟨⟩ s') : Steps [.receiver] s s' :=
  Steps.of_ok (Steps.forM _ fun e _ => Steps.forM _ fun a _ => applyContractTransfer_steps e.1 a) h

section

omit [RistrettoPoint P]

theorem contracts_steps {contracts : List (Hash × VersionedState × Option Module)}
    (h : contracts.forM applyContract s = .ok ⟨⟩ s') : Steps [.contract] s s' :=
  Steps.of_ok (Steps.forM _ fun e _ => applyContract_steps e) h

theorem outputs_steps {outputs : List (Hash × List ContractOutput)}
    (h : outputs.forM applyOutputs s = .ok ⟨⟩ s') : Steps [.output] s s' :=
  Steps.of_ok (Steps.forM _ fun e _ => applyOutputs_steps e) h

theorem balances_steps {balances : List (PublicKey × FiniteMap Hash (VersionedBalance P))}
    (h : balances.forM applyBalances s = .ok ⟨⟩ s') : Steps [.balance, .nonce, .registration] s s' :=
  Steps.of_ok (Steps.forM _ fun e _ => applyBalances_steps e) h

end

/-- A block that was written went through every stage. What a stage reads is what the block left, since no stage
writes it. -/
theorem applyChanges_ok {env : Env P} (h : applyChanges env s = .ok ⟨⟩ s') :
    ∃ s₁ s₂ s₃ s₄ s₅ s₆ s₇, StagesOf env s s₁ s₂ s₃ s₄ s₅ s₆ s₇ s' := by
  unfold applyChanges at h
  obtain ⟨_, _, hget, h⟩ := Exec.bind_ok_iff.mp h
  cases hget
  obtain ⟨⟨⟩, s₁, h₁, h⟩ := Exec.bind_ok_iff.mp h
  have b₁ := (accounts_steps h₁).sameBlock
  obtain ⟨_, _, hget, h⟩ := Exec.bind_ok_iff.mp h
  cases hget
  obtain ⟨⟨⟩, s₂, h₂, h⟩ := Exec.bind_ok_iff.mp h
  have b₂ := b₁.trans (assets_steps h₂).sameBlock
  obtain ⟨_, _, hget, h⟩ := Exec.bind_ok_iff.mp h
  cases hget
  obtain ⟨⟨⟩, s₃, h₃, h⟩ := Exec.bind_ok_iff.mp h
  have b₃ := b₂.trans (caches_steps h₃).sameBlock
  obtain ⟨_, _, hget, h⟩ := Exec.bind_ok_iff.mp h
  cases hget
  obtain ⟨⟨⟩, s₄, h₄, h⟩ := Exec.bind_ok_iff.mp h
  have b₄ := b₃.trans (transfers_steps h₄).sameBlock
  obtain ⟨_, _, hget, h⟩ := Exec.bind_ok_iff.mp h
  cases hget
  obtain ⟨⟨⟩, s₅, h₅, h⟩ := Exec.bind_ok_iff.mp h
  have b₅ := b₄.trans (contracts_steps h₅).sameBlock
  obtain ⟨_, _, hget, h⟩ := Exec.bind_ok_iff.mp h
  cases hget
  obtain ⟨⟨⟩, s₆, h₆, h⟩ := Exec.bind_ok_iff.mp h
  have b₆ := b₅.trans (outputs_steps h₆).sameBlock
  obtain ⟨_, _, hget, h⟩ := Exec.bind_ok_iff.mp h
  cases hget
  obtain ⟨⟨⟩, s₇, h₇, h⟩ := Exec.bind_ok_iff.mp h
  have b₇ := b₆.trans (balances_steps h₇).sameBlock
  obtain ⟨_, _, hget, h⟩ := Exec.bind_ok_iff.mp h
  cases hget
  rw [b₁.contractManager] at h₂
  rw [b₂.contractManager] at h₃
  rw [b₃.contractManager] at h₄
  rw [b₄.contracts] at h₅
  rw [b₅.contractManager] at h₆
  refine ⟨s₁, s₂, s₃, s₄, s₅, s₆, s₇, h₁, h₂, h₃, h₄, h₅, h₆, h₇, ?_⟩
  rw [← b₇.topoheight, ← b₇.burnedSupply]
  cases h
  rfl

end Stages

end Xelis.State.ApplicableChainState
