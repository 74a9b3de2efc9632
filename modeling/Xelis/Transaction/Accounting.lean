import Mathlib.Algebra.BigOperators.Pi
import Xelis.State.Execution
import Xelis.State.Ledger
import Xelis.Transaction.Apply

namespace Xelis.Transaction

open Lib (FiniteMap IndexMap Exec Book)
open State State.ApplicableChainState

variable {P : Type} [RistrettoPoint P] {secret : PublicKey → P →+ P}

abbrev coins (amount : Nat) : P := amount • RistrettoPoint.basepoint

def single (asset : Hash) (v : P) : Hash → P := fun a => if a = asset then v else 0

def Gains (secret : PublicKey → P →+ P) (s s' : ApplicableChainState P) (gain : Hash → P) : Prop :=
  ∀ asset, s'.total secret asset = s.total secret asset + gain asset

variable {a b c s s' s₁ s₂ : ApplicableChainState P}

theorem Gains.trans {f g : Hash → P} (hab : Gains secret a b f) (hbc : Gains secret b c g) :
    Gains secret a c (f + g) := by
  intro asset
  rw [hbc asset, hab asset, add_assoc]
  rfl

theorem Gains.of_unmoved (h : Unmoved s s') : Gains secret s s' 0 := by
  intro asset
  rw [h.total_eq secret]
  exact (add_zero _).symm

theorem Gains.congr {f g : Hash → P} (h : Gains secret s s' f) (hfg : f = g) : Gains secret s s' g := hfg ▸ h

variable {key source : PublicKey} {asset contract txHash hash : Hash} {ct ct' output out : Ciphertext P}

theorem gains_putReceiverBalance
    {version : VersionedBalance P} (h : s.inner.receiverBalances[key]?.bind (·[asset]?) = some version) :
    Gains secret s { s with inner := ChainState.putReceiverBalance key asset ct s.inner }
      (single asset (opening secret key ct - opening secret key (s.inner.received key asset))) := by
  have haccounts : accounts secret { s with inner := ChainState.putReceiverBalance key asset ct s.inner } =
      (s.accounts secret).add key asset (opening secret key ct - opening secret key (s.inner.received key asset)) := by
    funext k a
    simp only [accounts, Book.add, ChainState.received_putReceiverBalance h]
    have hspent : (ChainState.putReceiverBalance key asset ct s.inner).spent k a = s.inner.spent k a := by
      simp only [ChainState.putReceiverBalance, h]
      rfl
    rw [hspent]
    split
    · obtain ⟨rfl, rfl⟩ := ‹_ ∧ _›
      abel
    · abel
  have hrest : ({ s with inner := ChainState.putReceiverBalance key asset ct s.inner } : ApplicableChainState P).held = s.held ∧
      ({ s with inner := ChainState.putReceiverBalance key asset ct s.inner } : ApplicableChainState P).collected =
        s.collected := by
    simp only [ChainState.putReceiverBalance, h]
    exact ⟨rfl, rfl⟩
  intro a
  simp only [total, haccounts, Book.total_add, hrest.1, hrest.2, single]
  abel

theorem gains_collected (amount : Nat) (haccounts : s'.accounts secret = s.accounts secret)
    (hheld : s'.held = s.held) (howed : s'.contractManager.tracker = s.contractManager.tracker)
    (hcollected : s'.inner.gasFee + s'.burnedSupply = s.inner.gasFee + s.burnedSupply + amount) :
    Gains secret s s' (single XELIS_ASSET (coins amount)) := by
  intro a
  simp only [total, haccounts, hheld, howed, collected, hcollected, single, coins]
  split
  · simp only [add_nsmul]
    abel
  · abel

theorem gains_lookup_put (h : onInner (ChainState.internalGetReceiverBalance key asset) s = .ok ct s₁) :
    Gains secret s { s₁ with inner := ChainState.putReceiverBalance key asset ct' s₁.inner }
      (single asset (opening secret key ct' - opening secret key ct)) := by
  unfold onInner at h
  cases hget : ChainState.internalGetReceiverBalance key asset s.inner with
  | error e inner => simp [hget] at h
  | ok ct₀ inner =>
    simp only [hget, EStateM.Result.ok.injEq] at h
    obtain ⟨rfl, rfl⟩ := h
    obtain ⟨hct, hsame, version, hversion⟩ := ChainState.internalGetReceiverBalance_ok hget
    have hload : Unmoved s { s with inner } := ⟨hsame, rfl, rfl, rfl, rfl⟩
    have hput : Gains secret { s with inner } { s with inner := ChainState.putReceiverBalance key asset ct' inner } _ :=
      gains_putReceiverBalance hversion
    refine ((Gains.of_unmoved hload).trans hput).congr ?_
    rw [zero_add, hsame.received, ← hct]

theorem creditReceiver_gains {f : Ciphertext P → Ciphertext P} {v : P}
    (hf : ∀ ct, opening secret key (f ct) = opening secret key ct + v)
    (h : creditReceiver key asset f s = .ok ⟨⟩ s') : Gains secret s s' (single asset v) := by
  obtain ⟨ct, s₁, hget, hput⟩ := Exec.bind_ok_iff.mp h
  cases hput
  refine (gains_lookup_put hget).congr ?_
  rw [hf, add_sub_cancel_left]

theorem applyTransfer_gains {transfer : TransferPayload} {d : DecompressedTransferCt P}
    (hd : DecompressedTransferCt.decompress transfer = some d) (h : applyTransfer transfer s = .ok ⟨⟩ s') :
    Gains secret s s' (single transfer.asset (opening secret transfer.destination (d.getCiphertext .receiver))) := by
  obtain ⟨ct, s₁, hget, hput⟩ := Exec.bind_ok_iff.mp h
  simp only [DecompressedTransferCt.decompress, bind, Option.bind_eq_some_iff, pure, Option.some.injEq] at hd
  obtain ⟨commitment, hcommitment, senderHandle, -, receiverHandle, hreceiver, rfl⟩ := hd
  simp only [hcommitment, hreceiver] at hput
  cases hput
  refine (gains_lookup_put hget).congr ?_
  rw [opening_add, add_sub_cancel_left]
  rfl

def burnedGas (usedGas : Nat) : Nat := usedGas * TX_GAS_BURN_PERCENT / 100

theorem burnedGas_le (usedGas : Nat) : burnedGas usedGas ≤ usedGas := by
  unfold burnedGas TX_GAS_BURN_PERCENT
  omega

def splitGas (usedGas : Nat) (s : ApplicableChainState P) : ApplicableChainState P :=
  addGasFee (usedGas - burnedGas usedGas) (addBurnedCoins (burnedGas usedGas) s)

variable {usedGas maxGas refund amount : Nat}

theorem handleGas_eq (tx : Transaction) (h : usedGas ≤ maxGas) (s : ApplicableChainState P) :
    handleGas tx usedGas maxGas s =
      if 0 < maxGas - usedGas then
        match creditReceiver tx.source XELIS_ASSET (·.addScalar (maxGas - usedGas)) (splitGas usedGas s) with
        | .ok _ s' => .ok (maxGas - usedGas) s'
        | .error e s' => .error e s'
      else .ok (maxGas - usedGas) (splitGas usedGas s) := by
  have hburned : ¬ usedGas < usedGas * TX_GAS_BURN_PERCENT / 100 := Nat.not_lt.mpr (burnedGas_le usedGas)
  unfold handleGas
  dsimp only
  rw [if_neg hburned, if_neg (Nat.not_lt.mpr h)]
  split
  · show (creditReceiver tx.source XELIS_ASSET (·.addScalar (maxGas - usedGas)) >>= fun _ => pure (maxGas - usedGas))
      (splitGas usedGas s) = _
    rw [Exec.bind_apply]
    cases creditReceiver tx.source XELIS_ASSET (·.addScalar (maxGas - usedGas)) (splitGas usedGas s) with
    | ok u s' => rfl
    | error e s' => rfl
  · rfl

theorem splitGas_gains (usedGas : Nat) (s : ApplicableChainState P) :
    Gains secret s (splitGas usedGas s) (single XELIS_ASSET (coins usedGas)) := by
  refine gains_collected usedGas rfl rfl rfl ?_
  have hle := burnedGas_le usedGas
  show s.inner.gasFee + (usedGas - burnedGas usedGas) + (s.burnedSupply + burnedGas usedGas) = _
  omega

variable {tx : Transaction}

theorem handleGas_gains (hle : usedGas ≤ maxGas) (h : handleGas tx usedGas maxGas s = .ok refund s') :
    Gains secret s s' (single XELIS_ASSET (coins maxGas)) := by
  have hsplit : Gains secret s (splitGas usedGas s) _ := splitGas_gains usedGas s
  rw [handleGas_eq tx hle] at h
  split at h
  · cases hcredit : creditReceiver tx.source XELIS_ASSET (·.addScalar (maxGas - usedGas)) (splitGas usedGas s) with
    | error e s₁ => simp [hcredit] at h
    | ok u s₁ =>
      simp only [hcredit, EStateM.Result.ok.injEq] at h
      obtain ⟨rfl, rfl⟩ := h
      have hrefund := creditReceiver_gains (fun ct => opening_addScalar secret tx.source ct _) hcredit
      refine (hsplit.trans hrefund).congr ?_
      funext a
      have hsum : usedGas + (maxGas - usedGas) = maxGas := by omega
      simp only [Pi.add_apply, single]
      split
      · rw [← add_nsmul, hsum]
      · exact add_zero 0
  · simp only [EStateM.Result.ok.injEq] at h
    obtain ⟨-, rfl⟩ := h
    have hall : usedGas = maxGas := by omega
    exact hall ▸ hsplit

variable {decompressed : FiniteMap Hash (DecompressedDepositCt P)}

section Deposits

def depositValue (secret : PublicKey → P →+ P) (source : PublicKey)
    (decompressed : FiniteMap Hash (DecompressedDepositCt P)) (asset : Hash) : ContractDeposit → P
  | .pub amount => coins amount
  | .priv _ _ _ _ =>
    match decompressed[asset]? with
    | some d => opening secret source ⟨d.commitment, d.senderHandle⟩
    | none => 0

/-- A quantity of each entry of the deposits, asset by asset. -/
def sumDeposits (deposits : IndexMap Hash ContractDeposit) (f : Hash → ContractDeposit → P) : Hash → P := fun a =>
  match deposits.get a with
  | some d => f a d
  | none => 0

theorem sumDeposits_eq (deposits : IndexMap Hash ContractDeposit) (f : Hash → ContractDeposit → P) :
    (deposits.entries.map (fun e => single e.1 (f e.1 e.2))).sum = sumDeposits deposits f := by
  funext a
  have hmap : deposits.entries.map ((fun g : Hash → P => g a) ∘ fun e => single e.1 (f e.1 e.2)) =
      deposits.entries.map (fun e => if a = e.1 then f e.1 e.2 else 0) := rfl
  rw [Pi.list_sum_apply, List.map_map, hmap, IndexMap.sum_entries_of_key, sumDeposits]
  cases deposits.get a with
  | none => rfl
  | some d => rfl

theorem forM_gains {α : Type} (xs : List α) {f : α → Apply P PUnit} {gain : α → Hash → P}
    (hf : ∀ x ∈ xs, ∀ s s', f x s = .ok ⟨⟩ s' → Gains secret s s' (gain x))
    (h : xs.forM f s = .ok ⟨⟩ s') : Gains secret s s' (xs.map gain).sum := by
  induction xs generalizing s with
  | nil =>
    cases h
    exact Gains.of_unmoved (.refl _)
  | cons x xs ih =>
    obtain ⟨⟨⟩, s₁, hx, hxs⟩ := Exec.bind_ok_iff.mp h
    rw [List.map_cons, List.sum_cons]
    exact (hf x List.mem_cons_self s s₁ hx).trans (ih (fun y hy => hf y (List.mem_cons_of_mem _ hy)) hxs)

theorem refundDeposit_gains {e : Hash × ContractDeposit} (h : refundDeposit tx decompressed e s = .ok ⟨⟩ s') :
    Gains secret s s' (single e.1 (depositValue secret tx.source decompressed e.1 e.2)) := by
  obtain ⟨ct, s₁, hget, hput⟩ := Exec.bind_ok_iff.mp h
  cases hd : e.2 with
  | pub amount =>
    simp only [hd] at hput
    cases hput
    refine (gains_lookup_put hget).congr ?_
    rw [opening_addScalar, add_sub_cancel_left]
    rfl
  | priv commitment senderHandle receiverHandle proof =>
    simp only [hd] at hput
    cases hlookup : decompressed[e.1]? with
    | none =>
      simp only [hlookup] at hput
      cases hput
    | some d =>
      simp only [hlookup] at hput
      cases hput
      refine (gains_lookup_put hget).congr ?_
      rw [opening_add, add_sub_cancel_left, depositValue, hlookup]

theorem refundDeposits_gains {deposits : IndexMap Hash ContractDeposit}
    (h : refundDeposits tx deposits decompressed s = .ok ⟨⟩ s') :
    Gains secret s s' (sumDeposits deposits (depositValue secret tx.source decompressed)) := by
  rw [← sumDeposits_eq]
  exact forM_gains deposits.entries (fun e _ s s' he => refundDeposit_gains he) h

def publicAmount : ContractDeposit → Nat
  | .pub amount => amount
  | .priv _ _ _ _ => 0

omit [RistrettoPoint P] in
theorem heldIn_insert (storage : Storage P) (topoheight : TopoHeight) (contract : Hash) (cache : ContractCache)
    (asset : Hash) (entry : Option (VersionedState × Nat)) (a : Hash) :
    heldIn storage topoheight contract { cache with balances := cache.balances.insert asset entry } a =
      if a = asset then (entry.map Prod.snd).getD 0 else heldIn storage topoheight contract cache a := by
  unfold heldIn
  by_cases ha : a = asset
  · subst ha
    dsimp only
    rw [FiniteMap.getElem?_insert_self', if_pos rfl]
    cases entry with
    | none => rfl
    | some entry => rfl
  · dsimp only
    rw [FiniteMap.getElem?_insert_of_ne _ _ (Ne.symm ha), if_neg ha]

variable {storage : Storage P} {topoheight : TopoHeight} {cache cache' : ContractCache}

omit [RistrettoPoint P] in
theorem heldIn_addDeposit (h : addDeposit storage contract topoheight cache asset amount = .ok cache') (a : Hash) :
    heldIn storage topoheight contract cache' a =
      heldIn storage topoheight contract cache a + if a = asset then amount else 0 := by
  have hset : ∃ entry : VersionedState × Nat,
      cache' = { cache with balances := cache.balances.insert asset (some entry) } ∧
      entry.2 = heldIn storage topoheight contract cache asset + amount := by
    unfold addDeposit at h
    unfold heldIn storedContractBalance
    cases hentry : cache.balances[asset]? with
    | some entry =>
      cases entry with
      | none =>
        simp only [hentry, Except.ok.injEq] at h
        exact ⟨_, h.symm, (Nat.zero_add amount).symm⟩
      | some entry =>
        simp only [hentry, Except.ok.injEq] at h
        exact ⟨_, h.symm, rfl⟩
    | none =>
      simp only [hentry] at h
      cases hload : storage.getContractBalanceAtMaximumTopoheight contract asset topoheight with
      | error e => simp [hload] at h
      | ok found =>
        simp only [hload, Except.ok.injEq] at h
        refine ⟨_, h.symm, ?_⟩
        cases found with
        | none => rfl
        | some version => rfl
  obtain ⟨entry, rfl, hentry⟩ := hset
  rw [heldIn_insert]
  split
  · subst ‹a = asset›
    exact hentry
  · rw [Nat.add_zero]

omit [RistrettoPoint P] in
theorem heldIn_addDeposits
    {deposits : IndexMap Hash ContractDeposit} (h : addDeposits storage contract topoheight cache deposits = .ok cache')
    (a : Hash) :
    heldIn storage topoheight contract cache' a = heldIn storage topoheight contract cache a +
      match deposits.get a with
      | some d => publicAmount d
      | none => 0 := by
  have hfold : ∀ (es : List (Hash × ContractDeposit)) (cache : ContractCache),
      es.foldlM (fun cache e => match e.2 with
        | .pub amount => addDeposit storage contract topoheight cache e.1 amount
        | .priv _ _ _ _ => .ok cache) cache = .ok cache' →
      heldIn storage topoheight contract cache' a = heldIn storage topoheight contract cache a +
        (es.map (fun e => if a = e.1 then publicAmount e.2 else 0)).sum := by
    intro es
    induction es with
    | nil =>
      intro cache h
      cases h
      rfl
    | cons e es ih =>
      intro cache h
      rw [List.foldlM_cons] at h
      rw [List.map_cons, List.sum_cons, ← Nat.add_assoc]
      cases hd : e.2 with
      | pub amount =>
        simp only [hd] at h
        cases hadd : addDeposit storage contract topoheight cache e.1 amount with
        | error err => simp [hadd, bind, Except.bind] at h
        | ok cache₁ =>
          simp only [hadd, bind, Except.bind] at h
          rw [ih cache₁ h, heldIn_addDeposit hadd]
          rfl
      | priv commitment senderHandle receiverHandle proof =>
        simp only [hd, bind, Except.bind] at h
        rw [ih cache h]
        simp only [publicAmount, ite_self, Nat.add_zero]
  rw [hfold deposits.entries cache h, IndexMap.sum_entries_of_key deposits a (fun _ => publicAmount)]
  cases deposits.get a with
  | none => rfl
  | some d => rfl

end Deposits

variable {env : Env P} {module : Module} {success check : Bool}

section Calls

/-- A run of a contract: its gas, its exit code, and the states it started and ended in. -/
structure Execution where
  usedGas : Nat
  exitCode : Option Nat
  start : ContractChainState
  final : ContractChainState

def Execution.isSuccess (e : Execution) : Bool := e.exitCode == some 0

def executionOf (env : Env P) (s : ApplicableChainState P) (txHash contract : Hash) (deposits : IndexMap Hash ContractDeposit)
    (parameters : List ValueCell) (maxGas : Nat) (invoke : InvokeContract) (module : Module) : Option Execution :=
  match s.startOf contract deposits txHash with
  | .error _ => none
  | .ok start => (runContract env s module invoke parameters maxGas start).map
    (fun r => ⟨r.1, r.2.1, start, r.2.2⟩)

/-- What a call creates or destroys of an asset by itself. -/
def Execution.issued (e : Execution) (storage : Storage P) (asset : Hash) : P :=
  coins (e.final.worth storage asset) - coins (e.start.worth storage asset)

/-- What a call adds to the ledger, besides the gas it was given. -/
def Execution.gain (e : Execution) (secret : PublicKey → P →+ P) (storage : Storage P) (source : PublicKey)
    (deposits : IndexMap Hash ContractDeposit) (decompressed : FiniteMap Hash (DecompressedDepositCt P)) : Hash → P :=
  if e.isSuccess then sumDeposits deposits (fun _ d => coins (publicAmount d)) + e.issued storage
  else sumDeposits deposits (depositValue secret source decompressed)

variable {invoke : InvokeContract} {parameters : List ValueCell} {chainState final start : ContractChainState}
  {exitCode : Option Nat}

section

omit [RistrettoPoint P]

theorem runContract_usedGas_le
    (h : runContract env s module invoke parameters maxGas chainState = some (usedGas, exitCode, final)) :
    usedGas ≤ maxGas := by
  unfold runContract at h
  split at h
  · cases h
  · cases h
    exact Nat.zero_le maxGas
  · split at h
    · cases h
      exact Nat.min_le_right _ _
    · cases h
      exact Nat.min_le_right _ _

theorem runContract_exit {exit : Nat}
    (h : runContract env s module invoke parameters maxGas start = some (usedGas, some exit, final)) :
    ∃ calls gasUsage, env.run module invoke parameters maxGas s.inner.storage start = .ran calls gasUsage (some exit) ∧
      start.execAll env.blake3 s.inner.storage calls = some final := by
  unfold runContract at h
  cases hout : env.run module invoke parameters maxGas s.inner.storage start with
  | failed => simp [hout] at h
  | hookNotFound => simp [hout] at h
  | ran calls gasUsage exitCode =>
    cases hexec : start.execAll env.blake3 s.inner.storage calls with
    | none => simp [hout, hexec] at h
    | some final' =>
      simp only [hout, hexec, Option.some.injEq, Prod.mk.injEq] at h
      obtain ⟨-, rfl, rfl⟩ := h
      exact ⟨calls, gasUsage, rfl, hexec⟩

theorem runContract_invariant {I : ContractChainState → Prop}
    (hstep : ∀ state state', state.Stepped s.inner.storage state' → I state → I state')
    (h : runContract env s module invoke parameters maxGas start = some (usedGas, exitCode, final))
    (hI : I start) : I final := by
  unfold runContract at h
  split at h
  · cases h
  · cases h
    exact hI
  · split at h
    · rename_i hall
      cases h
      exact ContractChainState.execAll_invariant hstep hall hI
    · cases h
      exact hI

end

omit [RistrettoPoint P] in
theorem runContract_frame
    (h : runContract env s module invoke parameters maxGas start = some (usedGas, exitCode, final)) :
    final.contract = start.contract ∧ final.topoheight = start.topoheight :=
  runContract_invariant (I := fun state => state.contract = start.contract ∧ state.topoheight = start.topoheight)
    (fun _ _ hstep hI => ⟨hstep.1.trans hI.1, hstep.2.1.trans hI.2⟩) h ⟨rfl, rfl⟩

theorem startOf_worth {deposits : IndexMap Hash ContractDeposit}
    (h : s.startOf contract deposits txHash = .ok start) (a : Hash) :
    start.contract = contract ∧ start.topoheight = s.inner.topoheight ∧
      coins (P := P) (start.worth s.inner.storage a) =
        coins (s.held contract a) + coins (Book.total (owedIn s.contractManager.tracker) a) +
          sumDeposits deposits (fun _ d => coins (publicAmount d)) a := by
  obtain ⟨hadd, hcontract, htopo, htracker, -⟩ := startOf_ok h
  refine ⟨hcontract, htopo, ?_⟩
  simp only [ContractChainState.worth, hcontract, htopo, htracker, heldIn_addDeposits hadd, held, sumDeposits, coins, add_nsmul]
  cases deposits.get a with
  | none =>
    simp only [zero_nsmul]
    abel
  | some d => abel

/-- Merging a run trades what the contract had and had sent for what the run left. -/
theorem mergeContractChanges_gains
    (hcontract : final.contract = contract) (htopo : final.topoheight = s.inner.topoheight) :
    Gains secret s (mergeContractChanges contract final.cache final.tracker final.assets s) (fun a =>
      coins (final.worth s.inner.storage a) - coins (s.held contract a) -
        coins (Book.total (owedIn s.contractManager.tracker) a)) := by
  intro a
  have hheld : (mergeContractChanges contract final.cache final.tracker final.assets s).held =
      s.held.setRow contract (heldIn s.inner.storage s.inner.topoheight contract final.cache) := by
    funext c
    unfold held Book.setRow mergeContractChanges
    by_cases hc : c = contract
    · subst hc
      dsimp only
      rw [FiniteMap.getElem?_insert_self', if_pos rfl]
      rfl
    · dsimp only
      rw [FiniteMap.getElem?_insert_of_ne _ _ (Ne.symm hc), if_neg hc]
  have hrow := Book.total_setRow s.held contract (heldIn s.inner.storage s.inner.topoheight contract final.cache) a
  have hrow' := congrArg (coins (P := P)) hrow
  have hworth : final.worth s.inner.storage a =
      heldIn s.inner.storage s.inner.topoheight contract final.cache a + Book.total (owedIn final.tracker) a := by
    rw [ContractChainState.worth, hcontract, htopo]
  simp only [total, hheld, hworth, coins, add_nsmul] at hrow' ⊢
  have hnew : (s.held.setRow contract (heldIn s.inner.storage s.inner.topoheight contract final.cache)).total a •
      RistrettoPoint.basepoint (P := P) = s.held.total a • RistrettoPoint.basepoint +
        heldIn s.inner.storage s.inner.topoheight contract final.cache a • RistrettoPoint.basepoint -
          s.held contract a • RistrettoPoint.basepoint := eq_sub_of_add_eq hrow'
  rw [hnew]
  show (s.accounts secret).total a + _ = (s.accounts secret).total a + _ + _
  simp only [mergeContractChanges, collected]
  abel

theorem settleRun_gains {deposits : IndexMap Hash ContractDeposit} {e : Execution} {outputs : List ContractOutput}
    (hstart : s.startOf contract deposits txHash = .ok e.start)
    (hfinal : e.final.contract = e.start.contract ∧ e.final.topoheight = e.start.topoheight)
    (h : settleRun tx decompressed contract deposits e.isSuccess e.final s = .ok outputs s') :
    Gains secret s s' (e.gain secret s.inner.storage tx.source deposits decompressed) := by
  unfold settleRun at h
  unfold Execution.gain
  cases hsuccess : e.isSuccess with
  | true =>
    simp only [hsuccess, if_true] at h ⊢
    cases h
    obtain ⟨hcontract, htopo, -⟩ := startOf_worth hstart 0
    refine (mergeContractChanges_gains (hfinal.1.trans hcontract) (hfinal.2.trans htopo)).congr ?_
    funext a
    obtain ⟨-, -, hworth⟩ := startOf_worth (P := P) hstart a
    simp only [Pi.add_apply, Execution.issued, hworth]
    abel
  | false =>
    simp only [hsuccess, Bool.false_eq_true, if_false] at h ⊢
    split at h
    · obtain ⟨⟨⟩, s₁, hrefund, h⟩ := Exec.bind_ok_iff.mp h
      cases h
      exact refundDeposits_gains hrefund
    · rename_i hempty
      cases h
      have hnil : deposits.entries = [] := by simpa using hempty
      refine (Gains.of_unmoved (.refl s)).congr ?_
      rw [← sumDeposits_eq, hnil]
      rfl

/-- A call that returns went through its stages: its contract was run, the run was settled and its gas was paid. -/
theorem invokeContract_stages {deposits : IndexMap Hash ContractDeposit}
    (h : invokeContract env tx txHash decompressed contract deposits parameters maxGas invoke s = .ok success s') :
    ∃ module e outputs s₁ refund s₂ outputs', s.inner.contracts[contract]?.bind Prod.snd = some module ∧
      executionOf env s txHash contract deposits parameters maxGas invoke module = some e ∧ success = e.isSuccess ∧
      s.startOf contract deposits txHash = .ok e.start ∧
      runContract env s module invoke parameters maxGas e.start = some (e.usedGas, e.exitCode, e.final) ∧
      settleRun tx decompressed contract deposits e.isSuccess e.final s = .ok outputs s₁ ∧
      handleGas tx e.usedGas maxGas s₁ = .ok refund s₂ ∧ s' = setContractOutputs txHash outputs' s₂ := by
  rw [invokeContract_eq] at h
  cases henv : s.getContractEnvironmentFor contract deposits txHash with
  | error e => simp [henv] at h
  | ok found =>
    obtain ⟨module, start⟩ := found
    obtain ⟨hmodule, hstart⟩ := getContractEnvironmentFor_ok henv
    cases hrun : runContract env s module invoke parameters maxGas start with
    | none => simp [henv, hrun] at h
    | some r =>
      obtain ⟨usedGas, exitCode, final⟩ := r
      let e : Execution := ⟨usedGas, exitCode, start, final⟩
      cases hsettle : settleRun tx decompressed contract deposits (exitCode == some 0) final s with
      | error err s₁ => simp [henv, hrun, hsettle] at h
      | ok outputs s₁ =>
        cases hgas : handleGas tx usedGas maxGas s₁ with
        | error err s₂ => simp [henv, hrun, hsettle, hgas] at h
        | ok refund s₂ =>
          simp only [henv, hrun, hsettle, hgas, EStateM.Result.ok.injEq] at h
          obtain ⟨rfl, rfl⟩ := h
          exact ⟨module, e, outputs, s₁, refund, s₂, _, hmodule, by simp [executionOf, hstart, hrun, e], rfl, hstart, hrun,
            hsettle, hgas, rfl⟩

theorem invokeContract_ok {deposits : IndexMap Hash ContractDeposit}
    (h : invokeContract env tx txHash decompressed contract deposits parameters maxGas invoke s = .ok success s') :
    ∃ module e, s.inner.contracts[contract]?.bind Prod.snd = some module ∧
      executionOf env s txHash contract deposits parameters maxGas invoke module = some e ∧ success = e.isSuccess ∧
      Gains secret s s' (e.gain secret s.inner.storage tx.source deposits decompressed +
        single XELIS_ASSET (coins maxGas)) := by
  obtain ⟨module, e, outputs, s₁, refund, s₂, outputs', hmodule, hexec, hsuccess, hstart, hrun, hsettle, hgas, rfl⟩ :=
    invokeContract_stages h
  have hsettled : Gains secret s s₁ (e.gain secret s.inner.storage tx.source deposits decompressed) :=
    settleRun_gains hstart (runContract_frame hrun) hsettle
  have hpaid : Gains secret s₁ s₂ _ := handleGas_gains (runContract_usedGas_le hrun) hgas
  exact ⟨module, e, hmodule, hexec, hsuccess, hsettled.trans hpaid⟩

end Calls

variable {transfers : List (DecompressedTransferCt P)}

def execution (env : Env P) (tx : Transaction) (txHash : Hash) (s : ApplicableChainState P) : Option Execution :=
  match tx.data with
  | .invokeContract payload =>
    match s.inner.findContract payload.contract with
    | .ok (_, some module) => executionOf env s txHash payload.contract payload.deposits payload.parameters payload.maxGas
        (.entry payload.chunkId) module
    | _ => none
  | .deployContract payload =>
    match payload.invoke with
    | some invoke => executionOf env s txHash txHash invoke.deposits [] invoke.maxGas (.hook 0) payload.module
    | none => none
  | _ => none

def deposits (tx : Transaction) : IndexMap Hash ContractDeposit :=
  match tx.data with
  | .invokeContract payload => payload.deposits
  | .deployContract ⟨_, some invoke⟩ => invoke.deposits
  | _ => .empty

/-- What the contract code creates or destroys, when its run is merged. -/
def issued (env : Env P) (tx : Transaction) (txHash : Hash) (s : ApplicableChainState P) (asset : Hash) : P :=
  match tx.execution env txHash s with
  | some e => if e.isSuccess then e.issued s.inner.storage asset else 0
  | none => 0

def privateValue (secret : PublicKey → P →+ P) (source : PublicKey)
    (decompressed : FiniteMap Hash (DecompressedDepositCt P)) (asset : Hash) : ContractDeposit → P
  | .pub _ => 0
  | d@(.priv _ _ _ _) => depositValue secret source decompressed asset d

/-- The private deposits of a successful run: no contract balance gets them. -/
def kept (secret : PublicKey → P →+ P) (env : Env P) (tx : Transaction) (txHash : Hash)
    (decompressed : FiniteMap Hash (DecompressedDepositCt P)) (s : ApplicableChainState P) : Hash → P :=
  match tx.execution env txHash s with
  | some e => if e.isSuccess then sumDeposits tx.deposits (privateValue secret tx.source decompressed) else 0
  | none => 0

/-- What the transaction takes for nobody in the block: its fee, a burn of another asset, the price of a contract. -/
def retained (tx : Transaction) (asset : Hash) : Nat :=
  (if asset = XELIS_ASSET then tx.fee else 0) +
    match tx.data with
    | .burn payload => if asset = payload.asset ∧ asset ≠ XELIS_ASSET then payload.amount else 0
    | .deployContract _ => if asset = XELIS_ASSET then BURN_PER_CONTRACT else 0
    | _ => 0

/-- Everything that leaves the sender, by the payload alone. -/
def outputValue (secret : PublicKey → P →+ P) (tx : Transaction) (transfers : List (DecompressedTransferCt P))
    (decompressed : FiniteMap Hash (DecompressedDepositCt P)) : Hash → P :=
  single XELIS_ASSET (coins tx.fee) +
    match tx.data with
    | .transfers payloads => ((payloads.zip transfers).map (fun e =>
        single e.1.asset (opening secret tx.source (e.2.getCiphertext .sender)))).sum
    | .burn payload => single payload.asset (coins payload.amount)
    | .multiSig _ => 0
    | .invokeContract payload => single XELIS_ASSET (coins payload.maxGas) +
        sumDeposits payload.deposits (depositValue secret tx.source decompressed)
    | .deployContract ⟨_, none⟩ => single XELIS_ASSET (coins BURN_PER_CONTRACT)
    | .deployContract ⟨_, some invoke⟩ => single XELIS_ASSET (coins BURN_PER_CONTRACT) +
        (single XELIS_ASSET (coins invoke.maxGas) +
          sumDeposits invoke.deposits (depositValue secret tx.source decompressed))

theorem opening_addDepositOutput {deposits : IndexMap Hash ContractDeposit} (source : PublicKey)
    (h : addDepositOutput deposits decompressed asset output = some out) :
    opening secret source out =
      opening secret source output + sumDeposits deposits (depositValue secret source decompressed) asset := by
  unfold addDepositOutput at h
  unfold sumDeposits
  cases hget : deposits.get asset with
  | none =>
    simp only [hget, Option.some.injEq] at h
    rw [← h, add_zero]
  | some d =>
    cases d with
    | pub amount =>
      simp only [hget, Option.some.injEq] at h
      rw [← h, opening_addScalar]
      rfl
    | priv commitment senderHandle receiverHandle proof =>
      cases hlookup : decompressed[asset]? with
      | none => simp [hget, hlookup] at h
      | some d =>
        simp only [hget, hlookup, Option.some.injEq] at h
        rw [← h, opening_add]
        simp only [depositValue, hlookup]

theorem opening_ite_addScalar (source : PublicKey) (asset : Hash) (amount : Nat) (output : Ciphertext P) :
    opening secret source (if asset = XELIS_ASSET then output.addScalar amount else output) =
      opening secret source output + single XELIS_ASSET (coins amount) asset := by
  unfold single
  split
  · exact opening_addScalar secret source output amount
  · exact (add_zero _).symm

theorem opening_transfers (source : PublicKey) (asset : Hash)
    (es : List (TransferPayload × DecompressedTransferCt P)) (output : Ciphertext P) :
    opening secret source (es.foldl (fun output e =>
      if asset = e.1.asset then output.add (e.2.getCiphertext .sender) else output) output) =
      opening secret source output + (es.map (fun e =>
        single e.1.asset (opening secret source (e.2.getCiphertext .sender)))).sum asset := by
  induction es generalizing output with
  | nil => exact (add_zero _).symm
  | cons e es ih =>
    rw [List.foldl_cons, ih, List.map_cons, List.sum_cons, Pi.add_apply, ← add_assoc]
    congr 1
    unfold single
    split
    · exact opening_add secret source _ _
    · exact (add_zero _).symm

theorem opening_getSenderOutputCt (h : tx.getSenderOutputCt asset transfers decompressed = some out) :
    opening secret tx.source out = tx.outputValue secret transfers decompressed asset := by
  have hfee : opening secret _ _ = _ := opening_ite_addScalar tx.source asset tx.fee Ciphertext.zero
  rw [opening_zero, zero_add] at hfee
  unfold getSenderOutputCt at h
  unfold outputValue
  rw [Pi.add_apply]
  cases hdata : tx.data with
  | transfers payloads =>
    simp only [hdata] at h
    cases h
    rw [opening_transfers, hfee]
  | burn payload =>
    simp only [hdata] at h
    cases h
    rw [← hfee]
    unfold single
    dsimp only
    split
    · exact opening_addScalar secret tx.source _ _
    · exact (add_zero _).symm
  | multiSig payload =>
    simp only [hdata] at h
    cases h
    rw [hfee]
    exact (add_zero _).symm
  | invokeContract payload =>
    simp only [hdata] at h
    rw [opening_addDepositOutput tx.source h, opening_ite_addScalar, hfee, add_assoc]
    rfl
  | deployContract payload =>
    obtain ⟨module, invoke⟩ := payload
    cases invoke with
    | none =>
      simp only [hdata] at h
      cases h
      rw [opening_ite_addScalar, hfee]
    | some invoke =>
      simp only [hdata, bind, Option.bind_eq_some_iff] at h
      obtain ⟨output, houtput, h⟩ := h
      cases h
      rw [opening_ite_addScalar, opening_addDepositOutput tx.source houtput, opening_ite_addScalar, hfee]
      simp only [Pi.add_apply]
      abel

theorem startOf_of_unmoved (h : Unmoved s s') (contract : Hash)
    (deposits : IndexMap Hash ContractDeposit) (txHash : Hash) :
    s'.startOf contract deposits txHash = s.startOf contract deposits txHash := by
  unfold startOf
  rw [h.inner.storage, h.inner.topoheight, h.inner.mainnet, h.contractManager, h.blockHash, h.block]

theorem executionOf_of_unmoved (h : Unmoved s s') (env : Env P) (txHash contract : Hash)
    (deposits : IndexMap Hash ContractDeposit) (parameters : List ValueCell) (maxGas : Nat) (invoke : InvokeContract)
    (module : Module) :
    executionOf env s' txHash contract deposits parameters maxGas invoke module =
      executionOf env s txHash contract deposits parameters maxGas invoke module := by
  unfold executionOf runContract
  rw [startOf_of_unmoved h, h.inner.storage]

def HonestTransfers (secret : PublicKey → P →+ P) (tx : Transaction) : Prop :=
  match tx.data with
  | .transfers payloads => ∀ t ∈ payloads, ∀ d : DecompressedTransferCt P, DecompressedTransferCt.decompress t = some d →
      opening secret t.destination (d.getCiphertext .receiver) = opening secret tx.source (d.getCiphertext .sender)
  | _ => True

theorem applyTransfers_gains {payloads : List TransferPayload}
    (hd : payloads.mapM DecompressedTransferCt.decompress = some transfers)
    (hhonest : ∀ t ∈ payloads, ∀ d : DecompressedTransferCt P, DecompressedTransferCt.decompress t = some d →
      opening secret t.destination (d.getCiphertext .receiver) = opening secret source (d.getCiphertext .sender))
    (h : payloads.forM applyTransfer s = .ok ⟨⟩ s') :
    Gains secret s s' ((payloads.zip transfers).map (fun e =>
      single e.1.asset (opening secret source (e.2.getCiphertext .sender)))).sum := by
  induction payloads generalizing transfers s with
  | nil =>
    cases h
    exact Gains.of_unmoved (.refl _)
  | cons t ts ih =>
    rw [List.mapM_cons] at hd
    simp only [bind, Option.bind_eq_some_iff] at hd
    obtain ⟨d, hhead, ds, htail, hcons⟩ := hd
    cases hcons
    obtain ⟨⟨⟩, s₁, ht, hts⟩ := Exec.bind_ok_iff.mp h
    have hfirst : Gains secret s s₁ _ := applyTransfer_gains hhead ht
    rw [hhonest t List.mem_cons_self d hhead] at hfirst
    rw [List.zip_cons_cons, List.map_cons, List.sum_cons]
    exact hfirst.trans (ih htail (fun t ht => hhonest t (List.mem_cons_of_mem _ ht)) hts)

/-- What applying the payload adds, once the sender was charged. -/
def applied (secret : PublicKey → P →+ P) (env : Env P) (tx : Transaction) (txHash : Hash)
    (transfers : List (DecompressedTransferCt P)) (decompressed : FiniteMap Hash (DecompressedDepositCt P))
    (s : ApplicableChainState P) : Hash → P := fun a =>
  tx.outputValue secret transfers decompressed a + tx.issued env txHash s a - coins (tx.retained a) -
    tx.kept secret env txHash decompressed s a

theorem Execution.gain_eq (e : Execution) (storage : Storage P) (source : PublicKey)
    (deposits : IndexMap Hash ContractDeposit) (decompressed : FiniteMap Hash (DecompressedDepositCt P)) (a : Hash) :
    e.gain secret storage source deposits decompressed a =
      sumDeposits deposits (depositValue secret source decompressed) a +
        (if e.isSuccess then e.issued storage a else 0) -
        (if e.isSuccess then sumDeposits deposits (privateValue secret source decompressed) else 0) a := by
  unfold gain
  cases e.isSuccess with
  | false => simp
  | true =>
    simp only [if_true, Pi.add_apply, sumDeposits]
    cases deposits.get a with
    | none => simp only [zero_add, sub_zero]
    | some d =>
      cases d with
      | pub amount =>
        simp only [publicAmount, depositValue, privateValue]
        abel
      | priv commitment senderHandle receiverHandle proof =>
        simp only [publicAmount, depositValue, privateValue, coins, zero_nsmul]
        abel

theorem coins_add (n m : Nat) : coins (P := P) (n + m) = coins n + coins m := add_nsmul _ n m

theorem coins_ite (asset : Hash) (amount : Nat) (a : Hash) :
    coins (P := P) (if a = asset then amount else 0) = single asset (coins amount) a := by
  unfold single
  split
  · rfl
  · exact zero_nsmul _

theorem applied_of_no_execution (transfers : List (DecompressedTransferCt P))
    (decompressed : FiniteMap Hash (DecompressedDepositCt P)) (h : tx.execution env txHash s = none) (a : Hash) :
    tx.applied secret env txHash transfers decompressed s a =
      tx.outputValue secret transfers decompressed a - coins (tx.retained a) := by
  simp only [applied, issued, kept, h, Pi.zero_apply, add_zero, sub_zero]

/-- A run adds its own gain, and the rest of the output less what is retained. -/
theorem applied_of_execution (transfers : List (DecompressedTransferCt P))
    (decompressed : FiniteMap Hash (DecompressedDepositCt P)) {e : Execution}
    (h : tx.execution env txHash s = some e) (a : Hash) :
    tx.applied secret env txHash transfers decompressed s a =
      tx.outputValue secret transfers decompressed a - coins (tx.retained a) +
        (e.gain secret s.inner.storage tx.source tx.deposits decompressed a -
          sumDeposits tx.deposits (depositValue secret tx.source decompressed) a) := by
  simp only [applied, issued, kept, h, Execution.gain_eq]
  abel

omit [RistrettoPoint P] in
theorem loadVersionedContract_ok {available : Bool}
    (h : onInner (ChainState.loadVersionedContract hash) s = .ok available s') :
    ∃ state module, s.inner.findContract hash = .ok (state, module) ∧ available = module.isSome ∧
      s' = { s with inner := ChainState.setContract hash (state, module) s.inner } := by
  simp only [onInner, ChainState.loadVersionedContract_eq] at h
  cases hfind : s.inner.findContract hash with
  | error e => simp [hfind] at h
  | ok contract =>
    simp only [hfind, EStateM.Result.ok.injEq] at h
    exact ⟨contract.1, contract.2, rfl, h.1.symm, h.2.symm⟩

theorem applyInvokeContract_gains {payload : InvokeContractPayload}
    (hdata : tx.data = .invokeContract payload) (transfers : List (DecompressedTransferCt P))
    (h : applyInvokeContract env tx txHash decompressed payload s = .ok ⟨⟩ s') :
    Gains secret s s' (tx.applied secret env txHash transfers decompressed s) := by
  obtain ⟨available, s₁, hload, h⟩ := Exec.bind_ok_iff.mp h
  have hunmoved : Unmoved s s₁ := by
    have hmoves := onInner_unmoved (ChainState.loadVersionedContract_sameFunds payload.contract) s
    rwa [hload] at hmoves
  have hgas : (coins 0 : P) = 0 := zero_nsmul _
  obtain ⟨state, module, hfind, rfl, rfl⟩ := loadVersionedContract_ok hload
  cases module with
  | none =>
    obtain ⟨refund, s₂, hgas, h⟩ := Exec.bind_ok_iff.mp h
    have hrefund : Gains secret _ s' _ := (handleGas_gains (Nat.zero_le _) hgas).trans (refundDeposits_gains h)
    refine ((Gains.of_unmoved hunmoved).trans hrefund).congr ?_
    funext a
    have hnone : tx.execution env txHash s = none := by simp only [execution, hdata, hfind]
    rw [applied_of_no_execution transfers decompressed hnone]
    simp only [outputValue, retained, hdata, Pi.add_apply, Pi.zero_apply, add_zero, coins_ite]
    abel
  | some module =>
    obtain ⟨success, s₂, hinvoke, h⟩ := Exec.bind_ok_iff.mp h
    cases h
    obtain ⟨module', e, hmodule, hexec, -, hgain⟩ := invokeContract_ok hinvoke
    have hset : (ChainState.setContract payload.contract (state, some module) s.inner).contracts[payload.contract]? =
        some (state, some module) := FiniteMap.getElem?_insert_self' _ _ _
    simp only [hset, Option.bind_some, Option.some.injEq] at hmodule
    subst hmodule
    rw [executionOf_of_unmoved hunmoved] at hexec
    have hsome : tx.execution env txHash s = some e := by simp only [execution, hdata, hfind, hexec]
    refine ((Gains.of_unmoved hunmoved).trans hgain).congr ?_
    funext a
    rw [applied_of_execution transfers decompressed hsome]
    simp only [outputValue, retained, deposits, hdata, Pi.add_apply, Pi.zero_apply, add_zero, coins_ite]
    show _ + (e.gain secret s.inner.storage tx.source payload.deposits decompressed a + _) = _
    abel

omit [RistrettoPoint P] in
theorem setContractModule_onInner (h : onInner (ChainState.setContractModule hash module) s = .ok ⟨⟩ s') :
    s'.inner.contracts[hash]? = some (.new, some module) := by
  simp only [onInner, ChainState.setContractModule_eq] at h
  cases hfind : s.inner.findContract hash with
  | error e => simp [hfind] at h
  | ok contract =>
    obtain ⟨state, module'⟩ := contract
    cases state with
    | fetchedAt topo => simp [hfind] at h
    | updated topo => simp [hfind] at h
    | new =>
      simp only [hfind, EStateM.Result.ok.injEq, true_and] at h
      rw [← h]
      exact FiniteMap.getElem?_insert_self' _ _ _

theorem removeContractModule_moves (hash : Hash) : Exec.Moves Unmoved (removeContractModule (P := P) hash) := by
  intro s
  unfold removeContractModule
  rw [Exec.bind_apply, Exec.get_apply]
  dsimp only
  cases s.inner.contracts[hash]? with
  | none => exact .refl s
  | some contract => exact ⟨⟨fun _ _ => rfl, fun _ _ => rfl, rfl, rfl, rfl, rfl⟩, rfl, rfl, rfl, rfl⟩

theorem applyDeployContract_gains {payload : DeployContractPayload}
    (hdata : tx.data = .deployContract payload) (transfers : List (DecompressedTransferCt P))
    (h : applyDeployContract env tx txHash decompressed payload s = .ok ⟨⟩ s') :
    Gains secret s s' (tx.applied secret env txHash transfers decompressed s) := by
  obtain ⟨⟨⟩, s₁, hset, h⟩ := Exec.bind_ok_iff.mp h
  have hunmoved : Unmoved s s₁ := by
    have hmoves := onInner_unmoved (ChainState.setContractModule_sameFunds txHash payload.module) s
    rwa [hset] at hmoves
  obtain ⟨module, invoke⟩ := payload
  cases invoke with
  | none =>
    cases h
    refine (Gains.of_unmoved hunmoved).congr ?_
    funext a
    have hnone : tx.execution env txHash s = none := by simp only [execution, hdata]
    rw [applied_of_no_execution transfers decompressed hnone]
    simp only [outputValue, retained, hdata, Pi.add_apply, Pi.zero_apply, coins_add, coins_ite, sub_self]
  | some invoke =>
    obtain ⟨success, s₂, hinvoke, h⟩ := Exec.bind_ok_iff.mp h
    obtain ⟨module', e, hmodule, hexec, -, hgain⟩ := invokeContract_ok hinvoke
    have hset₁ := setContractModule_onInner hset
    rw [hset₁, Option.bind_some, Option.some.injEq] at hmodule
    subst hmodule
    rw [executionOf_of_unmoved hunmoved] at hexec
    have hsome : tx.execution env txHash s = some e := by simp only [execution, hdata, hexec]
    have hlast : Unmoved s₂ s' := by
      cases success with
      | true =>
        cases h
        exact .refl _
      | false =>
        have hmoves := removeContractModule_moves (P := P) txHash s₂
        have hremove : removeContractModule txHash s₂ = .ok ⟨⟩ s' := h
        rwa [hremove] at hmoves
    refine (((Gains.of_unmoved hunmoved).trans hgain).trans (Gains.of_unmoved hlast)).congr ?_
    funext a
    rw [applied_of_execution transfers decompressed hsome]
    simp only [outputValue, retained, deposits, hdata, Pi.add_apply, Pi.zero_apply, add_zero, coins_add, coins_ite,
      hunmoved.inner.storage]
    abel

theorem applyBurn_gains {payload : BurnPayload}
    (hdata : tx.data = .burn payload) (transfers : List (DecompressedTransferCt P))
    (h : applyPayload env tx txHash decompressed s = .ok ⟨⟩ s') :
    Gains secret s s' (tx.applied secret env txHash transfers decompressed s) := by
  have hnone : tx.execution env txHash s = none := by simp only [execution, hdata]
  simp only [applyPayload, hdata] at h
  split at h
  · rename_i hnative
    cases h
    have hburned : Gains secret s (addBurnedCoins payload.amount s) (single XELIS_ASSET (coins payload.amount)) := by
      refine gains_collected payload.amount rfl rfl rfl ?_
      show s.inner.gasFee + (s.burnedSupply + payload.amount) = _
      omega
    refine hburned.congr ?_
    funext a
    rw [applied_of_no_execution transfers decompressed hnone]
    have hno : ¬ (a = XELIS_ASSET ∧ a ≠ XELIS_ASSET) := fun hc => hc.2 hc.1
    simp only [outputValue, retained, hdata, Pi.add_apply, hnative, coins_add, coins_ite, if_neg hno]
    rw [show coins (P := P) 0 = 0 from zero_nsmul _]
    abel
  · rename_i hother
    cases h
    refine (Gains.of_unmoved (.refl _)).congr ?_
    funext a
    rw [applied_of_no_execution transfers decompressed hnone]
    have hasset : (a = payload.asset ∧ a ≠ XELIS_ASSET) ↔ a = payload.asset :=
      ⟨fun hc => hc.1, fun hc => ⟨hc, hc ▸ hother⟩⟩
    simp only [outputValue, retained, hdata, Pi.add_apply, hasset, coins_add, coins_ite, sub_self, Pi.zero_apply]

/-- The payload adds what was charged for it, less what nobody gets. -/
theorem applyPayload_gains (hd : tx.decompressPayload = some (transfers, decompressed))
    (hhonest : HonestTransfers secret tx) (h : applyPayload env tx txHash decompressed s = .ok ⟨⟩ s') :
    Gains secret s s' (tx.applied secret env txHash transfers decompressed s) := by
  cases hdata : tx.data with
  | transfers payloads =>
    have hnone : tx.execution env txHash s = none := by simp only [execution, hdata]
    simp only [applyPayload, hdata] at h
    simp only [decompressPayload, hdata, Option.map_eq_some_iff, Prod.mk.injEq] at hd
    obtain ⟨_, hd, rfl, rfl⟩ := hd
    simp only [HonestTransfers, hdata] at hhonest
    refine (applyTransfers_gains hd hhonest h).congr ?_
    funext a
    rw [applied_of_no_execution _ _ hnone]
    simp only [outputValue, retained, hdata, Pi.add_apply, add_zero, coins_ite]
    abel
  | burn payload => exact applyBurn_gains hdata transfers h
  | multiSig payload =>
    have hnone : tx.execution env txHash s = none := by simp only [execution, hdata]
    simp only [applyPayload, hdata] at h
    have hmoves := onInner_unmoved (ChainState.setMultisigState_sameFunds tx.source payload) s
    rw [h] at hmoves
    refine (Gains.of_unmoved hmoves).congr ?_
    funext a
    rw [applied_of_no_execution _ _ hnone]
    simp only [outputValue, retained, hdata, Pi.add_apply, Pi.zero_apply, add_zero, coins_ite, sub_self]
  | invokeContract payload =>
    simp only [applyPayload, hdata] at h
    exact applyInvokeContract_gains hdata transfers h
  | deployContract payload =>
    simp only [applyPayload, hdata] at h
    exact applyDeployContract_gains hdata transfers h

section Commitments

/-- Between the two states only the senders of the block differ. -/
def OnlyAccounts (s s' : ApplicableChainState P) : Prop :=
  ∃ accounts, s' = { s with inner := { s.inner with accounts } }

omit [RistrettoPoint P] in
theorem OnlyAccounts.trans (hab : OnlyAccounts a b) (hbc : OnlyAccounts b c) : OnlyAccounts a c := by
  obtain ⟨accounts, rfl⟩ := hab
  obtain ⟨accounts', rfl⟩ := hbc
  exact ⟨accounts', rfl⟩

/-- A run only depends on what the senders leave alone. -/
theorem OnlyAccounts.applied_eq (h : OnlyAccounts s s') (env : Env P) (tx : Transaction)
    (txHash : Hash) (transfers : List (DecompressedTransferCt P)) (decompressed : FiniteMap Hash (DecompressedDepositCt P)) :
    tx.applied secret env txHash transfers decompressed s' = tx.applied secret env txHash transfers decompressed s := by
  obtain ⟨accounts, rfl⟩ := h
  rfl

theorem applyCommitment_eq (tx : Transaction) (change : Ciphertext P × Ciphertext P × Hash) (s : ApplicableChainState P) :
    applyCommitment tx change s =
      match s.inner.findSender tx.source change.2.2 tx.reference with
      | .ok (account, e) => .ok ⟨⟩ { s with inner := ChainState.setAccount tx.source (ChainState.setEchange account
          change.2.2 ((e.getBalance.2.setBalance change.1).addOutputToSum change.2.1)) s.inner }
      | .error e => .error (.state e) s := by
  unfold applyCommitment
  rw [Exec.bind_apply, onInner, ChainState.internalGetSenderVerificationBalance_eq]
  cases s.inner.findSender tx.source change.2.2 tx.reference with
  | error e => rfl
  | ok found =>
    obtain ⟨account, e⟩ := found
    dsimp only
    rw [Exec.bind_apply]
    show onInner (ChainState.internalUpdateSenderEchange tx.source change.2.2 change.2.1) { s with
      inner := ChainState.putSenderBalance tx.source change.2.2 change.1 (ChainState.setAccount tx.source
        (ChainState.setEchange account change.2.2 e.getBalance.2) s.inner) } = _
    simp only [onInner, ChainState.putSenderBalance_eq, ChainState.internalUpdateSenderEchange_eq]

variable (secret) in
theorem applyCommitment_ok {change : Ciphertext P × Ciphertext P × Hash} (h : applyCommitment tx change s = .ok ⟨⟩ s') :
    OnlyAccounts s s' ∧ Gains secret s s' (single change.2.2 (-opening secret tx.source change.2.1)) := by
  rw [applyCommitment_eq] at h
  cases hfind : s.inner.findSender tx.source change.2.2 tx.reference with
  | error e => simp [hfind] at h
  | ok found =>
    obtain ⟨account, e⟩ := found
    simp only [hfind, EStateM.Result.ok.injEq, true_and] at h
    subst h
    refine ⟨⟨_, rfl⟩, ?_⟩
    obtain ⟨hacc, hsum⟩ := ChainState.findSender_ok hfind
    generalize hnew : (e.getBalance.2.setBalance change.1).addOutputToSum change.2.1 = e'
    have hout : e'.outputSum = (s.inner.spent tx.source change.2.2).add change.2.1 := by
      rw [← hnew, ← ChainState.spentIn_findAccount hacc, ← hsum, ← ChainState.outputSum_getBalance e]
      rfl
    let account' := ChainState.setEchange account change.2.2 e'
    have haccounts : accounts secret { s with inner := ChainState.setAccount tx.source account' s.inner } =
        (s.accounts secret).add tx.source change.2.2 (-opening secret tx.source change.2.1) := by
      funext k a
      unfold accounts Book.add
      dsimp only
      rw [ChainState.spent_setAccount]
      have hreceived : (ChainState.setAccount tx.source account' s.inner).received k a = s.inner.received k a := rfl
      rw [hreceived]
      by_cases hk : k = tx.source
      · subst hk
        rw [if_pos rfl, ChainState.spentIn_setEchange]
        by_cases ha : a = change.2.2
        · subst ha
          rw [if_pos rfl, if_pos ⟨rfl, rfl⟩, hout, opening_add]
          abel
        · rw [if_neg ha, if_neg fun hc => ha hc.2, ChainState.spentIn_findAccount hacc, add_zero]
      · rw [if_neg hk, if_neg fun hc => hk hc.1, add_zero]
    show Gains secret s { s with inner := ChainState.setAccount tx.source account' s.inner } _
    intro a
    simp only [total, haccounts, Book.total_add, single]
    show _ + _ + _ = (s.accounts secret).total a + (s.held.total a +
      Book.total (owedIn s.contractManager.tracker) a + s.collected a) • RistrettoPoint.basepoint + _
    abel

omit [RistrettoPoint P] in
theorem orProof_ok {α : Type} {x : Option α} {e : ProofVerificationError} {a : α}
    (h : (orProof x e : Apply P α) s = .ok a s') : x = some a ∧ s' = s := by
  cases x with
  | none => cases h
  | some b =>
    cases h
    exact ⟨rfl, rfl⟩

omit [RistrettoPoint P] in
theorem proofResult_ok {x : Except ProofVerificationError PUnit}
    (h : (proofResult x : Apply P PUnit) s = .ok ⟨⟩ s') : s' = s := by
  cases x with
  | error e => cases h
  | ok u =>
    cases h
    rfl

variable {acc acc' : Transcript P × List (Ciphertext P × Ciphertext P × Hash)}

theorem checkCommitment_ok {owner : P} {deposits : FiniteMap Hash (DecompressedDepositCt P)}
    {commitment : SourceCommitment × P}
    (h : checkCommitment env tx owner transfers deposits acc commitment s = .ok acc' s') :
    OnlyAccounts s s' ∧ Unmoved s s' ∧ ∃ remaining output,
      tx.getSenderOutputCt commitment.1.asset transfers deposits = some output ∧
      acc'.2 = acc.2 ++ [(remaining, output, commitment.1.asset)] := by
  unfold checkCommitment at h
  obtain ⟨output, s₀, hout, h₀⟩ := Exec.bind_ok_iff.mp h
  obtain ⟨balance, s₁, hget, h₁⟩ := Exec.bind_ok_iff.mp h₀
  obtain ⟨_, s₂, hproof, h₂⟩ := Exec.bind_ok_iff.mp h₁
  obtain ⟨hsome, rfl⟩ := orProof_ok hout
  obtain rfl := proofResult_ok hproof
  rw [Exec.pure_apply, EStateM.Result.ok.injEq] at h₂
  obtain ⟨rfl, rfl⟩ := h₂
  refine ⟨?_, ?_, _, output, hsome, rfl⟩
  · simp only [onInner, ChainState.internalGetSenderVerificationBalance_eq] at hget
    split at hget
    · rename_i hlookup
      split at hlookup
      · cases hlookup
        cases hget
        exact ⟨_, rfl⟩
      · cases hlookup
    · cases hget
  · have hmoves := onInner_unmoved
      (ChainState.internalGetSenderVerificationBalance_sameFunds tx.source commitment.1.asset tx.reference) s₀
    rwa [hget] at hmoves

theorem checkCommitments_ok {owner : P}
    {deposits : FiniteMap Hash (DecompressedDepositCt P)} (commitments : List (SourceCommitment × P))
    (h : commitments.foldlM (checkCommitment env tx owner transfers deposits) acc s = .ok acc' s') :
    OnlyAccounts s s' ∧ Unmoved s s' ∧ ∃ changes : List (Ciphertext P × Ciphertext P × Hash),
      acc'.2 = acc.2 ++ changes ∧ changes.map (·.2.2) = commitments.map (·.1.asset) ∧
      ∀ change ∈ changes, tx.getSenderOutputCt change.2.2 transfers deposits = some change.2.1 := by
  induction commitments generalizing acc s with
  | nil =>
    cases h
    exact ⟨⟨s'.inner.accounts, rfl⟩, .refl _, [], (List.append_nil _).symm, rfl, by simp⟩
  | cons c cs ih =>
    rw [List.foldlM_cons] at h
    obtain ⟨acc₁, s₁, hc, hcs⟩ := Exec.bind_ok_iff.mp h
    obtain ⟨honly, hunmoved, remaining, output, hout, hacc⟩ := checkCommitment_ok hc
    obtain ⟨honly', hunmoved', changes, hacc', hassets, houts⟩ := ih hcs
    refine ⟨honly.trans honly', hunmoved.trans hunmoved', (remaining, output, c.1.asset) :: changes, ?_, ?_, ?_⟩
    · rw [hacc', hacc, List.append_assoc]
      rfl
    · rw [List.map_cons, List.map_cons, hassets]
    · intro change hchange
      rcases List.mem_cons.mp hchange with rfl | hmem
      · exact hout
      · exact houts change hmem

theorem applyCommitments_ok {tx : Transaction} (changes : List (Ciphertext P × Ciphertext P × Hash))
    {s s' : ApplicableChainState P} (h : changes.forM (applyCommitment tx) s = .ok ⟨⟩ s') :
    OnlyAccounts s s' ∧
      Gains secret s s' (changes.map (fun c => single c.2.2 (-opening secret tx.source c.2.1))).sum := by
  have heach : ∀ c ∈ changes, ∀ s s', applyCommitment tx c s = .ok ⟨⟩ s' →
      Gains secret s s' (single c.2.2 (-opening secret tx.source c.2.1)) :=
    fun c _ s s' hc => (applyCommitment_ok secret hc).2
  refine ⟨?_, forM_gains changes heach h⟩
  clear heach
  induction changes generalizing s with
  | nil =>
    cases h
    exact ⟨s'.inner.accounts, rfl⟩
  | cons c cs ih =>
    obtain ⟨⟨⟩, s₁, hc, hcs⟩ := Exec.bind_ok_iff.mp h
    exact (applyCommitment_ok secret hc).1.trans (ih hcs)

end Commitments

omit [RistrettoPoint P] in
theorem require_ok {e : VerificationError BlockchainError}
    (h : (require check e : Apply P PUnit) s = .ok ⟨⟩ s') : s' = s := by
  cases check with
  | false => cases h
  | true =>
    cases h
    rfl

theorem updateNonce_ok {nonce : Nonce}
    (h : onInner (ChainState.internalUpdateAccountNonce key nonce) s = .ok ⟨⟩ s') : OnlyAccounts s s' ∧ Unmoved s s' := by
  have hmoves := onInner_unmoved (ChainState.internalUpdateAccountNonce_sameFunds key nonce) s
  rw [h] at hmoves
  refine ⟨?_, hmoves⟩
  simp only [onInner, ChainState.internalUpdateAccountNonce_eq] at h
  cases hfind : s.inner.findAccount key with
  | error e => simp [hfind] at h
  | ok account =>
    simp only [hfind, EStateM.Result.ok.injEq, true_and] at h
    exact ⟨_, h.symm⟩

def charged (secret : PublicKey → P →+ P) (tx : Transaction) (transfers : List (DecompressedTransferCt P))
    (decompressed : FiniteMap Hash (DecompressedDepositCt P)) : Hash → P :=
  (tx.sourceCommitments.map (fun c => single c.asset (tx.outputValue secret transfers decompressed c.asset))).sum

theorem map_asset_zip {commitments : List SourceCommitment} {points : List P}
    (h : commitments.mapM (fun c => RistrettoPoint.decompress (P := P) c.commitment) = some points) :
    (commitments.zip points).map (·.1.asset) = commitments.map (·.asset) := by
  induction commitments generalizing points with
  | nil => rfl
  | cons c cs ih =>
    rw [List.mapM_cons] at h
    simp only [bind, Option.bind_eq_some_iff] at h
    obtain ⟨p, -, ps, hps, hcons⟩ := h
    cases hcons
    rw [List.zip_cons_cons, List.map_cons, List.map_cons, ih hps]

variable {changes : List (Ciphertext P × Ciphertext P × Hash)}

/-- The changes to make are those of the commitments, and nothing has moved yet. -/
theorem partialVerify_ok (h : partialVerify env tx s = .ok (decompressed, changes) s') :
    ∃ transfers newCommitments owner transcript, tx.decompressPayload (P := P) = some (transfers, decompressed) ∧
      tx.sourceCommitments.mapM (fun c => RistrettoPoint.decompress (P := P) c.commitment) = some newCommitments ∧
      (tx.sourceCommitments.zip newCommitments).foldlM (checkCommitment env tx owner transfers decompressed) ([], []) s =
        .ok (transcript, changes) s' := by
  unfold partialVerify at h
  obtain ⟨⟨transfers, decompressed'⟩, s₀, hpayload, h₀⟩ := Exec.bind_ok_iff.mp h
  obtain ⟨newCommitments, s₁, hnew, h₁⟩ := Exec.bind_ok_iff.mp h₀
  obtain ⟨owner, s₂, howner, h₂⟩ := Exec.bind_ok_iff.mp h₁
  obtain ⟨⟨transcript, changes'⟩, s₃, hcheck, h₃⟩ := Exec.bind_ok_iff.mp h₂
  obtain ⟨⟨⟩, s₄, hsigma, h₄⟩ := Exec.bind_ok_iff.mp h₃
  obtain ⟨hsome, hs₀⟩ := orProof_ok hpayload
  obtain ⟨hnewSome, hs₁⟩ := orProof_ok hnew
  obtain ⟨-, hs₂⟩ := orProof_ok howner
  rw [Exec.pure_apply, EStateM.Result.ok.injEq, Prod.mk.injEq, require_ok hsigma] at h₄
  obtain ⟨⟨rfl, rfl⟩, rfl⟩ := h₄
  rw [hs₂, hs₁, hs₀] at hcheck
  exact ⟨transfers, newCommitments, owner, transcript, hsome, hnewSome, hcheck⟩

theorem charge_gains (hverify : partialVerify env tx s = .ok (decompressed, changes) s₁)
    (hcharge : changes.forM (applyCommitment tx) s₁ = .ok ⟨⟩ s₂) :
    ∃ transfers, tx.decompressPayload (P := P) = some (transfers, decompressed) ∧ OnlyAccounts s s₂ ∧
      Gains secret s s₂ (-tx.charged secret transfers decompressed) := by
  obtain ⟨transfers, newCommitments, owner, transcript, hpayload, hnew, hcheck⟩ := partialVerify_ok hverify
  obtain ⟨honly, hunmoved, changes', hchanges, hassets, houts⟩ := checkCommitments_ok _ hcheck
  rw [List.nil_append] at hchanges
  subst hchanges
  obtain ⟨honly', hcharged⟩ := applyCommitments_ok _ hcharge
  refine ⟨transfers, hpayload, honly.trans honly', ((Gains.of_unmoved hunmoved).trans hcharged).congr ?_⟩
  have heach : changes.map (fun c => single c.2.2 (-opening secret tx.source c.2.1)) =
      (changes.map (·.2.2)).map (fun a => -single a (tx.outputValue secret transfers decompressed a)) := by
    rw [List.map_map]
    refine List.map_congr_left fun c hc => ?_
    funext a
    simp only [Function.comp_apply, Pi.neg_apply, single, ← opening_getSenderOutputCt (houts c hc)]
    split
    · rfl
    · exact neg_zero.symm
  rw [zero_add, heach, hassets, map_asset_zip hnew, charged, List.map_map]
  induction tx.sourceCommitments with
  | nil => exact neg_zero.symm
  | cons c cs ih =>
    simp only [List.map_cons, List.sum_cons, ih, Function.comp_apply]
    abel

/-- A transaction that is applied charges its commitments, then gives what its payload says. -/
theorem applyWithPartialVerify_gains (hhonest : HonestTransfers secret tx)
    (h : applyWithPartialVerify env tx txHash s = .ok ⟨⟩ s') :
    ∃ transfers decompressed, tx.decompressPayload (P := P) = some (transfers, decompressed) ∧
      Gains secret s s' (tx.applied secret env txHash transfers decompressed s - tx.charged secret transfers decompressed) := by
  obtain ⟨⟨decompressed, changes⟩, s₁, hverify, h₁⟩ := Exec.bind_ok_iff.mp h
  obtain ⟨⟨⟩, s₂, hcharge, h₂⟩ := Exec.bind_ok_iff.mp h₁
  obtain ⟨⟨⟩, s₃, hnonce, hdata⟩ := Exec.bind_ok_iff.mp h₂
  obtain ⟨transfers, hpayload, honly, hcharged⟩ := charge_gains hverify hcharge
  obtain ⟨honly', hunmoved⟩ := updateNonce_ok hnonce
  have hgain := applyPayload_gains hpayload hhonest hdata
  rw [(honly.trans honly').applied_eq] at hgain
  refine ⟨transfers, decompressed, hpayload, ((hcharged.trans (Gains.of_unmoved hunmoved)).trans hgain).congr ?_⟩
  abel

end Xelis.Transaction
