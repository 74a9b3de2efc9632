import Xelis.State.FinalBalances
import Xelis.Transaction.Coverage
import Xelis.Transaction.Senders

namespace Xelis.Transaction

open Lib (FiniteMap Exec Book)
open State State.ApplicableChainState

variable {P : Type} [RistrettoPoint P] {clean : PublicKey → Hash → VersionedBalance P}

def transferCredit (transfer : TransferPayload) : Book PublicKey Hash (Ciphertext P) :=
  match RistrettoPoint.decompress (P := P) transfer.commitment, RistrettoPoint.decompress (P := P) transfer.receiverHandle with
  | some commitment, some handle => Book.single transfer.destination transfer.asset ⟨commitment, handle⟩
  | _, _ => 0

def depositCt (decompressed : FiniteMap Hash (DecompressedDepositCt P)) (asset : Hash) : ContractDeposit → Ciphertext P
  | .pub amount => .ofScalar amount
  | .priv _ _ _ _ =>
    match decompressed[asset]? with
    | some d => ⟨d.commitment, d.senderHandle⟩
    | none => 0

/-- The deposits, given back to the sender. -/
def refunds (tx : Transaction) (decompressed : FiniteMap Hash (DecompressedDepositCt P)) : Book PublicKey Hash (Ciphertext P) :=
  (tx.deposits.entries.map fun e => Book.single tx.source e.1 (depositCt decompressed e.1 e.2)).sum

/-- Gas given back to the sender. -/
def gasCredit (tx : Transaction) (amount : Nat) : Book PublicKey Hash (Ciphertext P) :=
  Book.single tx.source XELIS_ASSET (.ofScalar amount)

/-- After a call the gas that was not used goes back, and after a failed one the deposits too. -/
def callCredits (tx : Transaction) (decompressed : FiniteMap Hash (DecompressedDepositCt P)) (e : Execution) :
    Book PublicKey Hash (Ciphertext P) :=
  (if e.isSuccess then 0 else tx.refunds decompressed) + tx.gasCredit (tx.maxGas - e.usedGas)

/-- Everything that a transaction applied in `s` gives to the balances of accounts: transfers, unused gas and refunds. -/
def credits (env : Env P) (tx : Transaction) (txHash : Hash) (s : ApplicableChainState P) : Book PublicKey Hash (Ciphertext P) :=
  let decompressed := (tx.decompressPayload (P := P)).elim ∅ Prod.snd
  match tx.data with
  | .transfers transfers => (transfers.map transferCredit).sum
  | .burn _ => 0
  | .multiSig _ => 0
  | .invokeContract _ =>
    match tx.execution env txHash s with
    | some e => tx.callCredits decompressed e
    | none => tx.gasCredit tx.maxGas + tx.refunds decompressed
  | .deployContract _ =>
    match tx.execution env txHash s with
    | some e => tx.callCredits decompressed e
    | none => 0

variable {a b c s s' s₁ : ApplicableChainState P}

section Payments

/-- Between the two states every account received what `gain` says, and the lookups still start from the same balances. -/
structure Pays (clean : PublicKey → Hash → VersionedBalance P) (s s' : ApplicableChainState P)
    (gain : Book PublicKey Hash (Ciphertext P)) : Prop where
  received : ∀ key asset, receivedFrom clean s' key asset = receivedFrom clean s key asset + gain key asset
  starts : StartsFrom clean s'.inner.storage.balances s'.inner.topoheight

variable {f g : Book PublicKey Hash (Ciphertext P)}

theorem Pays.trans (hab : Pays clean a b f) (hbc : Pays clean b c g) : Pays clean a c (f + g) := by
  refine ⟨fun key asset => ?_, hbc.starts⟩
  rw [hbc.received, hab.received, add_assoc]
  rfl

theorem Pays.congr (h : Pays clean s s' f) (hfg : f = g) : Pays clean s s' g := hfg ▸ h

theorem Pays.of_same (hstarts : StartsFrom clean s.inner.storage.balances s.inner.topoheight)
    (hreceiver : s'.inner.receiverBalances = s.inner.receiverBalances) (hstorage : s'.inner.storage = s.inner.storage)
    (htopo : s'.inner.topoheight = s.inner.topoheight) : Pays clean s s' 0 := by
  refine ⟨fun key asset => ?_, ?_⟩
  · unfold receivedFrom entryOf
    rw [hreceiver]
    exact (add_zero _).symm
  · rw [hstorage, htopo]
    exact hstarts

theorem Pays.of_onlyAccounts
    (hstarts : StartsFrom clean s.inner.storage.balances s.inner.topoheight) (h : OnlyAccounts s s') : Pays clean s s' 0 := by
  obtain ⟨accounts, rfl⟩ := h
  exact Pays.of_same hstarts rfl rfl rfl

theorem forM_pays {α : Type} (xs : List α) {f : α → Apply P PUnit} {gain : α → Book PublicKey Hash (Ciphertext P)}
    (hf : ∀ x ∈ xs, ∀ s s', StartsFrom clean s.inner.storage.balances s.inner.topoheight → f x s = .ok ⟨⟩ s' →
      Pays clean s s' (gain x))
    (hstarts : StartsFrom clean s.inner.storage.balances s.inner.topoheight) (h : xs.forM f s = .ok ⟨⟩ s') :
    Pays clean s s' (xs.map gain).sum := by
  induction xs generalizing s with
  | nil =>
    cases h
    exact Pays.of_same hstarts rfl rfl rfl
  | cons x xs ih =>
    obtain ⟨⟨⟩, s₁, hx, hxs⟩ := Exec.bind_ok_iff.mp h
    rw [List.map_cons, List.sum_cons]
    have hfirst := hf x List.mem_cons_self s s₁ hstarts hx
    exact hfirst.trans (ih (fun y hy => hf y (List.mem_cons_of_mem _ hy)) hfirst.starts hxs)

end Payments

section Primitives

variable {key : PublicKey} {asset : Hash} {s s' : ApplicableChainState P}
variable {ct ct' v : Ciphertext P}

/-- A lookup gives what was received, and leaves an entry to write to. -/
theorem receiverBalance_pays (hstarts : StartsFrom clean s.inner.storage.balances s.inner.topoheight)
    (h : onInner (ChainState.internalGetReceiverBalance key asset) s = .ok ct s') :
    Pays clean s s' 0 ∧ ct = receivedFrom clean s key asset ∧ (entryOf s' key asset).isSome := by
  unfold onInner at h
  rw [ChainState.internalGetReceiverBalance_eq] at h
  have hwith : ∀ k a, entryOf { s with inner := s.inner.withReceiver key } k a = entryOf s k a :=
    fun k a => ChainState.receiverBalances_insert_getD s.inner key k a
  cases hentry : s.inner.receiverBalances[key]?.bind (·[asset]?) with
  | some version =>
    have hentry' : entryOf s key asset = some version := hentry
    simp only [hentry, EStateM.Result.ok.injEq] at h
    obtain ⟨rfl, rfl⟩ := h
    refine ⟨⟨fun k a => ?_, hstarts⟩, ?_, ?_⟩
    · unfold receivedFrom
      rw [hwith]
      exact (add_zero _).symm
    · rw [receivedFrom, hentry']
      rfl
    · rw [hwith, hentry']
      rfl
  | none =>
    have hentry' : entryOf s key asset = none := hentry
    cases hload : s.inner.storage.getNewVersionedBalance key asset s.inner.topoheight with
    | error e => simp [hentry, hload] at h
    | ok found =>
      obtain ⟨version, new⟩ := found
      have hclean : version = clean key asset := hstarts s.inner.storage rfl key asset _ hload
      simp only [hentry, hload, EStateM.Result.ok.injEq] at h
      obtain ⟨rfl, rfl⟩ := h
      have hset : ∀ k a, entryOf { s with inner := ChainState.setReceiverVersion key asset version (s.inner.withReceiver key) } k a =
          if k = key ∧ a = asset then some version else entryOf s k a := by
        intro k a
        refine (ChainState.receiverBalances_setReceiverVersion key asset version (s.inner.withReceiver key) k a).trans ?_
        exact congrArg (ite _ _) (hwith k a)
      refine ⟨⟨fun k a => ?_, hstarts⟩, ?_, ?_⟩
      · unfold receivedFrom
        rw [hset]
        split
        · obtain ⟨rfl, rfl⟩ := ‹_ ∧ _›
          rw [hentry', hclean]
          exact (add_zero _).symm
        · exact (add_zero _).symm
      · rw [receivedFrom, hentry', hclean]
        rfl
      · rw [hset, if_pos ⟨rfl, rfl⟩]
        rfl

theorem putReceiverBalance_pays (hstarts : StartsFrom clean s.inner.storage.balances s.inner.topoheight)
    (hentry : (entryOf s key asset).isSome) (v : Ciphertext P) :
    Pays clean s { s with
      inner := ChainState.putReceiverBalance key asset (receivedFrom clean s key asset + v) s.inner } (Book.single key asset v) := by
  have hsame := ChainState.putReceiverBalance_sameSenders key asset (receivedFrom clean s key asset + v) s.inner
  refine ⟨fun k a => ?_, ?_⟩
  · obtain ⟨version, hversion⟩ := Option.isSome_iff_exists.mp hentry
    unfold Book.single
    rw [receivedFrom, entryOf_putReceiverBalance]
    split
    · obtain ⟨rfl, rfl⟩ := ‹_ ∧ _›
      rw [hversion]
      rfl
    · exact (add_zero _).symm
  · show StartsFrom clean (ChainState.putReceiverBalance _ _ _ s.inner).storage.balances _
    rw [hsame.storage, hsame.topoheight]
    exact hstarts

theorem lookup_put_pays (hstarts : StartsFrom clean s.inner.storage.balances s.inner.topoheight)
    (h : onInner (ChainState.internalGetReceiverBalance key asset) s = .ok ct s₁) (hadd : ct' = ct + v) :
    Pays clean s { s₁ with inner := ChainState.putReceiverBalance key asset ct' s₁.inner } (Book.single key asset v) := by
  obtain ⟨hpays, hct, hentry⟩ := receiverBalance_pays hstarts h
  have hsame : receivedFrom clean s₁ key asset = ct := by
    rw [hpays.received, hct]
    exact add_zero _
  have hput := putReceiverBalance_pays hpays.starts hentry v
  rw [hsame, ← hadd] at hput
  exact (hpays.trans hput).congr (zero_add _)

theorem creditReceiver_pays (hstarts : StartsFrom clean s.inner.storage.balances s.inner.topoheight)
    {f : Ciphertext P → Ciphertext P} (hf : ∀ ct, f ct = ct + v)
    (h : creditReceiver key asset f s = .ok ⟨⟩ s') : Pays clean s s' (Book.single key asset v) := by
  obtain ⟨ct, s₁, hget, hput⟩ := Exec.bind_ok_iff.mp h
  cases hput
  exact lookup_put_pays hstarts hget (hf ct)

theorem applyTransfer_pays (hstarts : StartsFrom clean s.inner.storage.balances s.inner.topoheight)
    {transfer : TransferPayload} (h : applyTransfer transfer s = .ok ⟨⟩ s') : Pays clean s s' (transferCredit transfer) := by
  obtain ⟨ct, s₁, hget, hput⟩ := Exec.bind_ok_iff.mp h
  unfold transferCredit
  cases hcommitment : RistrettoPoint.decompress (P := P) transfer.commitment with
  | none =>
    simp only [hcommitment] at hput
    cases hput
  | some commitment =>
    cases hhandle : RistrettoPoint.decompress (P := P) transfer.receiverHandle with
    | none =>
      simp only [hcommitment, hhandle] at hput
      cases hput
    | some handle =>
      simp only [hcommitment, hhandle] at hput
      cases hput
      exact lookup_put_pays hstarts hget rfl

end Primitives

section Calls

variable {tx : Transaction} {decompressed : FiniteMap Hash (DecompressedDepositCt P)} {s s' : ApplicableChainState P}

theorem handleGas_pays (hstarts : StartsFrom clean s.inner.storage.balances s.inner.topoheight) {usedGas maxGas refund : Nat}
    (hle : usedGas ≤ maxGas) (h : handleGas tx usedGas maxGas s = .ok refund s') :
    Pays clean s s' (tx.gasCredit (maxGas - usedGas)) := by
  have hsplit : Pays clean s (splitGas usedGas s) 0 := Pays.of_same hstarts rfl rfl rfl
  rw [handleGas_eq tx hle] at h
  split at h
  · cases hcredit : creditReceiver tx.source XELIS_ASSET (·.addScalar (maxGas - usedGas)) (splitGas usedGas s) with
    | error e s₁ => simp [hcredit] at h
    | ok u s₁ =>
      simp only [hcredit, EStateM.Result.ok.injEq] at h
      obtain ⟨-, rfl⟩ := h
      have hrefund := creditReceiver_pays hsplit.starts (fun ct => Ciphertext.addScalar_eq ct _) hcredit
      exact (hsplit.trans hrefund).congr (zero_add _)
  · rename_i hnone
    simp only [EStateM.Result.ok.injEq] at h
    obtain ⟨-, rfl⟩ := h
    refine hsplit.congr ?_
    funext k a
    rw [gasCredit, Nat.eq_zero_of_not_pos hnone, Ciphertext.ofScalar_zero, Book.single]
    split <;> rfl

theorem refundDeposit_pays (hstarts : StartsFrom clean s.inner.storage.balances s.inner.topoheight)
    {e : Hash × ContractDeposit} (h : refundDeposit tx decompressed e s = .ok ⟨⟩ s') :
    Pays clean s s' (Book.single tx.source e.1 (depositCt decompressed e.1 e.2)) := by
  obtain ⟨ct, s₁, hget, hput⟩ := Exec.bind_ok_iff.mp h
  cases hd : e.2 with
  | pub amount =>
    simp only [hd] at hput
    cases hput
    exact lookup_put_pays hstarts hget (Ciphertext.addScalar_eq ct amount)
  | priv commitment senderHandle receiverHandle proof =>
    simp only [hd] at hput
    unfold depositCt
    cases hlookup : decompressed[e.1]? with
    | none =>
      simp only [hlookup] at hput
      cases hput
    | some d =>
      simp only [hlookup] at hput
      cases hput
      exact lookup_put_pays hstarts hget rfl

theorem refundDeposits_pays (hstarts : StartsFrom clean s.inner.storage.balances s.inner.topoheight)
    (h : refundDeposits tx tx.deposits decompressed s = .ok ⟨⟩ s') : Pays clean s s' (tx.refunds decompressed) :=
  forM_pays tx.deposits.entries (fun _ _ _ _ hstarts he => refundDeposit_pays hstarts he) hstarts h

theorem settleRun_pays (hstarts : StartsFrom clean s.inner.storage.balances s.inner.topoheight) {contract : Hash}
    {isSuccess : Bool} {final : ContractChainState} {outputs : List ContractOutput}
    (h : settleRun tx decompressed contract tx.deposits isSuccess final s = .ok outputs s') :
    Pays clean s s' (if isSuccess then 0 else tx.refunds decompressed) := by
  unfold settleRun at h
  cases isSuccess with
  | true =>
    cases h
    exact Pays.of_same hstarts rfl rfl rfl
  | false =>
    simp only [Bool.false_eq_true, if_false] at h ⊢
    split at h
    · obtain ⟨⟨⟩, s₁, hrefund, h⟩ := Exec.bind_ok_iff.mp h
      cases h
      exact refundDeposits_pays hstarts hrefund
    · rename_i hempty
      cases h
      have hnil : tx.deposits.entries = [] := by simpa using hempty
      refine (Pays.of_same hstarts rfl rfl rfl).congr ?_
      rw [refunds, hnil]
      rfl

variable {env : Env P} {txHash : Hash}

theorem invokeContract_pays (hstarts : StartsFrom clean s.inner.storage.balances s.inner.topoheight) {contract : Hash}
    {parameters : List ValueCell} {invoke : InvokeContract} {success : Bool}
    (h : invokeContract env tx txHash decompressed contract tx.deposits parameters tx.maxGas invoke s = .ok success s') :
    ∃ module e, s.inner.contracts[contract]?.bind Prod.snd = some module ∧
      executionOf env s txHash contract tx.deposits parameters tx.maxGas invoke module = some e ∧
      Pays clean s s' (tx.callCredits decompressed e) := by
  obtain ⟨module, e, outputs, s₁, refund, s₂, outputs', hmodule, hexec, -, -, hrun, hsettle, hgas, rfl⟩ :=
    invokeContract_stages h
  have hsettled := settleRun_pays hstarts hsettle
  have hpaid := handleGas_pays hsettled.starts (runContract_usedGas_le hrun) hgas
  have hlast : Pays clean s₂ (setContractOutputs txHash outputs' s₂) 0 := Pays.of_same hpaid.starts rfl rfl rfl
  exact ⟨module, e, hmodule, hexec, ((hsettled.trans hpaid).trans hlast).congr (add_zero _)⟩

end Calls

section Payload

variable {env : Env P} {tx : Transaction} {txHash : Hash} {transfers : List (DecompressedTransferCt P)}
  {decompressed : FiniteMap Hash (DecompressedDepositCt P)} {s s' : ApplicableChainState P}

theorem applyInvokeContract_pays (hstarts : StartsFrom clean s.inner.storage.balances s.inner.topoheight)
    (hd : tx.decompressPayload = some (transfers, decompressed)) {payload : InvokeContractPayload}
    (hdata : tx.data = .invokeContract payload) (h : applyInvokeContract env tx txHash decompressed payload s = .ok ⟨⟩ s') :
    Pays clean s s' (tx.credits env txHash s) := by
  obtain ⟨available, s₁, hload, h⟩ := Exec.bind_ok_iff.mp h
  have hunmoved : Unmoved s s₁ := by
    have hmoves := onInner_unmoved (ChainState.loadVersionedContract_sameFunds payload.contract) s
    rwa [hload] at hmoves
  have hdeposits : payload.deposits = tx.deposits := by rw [deposits, hdata]
  have hmaxGas : payload.maxGas = tx.maxGas := by rw [maxGas, hdata]
  obtain ⟨state, module, hfind, rfl, rfl⟩ := loadVersionedContract_ok hload
  let s₁ : ApplicableChainState P := { s with inner := ChainState.setContract payload.contract (state, module) s.inner }
  have hloaded : Pays clean s s₁ 0 := Pays.of_same hstarts rfl rfl rfl
  cases module with
  | none =>
    obtain ⟨refund, s₂, hgas, h⟩ := Exec.bind_ok_iff.mp h
    have hpaid := handleGas_pays hloaded.starts (Nat.zero_le _) hgas
    rw [hdeposits] at h
    have hrefunded := refundDeposits_pays hpaid.starts h
    refine ((hloaded.trans hpaid).trans hrefunded).congr ?_
    have hnone : tx.execution env txHash s = none := by simp only [execution, hdata, hfind]
    simp only [credits, hdata, hnone, hd, Option.elim_some, hmaxGas, Nat.sub_zero, zero_add]
  | some module =>
    obtain ⟨success, s₂, hinvoke, h⟩ := Exec.bind_ok_iff.mp h
    cases h
    rw [hdeposits, hmaxGas] at hinvoke
    obtain ⟨module', e, hmodule, hexec, hpays⟩ := invokeContract_pays hloaded.starts hinvoke
    have hset : s₁.inner.contracts[payload.contract]? = some (state, some module) := FiniteMap.getElem?_insert_self' _ _ _
    rw [hset, Option.bind_some, Option.some.injEq] at hmodule
    subst hmodule
    rw [executionOf_of_unmoved hunmoved] at hexec
    have hsome : tx.execution env txHash s = some e := by simp only [execution, hdata, hfind, hdeposits, hmaxGas, hexec]
    refine (hloaded.trans hpays).congr ?_
    simp only [credits, hdata, hsome, hd, Option.elim_some, zero_add]

theorem applyDeployContract_pays (hstarts : StartsFrom clean s.inner.storage.balances s.inner.topoheight)
    (hd : tx.decompressPayload = some (transfers, decompressed)) {payload : DeployContractPayload}
    (hdata : tx.data = .deployContract payload) (h : applyDeployContract env tx txHash decompressed payload s = .ok ⟨⟩ s') :
    Pays clean s s' (tx.credits env txHash s) := by
  obtain ⟨⟨⟩, s₁, hset, h⟩ := Exec.bind_ok_iff.mp h
  have hunmoved : Unmoved s s₁ := by
    have hmoves := onInner_unmoved (ChainState.setContractModule_sameFunds txHash payload.module) s
    rwa [hset] at hmoves
  have hmodule₁ := setContractModule_onInner hset
  have hstored : Pays clean s s₁ 0 := by
    unfold onInner at hset
    rw [ChainState.setContractModule_eq] at hset
    split at hset
    · rename_i hresult
      split at hresult
      · cases hresult
        cases hset
        exact Pays.of_same hstarts rfl rfl rfl
      · cases hresult
      · cases hresult
    · cases hset
  obtain ⟨module, invoke⟩ := payload
  cases invoke with
  | none =>
    cases h
    refine hstored.congr ?_
    have hnone : tx.execution env txHash s = none := by simp only [execution, hdata]
    simp only [credits, hdata, hnone]
  | some invoke =>
    have hdeposits : invoke.deposits = tx.deposits := by rw [deposits, hdata]
    have hmaxGas : invoke.maxGas = tx.maxGas := by rw [maxGas, hdata]
    obtain ⟨success, s₂, hinvoke, h⟩ := Exec.bind_ok_iff.mp h
    rw [hdeposits, hmaxGas] at hinvoke
    obtain ⟨module', e, hmodule, hexec, hpays⟩ := invokeContract_pays hstored.starts hinvoke
    rw [hmodule₁, Option.bind_some, Option.some.injEq] at hmodule
    subst hmodule
    rw [executionOf_of_unmoved hunmoved] at hexec
    have hsome : tx.execution env txHash s = some e := by simp only [execution, hdata, hdeposits, hmaxGas, hexec]
    have hlast : Pays clean s₂ s' 0 := by
      cases success with
      | true =>
        cases h
        exact Pays.of_same hpays.starts rfl rfl rfl
      | false =>
        simp only [Bool.not_false, if_true, removeContractModule, Exec.bind_apply, Exec.get_apply] at h
        cases hcontract : s₂.inner.contracts[txHash]? with
        | none =>
          simp only [hcontract] at h
          cases h
        | some contract =>
          simp only [hcontract] at h
          cases h
          exact Pays.of_same hpays.starts rfl rfl rfl
    refine ((hstored.trans hpays).trans hlast).congr ?_
    simp only [credits, hdata, hsome, hd, Option.elim_some, zero_add, add_zero]

theorem applyPayload_pays (hstarts : StartsFrom clean s.inner.storage.balances s.inner.topoheight)
    (hd : tx.decompressPayload = some (transfers, decompressed)) (h : applyPayload env tx txHash decompressed s = .ok ⟨⟩ s') :
    Pays clean s s' (tx.credits env txHash s) := by
  cases hdata : tx.data with
  | transfers payloads =>
    simp only [applyPayload, hdata] at h
    simp only [credits, hdata]
    exact forM_pays payloads (fun _ _ _ _ hstarts ht => applyTransfer_pays hstarts ht) hstarts h
  | burn payload =>
    simp only [applyPayload, hdata] at h
    simp only [credits, hdata]
    split at h
    · cases h
      exact Pays.of_same hstarts rfl rfl rfl
    · cases h
      exact Pays.of_same hstarts rfl rfl rfl
  | multiSig payload =>
    simp only [applyPayload, hdata, onInner, ChainState.setMultisigState_eq] at h
    simp only [credits, hdata]
    cases hfind : s.inner.findAccount tx.source with
    | error e => simp [hfind] at h
    | ok account =>
      simp only [hfind, EStateM.Result.ok.injEq, true_and] at h
      subst h
      exact Pays.of_same hstarts rfl rfl rfl
  | invokeContract payload =>
    simp only [applyPayload, hdata] at h
    exact applyInvokeContract_pays hstarts hd hdata h
  | deployContract payload =>
    simp only [applyPayload, hdata] at h
    exact applyDeployContract_pays hstarts hd hdata h

end Payload

end Xelis.Transaction
