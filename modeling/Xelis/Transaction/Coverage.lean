import Mathlib.Algebra.BigOperators.Group.List.Lemmas
import Mathlib.Data.List.Perm.Subperm
import Xelis.State.Verification
import Xelis.Transaction.Footprint

namespace Xelis.Transaction

open Lib (FiniteMap IndexMap Exec)
open State State.ApplicableChainState

variable {P : Type} [RistrettoPoint P] {secret : PublicKey → P →+ P}
variable {s s' b c s₁ : ApplicableChainState P} {f g extra : Hash → P} {α β S ε σ : Type}

section Parts

/-- The sum of amounts in their assets. -/
def sumParts (parts : List (Hash × P)) : Hash → P := (parts.map (fun p => single p.1 p.2)).sum

theorem sumParts_append (ps qs : List (Hash × P)) : sumParts (ps ++ qs) = sumParts ps + sumParts qs := by
  simp only [sumParts, List.map_append, List.sum_append]

/-- Between the two states `parts` were given out, some of them withheld, and `extra` was added. -/
def Gives (secret : PublicKey → P →+ P) (s s' : ApplicableChainState P) (parts : List (Hash × P)) (extra : Hash → P) : Prop :=
  ∃ withheld, List.Subperm withheld parts ∧ Gains secret s s' (sumParts parts - sumParts withheld + extra)

variable {parts ps qs : List (Hash × P)}

theorem Gives.of_gains (h : Gains secret s s' (sumParts parts)) : Gives secret s s' parts 0 := by
  refine ⟨[], List.nil_subperm, h.congr ?_⟩
  simp only [sumParts, List.map_nil, List.sum_nil]
  abel

theorem Gives.of_unmoved (h : Unmoved s s') (parts : List (Hash × P)) : Gives secret s s' parts 0 := by
  refine ⟨parts, List.Subperm.refl parts, (Gains.of_unmoved h).congr ?_⟩
  abel

theorem Gives.trans {a : ApplicableChainState P}
    (hab : Gives secret a b ps f) (hbc : Gives secret b c qs g) : Gives secret a c (ps ++ qs) (f + g) := by
  obtain ⟨ws, hws, hgain⟩ := hab
  obtain ⟨vs, hvs, hgain'⟩ := hbc
  refine ⟨ws ++ vs, hws.append hvs, (hgain.trans hgain').congr ?_⟩
  rw [sumParts_append, sumParts_append]
  abel

theorem Gives.perm (hperm : ps.Perm qs) (h : Gives secret s s' ps extra) : Gives secret s s' qs extra := by
  obtain ⟨ws, hws, hgain⟩ := h
  refine ⟨ws, hws.trans hperm.subperm, hgain.congr ?_⟩
  rw [sumParts, sumParts, (hperm.map _).sum_eq]
  rfl

theorem Gives.forM (xs : List α) {f : α → Apply P PUnit} {part : α → Hash × P}
    (hok : ∀ x ∈ xs, ∀ s s', f x s = .ok ⟨⟩ s' → Gains secret s s' (single (part x).1 (part x).2))
    (herror : ∀ x ∈ xs, ∀ s s' e, f x s = .error e s' → Unmoved s s') (s : ApplicableChainState P) :
    Gives secret s (Exec.stateOf (xs.forM f s)) (xs.map part) 0 := by
  have hsum : ∀ ys : List α, (ys.map (fun x => single (part x).1 (part x).2)).sum = sumParts (ys.map part) := by
    intro ys
    rw [sumParts, List.map_map]
    rfl
  cases hrun : xs.forM f s with
  | ok u s' =>
    refine Gives.of_gains ?_
    rw [← hsum]
    exact forM_gains xs hok hrun
  | error e s' =>
    obtain ⟨done, x, rest, s₁, rfl, hdone, hx⟩ := Exec.forM_error xs f hrun
    have hgain := forM_gains done (fun y hy => hok y (List.mem_append_left _ hy)) hdone
    have hstop := herror x (by simp) s₁ s' e hx
    rw [hsum] at hgain
    rw [List.map_append]
    have h := (Gives.of_gains hgain).trans (Gives.of_unmoved hstop ((x :: rest).map part))
    rwa [add_zero] at h

end Parts

variable {key source : PublicKey} {asset contract txHash a : Hash} {e : VerificationError BlockchainError}

theorem lookup_unmoved (h : onInner (ChainState.internalGetReceiverBalance key asset) s = .error e s') : Unmoved s s' := by
  unfold onInner at h
  cases hget : ChainState.internalGetReceiverBalance key asset s.inner with
  | ok ct inner => simp [hget] at h
  | error e inner =>
    simp only [hget, EStateM.Result.error.injEq] at h
    obtain ⟨-, rfl⟩ := h
    rw [ChainState.internalGetReceiverBalance_error hget]
    exact ⟨ChainState.sameFunds_withReceiver s.inner key, rfl, rfl, rfl, rfl⟩

theorem lookup_ok_unmoved {ct : Ciphertext P}
    (h : onInner (ChainState.internalGetReceiverBalance key asset) s = .ok ct s') : Unmoved s s' := by
  unfold onInner at h
  cases hget : ChainState.internalGetReceiverBalance key asset s.inner with
  | error e inner => simp [hget] at h
  | ok ct inner =>
    simp only [hget, EStateM.Result.ok.injEq] at h
    obtain ⟨-, rfl⟩ := h
    exact ⟨(ChainState.internalGetReceiverBalance_ok hget).2.1, rfl, rfl, rfl, rfl⟩

variable {payloads : List TransferPayload} {transfers : List (DecompressedTransferCt P)} {usedGas : Nat}
  {tx : Transaction} {decompressed : FiniteMap Hash (DecompressedDepositCt P)}
  {deposits : IndexMap Hash ContractDeposit}

theorem creditReceiver_error_unmoved {f : Ciphertext P → Ciphertext P}
    (h : creditReceiver key asset f s = .error e s') : Unmoved s s' := by
  rcases Exec.bind_error_iff.mp h with hget | ⟨ct, s₁, -, hput⟩
  · exact lookup_unmoved hget
  · cases hput

def transferPart (secret : PublicKey → P →+ P) (source : PublicKey) (t : TransferPayload) : Hash × P :=
  (t.asset, match DecompressedTransferCt.decompress (P := P) t with
    | some d => opening secret source (d.getCiphertext .sender)
    | none => 0)

theorem applyTransfer_error_unmoved {t : TransferPayload} (h : applyTransfer t s = .error e s') : Unmoved s s' := by
  rcases Exec.bind_error_iff.mp h with hget | ⟨ct, s₁, hget, hput⟩
  · exact lookup_unmoved hget
  · have hload := lookup_ok_unmoved hget
    cases hcommitment : RistrettoPoint.decompress (P := P) t.commitment with
    | none =>
      simp only [hcommitment] at hput
      cases hput
      exact hload
    | some commitment =>
      cases hreceiver : RistrettoPoint.decompress (P := P) t.receiverHandle with
      | none =>
        simp only [hcommitment, hreceiver] at hput
        cases hput
        exact hload
      | some handle =>
        simp only [hcommitment, hreceiver] at hput
        cases hput

theorem mapM_some_mem {f : α → Option β} {xs : List α} {ys : List β} (h : xs.mapM f = some ys) {x : α}
    (hx : x ∈ xs) : ∃ y, f x = some y := by
  induction xs generalizing ys with
  | nil => cases hx
  | cons z zs ih =>
    rw [List.mapM_cons] at h
    simp only [bind, Option.bind_eq_some_iff] at h
    obtain ⟨y, hy, ys', hys, -⟩ := h
    rcases List.mem_cons.mp hx with rfl | hmem
    · exact ⟨y, hy⟩
    · exact ih hys hmem

theorem applyTransfers_gives (hd : payloads.mapM DecompressedTransferCt.decompress = some transfers)
    (hhonest : ∀ t ∈ payloads, ∀ d : DecompressedTransferCt P, DecompressedTransferCt.decompress t = some d →
      opening secret t.destination (d.getCiphertext .receiver) = opening secret source (d.getCiphertext .sender))
    (s : ApplicableChainState P) :
    Gives secret s (Exec.stateOf (payloads.forM applyTransfer s)) (payloads.map (transferPart secret source)) 0 := by
  refine Gives.forM payloads (fun t ht s s' h => ?_) (fun t _ s s' e h => applyTransfer_error_unmoved h) s
  obtain ⟨d, hdt⟩ := mapM_some_mem hd ht
  have hgain : Gains secret s s' _ := applyTransfer_gains hdt h
  rw [hhonest t ht d hdt] at hgain
  simpa only [transferPart, hdt] using hgain

/-- A deposit, on the side of the sender. -/
def depositPart (secret : PublicKey → P →+ P) (source : PublicKey) (decompressed : FiniteMap Hash (DecompressedDepositCt P))
    (e : Hash × ContractDeposit) : Hash × P :=
  (e.1, depositValue secret source decompressed e.1 e.2)

theorem sumParts_depositPart (source : PublicKey) (decompressed : FiniteMap Hash (DecompressedDepositCt P))
    (deposits : IndexMap Hash ContractDeposit) :
    sumParts (deposits.entries.map (depositPart secret source decompressed)) =
      sumDeposits deposits (depositValue secret source decompressed) := by
  rw [sumParts, List.map_map, ← sumDeposits_eq]
  rfl

theorem refundDeposits_gives (tx : Transaction) (deposits : IndexMap Hash ContractDeposit)
    (decompressed : FiniteMap Hash (DecompressedDepositCt P)) (s : ApplicableChainState P) :
    Gives secret s (Exec.stateOf (refundDeposits tx deposits decompressed s))
      (deposits.entries.map (depositPart secret tx.source decompressed)) 0 := by
  refine Gives.forM deposits.entries (fun e _ s s' h => refundDeposit_gains h) (fun e _ s s' err h => ?_) s
  rcases Exec.bind_error_iff.mp h with hget | ⟨ct, s₁, hget, hput⟩
  · exact lookup_unmoved hget
  · have hload := lookup_ok_unmoved hget
    cases hd : e.2 with
    | pub amount =>
      simp only [hd] at hput
      cases hput
    | priv commitment senderHandle receiverHandle proof =>
      cases hlookup : decompressed[e.1]? with
      | none =>
        simp only [hd, hlookup] at hput
        cases hput
        exact hload
      | some d =>
        simp only [hd, hlookup] at hput
        cases hput

def gasParts (usedGas maxGas : Nat) : List (Hash × P) :=
  [(XELIS_ASSET, coins usedGas), (XELIS_ASSET, coins (maxGas - usedGas))]

theorem sumParts_gasParts {maxGas : Nat} (h : usedGas ≤ maxGas) :
    sumParts (P := P) (gasParts usedGas maxGas) = single XELIS_ASSET (coins maxGas) := by
  have hsum : usedGas + (maxGas - usedGas) = maxGas := by omega
  funext a
  simp only [sumParts, gasParts, List.map_cons, List.map_nil, List.sum_cons, List.sum_nil, add_zero, Pi.add_apply, single]
  split
  · rw [← coins_add, hsum]
  · exact add_zero 0

theorem handleGas_gives (tx : Transaction) {maxGas : Nat} (h : usedGas ≤ maxGas) (s : ApplicableChainState P) :
    Gives secret s (Exec.stateOf (handleGas tx usedGas maxGas s)) (gasParts usedGas maxGas) 0 := by
  cases hrun : handleGas tx usedGas maxGas s with
  | ok refund s' =>
    refine Gives.of_gains ?_
    rw [sumParts_gasParts h]
    exact handleGas_gains h hrun
  | error e s' =>
    rw [handleGas_eq tx h] at hrun
    split at hrun
    · cases hcredit : creditReceiver tx.source XELIS_ASSET (·.addScalar (maxGas - usedGas)) (splitGas usedGas s) with
      | ok u s₁ => simp [hcredit] at hrun
      | error e' s₁ =>
        simp only [hcredit, EStateM.Result.error.injEq] at hrun
        obtain ⟨-, rfl⟩ := hrun
        have hsplit : Gains secret s (splitGas usedGas s) (sumParts [(XELIS_ASSET, coins usedGas)]) := by
          refine (splitGas_gains usedGas s).congr ?_
          simp [sumParts]
        have hstop := creditReceiver_error_unmoved hcredit
        have hgives := (Gives.of_gains hsplit).trans
          (Gives.of_unmoved hstop [(XELIS_ASSET, coins (maxGas - usedGas))])
        rwa [add_zero] at hgives
    · cases hrun

def isPrivate : ContractDeposit → Bool
  | .pub _ => false
  | .priv _ _ _ _ => true

theorem sumParts_private (source : PublicKey) (decompressed : FiniteMap Hash (DecompressedDepositCt P))
    (deposits : IndexMap Hash ContractDeposit) :
    sumParts ((deposits.entries.filter (fun e => isPrivate e.2)).map (depositPart secret source decompressed)) =
      sumDeposits deposits (privateValue secret source decompressed) := by
  rw [← sumDeposits_eq, sumParts, List.map_map]
  induction deposits.entries with
  | nil => rfl
  | cons e es ih =>
    rw [List.filter_cons, List.map_cons, List.sum_cons, ← ih]
    cases hd : e.2 with
    | pub amount =>
      have hzero : single (P := P) e.1 0 = 0 := by
        funext a
        exact ite_self 0
      simp only [isPrivate, privateValue, hzero, zero_add, Bool.false_eq_true, if_false]
    | priv commitment senderHandle receiverHandle proof =>
      simp only [isPrivate, if_true, List.map_cons, List.sum_cons, Function.comp_apply, depositPart, privateValue, hd]

theorem settleRun_gives {e : Execution} (hstart : s.startOf contract deposits txHash = .ok e.start)
    (hfinal : e.final.contract = e.start.contract ∧ e.final.topoheight = e.start.topoheight) :
    Gives secret s (Exec.stateOf (settleRun tx decompressed contract deposits e.isSuccess e.final s))
      (deposits.entries.map (depositPart secret tx.source decompressed))
      (if e.isSuccess then e.issued s.inner.storage else 0) := by
  cases hrun : settleRun tx decompressed contract deposits e.isSuccess e.final s with
  | ok outputs s' =>
    have hgain : Gains secret s s' _ := settleRun_gains hstart hfinal hrun
    cases hsuccess : e.isSuccess with
    | true =>
      refine ⟨(deposits.entries.filter (fun e => isPrivate e.2)).map (depositPart secret tx.source decompressed),
        (List.filter_sublist.map _).subperm, hgain.congr ?_⟩
      funext a
      rw [sumParts_private, sumParts_depositPart, Execution.gain_eq]
      simp only [hsuccess, if_true, Pi.add_apply, Pi.sub_apply]
      abel
    | false =>
      refine Gives.of_gains (hgain.congr ?_)
      rw [sumParts_depositPart]
      simp only [Execution.gain, hsuccess, Bool.false_eq_true, if_false]
  | error err s' =>
    unfold settleRun at hrun
    cases hsuccess : e.isSuccess with
    | true =>
      simp only [hsuccess, if_true] at hrun
      cases hrun
    | false =>
      simp only [hsuccess, Bool.false_eq_true, if_false] at hrun ⊢
      split at hrun
      · rcases Exec.bind_error_iff.mp hrun with hrefund | ⟨⟨⟩, s₁, -, hpure⟩
        · have hgives : Gives secret s _ _ _ := refundDeposits_gives tx deposits decompressed s
          rwa [hrefund] at hgives
        · cases hpure
      · cases hrun

def callParts (secret : PublicKey → P →+ P) (source : PublicKey) (decompressed : FiniteMap Hash (DecompressedDepositCt P))
    (deposits : IndexMap Hash ContractDeposit) (usedGas maxGas : Nat) : List (Hash × P) :=
  deposits.entries.map (depositPart secret source decompressed) ++ gasParts usedGas maxGas

/-- What contract code may have created: nothing, or what a successful run of the call issued. -/
def MayIssue (env : Env P) (s : ApplicableChainState P) (txHash contract : Hash) (deposits : IndexMap Hash ContractDeposit)
    (parameters : List ValueCell) (maxGas : Nat) (invoke : InvokeContract) (extra : Hash → P) : Prop :=
  extra = 0 ∨ ∃ module e, s.inner.contracts[contract]?.bind Prod.snd = some module ∧
    executionOf env s txHash contract deposits parameters maxGas invoke module = some e ∧ e.isSuccess ∧
    extra = e.issued s.inner.storage

theorem invokeContract_gives (env : Env P) (tx : Transaction) (txHash : Hash)
    (decompressed : FiniteMap Hash (DecompressedDepositCt P)) (contract : Hash) (deposits : IndexMap Hash ContractDeposit)
    (parameters : List ValueCell) (maxGas : Nat) (invoke : InvokeContract) (s : ApplicableChainState P) :
    ∃ usedGas ≤ maxGas, ∃ extra, MayIssue env s txHash contract deposits parameters maxGas invoke extra ∧
      Gives secret s
        (Exec.stateOf (invokeContract env tx txHash decompressed contract deposits parameters maxGas invoke s))
        (callParts secret tx.source decompressed deposits usedGas maxGas) extra := by
  have hstop : ∀ e, invokeContract env tx txHash decompressed contract deposits parameters maxGas invoke s = .error e s →
      ∃ usedGas ≤ maxGas, ∃ extra, MayIssue env s txHash contract deposits parameters maxGas invoke extra ∧
        Gives secret s
          (Exec.stateOf (invokeContract env tx txHash decompressed contract deposits parameters maxGas invoke s))
          (callParts secret tx.source decompressed deposits usedGas maxGas) extra := by
    intro e h
    rw [h]
    exact ⟨0, Nat.zero_le _, 0, .inl rfl, Gives.of_unmoved (.refl s) _⟩
  rw [invokeContract_eq] at hstop ⊢
  cases henv : s.getContractEnvironmentFor contract deposits txHash with
  | error e =>
    simp only [henv] at hstop ⊢
    exact hstop _ rfl
  | ok found =>
    obtain ⟨module, start⟩ := found
    cases hrun : runContract env s module invoke parameters maxGas start with
    | none =>
      simp only [henv, hrun] at hstop ⊢
      exact hstop _ rfl
    | some r =>
      obtain ⟨usedGas, exitCode, final⟩ := r
      obtain ⟨hmodule, hstart⟩ := getContractEnvironmentFor_ok henv
      let e : Execution := ⟨usedGas, exitCode, start, final⟩
      have hused := runContract_usedGas_le hrun
      have hexec : executionOf env s txHash contract deposits parameters maxGas invoke module = some e := by
        simp [executionOf, hstart, hrun, e]
      have hsettled : Gives secret s (Exec.stateOf (settleRun tx decompressed contract deposits e.isSuccess final s)) _ _ :=
        settleRun_gives (e := e) hstart (runContract_frame hrun)
      refine ⟨usedGas, hused, if e.isSuccess then e.issued s.inner.storage else 0, ?_, ?_⟩
      · cases hsuccess : e.isSuccess with
        | false => exact .inl rfl
        | true => exact .inr ⟨module, e, hmodule, hexec, hsuccess, rfl⟩
      · simp only [hrun]
        cases hsettle : settleRun tx decompressed contract deposits e.isSuccess final s with
        | error err s₁ =>
          rw [hsettle] at hsettled
          have hsettle' : settleRun tx decompressed contract deposits (exitCode == some 0) final s = .error err s₁ := hsettle
          simp only [hsettle']
          have hgives := hsettled.trans (Gives.of_unmoved (.refl s₁) (gasParts usedGas maxGas))
          rwa [add_zero] at hgives
        | ok outputs s₁ =>
          rw [hsettle] at hsettled
          have hsettle' : settleRun tx decompressed contract deposits (exitCode == some 0) final s = .ok outputs s₁ := hsettle
          have hgas := hsettled.trans (handleGas_gives tx hused s₁)
          rw [add_zero] at hgas
          simp only [hsettle']
          cases hpaid : handleGas tx usedGas maxGas s₁ with
          | error err s₂ =>
            rw [hpaid] at hgas
            exact hgas
          | ok refund s₂ =>
            rw [hpaid] at hgas
            exact hgas

variable {env : Env P}

/-- All that a payload can give out, when its run uses `usedGas`. -/
def payloadParts (secret : PublicKey → P →+ P) (tx : Transaction) (decompressed : FiniteMap Hash (DecompressedDepositCt P))
    (usedGas : Nat) : List (Hash × P) :=
  match tx.data with
  | .transfers payloads => payloads.map (transferPart secret tx.source)
  | .burn payload => if payload.asset = XELIS_ASSET then [(XELIS_ASSET, coins payload.amount)] else []
  | .multiSig _ => []
  | .invokeContract payload => callParts secret tx.source decompressed payload.deposits usedGas payload.maxGas
  | .deployContract ⟨_, some invoke⟩ => callParts secret tx.source decompressed invoke.deposits usedGas invoke.maxGas
  | .deployContract ⟨_, none⟩ => []

def maxGas (tx : Transaction) : Nat :=
  match tx.data with
  | .invokeContract payload => payload.maxGas
  | .deployContract ⟨_, some invoke⟩ => invoke.maxGas
  | _ => 0

theorem sumParts_nil : sumParts (P := P) [] = 0 := rfl

theorem sumParts_transferPart (hd : payloads.mapM DecompressedTransferCt.decompress = some transfers) :
    sumParts (payloads.map (transferPart secret source)) = ((payloads.zip transfers).map (fun e =>
      single e.1.asset (opening secret source (e.2.getCiphertext .sender)))).sum := by
  induction payloads generalizing transfers with
  | nil => rfl
  | cons t ts ih =>
    rw [List.mapM_cons] at hd
    simp only [bind, Option.bind_eq_some_iff] at hd
    obtain ⟨d, hhead, ds, htail, hcons⟩ := hd
    cases hcons
    rw [List.zip_cons_cons, List.map_cons, List.map_cons, List.sum_cons, ← ih htail, sumParts, List.map_cons, List.sum_cons]
    simp only [transferPart, hhead]
    rfl

theorem sumParts_callParts (source : PublicKey) (decompressed : FiniteMap Hash (DecompressedDepositCt P))
    (deposits : IndexMap Hash ContractDeposit) {maxGas : Nat} (h : usedGas ≤ maxGas) :
    sumParts (callParts secret source decompressed deposits usedGas maxGas) =
      sumDeposits deposits (depositValue secret source decompressed) + single XELIS_ASSET (coins maxGas) := by
  rw [callParts, sumParts_append, sumParts_depositPart, sumParts_gasParts h]

/-- What leaves the sender is what the payload can give out, with what is taken for nobody. -/
theorem outputValue_eq_parts (hd : tx.decompressPayload = some (transfers, decompressed))
    (h : usedGas ≤ tx.maxGas) (a : Hash) :
    tx.outputValue secret transfers decompressed a =
      sumParts (tx.payloadParts secret decompressed usedGas) a + coins (tx.retained a) := by
  cases hdata : tx.data with
  | transfers payloads =>
    simp only [decompressPayload, hdata, Option.map_eq_some_iff, Prod.mk.injEq] at hd
    obtain ⟨_, hd, rfl, -⟩ := hd
    simp only [outputValue, payloadParts, retained, hdata, sumParts_transferPart hd, Pi.add_apply, add_zero, coins_ite]
    abel
  | burn payload =>
    simp only [outputValue, payloadParts, retained, hdata, Pi.add_apply, coins_add, coins_ite]
    by_cases hnative : payload.asset = XELIS_ASSET
    · have hno : ¬ (a = XELIS_ASSET ∧ a ≠ XELIS_ASSET) := fun hc => hc.2 hc.1
      simp only [hnative, if_true, if_neg hno, sumParts, List.map_cons, List.map_nil, List.sum_cons, List.sum_nil, add_zero]
      rw [show coins (P := P) 0 = 0 from zero_nsmul _]
      abel
    · have hasset : (a = payload.asset ∧ a ≠ XELIS_ASSET) ↔ a = payload.asset :=
        ⟨fun hc => hc.1, fun hc => ⟨hc, hc ▸ hnative⟩⟩
      simp only [hnative, if_false, hasset, coins_ite, sumParts_nil, Pi.zero_apply]
      abel
  | multiSig payload =>
    simp only [outputValue, payloadParts, retained, hdata, Pi.add_apply, sumParts_nil, Pi.zero_apply, add_zero, coins_ite]
    abel
  | invokeContract payload =>
    simp only [maxGas, hdata] at h
    simp only [outputValue, payloadParts, retained, hdata, sumParts_callParts _ _ _ h, Pi.add_apply, add_zero, coins_ite]
    abel
  | deployContract payload =>
    obtain ⟨module, invoke⟩ := payload
    cases invoke with
    | none =>
      simp only [outputValue, payloadParts, retained, hdata, Pi.add_apply, sumParts_nil, Pi.zero_apply, coins_add, coins_ite]
      abel
    | some invoke =>
      simp only [maxGas, hdata] at h
      simp only [outputValue, payloadParts, retained, hdata, sumParts_callParts _ _ _ h, Pi.add_apply, coins_add, coins_ite]
      abel

/-- What contract code may have added in a transaction, whatever its outcome. -/
def MayIssueIn (env : Env P) (tx : Transaction) (txHash : Hash) (s : ApplicableChainState P) (extra : Hash → P) : Prop :=
  extra = 0 ∨ extra = tx.issued env txHash s

theorem MayIssue.of_call {parameters : List ValueCell} {maxGas : Nat} {invoke : InvokeContract}
    {module : Module} (hunmoved : Unmoved s s₁) (hmodule : s₁.inner.contracts[contract]?.bind Prod.snd = some module)
    (hexec : ∀ e, executionOf env s txHash contract deposits parameters maxGas invoke module = some e →
      tx.execution env txHash s = some e)
    (h : MayIssue env s₁ txHash contract deposits parameters maxGas invoke extra) : MayIssueIn env tx txHash s extra := by
  rcases h with rfl | ⟨module', e, hmodule', he, hsuccess, rfl⟩
  · exact .inl rfl
  · rw [hmodule, Option.some.injEq] at hmodule'
    subst hmodule'
    rw [executionOf_of_unmoved hunmoved] at he
    refine .inr ?_
    funext a
    simp only [issued, hexec e he, hsuccess, if_true, hunmoved.inner.storage]

theorem applyInvokeContract_gives {payload : InvokeContractPayload}
    (hdata : tx.data = .invokeContract payload) (decompressed : FiniteMap Hash (DecompressedDepositCt P))
    (s : ApplicableChainState P) :
    ∃ usedGas ≤ payload.maxGas, ∃ extra, MayIssueIn env tx txHash s extra ∧
      Gives secret s (Exec.stateOf (applyInvokeContract env tx txHash decompressed payload s))
        (callParts secret tx.source decompressed payload.deposits usedGas payload.maxGas) extra := by
  have hunmoved := onInner_unmoved (P := P) (ChainState.loadVersionedContract_sameFunds payload.contract) s
  unfold applyInvokeContract
  rw [Exec.bind_apply]
  cases hload : onInner (ChainState.loadVersionedContract payload.contract) s with
  | error e s₁ =>
    rw [hload] at hunmoved
    exact ⟨0, Nat.zero_le _, 0, .inl rfl, Gives.of_unmoved hunmoved _⟩
  | ok available s₁ =>
    rw [hload] at hunmoved
    obtain ⟨state, module, hfind, rfl, rfl⟩ := loadVersionedContract_ok hload
    generalize hs₁ : { s with inner := ChainState.setContract payload.contract (state, module) s.inner } = s₁ at hunmoved ⊢
    cases module with
    | none =>
      have hgas : Gives secret s₁ _ _ _ := handleGas_gives tx (Nat.zero_le payload.maxGas) s₁
      have hstart := (Gives.of_unmoved hunmoved []).trans hgas
      show ∃ usedGas ≤ payload.maxGas, ∃ extra, MayIssueIn env tx txHash s extra ∧ Gives secret s
        (Exec.stateOf ((handleGas tx 0 payload.maxGas >>= fun _ => refundDeposits tx payload.deposits decompressed) s₁))
        _ extra
      refine ⟨0, Nat.zero_le _, 0, .inl rfl, ?_⟩
      rw [Exec.bind_apply]
      cases hpaid : handleGas tx 0 payload.maxGas s₁ with
      | error e s₂ =>
        rw [hpaid] at hstart
        have hgives := hstart.trans (Gives.of_unmoved (.refl _)
          (payload.deposits.entries.map (depositPart secret tx.source decompressed)))
        simp only [add_zero] at hgives
        exact hgives.perm List.perm_append_comm
      | ok refund s₂ =>
        rw [hpaid] at hstart
        have hgives := hstart.trans (refundDeposits_gives tx payload.deposits decompressed s₂)
        simp only [add_zero] at hgives
        exact hgives.perm List.perm_append_comm
    | some module =>
      have hset : s₁.inner.contracts[payload.contract]?.bind Prod.snd = some module := by
        rw [← hs₁]
        exact congrArg (Option.bind · Prod.snd) (FiniteMap.getElem?_insert_self' _ _ _)
      obtain ⟨usedGas, hused, extra, hissue, hgives⟩ := invokeContract_gives env tx txHash
        decompressed payload.contract payload.deposits payload.parameters payload.maxGas (.entry payload.chunkId) s₁
      refine ⟨usedGas, hused, extra, hissue.of_call hunmoved hset ?_, ?_⟩
      · intro e he
        simp only [execution, hdata, hfind, he]
      · have hall := (Gives.of_unmoved hunmoved []).trans hgives
        rw [zero_add] at hall
        show Gives secret s (Exec.stateOf ((invokeContract env tx txHash decompressed payload.contract payload.deposits
          payload.parameters payload.maxGas (.entry payload.chunkId) >>= fun _ => pure ⟨⟩ : Apply P PUnit) s₁)) _ _
        rw [Exec.bind_apply]
        cases hcall : invokeContract env tx txHash decompressed payload.contract payload.deposits payload.parameters
            payload.maxGas (.entry payload.chunkId) s₁ with
        | ok success s₂ =>
          rw [hcall] at hall
          exact hall
        | error e s₂ =>
          rw [hcall] at hall
          exact hall

theorem applyDeployContract_gives {module : Module}
    {invoke : InvokeConstructorPayload} (hdata : tx.data = .deployContract ⟨module, some invoke⟩)
    (decompressed : FiniteMap Hash (DecompressedDepositCt P)) (s : ApplicableChainState P) :
    ∃ usedGas ≤ invoke.maxGas, ∃ extra, MayIssueIn env tx txHash s extra ∧
      Gives secret s (Exec.stateOf (applyDeployContract env tx txHash decompressed ⟨module, some invoke⟩ s))
        (callParts secret tx.source decompressed invoke.deposits usedGas invoke.maxGas) extra := by
  have hunmoved := onInner_unmoved (P := P) (ChainState.setContractModule_sameFunds txHash module) s
  unfold applyDeployContract
  rw [Exec.bind_apply]
  cases hset : onInner (ChainState.setContractModule txHash module) s with
  | error e s₁ =>
    rw [hset] at hunmoved
    exact ⟨0, Nat.zero_le _, 0, .inl rfl, Gives.of_unmoved hunmoved _⟩
  | ok u s₁ =>
    rw [hset] at hunmoved
    have hmodule : s₁.inner.contracts[txHash]?.bind Prod.snd = some module := by
      rw [setContractModule_onInner hset]
      rfl
    obtain ⟨usedGas, hused, extra, hissue, hgives⟩ := invokeContract_gives env tx txHash
      decompressed txHash invoke.deposits [] invoke.maxGas (.hook 0) s₁
    refine ⟨usedGas, hused, extra, hissue.of_call hunmoved hmodule ?_, ?_⟩
    · intro e he
      simp only [execution, hdata, he]
    · have hall := (Gives.of_unmoved hunmoved []).trans hgives
      rw [zero_add] at hall
      dsimp only
      rw [Exec.bind_apply]
      cases hcall : invokeContract env tx txHash decompressed txHash invoke.deposits [] invoke.maxGas (.hook 0) s₁ with
      | error e s₂ =>
        rw [hcall] at hall
        exact hall
      | ok success s₂ =>
        rw [hcall] at hall
        have hlast : Unmoved s₂ (Exec.stateOf ((if !success then removeContractModule txHash else pure ⟨⟩ : Apply P PUnit) s₂)) := by
          cases success with
          | true => exact .refl s₂
          | false => exact removeContractModule_moves txHash s₂
        have hgives := hall.trans (Gives.of_unmoved hlast [])
        rw [List.append_nil, add_zero] at hgives
        exact hgives

theorem applyPayload_gives (env : Env P) (txHash : Hash) (hd : tx.decompressPayload = some (transfers, decompressed))
    (hhonest : HonestTransfers secret tx) (s : ApplicableChainState P) :
    ∃ usedGas ≤ tx.maxGas, ∃ extra, MayIssueIn env tx txHash s extra ∧
      Gives secret s (Exec.stateOf (applyPayload env tx txHash decompressed s))
        (tx.payloadParts secret decompressed usedGas) extra := by
  cases hdata : tx.data with
  | transfers payloads =>
    simp only [decompressPayload, hdata, Option.map_eq_some_iff, Prod.mk.injEq] at hd
    obtain ⟨_, hd, -, -⟩ := hd
    simp only [HonestTransfers, hdata] at hhonest
    refine ⟨0, Nat.zero_le _, 0, .inl rfl, ?_⟩
    simp only [applyPayload, payloadParts, hdata]
    exact applyTransfers_gives hd hhonest s
  | burn payload =>
    refine ⟨0, Nat.zero_le _, 0, .inl rfl, ?_⟩
    simp only [applyPayload, payloadParts, hdata]
    split
    · have hburned : Gains secret s (addBurnedCoins payload.amount s) (single XELIS_ASSET (coins payload.amount)) := by
        refine gains_collected payload.amount rfl rfl rfl ?_
        show s.inner.gasFee + (s.burnedSupply + payload.amount) = _
        omega
      refine Gives.of_gains (hburned.congr ?_)
      simp [sumParts]
    · exact Gives.of_unmoved (.refl s) []
  | multiSig payload =>
    refine ⟨0, Nat.zero_le _, 0, .inl rfl, ?_⟩
    simp only [applyPayload, payloadParts, hdata]
    exact Gives.of_unmoved (onInner_unmoved (ChainState.setMultisigState_sameFunds tx.source payload) s) []
  | invokeContract payload =>
    simp only [applyPayload, payloadParts, maxGas, hdata]
    exact applyInvokeContract_gives hdata decompressed s
  | deployContract payload =>
    obtain ⟨module, invoke⟩ := payload
    cases invoke with
    | some invoke =>
      simp only [applyPayload, payloadParts, maxGas, hdata]
      exact applyDeployContract_gives hdata decompressed s
    | none =>
      refine ⟨0, Nat.zero_le _, 0, .inl rfl, ?_⟩
      have hunmoved := onInner_unmoved (P := P) (ChainState.setContractModule_sameFunds txHash module) s
      simp only [applyPayload, payloadParts, applyDeployContract, hdata]
      rw [Exec.bind_apply]
      cases hset : onInner (ChainState.setContractModule txHash module) s with
      | error e s₁ =>
        rw [hset] at hunmoved
        exact Gives.of_unmoved hunmoved []
      | ok u s₁ =>
        rw [hset] at hunmoved
        exact Gives.of_unmoved hunmoved []

section Charging

/-- The sender of the block has an echange in each of the assets. -/
def Loaded (key : PublicKey) (assets : List Hash) (s : ApplicableChainState P) : Prop :=
  ∀ asset ∈ assets, ∃ account e, s.inner.accounts[key]? = some account ∧ account.assets[asset]? = some e

variable {assets : List Hash}

omit [RistrettoPoint P] in
theorem Loaded.setEchange {account : Account P}
    (h : Loaded key assets s) (hacc : s.inner.findAccount key = .ok account) (asset : Hash) (e : Echange P) :
    Loaded key (asset :: assets)
      { s with inner := ChainState.setAccount key (ChainState.setEchange account asset e) s.inner } := by
  intro a ha
  refine ⟨ChainState.setEchange account asset e, ?_⟩
  by_cases heq : a = asset
  · subst heq
    exact ⟨e, ChainState.accounts_setAccount _ _ _, ChainState.assets_setEchange _ _ _⟩
  · have hmem : a ∈ assets := (List.mem_cons.mp ha).resolve_left heq
    obtain ⟨account', e', hacc', he'⟩ := h a hmem
    have hsame : account' = account := by
      simpa only [ChainState.findAccount, hacc', Except.ok.injEq] using hacc
    subst hsame
    refine ⟨e', ChainState.accounts_setAccount _ _ _, ?_⟩
    exact (FiniteMap.getElem?_insert_of_ne _ _ (Ne.symm heq)).trans he'

variable {acc acc' : Transcript P × List (Ciphertext P × Ciphertext P × Hash)}

theorem checkCommitment_loaded {owner : P} {deposits : FiniteMap Hash (DecompressedDepositCt P)}
    {commitment : SourceCommitment × P} (hloaded : Loaded tx.source assets s)
    (h : checkCommitment env tx owner transfers deposits acc commitment s = .ok acc' s') :
    Loaded tx.source (commitment.1.asset :: assets) s' := by
  unfold checkCommitment at h
  obtain ⟨output, s₀, hout, h₀⟩ := Exec.bind_ok_iff.mp h
  obtain ⟨balance, s₁, hget, h₁⟩ := Exec.bind_ok_iff.mp h₀
  obtain ⟨_, s₂, hproof, h₂⟩ := Exec.bind_ok_iff.mp h₁
  obtain ⟨-, rfl⟩ := orProof_ok hout
  obtain rfl := proofResult_ok hproof
  rw [Exec.pure_apply, EStateM.Result.ok.injEq] at h₂
  obtain ⟨-, rfl⟩ := h₂
  simp only [onInner, ChainState.internalGetSenderVerificationBalance_eq] at hget
  cases hfind : s₀.inner.findSender tx.source commitment.1.asset tx.reference with
  | error e => simp [hfind] at hget
  | ok found =>
    obtain ⟨account, e⟩ := found
    simp only [hfind, EStateM.Result.ok.injEq] at hget
    obtain ⟨-, rfl⟩ := hget
    exact hloaded.setEchange (ChainState.findSender_ok hfind).1 _ _

theorem checkCommitments_loaded {owner : P}
    {deposits : FiniteMap Hash (DecompressedDepositCt P)} (commitments : List (SourceCommitment × P))
    (hloaded : Loaded tx.source assets s)
    (h : commitments.foldlM (checkCommitment env tx owner transfers deposits) acc s = .ok acc' s') :
    Loaded tx.source (assets ++ commitments.map (·.1.asset)) s' := by
  induction commitments generalizing acc s assets with
  | nil =>
    cases h
    rw [List.map_nil, List.append_nil]
    exact hloaded
  | cons c cs ih =>
    rw [List.foldlM_cons] at h
    obtain ⟨acc₁, s₁, hc, hcs⟩ := Exec.bind_ok_iff.mp h
    intro a ha
    refine ih (checkCommitment_loaded hloaded hc) hcs a ?_
    simp only [List.map_cons, List.mem_append, List.mem_cons] at ha ⊢
    tauto

/-- The balances that were checked can always be charged. -/
theorem applyCommitments_total (changes : List (Ciphertext P × Ciphertext P × Hash))
    (hloaded : Loaded tx.source (changes.map (·.2.2)) s) : ∃ s', changes.forM (applyCommitment tx) s = .ok ⟨⟩ s' := by
  induction changes generalizing s with
  | nil => exact ⟨s, rfl⟩
  | cons c cs ih =>
    obtain ⟨account, e, hacc, he⟩ := hloaded c.2.2 (by simp)
    have hfind : s.inner.findSender tx.source c.2.2 tx.reference = .ok (account, e) := by
      simp only [ChainState.findSender, hacc, he]
    have hstep := applyCommitment_eq tx c s
    rw [hfind] at hstep
    have hrest : Loaded tx.source (cs.map (·.2.2)) s := fun a ha => hloaded a (List.mem_cons_of_mem _ ha)
    have hnext := hrest.setEchange (ChainState.findSender_ok hfind).1 c.2.2
      ((e.getBalance.2.setBalance c.1).addOutputToSum c.2.1)
    obtain ⟨s', hs'⟩ := ih fun a ha => hnext a (List.mem_cons_of_mem _ ha)
    exact ⟨s', Exec.bind_ok_iff.mpr ⟨⟨⟩, _, hstep, hs'⟩⟩

theorem partialVerify_unmoved (env : Env P) (tx : Transaction) : Exec.Moves Unmoved (partialVerify (P := P) env tx) :=
  partialVerify_moves .refl (fun _ _ _ => .trans)
    (fun _ => onInner_unmoved (ChainState.internalGetSenderVerificationBalance_sameFunds _ _ _)) env

theorem charge_total {changes : List (Ciphertext P × Ciphertext P × Hash)}
    (hverify : partialVerify env tx s = .ok (decompressed, changes) s₁) :
    ∃ s₂, changes.forM (applyCommitment tx) s₁ = .ok ⟨⟩ s₂ := by
  obtain ⟨transfers, newCommitments, owner, transcript, -, -, hcheck⟩ := partialVerify_ok hverify
  obtain ⟨-, -, changes', hchanges, hassets, -⟩ := checkCommitments_ok _ hcheck
  rw [List.nil_append] at hchanges
  subst hchanges
  refine applyCommitments_total changes ?_
  have hnone : Loaded tx.source [] s := fun _ ha => absurd ha List.not_mem_nil
  have hloaded := checkCommitments_loaded _ hnone hcheck
  rw [List.nil_append] at hloaded
  show Loaded tx.source ((transcript, changes).2.map (·.2.2)) s₁
  rw [hassets]
  exact hloaded

theorem applyWithPartialVerify_outcome (env : Env P) (txHash : Hash) (hhonest : HonestTransfers secret tx)
    (s : ApplicableChainState P) :
    Unmoved s (Exec.stateOf (applyWithPartialVerify env tx txHash s)) ∨
    ∃ transfers decompressed, tx.decompressPayload (P := P) = some (transfers, decompressed) ∧
      ∃ usedGas ≤ tx.maxGas, ∃ extra, MayIssueIn env tx txHash s extra ∧
        Gives secret s (Exec.stateOf (applyWithPartialVerify env tx txHash s))
          (tx.payloadParts secret decompressed usedGas) (extra - tx.charged secret transfers decompressed) := by
  have hunmoved := partialVerify_unmoved env tx s
  unfold applyWithPartialVerify
  rw [Exec.bind_apply]
  cases hverify : partialVerify env tx s with
  | error e s₁ =>
    rw [hverify] at hunmoved
    exact .inl hunmoved
  | ok verified s₁ =>
    obtain ⟨decompressed, changes⟩ := verified
    obtain ⟨s₂, hcharge⟩ := charge_total hverify
    obtain ⟨transfers, hpayload, honly, hcharged⟩ := charge_gains hverify hcharge
    refine .inr ⟨transfers, decompressed, hpayload, ?_⟩
    dsimp only
    rw [Exec.bind_apply, hcharge]
    dsimp only
    unfold apply
    rw [Exec.bind_apply]
    have hnonceMoves := onInner_unmoved (P := P)
      (ChainState.internalUpdateAccountNonce_sameFunds tx.source (tx.nonce + 1)) s₂
    cases hnonce : onInner (ChainState.internalUpdateAccountNonce tx.source (tx.nonce + 1)) s₂ with
    | error e s₃ =>
      rw [hnonce] at hnonceMoves
      refine ⟨0, Nat.zero_le _, 0, .inl rfl, tx.payloadParts secret decompressed 0, List.Subperm.refl _, ?_⟩
      refine (hcharged.trans (Gains.of_unmoved hnonceMoves)).congr ?_
      abel
    | ok u s₃ =>
      obtain ⟨honly', hunmoved'⟩ := updateNonce_ok hnonce
      obtain ⟨usedGas, hused, extra, hissue, withheld, hwithheld, hgain⟩ :=
        applyPayload_gives env txHash hpayload hhonest s₃
      refine ⟨usedGas, hused, extra, ?_, withheld, hwithheld, ?_⟩
      · obtain ⟨accounts, rfl⟩ := honly.trans honly'
        exact hissue
      · refine ((hcharged.trans (Gains.of_unmoved hunmoved')).trans hgain).congr ?_
        abel

end Charging

/-- Every asset that leaves the sender: the one of the fees and those of the payload. -/
def leavingAssets (tx : Transaction) : List Hash :=
  XELIS_ASSET :: match tx.data with
    | .transfers payloads => payloads.map (·.asset)
    | .burn payload => [payload.asset]
    | .multiSig _ => []
    | .invokeContract payload => payload.deposits.keys
    | .deployContract ⟨_, some invoke⟩ => invoke.deposits.keys
    | .deployContract ⟨_, none⟩ => []

def Covered (tx : Transaction) : Prop :=
  ∀ asset ∈ tx.leavingAssets, (tx.sourceCommitments.filter (·.asset == asset)).length = 1

/-- All that is given out was charged, for every state and every way the proofs and the contracts behave. What a
transaction gives is taken from a commitment of its sender, up to what contract code issues: when it returns, the ledger
lost what it retained and kept; when it fails, some parts of the payload were withheld as well. -/
def CreditsFunded (P : Type) [RistrettoPoint P] (tx : Transaction) : Prop :=
  ∀ (env : Env P) (txHash : Hash) (secret : PublicKey → P →+ P), HonestTransfers secret tx →
    ∀ s : ApplicableChainState P, match applyWithPartialVerify env tx txHash s with
      | .ok _ s' => ∃ transfers decompressed, tx.decompressPayload (P := P) = some (transfers, decompressed) ∧
          ∀ asset, s'.total secret asset + coins (tx.retained asset) + tx.kept secret env txHash decompressed s asset =
            s.total secret asset + tx.issued env txHash s asset
      | .error _ s' => (∀ asset, s'.total secret asset = s.total secret asset) ∨
          ∃ transfers decompressed, tx.decompressPayload (P := P) = some (transfers, decompressed) ∧
            ∃ usedGas ≤ tx.maxGas, ∃ withheld, List.Subperm withheld (tx.payloadParts secret decompressed usedGas) ∧
              ∃ extra, MayIssueIn env tx txHash s extra ∧
                ∀ asset, s'.total secret asset + coins (tx.retained asset) + sumParts withheld asset =
                  s.total secret asset + extra asset

theorem nodup_of_no_duplicates (commitments : List SourceCommitment)
    (h : commitments.zipIdx.any (fun c => commitments.zipIdx.any (fun c2 =>
      c.2 != c2.2 && c.1.asset == c2.1.asset)) = false) : (commitments.map (·.asset)).Nodup := by
  rw [List.Nodup, List.pairwise_map, List.pairwise_iff_getElem]
  intro i j hi hj hij heq
  have hmem : ∀ k (hk : k < commitments.length), (commitments[k], k) ∈ commitments.zipIdx := by
    intro k hk
    exact List.mk_mem_zipIdx_iff_getElem?.mpr (List.getElem?_eq_getElem hk)
  have hi' := List.any_eq_false.mp h _ (hmem i hi)
  have hj' := List.any_eq_false.mp (Bool.not_eq_true _ ▸ hi') _ (hmem j hj)
  simp only [bne_iff_ne, Bool.and_eq_true, beq_iff_eq, not_and] at hj'
  exact hj' (Nat.ne_of_lt hij) heq

theorem length_filter_eq_count (commitments : List SourceCommitment) (asset : Hash) :
    (commitments.filter (·.asset == asset)).length = (commitments.map (·.asset)).count asset := by
  rw [← List.countP_eq_length_filter, List.count, List.countP_map]
  rfl

theorem length_filter_eq_one_iff {commitments : List SourceCommitment} (hnodup : (commitments.map (·.asset)).Nodup)
    (asset : Hash) :
    (commitments.filter (·.asset == asset)).length = 1 ↔ commitments.any (fun c => c.asset == asset) = true := by
  have hcount := List.nodup_iff_count_le_one.mp hnodup asset
  have hpos : 0 < (commitments.map (·.asset)).count asset ↔ commitments.any (fun c => c.asset == asset) = true := by
    rw [List.count_pos_iff, List.mem_map, List.any_eq_true]
    simp only [beq_iff_eq]
  rw [length_filter_eq_count, ← hpos]
  omega

theorem nodup_of_verifyCommitmentAssets (h : tx.verifyCommitmentAssets = true) :
    (tx.sourceCommitments.map (·.asset)).Nodup := by
  unfold verifyCommitmentAssets at h
  split at h
  · cases h
  split at h
  · cases h
  · rename_i hduplicates
    exact nodup_of_no_duplicates tx.sourceCommitments (Bool.not_eq_true _ ▸ hduplicates)

theorem covered_iff (h : tx.verifyCommitmentAssets = true) :
    Covered tx ↔ ∀ module invoke, tx.data = .deployContract ⟨module, some invoke⟩ →
      ∀ asset ∈ invoke.deposits.keys, tx.hasCommitmentForAsset asset = true := by
  unfold verifyCommitmentAssets at h
  split at h
  · cases h
  rename_i hnative
  split at h
  · cases h
  rename_i hduplicates
  have hone := length_filter_eq_one_iff (nodup_of_no_duplicates tx.sourceCommitments (Bool.not_eq_true _ ▸ hduplicates))
  have hcovered : Covered tx ↔ ∀ asset ∈ tx.leavingAssets, tx.hasCommitmentForAsset asset = true :=
    forall₂_congr fun asset _ => hone asset
  have hfees : tx.hasCommitmentForAsset XELIS_ASSET = true := by simpa using hnative
  rw [hcovered]
  cases hdata : tx.data with
  | transfers payloads =>
    simp only [hdata, List.all_eq_true] at h
    simp only [leavingAssets, hdata, List.mem_cons, List.mem_map, forall_eq_or_imp, hfees, true_and, reduceCtorEq,
      false_implies, implies_true, iff_true]
    rintro asset ⟨t, ht, rfl⟩
    exact h t ht
  | burn payload =>
    simp only [hdata] at h
    simp [leavingAssets, hdata, hfees, h]
  | multiSig payload => simp [leavingAssets, hdata, hfees]
  | invokeContract payload =>
    simp only [hdata, List.all_eq_true] at h
    simp only [leavingAssets, hdata, List.mem_cons, forall_eq_or_imp, hfees, true_and, reduceCtorEq, false_implies,
      implies_true, iff_true]
    exact h
  | deployContract payload =>
    obtain ⟨module, invoke⟩ := payload
    cases invoke with
    | none => simp [leavingAssets, hdata, hfees]
    | some invoke =>
      simp only [leavingAssets, hdata, List.mem_cons, forall_eq_or_imp, hfees, true_and]
      constructor
      · intro hall module' invoke' heq
        cases heq
        exact hall
      · intro hall
        exact hall module invoke rfl

theorem single_of_ne (h : a ≠ asset) (v : P) : single asset v a = 0 := if_neg h

theorem outputValue_of_not_leaving (h : a ∉ tx.leavingAssets)
    (transfers : List (DecompressedTransferCt P)) (decompressed : FiniteMap Hash (DecompressedDepositCt P)) :
    tx.outputValue secret transfers decompressed a = 0 := by
  rw [leavingAssets, List.mem_cons, not_or] at h
  obtain ⟨hnative, hrest⟩ := h
  have hdeposits : ∀ deposits : IndexMap Hash ContractDeposit, a ∉ deposits.keys →
      sumDeposits deposits (depositValue secret tx.source decompressed) a = 0 := by
    intro deposits hkeys
    rw [sumDeposits, (IndexMap.get_eq_none_iff deposits a).mpr hkeys]
  unfold outputValue
  rw [Pi.add_apply, single_of_ne hnative, zero_add]
  cases hdata : tx.data with
  | transfers payloads =>
    simp only [hdata, List.mem_map, not_exists, not_and] at hrest
    dsimp only
    rw [Pi.list_sum_apply, List.map_map]
    refine List.sum_eq_zero fun x hx => ?_
    obtain ⟨e, he, rfl⟩ := List.mem_map.mp hx
    exact single_of_ne (fun hc => hrest e.1 (List.of_mem_zip he).1 hc.symm) _
  | burn payload =>
    simp only [hdata, List.mem_singleton] at hrest
    exact single_of_ne hrest _
  | multiSig payload => rfl
  | invokeContract payload =>
    simp only [hdata] at hrest
    simp only [Pi.add_apply, single_of_ne hnative, hdeposits _ hrest, add_zero]
  | deployContract payload =>
    obtain ⟨module, invoke⟩ := payload
    cases invoke with
    | none => exact single_of_ne hnative _
    | some invoke =>
      simp only [hdata] at hrest
      simp only [Pi.add_apply, single_of_ne hnative, hdeposits _ hrest, add_zero]

theorem sum_single_of_nodup (assets : List Hash) (hnodup : assets.Nodup) (f : Hash → P) (a : Hash) :
    (assets.map (fun c => single c (f c))).sum a = if a ∈ assets then f a else 0 := by
  induction assets with
  | nil => rfl
  | cons c cs ih =>
    obtain ⟨hc, hcs⟩ := List.nodup_cons.mp hnodup
    rw [List.map_cons, List.sum_cons, Pi.add_apply, ih hcs]
    by_cases heq : a = c
    · subst heq
      rw [if_neg hc, if_pos List.mem_cons_self, single, if_pos rfl, add_zero]
    · rw [single_of_ne heq, zero_add]
      simp only [List.mem_cons, heq, false_or]

theorem charged_eq_outputValue (hcovered : Covered tx) (hnodup : (tx.sourceCommitments.map (·.asset)).Nodup)
    (transfers : List (DecompressedTransferCt P)) (decompressed : FiniteMap Hash (DecompressedDepositCt P)) :
    tx.charged secret transfers decompressed = tx.outputValue secret transfers decompressed := by
  funext a
  have hmap : tx.sourceCommitments.map (fun c => single c.asset (tx.outputValue secret transfers decompressed c.asset)) =
      (tx.sourceCommitments.map (·.asset)).map (fun b => single b (tx.outputValue secret transfers decompressed b)) := by
    rw [List.map_map]
    rfl
  rw [charged, hmap, sum_single_of_nodup _ hnodup]
  split
  · rfl
  · rename_i hnot
    refine (outputValue_of_not_leaving (fun hleaving => ?_) transfers decompressed).symm
    have hone := hcovered a hleaving
    rw [length_filter_eq_count, List.count_eq_zero.mpr hnot] at hone
    cases hone

theorem creditsFunded_of_covered (hcovered : Covered tx)
    (hnodup : (tx.sourceCommitments.map (·.asset)).Nodup) : CreditsFunded P tx := by
  intro env txHash secret hhonest s
  cases hrun : applyWithPartialVerify env tx txHash s with
  | ok u s' =>
    obtain ⟨transfers, decompressed, hd, hgain⟩ := applyWithPartialVerify_gains hhonest hrun
    refine ⟨transfers, decompressed, hd, fun a => ?_⟩
    rw [charged_eq_outputValue hcovered hnodup] at hgain
    rw [hgain a]
    simp only [applied, Pi.sub_apply]
    abel
  | error e s' =>
    have houtcome := applyWithPartialVerify_outcome env txHash hhonest s
    rw [hrun] at houtcome
    rcases houtcome with hunmoved | ⟨transfers, decompressed, hd, usedGas, hused, extra, hissue, withheld, hwithheld, hgain⟩
    · exact .inl fun a => congrFun (hunmoved.total_eq secret) a
    · refine .inr ⟨transfers, decompressed, hd, usedGas, hused, withheld, hwithheld, extra, hissue, fun a => ?_⟩
      rw [charged_eq_outputValue hcovered hnodup] at hgain
      have hparts : tx.outputValue secret _ _ a = _ := outputValue_eq_parts hd hused a
      show (Exec.stateOf (.error e s' : EStateM.Result _ _ PUnit)).total secret a + _ + _ = _
      rw [hgain a]
      simp only [Pi.add_apply, Pi.sub_apply, hparts]
      abel

theorem preVerify_verifyCommitmentAssets [BlockchainVerificationState S P ε] {proofs : Proofs P}
    {s s' : S} {r : Transcript P × List (P × CompressedPoint)}
    (h : preVerify proofs tx txHash s = .ok r s') : tx.verifyCommitmentAssets = true := by
  unfold preVerify at h
  obtain ⟨_, s₁, -, h⟩ := Exec.bind_ok_iff.mp h
  obtain ⟨_, s₂, -, h⟩ := Exec.bind_ok_iff.mp h
  obtain ⟨nonce, s₃, -, h⟩ := Exec.bind_ok_iff.mp h
  obtain ⟨_, s₄, -, h⟩ := Exec.bind_ok_iff.mp h
  obtain ⟨_, s₅, -, h⟩ := Exec.bind_ok_iff.mp h
  obtain ⟨_, s₆, hcommitments, -⟩ := Exec.bind_ok_iff.mp h
  cases hcheck : tx.verifyCommitmentAssets with
  | true => rfl
  | false =>
    rw [hcheck] at hcommitments
    cases hcommitments

/-- The transactions that are accepted are funded exactly when the constructor deposits have commitments too. -/
theorem preVerify_funded_iff {S ε : Type} [BlockchainVerificationState S P ε] (proofs : Proofs P) (tx : Transaction)
    (txHash : Hash) (s s' : S) (r : Transcript P × List (P × CompressedPoint))
    (h : preVerify proofs tx txHash s = .ok r s') :
    (Covered tx ∧ CreditsFunded P tx) ↔ ∀ module invoke, tx.data = .deployContract ⟨module, some invoke⟩ →
      ∀ asset ∈ invoke.deposits.keys, tx.hasCommitmentForAsset asset = true := by
  have hcheck := preVerify_verifyCommitmentAssets h
  rw [← covered_iff hcheck]
  constructor
  · exact fun hfunded => hfunded.1
  · exact fun hcovered => ⟨hcovered, creditsFunded_of_covered hcovered (nodup_of_verifyCommitmentAssets hcheck)⟩

/-- The integers as points, each amount being its own point. -/
instance intPoint : RistrettoPoint ℤ where
  basepoint := 1
  decompress n := some n.toNat

/-- Proofs that check the committed amounts in the clear, and a machine whose contracts succeed at once. -/
def clearEnv : Env ℤ where
  txSize _ := 512
  verifySignature _ _ := true
  verifyMultisigSignature _ _ _ := true
  preVerifyEqProof _ _ _ _ remaining committed := if remaining.commitment = committed then .ok ⟨⟩ else .error .genericProof
  preVerifyTransferProof _ _ _ _ _ := .ok ⟨⟩
  preVerifyDepositProof _ _ _ _ _ := .ok ⟨⟩
  verifySigma _ _ := true
  verifyRange _ _ _ := true
  isEntryChunk _ _ := true
  verifyConstant _ _ := true
  verifyModule _ := true
  getChunkIdOfHook _ _ := some 0
  blake3 _ := 0#256
  run _ _ _ _ _ _ := .ran [] 0 (some 0)

/-- An account with ten coins of the native asset. -/
def sampleStorage : Storage ℤ :=
  let s : Storage ℤ := {}
  let s := s.addAsset XELIS_ASSET 0 ⟨none, ⟨8, "XELIS", "XEL", none, none⟩⟩
  let s := s.setLastNonceTo 7#256 0 ⟨none, 0⟩
  s.setLastBalanceTo 7#256 XELIS_ASSET 0 ⟨none, none, ⟨10 * COIN_VALUE, 0⟩, .input⟩

/-- A transaction of that account, with the native asset as its only commitment. -/
def sampleTx (data : TransactionType) (left : Nat) : Transaction where
  version := .v2
  source := 7#256
  data
  fee := 10000
  nonce := 0
  sourceCommitments := [⟨BitVec.ofNat 256 left, [], XELIS_ASSET⟩]
  rangeProof := []
  reference := ⟨0#256, 0⟩
  multisig := none
  signature := []

/-- The block that holds the transaction. -/
def sampleState : ApplicableChainState ℤ :=
  ApplicableChainState.new sampleStorage false 0 1 .v3 0 1#256 ⟨⟨.v3, [], 0, 1, 0, [], 0#256, [5#256]⟩, []⟩

instance sampleVerification : BlockchainVerificationState (ChainState ℤ) ℤ BlockchainError :=
  ChainState.verificationState clearEnv.txSize

def isOk {ε σ α : Type} : EStateM.Result ε σ α → Bool
  | .ok _ _ => true
  | .error _ _ => false

theorem exists_of_isOk {r : EStateM.Result ε σ α} (h : isOk r = true) : ∃ a s, r = .ok a s := by
  cases r with
  | ok a s => exact ⟨a, s, rfl⟩
  | error e s => cases h

/-- Ten units of a token that the transaction has no commitment for go to the constructor. -/
def mintingDeploy : Transaction :=
  sampleTx (.deployContract ⟨[], some ⟨0, .single 9#256 (.pub 10)⟩⟩) (10 * COIN_VALUE - 10000 - BURN_PER_CONTRACT)

theorem mintingDeploy_accepted : isOk (preVerify clearEnv.toProofs mintingDeploy 5#256 sampleState.inner) = true := by
  decide +kernel

theorem mintingDeploy_applied : isOk (applyWithPartialVerify clearEnv mintingDeploy 5#256 sampleState) = true := by
  decide +kernel

/-- A deployment is accepted whose constructor deposit was never taken from the sender: its contract gets it for free. -/
theorem preVerify_accepts_unfunded_deposit :
    (∃ r s', preVerify clearEnv.toProofs mintingDeploy 5#256 sampleState.inner = .ok r s') ∧
      ¬Covered mintingDeploy ∧ ¬CreditsFunded ℤ mintingDeploy := by
  refine ⟨exists_of_isOk mintingDeploy_accepted, ?_, ?_⟩
  · intro hcovered
    have hone := hcovered 9#256 (by decide)
    revert hone
    decide
  · intro hfunded
    have hhonest : HonestTransfers (P := ℤ) 0 mintingDeploy := trivial
    obtain ⟨⟨⟩, s', hrun⟩ := exists_of_isOk mintingDeploy_applied
    have hequation := hfunded clearEnv 5#256 0 hhonest sampleState
    rw [hrun] at hequation
    obtain ⟨transfers, decompressed, hd, hequation⟩ := hequation
    obtain ⟨transfers', decompressed', hd', hgain⟩ := applyWithPartialVerify_gains hhonest hrun
    rw [hd, Option.some.injEq, Prod.mk.injEq] at hd'
    obtain ⟨rfl, rfl⟩ := hd'
    have hdeposit : mintingDeploy.outputValue (P := ℤ) 0 transfers decompressed 9#256 = 10 := by
      rfl
    have hcharged : mintingDeploy.charged (P := ℤ) 0 transfers decompressed 9#256 = 0 := by
      rfl
    have htotal := hgain 9#256
    have hexpected := hequation 9#256
    simp only [applied, Pi.sub_apply, hdeposit, hcharged] at htotal
    omega

/-- A burn of one coin: nothing else leaves the sender. -/
def sampleBurn : Transaction := sampleTx (.burn ⟨XELIS_ASSET, COIN_VALUE⟩) (10 * COIN_VALUE - 10000 - COIN_VALUE)

theorem preVerify_funded_burn :
    isOk (preVerify clearEnv.toProofs sampleBurn 5#256 sampleState.inner) = true ∧
      Covered sampleBurn ∧ CreditsFunded ℤ sampleBurn := by
  have haccepted : isOk (preVerify clearEnv.toProofs sampleBurn 5#256 sampleState.inner) = true := by decide +kernel
  obtain ⟨r, s', h⟩ := exists_of_isOk haccepted
  refine ⟨haccepted, (preVerify_funded_iff clearEnv.toProofs sampleBurn 5#256 sampleState.inner s' r h).mpr ?_⟩
  intro module invoke hdata
  cases hdata

end Xelis.Transaction
