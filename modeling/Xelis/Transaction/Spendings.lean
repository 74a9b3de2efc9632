import Xelis.State.ReservedBalance
import Xelis.Transaction.Atomicity
import Xelis.Transaction.Payments

namespace Xelis.State

open Lib (FiniteMap Exec)
open ApplicableChainState (SpentFrom StartsFrom)

variable {P : Type} [RistrettoPoint P] {start : VersionedBalance P} {e : Echange P}

section

omit [RistrettoPoint P]

theorem Echange.newVersion_getBalance (e : Echange P) : e.getBalance.2.newVersion = e.newVersion := by
  unfold Echange.getBalance
  dsimp only
  split
  · rfl
  · rfl

theorem Echange.version_getBalance (e : Echange P) : e.getBalance.2.version = e.version := by
  unfold Echange.getBalance
  dsimp only
  split
  · rfl
  · rfl

theorem Echange.getBalance_of_no_output (h : e.version.outputBalance = none) : e.getBalance.1 = e.version.finalBalance := by
  unfold Echange.getBalance VersionedBalance.selectBalance
  rw [h]

end

namespace ApplicableChainState

theorem SpentFrom.getBalance (h : SpentFrom start e) : SpentFrom start e.getBalance.2 := by
  refine ⟨?_, ?_, ?_⟩
  · rw [Echange.version_getBalance]
    exact h.previous
  · rw [Echange.version_getBalance]
    exact h.output
  · rw [Echange.version_getBalance, ChainState.outputSum_getBalance]
    exact h.final

theorem SpentFrom.spend (h : SpentFrom start e) {left output : Ciphertext P} (hleft : left = e.getBalance.1.sub output) :
    SpentFrom start ((e.getBalance.2.setBalance left).addOutputToSum output) := by
  have hloaded := h.getBalance
  have hset : (e.getBalance.2.setBalance left).version = { e.getBalance.2.version with finalBalance := left } := by
    show e.getBalance.2.version.setSelected _ _ = _
    have houtput := hloaded.output
    generalize e.getBalance.2.version = version at houtput ⊢
    obtain ⟨previous, output, final, kind⟩ := version
    cases houtput
    rfl
  refine ⟨?_, ?_, ?_⟩
  · show (e.getBalance.2.setBalance left).version.previousTopoheight = _
    rw [hset]
    exact hloaded.previous
  · show (e.getBalance.2.setBalance left).version.outputBalance = _
    rw [hset]
    exact hloaded.output
  · show (e.getBalance.2.setBalance left).version.finalBalance = start.finalBalance - (e.getBalance.2.outputSum + output)
    rw [hset, hleft, Echange.getBalance_of_no_output h.output, h.final, ChainState.outputSum_getBalance,
      Ciphertext.sub_eq, sub_sub]

variable {storage : Storage P} {t : TopoHeight}

theorem outputBalance_getNewVersionedBalance {key : PublicKey} {asset : Hash}
    {found : VersionedBalance P × Bool} (h : storage.getNewVersionedBalance key asset t = .ok found) :
    found.1.outputBalance = none := by
  obtain ⟨version, -, h⟩ := Exec.except_bind_ok h
  cases version with
  | none =>
    cases h
    rfl
  | some version =>
    cases h
    rfl

variable {reference : Reference}

theorem newVersion_searched {key : PublicKey} {asset : Hash} {noNew allow : Bool} {version : VersionedBalance P}
    (h : searchVersionedBalanceForReference storage key asset t reference noNew = .ok (allow, true, version)) :
    ∃ created, storage.getNewVersionedBalance key asset t = .ok (version, created) := by
  -- however the search ends, only without any version the newest one is looked up
  have hnew : ∀ useOutput : Bool, (do
        let found ← storage.getNewVersionedBalance key asset t
        if found.2 && noNew then
          throw .noPreviousBalanceFound
        return (useOutput, true, found.1) : Except BlockchainError (Bool × Bool × VersionedBalance P)) = .ok (allow, true, version) →
      ∃ created, storage.getNewVersionedBalance key asset t = .ok (version, created) := by
    intro useOutput h
    obtain ⟨⟨v, created⟩, hload, h⟩ := Exec.except_bind_ok h
    dsimp only at h
    split at h
    · cases h
    · cases h
      exact ⟨created, hload⟩
  unfold searchVersionedBalanceForReference at h
  extract_lets referenceTopo minTopo at h
  obtain ⟨lastOutput, -, h⟩ := Exec.except_bind_ok h
  cases lastOutput with
  | none =>
    obtain ⟨found, -, h⟩ := Exec.except_bind_ok h
    cases found with
    | none => exact hnew _ h
    | some v => cases h
  | some found =>
    obtain ⟨topo, v⟩ := found
    dsimp only at h
    split at h
    · cases h
    · split at h
      · obtain ⟨found, -, h⟩ := Exec.except_bind_ok h
        cases found with
        | none => exact hnew false h
        | some found => cases h
      · cases h

theorem createSenderEchange_spentFrom {clean : PublicKey → Hash → VersionedBalance P}
    (hstarts : StartsFrom clean storage.balances t) {key : PublicKey} {asset : Hash}
    (h : ChainState.createSenderEchange storage key asset t reference = .ok e) (hnew : e.newVersion = true) :
    SpentFrom (clean key asset) e := by
  unfold ChainState.createSenderEchange at h
  cases hsearch : searchVersionedBalanceForReference storage key asset t reference true with
  | error error => simp [hsearch, bind, Except.bind] at h
  | ok found =>
    obtain ⟨allow, new, version⟩ := found
    simp only [hsearch, bind, Except.bind, pure, Except.pure, Except.ok.injEq] at h
    subst h
    have hnew : new = true := hnew
    subst hnew
    obtain ⟨created, hload⟩ := newVersion_searched hsearch
    have hclean : version = clean key asset := hstarts storage rfl key asset _ hload
    refine ⟨congrArg (·.previousTopoheight) hclean, outputBalance_getNewVersionedBalance hload, ?_⟩
    show version.finalBalance = (clean key asset).finalBalance - 0
    rw [sub_zero, hclean]

variable {s : ApplicableChainState P} {key : PublicKey} {asset : Hash} {account : Account P}

/-- The spendings that are found are those of the block, or looked up for it. -/
theorem findSender_cases (hfind : s.inner.findSender key asset reference = .ok (account, e)) :
    echangeOf s key asset = some e ∨ (echangeOf s key asset = none ∧
      ChainState.createSenderEchange s.inner.storage key asset s.inner.topoheight reference = .ok e) := by
  have hechange : echangeOf s key asset = account.assets[asset]? :=
    ChainState.echange_of_findAccount (ChainState.findSender_ok hfind).1 asset
  rw [hechange]
  unfold ChainState.findSender at hfind
  cases haccount : s.inner.accounts[key]? with
  | some found =>
    simp only [haccount] at hfind
    cases hasset : found.assets[asset]? with
    | some e' =>
      simp only [hasset, Except.ok.injEq, Prod.mk.injEq] at hfind
      obtain ⟨rfl, rfl⟩ := hfind
      exact .inl hasset
    | none =>
      cases hnew : ChainState.createSenderEchange s.inner.storage key asset s.inner.topoheight reference with
      | error error => simp [hasset, hnew, Except.map] at hfind
      | ok e' =>
        simp only [hasset, hnew, Except.map, Except.ok.injEq, Prod.mk.injEq] at hfind
        obtain ⟨rfl, rfl⟩ := hfind
        exact .inr ⟨hasset, rfl⟩
  | none =>
    simp only [haccount] at hfind
    cases hload : ChainState.createSenderAccount s.inner.storage key s.inner.topoheight with
    | error error => simp [hload, bind, Except.bind] at hfind
    | ok found =>
      cases hnew : ChainState.createSenderEchange s.inner.storage key asset s.inner.topoheight reference with
      | error error => simp [hload, hnew, bind, Except.bind] at hfind
      | ok e' =>
        simp only [hload, hnew, bind, Except.bind, pure, Except.pure, Except.ok.injEq, Prod.mk.injEq] at hfind
        obtain ⟨rfl, rfl⟩ := hfind
        rw [ChainState.assets_createSenderAccount hload]
        exact .inr ⟨Std.ExtTreeMap.getElem?_empty, rfl⟩

theorem echangeOf_setEchange (hfind : s.inner.findAccount key = .ok account) (asset : Hash) (e : Echange P) (k : PublicKey)
    (a : Hash) :
    echangeOf { s with inner := ChainState.setAccount key (ChainState.setEchange account asset e) s.inner } k a =
      if k = key ∧ a = asset then some e else echangeOf s k a := by
  have hset : echangeOf { s with inner := ChainState.setAccount key (ChainState.setEchange account asset e) s.inner } k a =
      if k = key then (ChainState.setEchange account asset e).assets[a]? else echangeOf s k a :=
    ChainState.echange_setAccount _ k a
  rw [hset]
  by_cases hk : k = key
  · subst hk
    by_cases ha : a = asset
    · subst ha
      rw [if_pos rfl, if_pos ⟨rfl, rfl⟩, ChainState.assets_setEchange]
    · rw [if_pos rfl, if_neg fun hc => ha hc.2, ChainState.setEchange, FiniteMap.getElem?_insert_of_ne _ _ (Ne.symm ha)]
      exact (ChainState.echange_of_findAccount hfind a).symm
  · rw [if_neg hk, if_neg fun hc => hk hc.1]

variable {clean : PublicKey → Hash → VersionedBalance P}

theorem Tracked.findSender (h : Tracked clean s)
    (hfind : s.inner.findSender key asset reference = .ok (account, e)) (hnew : e.newVersion = true) :
    SpentFrom (clean key asset) e := by
  rcases findSender_cases hfind with hloaded | ⟨-, hcreate⟩
  · exact h.spendings key asset e hloaded hnew
  · exact createSenderEchange_spentFrom h.starts hcreate hnew

theorem Tracked.setEchange (h : Tracked clean s) (hfind : s.inner.findAccount key = .ok account)
    (he : e.newVersion = true → SpentFrom (clean key asset) e) :
    Tracked clean { s with inner := ChainState.setAccount key (ChainState.setEchange account asset e) s.inner } := by
  refine ⟨h.starts, h.entries, fun k a e' he' hnew => ?_⟩
  rw [echangeOf_setEchange hfind] at he'
  split at he'
  · obtain ⟨rfl, rfl⟩ := ‹_ ∧ _›
    cases he'
    exact he hnew
  · exact h.spendings k a e' he' hnew

/-- Where neither the spendings nor the links of the balances received change, nothing else matters. -/
theorem Tracked.same (h : Tracked clean s) {s' : ApplicableChainState P}
    (hsame : ChainState.SameSpendings s.inner s'.inner)
    (hentries : ∀ key asset version, entryOf s' key asset = some version →
      version.previousTopoheight = (clean key asset).previousTopoheight) : Tracked clean s' := by
  refine ⟨?_, hentries, fun k a e' he' hnew => h.spendings k a e' ?_ hnew⟩
  · rw [hsame.storage, hsame.topoheight]
    exact h.starts
  · rw [← he']
    exact (hsame.echange k a).symm

end ApplicableChainState

end Xelis.State

namespace Xelis.Transaction

open Lib (FiniteMap Exec Book)
open State State.ApplicableChainState

variable {P : Type} [RistrettoPoint P] {clean : PublicKey → Hash → VersionedBalance P} {env : Env P} {tx : Transaction}
  {s s' : ApplicableChainState P}
variable {changes : List (Ciphertext P × Ciphertext P × Hash)}

section Checks

/-- The changes to make are those of the balances that are loaded. -/
def Pending (tx : Transaction) (changes : List (Ciphertext P × Ciphertext P × Hash)) (s : ApplicableChainState P) : Prop :=
  ∀ change ∈ changes, ∃ e, echangeOf s tx.source change.2.2 = some e ∧ change.1 = e.getBalance.1.sub change.2.1

variable {owner : P} {transfers : List (DecompressedTransferCt P)} {deposits : FiniteMap Hash (DecompressedDepositCt P)}
variable {account : Account P}

/-- A balance that is looked at is loaded with its selected balance. -/
theorem withSender_tracked (h : Tracked clean s) {asset : Hash} {e : Echange P}
    (hfind : s.inner.findSender tx.source asset tx.reference = .ok (account, e)) :
    Tracked clean (withSender tx.source account asset e.getBalance.2 s) := by
  refine h.setEchange (ChainState.findSender_ok hfind).1 fun hnew => ?_
  rw [Echange.newVersion_getBalance] at hnew
  exact (h.findSender hfind hnew).getBalance

theorem withSender_pending (h : Pending tx changes s) {asset : Hash} {e : Echange P}
    (hfind : s.inner.findSender tx.source asset tx.reference = .ok (account, e)) (output : Ciphertext P) :
    Pending tx (changes ++ [(e.getBalance.1.sub output, output, asset)])
      (withSender tx.source account asset e.getBalance.2 s) := by
  have hset : ∀ a, echangeOf (withSender tx.source account asset e.getBalance.2 s) tx.source a =
      if tx.source = tx.source ∧ a = asset then some e.getBalance.2 else echangeOf s tx.source a :=
    echangeOf_setEchange (ChainState.findSender_ok hfind).1 asset _ tx.source
  intro change hchange
  rw [hset]
  rcases List.mem_append.mp hchange with hold | hnew
  · obtain ⟨e', he', hleft⟩ := h change hold
    by_cases ha : change.2.2 = asset
    · rw [if_pos ⟨rfl, ha⟩]
      rcases findSender_cases hfind with hloaded | ⟨hnone, -⟩
      · have hsame : e' = e := Option.some.inj (by rw [← he', ha, hloaded])
        refine ⟨_, rfl, ?_⟩
        rw [Echange.getBalance_getBalance, hleft, hsame]
      · rw [ha, hnone] at he'
        cases he'
    · rw [if_neg fun hc => ha hc.2]
      exact ⟨e', he', hleft⟩
  · obtain rfl := List.mem_singleton.mp hnew
    rw [if_pos ⟨rfl, rfl⟩]
    refine ⟨_, rfl, ?_⟩
    rw [Echange.getBalance_getBalance]

variable {acc acc' : Transcript P × List (Ciphertext P × Ciphertext P × Hash)}

theorem partialVerify_onlyAccounts (env : Env P) (tx : Transaction) : Exec.Moves OnlyAccounts (partialVerify (P := P) env tx) :=
  partialVerify_moves (fun s => ⟨s.inner.accounts, rfl⟩) (fun _ _ _ => .trans)
    (senderBalance_moves (fun s => ⟨s.inner.accounts, rfl⟩) fun _ _ _ _ _ => ⟨_, rfl⟩) env

theorem partialVerify_tracked (env : Env P) (tx : Transaction) :
    Exec.Moves (fun s s' => Tracked clean s → Tracked clean s') (partialVerify (P := P) env tx) :=
  partialVerify_moves (fun _ h => h) (fun _ _ _ hab hbc h => hbc (hab h))
    (senderBalance_moves (fun _ h => h) fun _ _ _ _ hfind h => withSender_tracked h hfind) env

theorem checkCommitment_pending {c : SourceCommitment × P} (hpending : Pending tx acc.2 s)
    (h : checkCommitment env tx owner transfers deposits acc c s = .ok acc' s') : Pending tx acc'.2 s' := by
  rw [checkCommitment_eq] at h
  cases hout : tx.getSenderOutputCt c.1.asset transfers deposits with
  | none => simp [hout] at h
  | some output =>
    cases hfind : s.inner.findSender tx.source c.1.asset tx.reference with
    | error error => simp [hout, hfind] at h
    | ok found =>
      obtain ⟨account, e⟩ := found
      simp only [hout, hfind] at h
      cases hproof : env.preVerifyEqProof tx (transcriptWith tx acc.1 e.getBalance.1) c.1 owner
          (e.getBalance.1.sub output) c.2 with
      | error error => simp [hproof] at h
      | ok u =>
        simp only [hproof, EStateM.Result.ok.injEq] at h
        obtain ⟨rfl, rfl⟩ := h
        exact withSender_pending hpending hfind output

theorem checkCommitments_pending (commitments : List (SourceCommitment × P)) (hpending : Pending tx acc.2 s)
    (h : commitments.foldlM (checkCommitment env tx owner transfers deposits) acc s = .ok acc' s') :
    Pending tx acc'.2 s' := by
  induction commitments generalizing acc s with
  | nil =>
    cases h
    exact hpending
  | cons c cs ih =>
    rw [List.foldlM_cons] at h
    obtain ⟨acc₁, s₁, hc, hcs⟩ := Exec.bind_ok_iff.mp h
    exact ih (checkCommitment_pending hpending hc) hcs

end Checks

theorem applyCommitment_tracked (h : Tracked clean s) {change : Ciphertext P × Ciphertext P × Hash}
    (hpending : Pending tx (change :: changes) s)
    (hrun : applyCommitment tx change s = .ok ⟨⟩ s') (hfresh : change.2.2 ∉ changes.map (·.2.2)) :
    Tracked clean s' ∧ Pending tx changes s' ∧
      s'.inner.spent = s.inner.spent + Book.single tx.source change.2.2 change.2.1 := by
  rw [applyCommitment_eq] at hrun
  cases hfind : s.inner.findSender tx.source change.2.2 tx.reference with
  | error error => simp [hfind] at hrun
  | ok found =>
    obtain ⟨account, e⟩ := found
    simp only [hfind, EStateM.Result.ok.injEq, true_and] at hrun
    subst hrun
    have hfound := (ChainState.findSender_ok hfind).1
    have hechange := echangeOf_setEchange hfound change.2.2 ((e.getBalance.2.setBalance change.1).addOutputToSum change.2.1)
    refine ⟨h.setEchange hfound fun hnew => ?_, fun other hother => ?_, ?_⟩
    · obtain ⟨e', he', hleft⟩ := hpending change List.mem_cons_self
      have hsame : e' = e := by
        rcases findSender_cases hfind with hloaded | ⟨hnone, -⟩
        · exact Option.some.inj (he'.symm.trans hloaded)
        · rw [hnone] at he'
          cases he'
      subst hsame
      have hnew : e'.getBalance.2.newVersion = true := hnew
      rw [Echange.newVersion_getBalance] at hnew
      exact (h.findSender hfind hnew).spend hleft
    · have hne : ¬(tx.source = tx.source ∧ other.2.2 = change.2.2) := by
        rintro ⟨-, heq⟩
        exact hfresh (List.mem_map.mpr ⟨other, hother, heq⟩)
      rw [hechange, if_neg hne]
      exact hpending other (List.mem_cons_of_mem _ hother)
    · funext k a
      have hout : ((e.getBalance.2.setBalance change.1).addOutputToSum change.2.1).outputSum =
          s.inner.spent tx.source change.2.2 + change.2.1 := by
        rw [← ChainState.spentIn_findAccount hfound, ← (ChainState.findSender_ok hfind).2, ← ChainState.outputSum_getBalance e]
        rfl
      show (ChainState.setAccount tx.source _ s.inner).spent k a = s.inner.spent k a + Book.single tx.source change.2.2 change.2.1 k a
      rw [ChainState.spent_setAccount, Book.single]
      by_cases hk : k = tx.source
      · subst hk
        rw [if_pos rfl, ChainState.spentIn_setEchange]
        by_cases ha : a = change.2.2
        · subst ha
          rw [if_pos rfl, if_pos ⟨rfl, rfl⟩, hout]
        · rw [if_neg ha, if_neg fun hc => ha hc.2, ChainState.spentIn_findAccount hfound, add_zero]
      · rw [if_neg hk, if_neg fun hc => hk hc.1, add_zero]

theorem applyCommitments_tracked (changes : List (Ciphertext P × Ciphertext P × Hash)) (h : Tracked clean s)
    (hpending : Pending tx changes s) (hnodup : (changes.map (·.2.2)).Nodup)
    (hrun : changes.forM (applyCommitment tx) s = .ok ⟨⟩ s') :
    Tracked clean s' ∧
      s'.inner.spent = s.inner.spent + (changes.map fun c => Book.single tx.source c.2.2 c.2.1).sum := by
  induction changes generalizing s with
  | nil =>
    cases hrun
    exact ⟨h, (add_zero _).symm⟩
  | cons c cs ih =>
    obtain ⟨⟨⟩, s₁, hc, hcs⟩ := Exec.bind_ok_iff.mp hrun
    rw [List.map_cons, List.nodup_cons] at hnodup
    obtain ⟨htracked, hrest, hspent⟩ := applyCommitment_tracked h hpending hc hnodup.1
    obtain ⟨hlast, hspent'⟩ := ih htracked hrest hnodup.2 hcs
    refine ⟨hlast, ?_⟩
    rw [hspent', hspent, List.map_cons, List.sum_cons, add_assoc]

def outputCt (tx : Transaction) (asset : Hash) : Ciphertext P :=
  ((tx.decompressPayload (P := P)).bind fun payload => tx.getSenderOutputCt asset payload.1 payload.2).getD 0

/-- Everything that a transaction takes from the balances of its sender: the output of each of its commitments. -/
def debits (tx : Transaction) : Book PublicKey Hash (Ciphertext P) :=
  (tx.sourceCommitments.map fun c => Book.single tx.source c.asset (tx.outputCt c.asset)).sum

/-- Once it was verified, charging a transaction takes its outputs. -/
theorem charge_tracked {decompressed : FiniteMap Hash (DecompressedDepositCt P)}
    {s₁ : ApplicableChainState P} (h : Tracked clean s)
    (hassets : tx.verifyCommitmentAssets = true) (hverify : partialVerify env tx s = .ok (decompressed, changes) s₁) :
    ∃ s₂, changes.forM (applyCommitment tx) s₁ = .ok ⟨⟩ s₂ ∧ OnlyAccounts s s₂ ∧ Tracked clean s₂ ∧
      s₂.inner.spent = s.inner.spent + tx.debits := by
  obtain ⟨s₂, hcharge⟩ := charge_total hverify
  obtain ⟨transfers, newCommitments, owner, transcript, hpayload, hnew, hcheck⟩ := partialVerify_ok hverify
  obtain ⟨honly, hunmoved, changes', hchanges, hnames, houts⟩ := checkCommitments_ok _ hcheck
  rw [List.nil_append] at hchanges
  subst hchanges
  rw [map_asset_zip hnew] at hnames
  have htracked : Tracked clean s₁ := by
    have hmoves := @partialVerify_tracked P _ clean env tx s h
    rwa [hverify] at hmoves
  have hpending : Pending tx changes s₁ := checkCommitments_pending _ (fun _ hc => absurd hc List.not_mem_nil) hcheck
  have hnodup : (changes.map (·.2.2)).Nodup := by
    rw [show changes.map (·.2.2) = _ from hnames]
    exact nodup_of_verifyCommitmentAssets hassets
  obtain ⟨hcharged, hspent⟩ := applyCommitments_tracked changes htracked hpending hnodup hcharge
  have honly' := (@applyCommitments_ok P _ 0 tx changes s₁ s₂ hcharge).1
  refine ⟨s₂, hcharge, honly.trans honly', hcharged, ?_⟩
  have hbefore : s₁.inner.spent = s.inner.spent := funext fun k => funext fun a => hunmoved.inner.spent k a
  rw [hspent, hbefore]
  congr 1
  have heach : changes.map (fun c => Book.single tx.source c.2.2 c.2.1) =
      (changes.map (·.2.2)).map (fun a => Book.single tx.source a (tx.outputCt a)) := by
    rw [List.map_map]
    refine List.map_congr_left fun c hc => ?_
    have hout : tx.getSenderOutputCt c.2.2 transfers decompressed = some c.2.1 := houts c hc
    rw [Function.comp_apply, outputCt, hpayload, Option.bind_some, hout, Option.getD_some]
  rw [heach, show changes.map (·.2.2) = _ from hnames, List.map_map]
  rfl

section Outcomes

variable {txHash : Hash}

theorem Touch.linkedEntries (htouch : Touch tx s s')
    (hstarts : StartsFrom clean s.inner.storage.balances s.inner.topoheight) (h : LinkedEntries clean s) :
    LinkedEntries clean s' := by
  cases htouch with
  | receiver key => exact h.withReceiver key
  | load key asset found hnone hload => exact h.setReceiverVersion (by rw [hstarts s.inner.storage rfl key asset found hload])
  | credit key asset ct => exact h.putReceiverBalance key asset ct
  | _ => exact h

theorem Touches.linkedEntries (htouches : Touches tx s s')
    (hstarts : StartsFrom clean s.inner.storage.balances s.inner.topoheight) (h : LinkedEntries clean s) :
    LinkedEntries clean s' := by
  induction htouches with
  | refl => exact h
  | tail hsteps hstep ih =>
    have hframed := Touches.framed hsteps
    refine Touch.linkedEntries hstep ?_ ih
    rw [hframed.storage, hframed.topoheight]
    exact hstarts

theorem Footprint.linkedEntries (hfootprint : Footprint env tx txHash s s')
    (hstarts : StartsFrom clean s.inner.storage.balances s.inner.topoheight) (h : LinkedEntries clean s) :
    LinkedEntries clean s' := by
  rcases hfootprint with htouches | ⟨s₁, s₂, h₁, hmerge, h₂⟩
  · exact htouches.linkedEntries hstarts h
  · have hlinked := h₁.linkedEntries hstarts h
    have hframed := h₁.framed.trans hmerge.framed
    obtain ⟨start, module, invoke, parameters, maxGas, usedGas, final, -, -, rfl⟩ := hmerge
    refine h₂.linkedEntries ?_ hlinked
    rw [hframed.storage, hframed.topoheight]
    exact hstarts

theorem applyPayload_sameSpendings (env : Env P) (tx : Transaction) (txHash : Hash)
    (decompressed : FiniteMap Hash (DecompressedDepositCt P)) :
    Exec.Moves (fun s s' : ApplicableChainState P => ChainState.SameSpendings s.inner s'.inner)
      (applyPayload env tx txHash decompressed) := by
  intro s
  by_cases hdata : ∃ payload, tx.data = .multiSig payload
  · obtain ⟨payload, hdata⟩ := hdata
    simp only [applyPayload, hdata]
    exact onInner_moves (ChainState.setMultisigState_sameSpendings tx.source payload) s
  · have hspared := applyPayload_senders tx txHash decompressed env (fun payload h => hdata ⟨payload, h⟩) s
    refine ⟨hspared.storage, hspared.topoheight, fun key asset => ?_⟩
    unfold ChainState.echange
    rw [hspared.accounts]

theorem spent_of_sameSpendings {c c' : ChainState P} (h : ChainState.SameSpendings c c') : c'.spent = c.spent := by
  funext key asset
  have hechange := h.echange key asset
  unfold ChainState.echange at hechange
  unfold ChainState.spent
  rw [hechange]

/-- After the charge, the nonce and the payload of a transaction only add to the balances received. -/
theorem apply_tracked (env : Env P) (tx : Transaction) (txHash : Hash) (decompressed : FiniteMap Hash (DecompressedDepositCt P)) :
    Exec.Moves (fun s s' => Tracked clean s → Tracked clean s') (apply env tx txHash decompressed) := by
  intro s h
  have hsame : ChainState.SameSpendings s.inner (Exec.stateOf (apply env tx txHash decompressed s)).inner := by
    have htrans : ∀ a b c : ApplicableChainState P, ChainState.SameSpendings a.inner b.inner →
        ChainState.SameSpendings b.inner c.inner → ChainState.SameSpendings a.inner c.inner := fun _ _ _ => .trans
    exact (onInner_moves (ChainState.internalUpdateAccountNonce_sameSpendings tx.source (tx.nonce + 1))).bind htrans
      (fun _ => applyPayload_sameSpendings env tx txHash decompressed) s
  have hfootprint : Footprint env tx txHash s (Exec.stateOf (apply env tx txHash decompressed s)) :=
    Footprint.bind_left updateNonce_touches (fun _ => applyPayload_footprint env tx txHash decompressed) s
  exact h.same hsame (hfootprint.linkedEntries h.starts h.entries)

/-- Whatever the outcome of a transaction, what the block needs of its balances goes on to hold. -/
theorem applyWithPartialVerify_tracked (env : Env P) (txHash : Hash) (hassets : tx.verifyCommitmentAssets = true)
    (h : Tracked clean s) : Tracked clean (Exec.stateOf (applyWithPartialVerify env tx txHash s)) := by
  have hverified := @partialVerify_tracked P _ clean env tx s h
  unfold applyWithPartialVerify
  rw [Exec.bind_apply]
  cases hverify : partialVerify env tx s with
  | error error s₁ =>
    rw [hverify] at hverified
    exact hverified
  | ok found s₁ =>
    obtain ⟨decompressed, changes⟩ := found
    obtain ⟨s₂, hcharge, -, hcharged, -⟩ := charge_tracked h hassets hverify
    dsimp only
    rw [Exec.bind_apply, hcharge]
    exact apply_tracked env tx txHash decompressed s₂ hcharged

theorem balanceFrom_of_refused {error : VerificationError BlockchainError} (h : partialVerify env tx s = .error error s') :
    balanceFrom clean s' = balanceFrom clean s := by
  have hunmoved := partialVerify_unmoved env tx s
  have honly := partialVerify_onlyAccounts env tx s
  rw [h] at hunmoved honly
  have hspent := hunmoved.inner.spent
  obtain ⟨accounts, hs'⟩ := honly
  have hs' : s' = _ := hs'
  funext key asset
  have hspent : s'.inner.spent key asset = s.inner.spent key asset := hspent key asset
  rw [balanceFrom, balanceFrom, hspent, hs']
  rfl

/-- A transaction that is applied gives its credits, and takes its debits from its sender. -/
theorem balanceFrom_of_applied (h : Tracked clean s) (hassets : tx.verifyCommitmentAssets = true)
    (hrun : applyWithPartialVerify env tx txHash s = .ok ⟨⟩ s') :
    balanceFrom clean s' = balanceFrom clean s + (tx.credits env txHash s - tx.debits) := by
  obtain ⟨⟨decompressed, changes⟩, s₁, hverify, hrun⟩ := Exec.bind_ok_iff.mp hrun
  obtain ⟨⟨⟩, s₂, hcharge, hrun⟩ := Exec.bind_ok_iff.mp hrun
  obtain ⟨⟨⟩, s₃, hnonce, hpayload⟩ := Exec.bind_ok_iff.mp hrun
  obtain ⟨transfers, newCommitments, owner, transcript, hd, -, -⟩ := partialVerify_ok hverify
  obtain ⟨s₂', hcharge', honly, hcharged, hspent⟩ := charge_tracked h hassets hverify
  rw [hcharge, EStateM.Result.ok.injEq] at hcharge'
  obtain ⟨-, rfl⟩ := hcharge'
  have honly' := (updateNonce_ok hnonce).1
  have hbefore : Pays clean s s₃ 0 := Pays.of_onlyAccounts h.starts (honly.trans honly')
  have hpays := hbefore.trans (applyPayload_pays hbefore.starts hd hpayload)
  have hnonceSame := onInner_moves (ChainState.internalUpdateAccountNonce_sameSpendings tx.source (tx.nonce + 1)) s₂
  have hpayloadSame := applyPayload_sameSpendings env tx txHash decompressed s₃
  rw [hnonce] at hnonceSame
  rw [hpayload] at hpayloadSame
  have hspent' : s'.inner.spent = s.inner.spent + tx.debits :=
    (spent_of_sameSpendings hpayloadSame).trans ((spent_of_sameSpendings hnonceSame).trans hspent)
  have hcredits : tx.credits env txHash s₃ = tx.credits env txHash s := by
    obtain ⟨accounts, rfl⟩ := honly.trans honly'
    rfl
  funext key asset
  show receivedFrom clean s' key asset - s'.inner.spent key asset =
    receivedFrom clean s key asset - s.inner.spent key asset + (tx.credits env txHash s key asset - tx.debits key asset)
  rw [hpays.received, hspent', hcredits]
  show receivedFrom clean s key asset + (0 + tx.credits env txHash s key asset) -
    (s.inner.spent key asset + tx.debits key asset) = _
  abel

end Outcomes

end Xelis.Transaction
