import Xelis.Lib.MapLoops
import Xelis.Storage.Chains

namespace Xelis.Storage.VersionedTrees

open Lib (FiniteMap History)
open Lib.History (without)

variable {tr tr' : VersionedTrees StoredBalance} {key : Key} {T : TopoHeight}

/-- The spendable history from `T` on: nothing is lost from `T` on, nor from the balance at `T` down to the spending
below it, and no link leads to a deleted version. -/
structure SpendableKept (T : TopoHeight) (tr tr' : VersionedTrees StoredBalance) : Prop where
  above : ∀ key u, T ≤ u → (tr.version key u).isSome → (tr'.version key u).isSome
  spendable : ∀ key w v, (tr.history key).HoldsAt T w v → ∀ u, u ≤ w → (tr.version key u).isSome →
    (∀ x vx, x < w → tr.version key x = some vx → vx.balanceType.containsOutput → x ≤ u) → (tr'.version key u).isSome
  links : ∀ key u v p, tr'.version key u = some v → v.previousTopoheight = some p →
    (tr.version key p).isSome → (tr'.version key p).isSome

/-- Under the last version, a version that spent something is the oldest one. -/
def SpendingIsOldest (h : History StoredBalance) : Prop :=
  ∀ last w v, h.last = some last → w < last → h.version w = some v → v.balanceType.containsOutput →
    v.previousTopoheight = none

variable {q x last : TopoHeight}

section Loop

variable {fuel p : Nat}

private theorem deleteBalancesLoop_none (hfuel : 0 < fuel) (delete : Bool) :
    deleteBalancesLoop key fuel delete none tr = .ok tr := by
  obtain ⟨fuel, rfl⟩ : ∃ k, fuel = k + 1 := ⟨fuel - 1, by omega⟩
  cases delete <;> rfl

private theorem deleteBalancesLoop_delete :
    deleteBalancesLoop key fuel true (some q) tr = removeLoop key fuel (some q) tr := by
  cases fuel with
  | zero => rfl
  | succ fuel => rfl

theorem deleteBalancesLoop_descends (hl : (tr.history key).Linked StoredBalance.previousTopoheight)
    (hp : (tr.version key p).isSome) (hfuel : p + 2 ≤ fuel) :
    (∀ w v, w ≤ p → tr.version key w = some v → v.balanceType.containsOutput → v.previousTopoheight = none) ∧
      deleteBalancesLoop key fuel false (some p) tr = .ok tr ∨
    ∃ w v q, ∃ fuel' : Nat, w ≤ p ∧ tr.version key w = some v ∧ v.balanceType.containsOutput ∧
      v.previousTopoheight = some q ∧
      deleteBalancesLoop key fuel false (some p) tr = removeLoop key fuel' (some q) tr := by
  induction p using Nat.strongRecOn generalizing fuel with
  | _ p ih =>
    obtain ⟨fuel, rfl⟩ : ∃ k : Nat, fuel = k + 1 := ⟨fuel - 1, by omega⟩
    obtain ⟨v, hv⟩ := Option.isSome_iff_exists.mp hp
    have hstep : deleteBalancesLoop key (fuel + 1) false (some p) tr =
        deleteBalancesLoop key fuel v.balanceType.containsOutput v.previousTopoheight tr := by
      simp only [deleteBalancesLoop, hv]
    rw [hstep]
    cases hlink : v.previousTopoheight with
    | none =>
      refine .inl ⟨fun w vw hw hvw _ => ?_, deleteBalancesLoop_none (by omega) _⟩
      rcases Nat.lt_or_eq_of_le hw with hlt | rfl
      · have hnone : tr.version key w = none := hl.link_none p v hv hlink w hlt
        rw [hnone] at hvw
        cases hvw
      · rw [hv, Option.some.injEq] at hvw
        rw [← hvw]
        exact hlink
    | some q =>
      have hqp : @LT.lt Nat _ q p := hl.link_lt hv hlink
      have henough : @HAdd.hAdd Nat Nat Nat _ q 2 ≤ fuel := by omega
      cases hout : v.balanceType.containsOutput with
      | true => exact .inr ⟨p, v, q, fuel, Nat.le_refl p, hv, hout, hlink, deleteBalancesLoop_delete⟩
      | false =>
        rcases ih q hqp (hl.link_stored hv hlink) henough with ⟨hnone, hok⟩ | ⟨w, vw, r, fuel', hwq, hrem⟩
        · refine .inl ⟨fun w vw hw hvw houtw => ?_, hok⟩
          rcases Nat.lt_or_eq_of_le hw with hlt | rfl
          · exact hnone w vw (hl.le_link hv hlink (by rw [show (tr.history key).version w = some vw from hvw]; rfl) hlt)
              hvw houtw
          · rw [hv, Option.some.injEq] at hvw
            rw [← hvw, hout] at houtw
            cases houtw
        · exact .inr ⟨w, vw, r, fuel', Nat.le_trans hwq (Nat.le_of_lt hqp), hrem⟩

private theorem deleteBalancesLoop_onlyKey {delete : Bool} {prev : Option TopoHeight}
    (h : deleteBalancesLoop key fuel delete prev tr = .ok tr') : OnlyKey key tr tr' := by
  induction fuel generalizing delete prev with
  | zero => cases h
  | succ fuel ih =>
    cases prev with
    | none =>
      rw [deleteBalancesLoop_none (Nat.succ_pos fuel)] at h
      cases h
      exact OnlyKey.refl key _
    | some p =>
      cases delete with
      | true =>
        rw [deleteBalancesLoop_delete] at h
        obtain ⟨_, _, _, honly⟩ := removeLoop_walk h
        exact honly
      | false =>
        unfold deleteBalancesLoop at h
        cases hv : tr.version key p with
        | none => simp [hv] at h
        | some v =>
          simp only [hv] at h
          exact ih h

theorem deleteBalancesPointer_onlyKey {e : Key × TopoHeight} (h : deleteBalancesPointer tr e = .ok tr') :
    OnlyKey e.1 tr tr' := by
  unfold deleteBalancesPointer at h
  cases hload : tr.loadPrevious (.balanceAtTopoHeight e.2) e.1 e.2 with
  | error e => simp [hload] at h
  | ok prev =>
    simp only [hload] at h
    exact deleteBalancesLoop_onlyKey h

end Loop

section Pointer

variable {last : TopoHeight} (hl : (tr.history key).Linked StoredBalance.previousTopoheight)
  (hlast : (tr.history key).last = some last)
include hl hlast

/-- What is done for one pointer: nothing, or the removal of what the first spending links to. -/
theorem deleteBalancesPointer_cases :
    SpendingIsOldest (tr.history key) ∧ deleteBalancesPointer tr (key, last) = .ok tr ∨
    ∃ w v q fuel, w < last ∧ tr.version key w = some v ∧ v.balanceType.containsOutput ∧
      v.previousTopoheight = some q ∧
      deleteBalancesPointer tr (key, last) = removeLoop key fuel (some q) tr := by
  obtain ⟨v, hv⟩ := Option.isSome_iff_exists.mp (hl.last_some last hlast).1
  have hv : tr.version key last = some v := hv
  have hpointer : deleteBalancesPointer tr (key, last) =
      deleteBalancesLoop key (tr.fuel last) false v.previousTopoheight tr := by
    simp only [deleteBalancesPointer, loadPrevious, hv]
    rfl
  have hfuel : @HAdd.hAdd Nat Nat Nat _ last 2 ≤ tr.fuel last :=
    Nat.add_le_add_right (Nat.le_add_right last tr.versions.size) 2
  have hlast_eq : ∀ last', (tr.history key).last = some last' → last' = last :=
    fun last' h => Option.some.inj (h.symm.trans hlast)
  rw [hpointer]
  cases hlink : v.previousTopoheight with
  | none =>
    refine .inl ⟨fun last' w vw hlast' hlt hvw _ => ?_, deleteBalancesLoop_none (by omega) _⟩
    rw [hlast_eq last' hlast'] at hlt
    rw [hl.link_none last v hv hlink w hlt] at hvw
    cases hvw
  | some p =>
    have hpl : @LT.lt Nat _ p last := hl.link_lt hv hlink
    have henough : @HAdd.hAdd Nat Nat Nat _ p 2 ≤ tr.fuel last := by omega
    rcases deleteBalancesLoop_descends hl (hl.link_stored hv hlink) henough with ⟨hnone, hok⟩ | ⟨w, vw, q, fuel, hwp, hrem⟩
    · refine .inl ⟨fun last' w vw hlast' hlt hvw hout => ?_, hok⟩
      rw [hlast_eq last' hlast'] at hlt
      exact hnone w vw (hl.le_link hv hlink (by rw [hvw]; rfl) hlt) hvw hout
    · exact .inr ⟨w, vw, q, fuel, Nat.lt_of_le_of_lt hwp hpl, hrem⟩

end Pointer

theorem gone_above (hl : (tr.history key).Linked StoredBalance.previousTopoheight) {l : List TopoHeight}
    (hversions : tr'.version key = without (tr.version key) l)
    (hlinks : ∀ u v p, tr'.version key u = some v → v.previousTopoheight = some p →
      (tr.version key p).isSome → (tr'.version key p).isSome)
    (hq : (tr.version key q).isSome) (hgone : tr'.version key q = none) (hqx : q ≤ x) : tr'.version key x = none := by
  induction x using Nat.strongRecOn with
  | _ x ih =>
    rcases Nat.lt_or_eq_of_le hqx with hlt | rfl
    · cases hx' : tr'.version key x with
      | none => rfl
      | some v =>
        have hx : tr.version key x = some v := by
          rw [hversions] at hx'
          by_cases hm : x ∈ l
          · rw [History.without_of_mem hm] at hx'
            cases hx'
          · rwa [History.without_of_not_mem hm] at hx'
        obtain ⟨p, hp, hqp⟩ := hl.exists_link hx hq hlt
        have hkept := hlinks x v p hx' hp (hl.link_stored hx hp)
        rw [ih p (hl.link_lt hx hp) hqp] at hkept
        cases hkept
    · exact hgone

private theorem otherBalances_history (tr : VersionedTrees StoredBalance) (e : Key × TopoHeight)
    (tr' : VersionedTrees StoredBalance) (h : deleteBalancesPointer tr e = .ok tr') (key : Key) (hne : key ≠ e.1) :
    tr'.history key = tr.history key :=
  (deleteBalancesPointer_onlyKey h).history hne

theorem spendingIsOldest_of_kept {tr₁ tr₂ : VersionedTrees StoredBalance}
    (hl : (tr.history key).Linked StoredBalance.previousTopoheight) (hlast : (tr.history key).last = some last)
    (hbefore : tr₁.history key = tr.history key) (hturn : deleteBalancesPointer tr₁ (key, last) = .ok tr₂)
    (hafter : tr'.history key = tr₂.history key) (hkept : SpendableKept T tr tr') : SpendingIsOldest (tr.history key) := by
  have hl₁ : (tr₁.history key).Linked StoredBalance.previousTopoheight := by rw [hbefore]; exact hl
  have hlast₁ : (tr₁.history key).last = some last := by rw [hbefore]; exact hlast
  have hsame : tr₁.version key = tr.version key := congrArg History.version hbefore
  rcases deleteBalancesPointer_cases hl₁ hlast₁ with ⟨holdest, -⟩ | ⟨w, v, q, fuel, -, hv, -, hlink, hrem⟩
  · rw [← hbefore]
    exact holdest
  · rw [hrem] at hturn
    obtain ⟨l, hwalk, hversions, -⟩ := removeLoop_walk hturn
    have hversions : tr'.version key = without (tr.version key) l := by
      rw [← hsame, ← hversions]
      exact congrArg History.version hafter
    rw [hsame] at hv hwalk
    have hq : (tr.version key q).isSome := hl.link_stored hv hlink
    have hgone : tr'.version key q = none := by
      rw [hversions]
      exact History.without_of_mem (hwalk.mem_of_stored hq)
    obtain ⟨vlast, hvlast⟩ := Option.isSome_iff_exists.mp (hl.last_some last hlast).1
    have hvlast : tr.version key last = some vlast := hvlast
    have hlost := gone_above hl hversions (hkept.links key) hq hgone (hl.le_last hlast hq)
    have hstored : (tr.version key last).isSome := (hl.last_some last hlast).1
    have hlastKept : (tr'.version key last).isSome := by
      rcases Nat.lt_or_ge last T with hlt | hge
      · refine hkept.spendable key last vlast ⟨hvlast, Nat.le_of_lt hlt, fun x hx _ => ?_⟩ last (Nat.le_refl last) hstored
          fun x _ hx _ _ => Nat.le_of_lt hx
        exact (hl.last_some last hlast).2 x hx
      · exact hkept.above key last hge hstored
    rw [hlost] at hlastKept
    cases hlastKept

private theorem foldlM_of_turns {es : List (Key × TopoHeight)} (h : ∀ e ∈ es, deleteBalancesPointer tr e = .ok tr) :
    es.foldlM deleteBalancesPointer tr = .ok tr := by
  induction es with
  | nil => rfl
  | cons e es ih =>
    have hrest := ih fun d hd => h d (List.mem_cons_of_mem _ hd)
    exact FiniteMap.foldlM_cons_ok.mpr ⟨tr, h e List.mem_cons_self, hrest⟩

/-- The spendable history is kept exactly when there is nothing to delete. -/
theorem deleteVersionedBalancesBelowTopoheight_keeps_iff (tr : VersionedTrees StoredBalance) (T : TopoHeight)
    (hwf : tr.WellFormed) :
    (∃ tr', tr.deleteVersionedBalancesBelowTopoheight T true = .ok tr' ∧ SpendableKept T tr tr') ↔
      ∀ key, SpendingIsOldest (tr.history key) := by
  constructor
  · rintro ⟨tr', hok, hkept⟩ key
    have hok : tr.pointers.toList.foldlM deleteBalancesPointer tr = .ok tr' := hok
    cases hpointer : tr.pointers[key]? with
    | none =>
      intro last _ _ hlast
      rw [show (tr.history key).last = none from hpointer] at hlast
      cases hlast
    | some last =>
      obtain ⟨tr₁, tr₂, hbefore, hturn, hafter⟩ :=
        FiniteMap.foldlM_toList_turn (v := fun key tr => history tr key) otherBalances_history hok hpointer
      exact spendingIsOldest_of_kept (hwf key) hpointer hbefore hturn hafter hkept
  · intro holdest
    refine ⟨tr, ?_, fun _ _ _ h => h, fun _ _ _ _ _ _ h _ => h, fun _ _ _ _ _ _ h => h⟩
    have hturn : ∀ e ∈ tr.pointers.toList, deleteBalancesPointer tr e = .ok tr := by
      rintro ⟨key, last⟩ he
      have hlast : (tr.history key).last = some last := Std.ExtTreeMap.mem_toList_iff_getElem?_eq_some.mp he
      rcases deleteBalancesPointer_cases (hwf key) hlast with ⟨-, hok⟩ | ⟨w, v, q, fuel, hlt, hv, hout, hlink, -⟩
      · exact hok
      · rw [holdest key last w v hlast hlt hv hout] at hlink
        cases hlink
    exact foldlM_of_turns hturn

/-- A balance of two ciphertexts' worth of bytes. -/
def sampleBalance (previousTopoheight : Option TopoHeight) (balanceType : BalanceType) : StoredBalance :=
  ⟨previousTopoheight, balanceType, List.replicate 65 0⟩

/-- An account that spent at 3 and received at 5. -/
def spentOnce : VersionedTrees StoredBalance :=
  (empty.setLast [7] 3 (sampleBalance none .output)).setLast [7] 5 (sampleBalance (some 3) .input)

/-- An account that received at 3, spent at 5 and received at 8. -/
def spentSince : VersionedTrees StoredBalance :=
  ((empty.setLast [7] 3 (sampleBalance none .input)).setLast [7] 5 (sampleBalance (some 3) .output)).setLast [7] 8
    (sampleBalance (some 5) .input)

theorem spentOnce_wellFormed : spentOnce.WellFormed := by
  refine (WellFormed.empty.setLast rfl ?_).setLast rfl ?_
  · exact fun l hl => nomatch hl
  · exact fun l hl => lt_of_pointers_setLast (by decide) hl

private theorem spentOnce_oldest (key : Key) : SpendingIsOldest (spentOnce.history key) := by
  intro last w v hlast hlt hv _
  by_cases hkey : [7] = key
  · subst hkey
    rw [spentOnce, history_setLast_self, history_setLast_self, history_empty] at hlast hv
    rw [History.last_push, Option.some.injEq] at hlast
    subst hlast
    rw [History.version_push_of_ne _ _ _ (Nat.ne_of_lt hlt)] at hv
    by_cases hw : w = 3
    · subst hw
      rw [History.version_push_self, Option.some.injEq] at hv
      rw [← hv]
      rfl
    · rw [History.version_push_of_ne _ _ _ hw] at hv
      cases hv
  · rw [spentOnce, history_setLast_of_ne _ _ _ _ hkey, history_setLast_of_ne _ _ _ _ hkey, history_empty] at hlast
    cases hlast

/-- A chain whose only spending is its first version is kept as it is. -/
theorem spentOnce_kept : spentOnce.WellFormed ∧
    ∃ tr', spentOnce.deleteVersionedBalancesBelowTopoheight 4 true = .ok tr' ∧ SpendableKept 4 spentOnce tr' :=
  ⟨spentOnce_wellFormed,
    (deleteVersionedBalancesBelowTopoheight_keeps_iff spentOnce 4 spentOnce_wellFormed).mpr spentOnce_oldest⟩

theorem spentSince_wellFormed : spentSince.WellFormed := by
  refine ((WellFormed.empty.setLast rfl ?_).setLast rfl ?_).setLast rfl ?_
  · exact fun l hl => nomatch hl
  · exact fun l hl => lt_of_pointers_setLast (by decide) hl
  · exact fun l hl => lt_of_pointers_setLast (by decide) hl

/-- Pruning below 2 deletes the version at 3, and leaves the spending at 5 linked to it. -/
theorem pruning_deletes_above_threshold : spentSince.WellFormed ∧
    ¬∃ tr', spentSince.deleteVersionedBalancesBelowTopoheight 2 true = .ok tr' ∧ SpendableKept 2 spentSince tr' := by
  refine ⟨spentSince_wellFormed, ?_⟩
  rintro ⟨tr', hok, hkept⟩
  have hdeleted : tr'.version [7] 3 = none := by
    have heval : (spentSince.deleteVersionedBalancesBelowTopoheight 2 true).toOption.bind (version · [7] 3) = none := by
      decide +kernel
    rw [hok] at heval
    exact heval
  have hstored : (spentSince.version [7] 3).isSome := by decide +kernel
  have hlost := hkept.above [7] 3 (by decide) hstored
  rw [hdeleted] at hlost
  cases hlost

end Xelis.Storage.VersionedTrees
