import Xelis.Storage.BalanceSearch

namespace Xelis.Storage

open Lib (History)

namespace VersionedTrees

variable {V : Type} [HasPrevious V] {tr : VersionedTrees V} {key : Key} {t : TopoHeight}
  {linkContext versionContext : TopoHeight → DiskContext} {r : Option (Nat × V)}

theorem lookup_found (hl : (tr.history key).Linked HasPrevious.previousTopoheight)
    (hr : (tr.history key).Found t r) :
    tr.lookup linkContext versionContext key t (tr.searchStart key t) = .ok r := by
  match r, hr with
  | none, hempty => exact lookup_empty hl hempty
  | some (u, v), hu => exact lookup_holdsAt hl hu

/-- The walk from the last version finds what the search with the exact lookup finds. -/
theorem lookup_pointer_found (hl : (tr.history key).Linked HasPrevious.previousTopoheight)
    (hr : (tr.history key).Found t r) :
    tr.lookup linkContext versionContext key t tr.pointers[key]? = .ok r := by
  cases hpointer : tr.pointers[key]? with
  | none =>
    have hempty : (tr.history key).Found t none := fun u _ => hl.last_none hpointer u
    rw [hr.unique hempty]
    rfl
  | some last =>
    have hlast := (hl.last_some last hpointer).1
    have henough : @HAdd.hAdd Nat Nat Nat _ last 2 ≤ tr.fuel last :=
      Nat.add_le_add_right (Nat.le_add_right last tr.versions.size) 2
    match r, hr with
    | none, hempty =>
      have hsearch := searchPrevious_empty linkContext hl hempty hlast henough
      simp only [lookup, Option.getD_some, hsearch]
    | some (u, v), hu =>
      have hversion : tr.version key u = some v := hu.version
      obtain ⟨l, hl', hle⟩ := hl.exists_last (u := u) (by rw [hu.version]; rfl)
      have hul : u ≤ last := by
        have heq : some last = some l := hpointer.symm.trans hl'
        rw [Option.some.inj heq]
        exact hle
      have hsearch := searchPrevious_holdsAt linkContext hl hu hlast hul henough
      simp only [lookup, Option.getD_some, hsearch, loadVersion, hversion, Except.map]

end VersionedTrees

section Stored

variable {P : Type} {s : Storage P} {key : PublicKey} {asset : Hash} {t lo hi : TopoHeight}

section Nonces

def nonceHistory (s : Storage P) (key : PublicKey) : History VersionedNonce := s.nonces.history (keyBytes key)

variable {r : Option (Nat × VersionedNonce)}

theorem getNonceAtMaximumTopoheight_found (hl : (s.nonceHistory key).Linked HasPrevious.previousTopoheight)
    (hr : (s.nonceHistory key).Found t r) : s.getNonceAtMaximumTopoheight key t = .ok r := by
  rw [getNonceAtMaximumTopoheight_eq]
  cases hpointer : s.nonces.pointers[keyBytes key]? with
  | none =>
    have hempty : (s.nonceHistory key).Found t none := fun u _ => hl.last_none hpointer u
    rw [hr.unique hempty]
  | some pointer =>
    have hstart : s.nonces.searchStart (keyBytes key) t =
        some (if (s.nonces.version (keyBytes key) t).isSome then t else pointer) := by
      unfold VersionedTrees.searchStart
      rw [hpointer]
      split <;> rfl
    have hfound : s.nonces.lookup (fun _ => .lastNonce) .nonceAtTopoHeight (keyBytes key) t
        (s.nonces.searchStart (keyBytes key) t) = .ok r := VersionedTrees.lookup_found hl hr
    rw [hstart] at hfound
    exact hfound

end Nonces

section Balances

variable {r : Option (Nat × VersionedBalance P)}

theorem getBalanceAtMaximumTopoheight_found (hknown : s.hasAsset asset = true)
    (hl : (s.balanceHistory key asset).Linked HasPrevious.previousTopoheight)
    (hr : (s.balanceHistory key asset).Found t r) : s.getBalanceAtMaximumTopoheight key asset t = .ok r := by
  match r, hr with
  | some (u, v), hu => exact getBalanceAtMaximumTopoheight_holdsAt hknown hl hu
  | none, hempty =>
    unfold getBalanceAtMaximumTopoheight
    cases hlast : (s.balanceHistory key asset).last with
    | none =>
      rw [hasBalanceFor_of_no_last hknown hlast]
      rfl
    | some l =>
      have hstart := (startBelow_stored hl hlast t).1
      have hfuel : @HAdd.hAdd Nat Nat Nat _ (s.startBelow key asset t) 2 ≤ s.balances.fuel (s.startBelow key asset t) :=
        Nat.add_le_add_right (Nat.le_add_right _ s.balances.versions.size) 2
      have hsearch : searchPrevious (s.loadBalancePrevious key asset) t (s.balances.fuel (s.startBelow key asset t))
          (some (s.startBelow key asset t)) = .ok none :=
        VersionedTrees.searchPrevious_empty .balanceAtTopoHeight hl hempty hstart hfuel
      unfold startBelow at hsearch
      rw [hasBalanceFor_of_last hknown hlast, hasBalanceAtExactTopoheight_of_last hknown hlast]
      simp only [bind, Except.bind, pure, Except.pure, hsearch]
      rfl

/-- What a search for a spending is to find: the newest version of the range that spent something. -/
def FoundOutput (h : History (VersionedBalance P)) (lo hi : TopoHeight) : Option (TopoHeight × VersionedBalance P) → Prop
  | none => NoOutput h lo hi
  | some (u, v) => h.version u = some v ∧ lo ≤ u ∧ u ≤ hi ∧ v.balanceType.containsOutput = true ∧ NoOutput h (u + 1) hi

theorem exists_foundOutput (h : History (VersionedBalance P)) (lo hi : TopoHeight) : ∃ r, FoundOutput h lo hi r := by
  by_cases hnone : NoOutput h lo hi
  · exact ⟨none, hnone⟩
  · obtain ⟨w, vw, hlo, hhi, hvw, hout⟩ :
        ∃ w vw, lo ≤ w ∧ w ≤ hi ∧ h.version w = some vw ∧ vw.balanceType.containsOutput = true := by
      simpa [NoOutput] using hnone
    classical
    let Spent : Nat → Prop := fun u => lo ≤ u ∧ ∃ v, h.version u = some v ∧ v.balanceType.containsOutput = true
    obtain ⟨hle, v, hv, hspent⟩ : Spent (Nat.findGreatest Spent hi) :=
      Nat.findGreatest_spec hhi (⟨hlo, vw, hvw, hout⟩ : Spent w)
    refine ⟨some (Nat.findGreatest Spent hi, v), hv, hle, Nat.findGreatest_le hi, hspent, fun u vu hu huhi hvu => ?_⟩
    refine Bool.eq_false_iff.mpr fun houtu => ?_
    exact Nat.findGreatest_is_greatest hu huhi ⟨Nat.le_trans hle (Nat.le_of_succ_le hu), vu, hvu, houtu⟩

theorem getOutputBalanceInRange_foundOutput (hknown : s.hasAsset asset = true)
    (hl : (s.balanceHistory key asset).Linked HasPrevious.previousTopoheight)
    (hr : FoundOutput (s.balanceHistory key asset) lo hi r) : s.getOutputBalanceInRange key asset lo hi = .ok r := by
  match r, hr with
  | none, hnone => exact getOutputBalanceInRange_none hknown hl hnone
  | some (u, v), ⟨hu, hlo, hhi, hout, hnewer⟩ => exact getOutputBalanceInRange_found hknown hl hu hlo hhi hout hnewer

end Balances

section Lookups

variable (s) (key) (asset) (t) (lo) (hi)

/-- The lookups of the nonces of an account are exact, with the exact lookup first or along the chain. -/
def NonceLookups : Prop := ∃ r, (s.nonceHistory key).Found t r ∧ s.getNonceAtMaximumTopoheight key t = .ok r ∧
  s.nonces.lookup (fun _ => .lastNonce) .nonceAtTopoHeight (keyBytes key) t s.nonces.pointers[keyBytes key]? = .ok r

def BalanceLookups : Prop := ∃ r, (s.balanceHistory key asset).Found t r ∧
  s.getBalanceAtMaximumTopoheight key asset t = .ok r ∧
  s.balances.lookup .balanceAtTopoHeight .balanceAtTopoHeight (getBalanceKeyFor key asset) t
    s.balances.pointers[getBalanceKeyFor key asset]? = .ok r

def OutputLookups : Prop := ∃ r, FoundOutput (s.balanceHistory key asset) lo hi r ∧
  s.getOutputBalanceInRange key asset lo hi = .ok r

variable {s key asset}

/-- On well-formed chains every lookup is exact; balances of an asset that is not known are refused. -/
theorem account_lookups_exact (hnonces : (s.nonceHistory key).Linked HasPrevious.previousTopoheight)
    (hbalances : (s.balanceHistory key asset).Linked HasPrevious.previousTopoheight) :
    s.NonceLookups key t ∧
      if s.hasAsset asset then s.BalanceLookups key asset t ∧ s.OutputLookups key asset lo hi
      else s.getBalanceAtMaximumTopoheight key asset t = .error (.assetNotFound asset) ∧
        s.getOutputBalanceInRange key asset lo hi = .error (.assetNotFound asset) := by
  refine ⟨?_, ?_⟩
  · obtain ⟨r, hr⟩ := (s.nonceHistory key).exists_found t
    exact ⟨r, hr, getNonceAtMaximumTopoheight_found hnonces hr, VersionedTrees.lookup_pointer_found hnonces hr⟩
  · by_cases hknown : s.hasAsset asset = true
    · rw [if_pos hknown]
      obtain ⟨r, hr⟩ := (s.balanceHistory key asset).exists_found t
      obtain ⟨o, ho⟩ := exists_foundOutput (s.balanceHistory key asset) lo hi
      exact ⟨⟨r, hr, getBalanceAtMaximumTopoheight_found hknown hbalances hr,
        VersionedTrees.lookup_pointer_found hbalances hr⟩, o, ho,
        getOutputBalanceInRange_foundOutput hknown hbalances ho⟩
    · have hunknown : s.hasBalanceFor key asset = .error (.assetNotFound asset) := by
        rw [hasBalanceFor, Bool.eq_false_iff.mpr hknown]
        rfl
      rw [if_neg hknown]
      refine ⟨?_, ?_⟩
      · rw [getBalanceAtMaximumTopoheight, hunknown]
        rfl
      · rw [getOutputBalanceInRange, hunknown]
        rfl

/-- Versions at 5 and 10 of a nonce and of a balance; the older balance was spent from. -/
def accountTwice : Storage Int :=
  ((((({} : Storage Int).addAsset 1 0 ⟨none, ⟨8, "Xelis", "XEL", none, none⟩⟩).setLastNonceTo 4 5 ⟨none, 1⟩).setLastNonceTo 4 10 ⟨some 5, 2⟩)
    |>.setLastBalanceTo 4 1 5 ⟨none, none, ⟨1, 1⟩, .output⟩)
    |>.setLastBalanceTo 4 1 10 ⟨some 5, none, ⟨2, 2⟩, .input⟩

theorem accountTwice_wellFormed : accountTwice.nonces.WellFormed ∧ accountTwice.balances.WellFormed :=
  ⟨(VersionedTrees.WellFormed.empty.setLast rfl fun _ hl => nomatch hl).setLast
      (VersionedTrees.pointers_setLast_self _ _ _ _).symm fun _ hl => VersionedTrees.lt_of_pointers_setLast (by decide) hl,
    (VersionedTrees.WellFormed.empty.setLast rfl fun _ hl => nomatch hl).setLast
      (VersionedTrees.pointers_setLast_self _ _ _ _).symm fun _ hl => VersionedTrees.lt_of_pointers_setLast (by decide) hl⟩

theorem account_lookups_accountTwice :
    accountTwice.NonceLookups 4 7 ∧ accountTwice.BalanceLookups 4 1 7 ∧ accountTwice.OutputLookups 4 1 3 7 := by
  have hknown : accountTwice.hasAsset 1 = true := by decide +kernel
  obtain ⟨hnonce, hbalance⟩ := account_lookups_exact 7 3 7 (accountTwice_wellFormed.1 (keyBytes 4))
    (accountTwice_wellFormed.2 (getBalanceKeyFor 4 1))
  rw [if_pos hknown] at hbalance
  exact ⟨hnonce, hbalance⟩

end Lookups

end Stored

end Xelis.Storage
