import Xelis.Storage.Chains

namespace Xelis.Storage

open Lib (History)

variable {P : Type} {s : Storage P} {key : PublicKey} {asset : Hash} {t u : TopoHeight} {v : VersionedBalance P}

def balanceHistory (s : Storage P) (key : PublicKey) (asset : Hash) : History (VersionedBalance P) :=
  s.balances.history (getBalanceKeyFor key asset)

section Lookups

variable (hknown : s.hasAsset asset = true)
include hknown

theorem hasBalanceFor_known :
    s.hasBalanceFor key asset = .ok (s.balances.pointers.contains (getBalanceKeyFor key asset)) := by
  unfold hasBalanceFor
  rw [hknown]
  rfl

theorem hasBalanceFor_of_last {l : TopoHeight} (hlast : (s.balanceHistory key asset).last = some l) :
    s.hasBalanceFor key asset = .ok true := by
  have hpointer : s.balances.pointers[getBalanceKeyFor key asset]? = some l := hlast
  rw [hasBalanceFor_known hknown, Std.ExtTreeMap.contains_eq_isSome_getElem?, hpointer]
  rfl

theorem hasBalanceFor_of_no_last (hlast : (s.balanceHistory key asset).last = none) :
    s.hasBalanceFor key asset = .ok false := by
  have hpointer : s.balances.pointers[getBalanceKeyFor key asset]? = none := hlast
  rw [hasBalanceFor_known hknown, Std.ExtTreeMap.contains_eq_isSome_getElem?, hpointer]
  rfl

variable {l : TopoHeight} (hlast : (s.balanceHistory key asset).last = some l)
include hlast

theorem hasBalanceAtExactTopoheight_of_last (t : TopoHeight) :
    s.hasBalanceAtExactTopoheight key asset t = .ok ((s.balanceHistory key asset).version t).isSome := by
  unfold hasBalanceAtExactTopoheight
  rw [hasBalanceFor_of_last hknown hlast]
  rfl

theorem getBalanceAtExactTopoheight_of_version (hv : (s.balanceHistory key asset).version u = some v) :
    s.getBalanceAtExactTopoheight key asset u = .ok v := by
  have hversion : s.balances.version (getBalanceKeyFor key asset) u = some v := hv
  unfold getBalanceAtExactTopoheight
  rw [hasBalanceAtExactTopoheight_of_last hknown hlast, hv]
  simp only [bind, Except.bind, hversion]
  rfl

end Lookups

def startBelow (s : Storage P) (key : PublicKey) (asset : Hash) (maximum : TopoHeight) : TopoHeight :=
  if ((s.balanceHistory key asset).version maximum).isSome then maximum else s.getLastTopoheightForBalance key asset

section Chains

variable (hknown : s.hasAsset asset = true)
  (hl : (s.balanceHistory key asset).Linked VersionedBalance.previousTopoheight)

section Start

variable {l : TopoHeight} (hlast : (s.balanceHistory key asset).last = some l)

theorem getLastTopoheightForBalance_of_last (hlast : (s.balanceHistory key asset).last = some l) :
    s.getLastTopoheightForBalance key asset = l := by
  have hpointer : s.balances.pointers[getBalanceKeyFor key asset]? = some l := hlast
  rw [getLastTopoheightForBalance, hpointer]
  rfl

include hl hlast

theorem startBelow_stored (maximum : TopoHeight) :
    ((s.balanceHistory key asset).version (s.startBelow key asset maximum)).isSome ∧
      ∀ w, w ≤ maximum → ((s.balanceHistory key asset).version w).isSome → w ≤ s.startBelow key asset maximum := by
  unfold startBelow
  by_cases hexact : ((s.balanceHistory key asset).version maximum).isSome
  · rw [if_pos hexact]
    exact ⟨hexact, fun w hw _ => hw⟩
  · rw [if_neg hexact, getLastTopoheightForBalance_of_last hlast]
    exact ⟨(hl.last_some l hlast).1, fun w _ hw => hl.le_last hlast hw⟩

end Start

include hknown hl

theorem getBalanceAtMaximumTopoheight_holdsAt (hu : (s.balanceHistory key asset).HoldsAt t u v) :
    s.getBalanceAtMaximumTopoheight key asset t = .ok (some (u, v)) := by
  have hstored : ((s.balanceHistory key asset).version u).isSome := by
    rw [hu.version]
    rfl
  obtain ⟨l, hlast, -⟩ := hl.exists_last hstored
  obtain ⟨hstart, hle⟩ := startBelow_stored hl hlast t
  have hfuel : @HAdd.hAdd Nat Nat Nat _ (s.startBelow key asset t) 2 ≤ s.balances.fuel (s.startBelow key asset t) :=
    Nat.add_le_add_right (Nat.le_add_right _ s.balances.versions.size) 2
  have hsearch : searchPrevious (s.loadBalancePrevious key asset) t (s.balances.fuel (s.startBelow key asset t))
      (some (s.startBelow key asset t)) = .ok (some u) :=
    VersionedTrees.searchPrevious_holdsAt .balanceAtTopoHeight hl hu hstart (hle u hu.le hstored) hfuel
  unfold startBelow at hsearch
  unfold getBalanceAtMaximumTopoheight
  rw [hasBalanceFor_of_last hknown hlast, hasBalanceAtExactTopoheight_of_last hknown hlast]
  simp only [bind, Except.bind, pure, Except.pure, hsearch]
  rw [getBalanceAtExactTopoheight_of_version hknown hlast hu.version]
  rfl

end Chains

section Clean

variable [RistrettoPoint P]

/-- The version that the next block starts a balance from. -/
def cleanBalance (h : History (VersionedBalance P)) : VersionedBalance P :=
  match h.newestVersion with
  | some (topo, version) => version.prepareNew (some topo)
  | none => VersionedBalance.zero

variable {h : History (VersionedBalance P)}

theorem cleanBalance_link : (cleanBalance h).previousTopoheight = h.newestVersion.map Prod.fst := by
  unfold cleanBalance
  cases h.newestVersion with
  | none => rfl
  | some found => rfl

theorem cleanBalance_final : (cleanBalance h).finalBalance = h.newestVersion.elim 0 (·.2.finalBalance) := by
  unfold cleanBalance
  cases h.newestVersion with
  | none => rfl
  | some found => rfl

variable {found : VersionedBalance P × Bool}

theorem hasAsset_of_getNewVersionedBalance
    (h : s.getNewVersionedBalance key asset t = .ok found) : s.hasAsset asset = true := by
  cases hknown : s.hasAsset asset with
  | true => rfl
  | false =>
    unfold getNewVersionedBalance getBalanceAtMaximumTopoheight hasBalanceFor at h
    rw [hknown] at h
    cases h

theorem getNewVersionedBalance_clean (hl : (s.balanceHistory key asset).Linked VersionedBalance.previousTopoheight)
    (hle : ∀ l, (s.balanceHistory key asset).last = some l → l ≤ t)
    (h : s.getNewVersionedBalance key asset t = .ok found) : found.1 = cleanBalance (s.balanceHistory key asset) := by
  have hknown := hasAsset_of_getNewVersionedBalance h
  have hfound := hl.found_newestVersion hle
  unfold getNewVersionedBalance at h
  unfold cleanBalance
  cases hnewest : (s.balanceHistory key asset).newestVersion with
  | none =>
    have hlast : (s.balanceHistory key asset).last = none := by
      rw [hl.last_eq, hnewest]
      rfl
    have hnone : s.getBalanceAtMaximumTopoheight key asset t = .ok none := by
      unfold getBalanceAtMaximumTopoheight
      rw [hasBalanceFor_of_no_last hknown hlast]
      rfl
    rw [hnone] at h
    cases h
    rfl
  | some newest =>
    rw [hnewest] at hfound
    rw [getBalanceAtMaximumTopoheight_holdsAt hknown hl hfound] at h
    cases h
    rfl

end Clean

section Outputs

/-- No version between the two topoheights spent something. -/
def NoOutput (h : History (VersionedBalance P)) (lo hi : TopoHeight) : Prop :=
  ∀ w vw, lo ≤ w → w ≤ hi → h.version w = some vw → vw.balanceType.containsOutput = false

variable {lo hi : TopoHeight}
variable {x fuel : Nat}

theorem searchOutput_step {vx : VersionedBalance P} (hlo : lo ≤ x)
    (hv : (s.balanceHistory key asset).version x = some vx) (hskip : x ≤ hi → vx.balanceType.containsOutput = false) :
    s.searchOutput key asset lo hi (fuel + 1) (some x) = s.searchOutput key asset lo hi fuel vx.previousTopoheight := by
  have hversion : s.balances.version (getBalanceKeyFor key asset) x = some vx := hv
  have hnot : ¬(x ≤ hi ∧ vx.balanceType.containsOutput = true) := by
    rintro ⟨hle, hout⟩
    rw [hskip hle] at hout
    cases hout
  conv_lhs => unfold searchOutput
  rw [if_neg (Nat.not_lt.mpr hlo), hversion]
  dsimp only
  rw [if_neg hnot]

variable (hknown : s.hasAsset asset = true)
include hknown

theorem getOutputBalanceInRange_eq {l : TopoHeight} (hlast : (s.balanceHistory key asset).last = some l) :
    s.getOutputBalanceInRange key asset lo hi = s.searchOutput key asset lo hi
      (s.balances.fuel (s.startBelow key asset hi)) (some (s.startBelow key asset hi)) := by
  unfold getOutputBalanceInRange startBelow
  rw [hasBalanceFor_of_last hknown hlast, hasBalanceAtExactTopoheight_of_last hknown hlast]
  rfl

variable (hl : (s.balanceHistory key asset).Linked VersionedBalance.previousTopoheight)
include hl

theorem searchOutput_found (hu : (s.balanceHistory key asset).version u = some v) (hlo : lo ≤ u) (hhi : u ≤ hi)
    (hout : v.balanceType.containsOutput = true) (hnewer : NoOutput (s.balanceHistory key asset) (u + 1) hi)
    (hx : ((s.balanceHistory key asset).version x).isSome) (hux : u ≤ x) (hfuel : x + 2 ≤ fuel) :
    s.searchOutput key asset lo hi fuel (some x) = .ok (some (u, v)) := by
  induction x using Nat.strongRecOn generalizing fuel with
  | _ x ih =>
    obtain ⟨fuel, rfl⟩ : ∃ k : Nat, fuel = k + 1 := ⟨fuel - 1, by omega⟩
    obtain ⟨vx, hvx⟩ := Option.isSome_iff_exists.mp hx
    rcases Nat.lt_or_eq_of_le hux with hlt | rfl
    · obtain ⟨p, hp, hup⟩ := hl.exists_link hvx (by rw [hu]; rfl) hlt
      have hpx : @LT.lt Nat _ p x := hl.link_lt hvx hp
      have henough : @HAdd.hAdd Nat Nat Nat _ p 2 ≤ fuel := by omega
      rw [searchOutput_step (Nat.le_trans hlo hux) hvx fun hle => hnewer x vx hlt hle hvx, hp]
      exact ih p hpx (hl.link_stored hvx hp) hup henough
    · obtain ⟨l, hlast, -⟩ := hl.exists_last hx
      have hversion : s.balances.version (getBalanceKeyFor key asset) u = some v := hu
      unfold searchOutput
      rw [if_neg (Nat.not_lt.mpr hlo), hversion]
      dsimp only
      rw [if_pos ⟨hhi, hout⟩, getBalanceAtExactTopoheight_of_version hknown hlast hu]

omit hknown in
theorem searchOutput_none (hnone : NoOutput (s.balanceHistory key asset) lo hi)
    (hx : ((s.balanceHistory key asset).version x).isSome) (hfuel : x + 2 ≤ fuel) :
    s.searchOutput key asset lo hi fuel (some x) = .ok none := by
  induction x using Nat.strongRecOn generalizing fuel with
  | _ x ih =>
    obtain ⟨fuel, rfl⟩ : ∃ k : Nat, fuel = k + 1 := ⟨fuel - 1, by omega⟩
    obtain ⟨vx, hvx⟩ := Option.isSome_iff_exists.mp hx
    by_cases hlo : lo ≤ x
    · rw [searchOutput_step hlo hvx fun hle => hnone x vx hlo hle hvx]
      cases hp : vx.previousTopoheight with
      | none =>
        obtain ⟨fuel, rfl⟩ : ∃ k : Nat, fuel = k + 1 := ⟨fuel - 1, by omega⟩
        rfl
      | some p =>
        have hpx : @LT.lt Nat _ p x := hl.link_lt hvx hp
        have henough : @HAdd.hAdd Nat Nat Nat _ p 2 ≤ fuel := by omega
        exact ih p hpx (hl.link_stored hvx hp) henough
    · unfold searchOutput
      rw [if_pos (Nat.lt_of_not_le hlo)]

theorem getOutputBalanceInRange_found (hu : (s.balanceHistory key asset).version u = some v) (hlo : lo ≤ u) (hhi : u ≤ hi)
    (hout : v.balanceType.containsOutput = true) (hnewer : NoOutput (s.balanceHistory key asset) (u + 1) hi) :
    s.getOutputBalanceInRange key asset lo hi = .ok (some (u, v)) := by
  have hstored : ((s.balanceHistory key asset).version u).isSome := by
    rw [hu]
    rfl
  obtain ⟨l, hlast, -⟩ := hl.exists_last hstored
  obtain ⟨hstart, hle⟩ := startBelow_stored hl hlast hi
  rw [getOutputBalanceInRange_eq hknown hlast]
  exact searchOutput_found hknown hl hu hlo hhi hout hnewer hstart (hle u hhi hstored)
    (Nat.add_le_add_right (Nat.le_add_right _ s.balances.versions.size) 2)

theorem getOutputBalanceInRange_none (hnone : NoOutput (s.balanceHistory key asset) lo hi) :
    s.getOutputBalanceInRange key asset lo hi = .ok none := by
  cases hlast : (s.balanceHistory key asset).last with
  | none =>
    unfold getOutputBalanceInRange
    rw [hasBalanceFor_of_no_last hknown hlast]
    rfl
  | some l =>
    rw [getOutputBalanceInRange_eq hknown hlast]
    exact searchOutput_none hl hnone (startBelow_stored hl hlast hi).1
      (Nat.add_le_add_right (Nat.le_add_right _ s.balances.versions.size) 2)

end Outputs

end Xelis.Storage
