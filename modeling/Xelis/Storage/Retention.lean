import Xelis.Lib.MapLoops
import Xelis.Storage.Chains

namespace Xelis.Storage.VersionedTrees

open Lib (FiniteMap History)
open Lib.History (Walk without)

variable {fuel p : Nat} {q last u w : TopoHeight}

section Loop

variable {tr tr' : VersionedTrees (Versioned NoTransform)} {key : Key} {T : TopoHeight} {context : DiskContext}

/-- The version whose link crosses `T`, the first one met on the way down from `p`. -/
structure CutAt (f : TopoHeight → Option (Versioned NoTransform)) (T p w q : TopoHeight) (v : Versioned NoTransform) :
    Prop where
  version : f w = some v
  link : v.previousTopoheight = some q
  crosses : q < T
  le : w ≤ p
  first : ∀ x vx y, w < x → x ≤ p → f x = some vx → vx.previousTopoheight = some y → T ≤ y

/-- No link at `p` or under it crosses `T`. -/
def NoCut (f : TopoHeight → Option (Versioned NoTransform)) (T p : TopoHeight) : Prop :=
  ∀ x vx y, x ≤ p → f x = some vx → vx.previousTopoheight = some y → T ≤ y

private theorem deleteBelowLoop_none (hfuel : 0 < fuel) (patched : Bool) :
    deleteBelowLoop T context key fuel patched none tr = .ok tr := by
  obtain ⟨fuel, rfl⟩ : ∃ k, fuel = k + 1 := ⟨fuel - 1, by omega⟩
  cases patched <;> rfl

private theorem deleteBelowLoop_patched :
    deleteBelowLoop T context key fuel true (some q) tr = removeLoop key fuel (some q) tr := by
  cases fuel with
  | zero => rfl
  | succ fuel => rfl

theorem deleteBelowLoop_descends (context : DiskContext) (hl : (tr.history key).Linked Versioned.previousTopoheight)
    (hp : (tr.version key p).isSome) (hfuel : p + 2 ≤ fuel) :
    NoCut (tr.version key) T p ∧ deleteBelowLoop T context key fuel false (some p) tr = .ok tr ∨
    ∃ w q v, ∃ fuel' : Nat, CutAt (tr.version key) T p w q v ∧ fuel ≤ fuel' + p + 1 ∧
      deleteBelowLoop T context key fuel false (some p) tr =
        removeLoop key fuel' (some q) (tr.setAt key w { v with previousTopoheight := none }) := by
  induction p using Nat.strong_induction_on generalizing fuel with
  | _ p ih =>
    obtain ⟨fuel, rfl⟩ : ∃ k : Nat, fuel = k + 1 := ⟨fuel - 1, by omega⟩
    obtain ⟨v, hv⟩ := Option.isSome_iff_exists.mp hp
    cases hlink : v.previousTopoheight with
    | none =>
      refine .inl ⟨fun x vx y hx hvx hy => ?_, ?_⟩
      · rcases Nat.lt_or_eq_of_le hx with hlt | rfl
        · have hnone : tr.version key x = none := hl.link_none p v hv hlink x hlt
          rw [hnone] at hvx
          cases hvx
        · rw [hv, Option.some.injEq] at hvx
          rw [← hvx, hlink] at hy
          cases hy
      · simp only [deleteBelowLoop, hv, hlink]
        exact deleteBelowLoop_none (by omega) false
    | some q =>
      have hqp : @LT.lt Nat _ q p := hl.link_lt hv hlink
      by_cases hcross : q < T
      · refine .inr ⟨p, q, v, fuel, ⟨hv, hlink, hcross, Nat.le_refl p, ?_⟩, by omega, ?_⟩
        · exact fun x _ _ hlt hle => absurd hle (Nat.not_le.mpr hlt)
        · simp only [deleteBelowLoop, hv, hlink, Option.filter_some, hcross, decide_true, if_true, Option.isSome_some]
          exact deleteBelowLoop_patched
      · have hstep : deleteBelowLoop T context key (fuel + 1) false (some p) tr =
            deleteBelowLoop T context key fuel false (some q) tr := by
          simp [deleteBelowLoop, hv, hlink, hcross]
        -- what lies between the version and the end of its link is empty
        have habove : ∀ x vx y, q < x → x ≤ p → tr.version key x = some vx → vx.previousTopoheight = some y → T ≤ y := by
          intro x vx y hqx hxp hvx hy
          rcases Nat.lt_or_eq_of_le hxp with hlt | rfl
          · have hnone : tr.version key x = none := (hl.link_some p v q hv hlink).2.2 x hqx hlt
            rw [hnone] at hvx
            cases hvx
          · rw [hv, Option.some.injEq] at hvx
            rw [← hvx, hlink, Option.some.injEq] at hy
            rw [← hy]
            exact Nat.le_of_not_lt hcross
        have henough : @HAdd.hAdd Nat Nat Nat _ q 2 ≤ fuel := by omega
        rw [hstep]
        rcases ih q hqp (hl.link_stored hv hlink) henough with ⟨hnocut, hok⟩ | ⟨w, r, vw, fuel', hcut, hle, hrem⟩
        · refine .inl ⟨fun x vx y hx hvx hy => ?_, hok⟩
          rcases Nat.lt_or_ge q x with hqx | hxq
          · exact habove x vx y hqx hx hvx hy
          · exact hnocut x vx y hxq hvx hy
        · refine .inr ⟨w, r, vw, fuel', ⟨hcut.version, hcut.link, hcut.crosses, ?_, fun x vx y hwx hxp hvx hy => ?_⟩, ?_, hrem⟩
          · exact Nat.le_trans hcut.le (Nat.le_of_lt hqp)
          · rcases Nat.lt_or_ge q x with hqx | hxq
            · exact habove x vx y hqx hxp hvx hy
            · exact hcut.first x vx y hwx hxq hvx hy
          · omega

theorem deleteBelowPointer_cases (T : TopoHeight) (context : DiskContext)
    (hl : (tr.history key).Linked Versioned.previousTopoheight) (hlast : (tr.history key).last = some last) :
    ∃ v, tr.version key last = some v ∧
      (v.previousTopoheight = none ∧ deleteBelowPointer T context tr (key, last) = .ok tr ∨
      ∃ p, v.previousTopoheight = some p ∧
        (last < T ∧ (∃ fuel, tr.versions.size + 2 ≤ fuel ∧
          deleteBelowPointer T context tr (key, last) = removeLoop key fuel (some p) tr) ∨
        T ≤ last ∧ NoCut (tr.version key) T p ∧ deleteBelowPointer T context tr (key, last) = .ok tr ∨
        T ≤ last ∧ ∃ w q vw fuel, CutAt (tr.version key) T p w q vw ∧ tr.versions.size + 2 ≤ fuel ∧
          deleteBelowPointer T context tr (key, last) =
            removeLoop key fuel (some q) (tr.setAt key w { vw with previousTopoheight := none }))) := by
  obtain ⟨v, hv⟩ := Option.isSome_iff_exists.mp (hl.last_some last hlast).1
  have hv : tr.version key last = some v := hv
  refine ⟨v, hv, ?_⟩
  have hpointer : deleteBelowPointer T context tr (key, last) =
      deleteBelowLoop T context key (tr.fuel last) (last < T) v.previousTopoheight tr := by
    simp only [deleteBelowPointer, loadPrevious, hv]
    rfl
  rw [hpointer]
  have hfuel : tr.fuel last = @HAdd.hAdd Nat Nat Nat _ last (tr.versions.size + 2) := Nat.add_assoc last _ 2
  cases hlink : v.previousTopoheight with
  | none =>
    refine .inl ⟨rfl, deleteBelowLoop_none ?_ _⟩
    rw [hfuel]
    omega
  | some p =>
    refine .inr ⟨p, rfl, ?_⟩
    have hpl : @LT.lt Nat _ p last := hl.link_lt hv hlink
    by_cases hbelow : last < T
    · refine .inl ⟨hbelow, tr.fuel last, ?_, ?_⟩
      · rw [hfuel]
        omega
      · rw [decide_eq_true hbelow]
        exact deleteBelowLoop_patched
    · rw [decide_eq_false hbelow]
      have hle : T ≤ last := Nat.le_of_not_lt hbelow
      have henough : p + 2 ≤ tr.fuel last := by
        rw [hfuel]
        have : @HAdd.hAdd Nat Nat Nat _ p 2 ≤ @HAdd.hAdd Nat Nat Nat _ last (tr.versions.size + 2) := by omega
        exact this
      rcases deleteBelowLoop_descends context hl (hl.link_stored hv hlink) henough with
        ⟨hnocut, hok⟩ | ⟨w, q, vw, fuel, hcut, hfuel', hrem⟩
      · exact .inr (.inl ⟨hle, hnocut, hok⟩)
      · refine .inr (.inr ⟨hle, w, q, vw, fuel, hcut, ?_, hrem⟩)
        rw [hfuel] at hfuel'
        omega

end Loop

variable {l : List TopoHeight}

section Key

variable {T : TopoHeight} {h h' : History (Versioned NoTransform)}

/-- When the chain of one key is pruned as it should. -/
structure Prunable (T : TopoHeight) (h : History (Versioned NoTransform)) : Prop where
  /-- A version that holds at `T` from below has at most one version above `T`. -/
  oneAbove : ∀ u, u < T → (h.version u).isSome → h.version T = none →
    ∀ x y, T < x → T < y → (h.version x).isSome → (h.version y).isSome → x = y
  /-- From the newest doomed version, what is read off the removed ones leads through all the doomed ones. -/
  erased : ∀ d, h.Doomed T d → (∀ u, h.Doomed T u → u ≤ d) →
    (∃ x, T < x ∧ (h.version x).isSome) ∧ ∃ l, Walk readRemoved h.version d l ∧ ∀ u, u ∈ l ↔ h.Doomed T u

/-- What the chain of one key has to keep and to lose. -/
structure KeyRetained (T : TopoHeight) (h h' : History (Versioned NoTransform)) : Prop where
  holds : ∀ t u v, T ≤ t → h.HoldsAt t u v → ∃ v', h'.version u = some v' ∧ v'.data = v.data
  deletes : ∀ u, h.Doomed T u → h'.version u = none
  links : ∀ u v p, h'.version u = some v → v.previousTopoheight = some p → (h.version p).isSome → (h'.version p).isSome

/-- The chain without its doomed versions. -/
structure KeyPruned (T : TopoHeight) (h h' : History (Versioned NoTransform)) : Prop where
  linked : h'.Linked Versioned.previousTopoheight
  stored : ∀ u v', h'.version u = some v' → ∃ v, h.version u = some v ∧ v'.data = v.data
  kept : ∀ u v, h.version u = some v → ¬h.Doomed T u → ∃ v', h'.version u = some v' ∧ v'.data = v.data
  deletes : ∀ u, h.Doomed T u → h'.version u = none

theorem KeyPruned.retained (hp : KeyPruned T h h') : KeyRetained T h h' where
  holds _ u v hle hu := hp.kept u v hu.version (hu.not_doomed hle)
  deletes := hp.deletes
  links _ _ _ hv hlink _ := hp.linked.link_stored hv hlink

theorem KeyPruned.refl (hl : h.Linked Versioned.previousTopoheight) (hnone : ∀ u, ¬h.Doomed T u) : KeyPruned T h h where
  linked := hl
  stored _ v' hv' := ⟨v', hv', rfl⟩
  kept _ v hv _ := ⟨v, hv, rfl⟩
  deletes u hu := absurd hu (hnone u)

theorem Prunable.of_not_doomed (hone : ∀ u, u < T → (h.version u).isSome → h.version T = none →
      ∀ x y, T < x → T < y → (h.version x).isSome → (h.version y).isSome → x = y)
    (hnone : ∀ u, ¬h.Doomed T u) : Prunable T h where
  oneAbove := hone
  erased d hd _ := absurd hd (hnone d)

def cutHistory (h : History (Versioned NoTransform)) (w : TopoHeight) (vw : Versioned NoTransform) (l : List TopoHeight) :
    History (Versioned NoTransform) :=
  ⟨h.last, without (Function.update h.version w (some { vw with previousTopoheight := none })) l⟩

section CutHistory

variable {w u : TopoHeight} {vw : Versioned NoTransform} {l : List TopoHeight}

theorem version_cutHistory_mem (hu : u ∈ l) : (cutHistory h w vw l).version u = none := History.without_of_mem hu

theorem version_cutHistory_self (hw : w ∉ l) :
    (cutHistory h w vw l).version w = some { vw with previousTopoheight := none } :=
  (History.without_of_not_mem hw).trans (Function.update_self ..)

theorem version_cutHistory_of_ne (hu : u ∉ l) (hne : u ≠ w) : (cutHistory h w vw l).version u = h.version u :=
  (History.without_of_not_mem hu).trans (Function.update_of_ne hne ..)

end CutHistory

variable (hl : h.Linked Versioned.previousTopoheight) {last p : TopoHeight} {v : Versioned NoTransform}
  (hlast : h.last = some last) (hv : h.version last = some v)
include hl hlast hv

theorem eq_last_or_le_link (hp : v.previousTopoheight = some p) (hu : (h.version u).isSome) : u = last ∨ u ≤ p := by
  rcases Nat.lt_or_eq_of_le (hl.le_last hlast hu) with hlt | heq
  · exact .inr (hl.le_link hv hp hu hlt)
  · exact .inl heq

theorem eq_last_of_alone (hp : v.previousTopoheight = none) (hu : (h.version u).isSome) : u = last := by
  rcases Nat.lt_or_eq_of_le (hl.le_last hlast hu) with hlt | heq
  · rw [hl.link_none last v hv hp u hlt] at hu
    cases hu
  · exact heq

/-- A single version is no concern. -/
theorem alone_pruned (hp : v.previousTopoheight = none) : Prunable T h ∧ KeyPruned T h h := by
  have hsame := fun u => eq_last_of_alone hl hlast hv hp (u := u)
  have hnone : ∀ u, ¬h.Doomed T u := by
    rintro u ⟨hu, w, huw, -, hw⟩
    rw [hsame u hu, hsame w hw] at huw
    exact Nat.lt_irrefl _ huw
  refine ⟨.of_not_doomed ?_ hnone, .refl hl hnone⟩
  intro _ _ _ _ x y _ _ hx hy
  rw [hsame x hx, hsame y hy]

/-- With older versions and none above `T`, the chain is not pruned as it should. -/
theorem not_prunable_of_last_le (hp : v.previousTopoheight = some p) (hle : last ≤ T) : ¬Prunable T h := by
  intro hprunable
  have hpl := hl.link_lt hv hp
  have hdoomed : h.Doomed T p := ⟨hl.link_stored hv hp, last, hpl, hle, by rw [hv]; rfl⟩
  have hnewest : ∀ u, h.Doomed T u → u ≤ p := by
    rintro u ⟨hu, w, huw, -, hw⟩
    rcases eq_last_or_le_link hl hlast hv hp hu with rfl | hle'
    · exact absurd (hl.le_last hlast hw) (Nat.not_le.mpr huw)
    · exact hle'
  obtain ⟨⟨x, hTx, hx⟩, -⟩ := hprunable.erased p hdoomed hnewest
  exact absurd (Nat.le_trans (hl.le_last hlast hx) hle) (Nat.not_le.mpr hTx)

/-- The last version keeps its link, so that its older versions cannot all go. -/
theorem not_retained_of_last_le (hp : v.previousTopoheight = some p) (hle : last ≤ T)
    (hsame : ∀ v', h'.version last = some v' → v' = v) : ¬KeyRetained T h h' := by
  intro hret
  have hdoomed : h.Doomed T p := ⟨hl.link_stored hv hp, last, hl.link_lt hv hp, hle, by rw [hv]; rfl⟩
  have hholds : h.HoldsAt T last v := ⟨hv, hle, fun w hlt _ => (hl.last_some last hlast).2 w hlt⟩
  obtain ⟨v', hv', -⟩ := hret.holds T last v (Nat.le_refl T) hholds
  have hlinked := hret.links last v' p hv' (by rw [hsame v' hv']; exact hp) (hl.link_stored hv hp)
  rw [hret.deletes p hdoomed] at hlinked
  cases hlinked

theorem nocut_pruned (hp : v.previousTopoheight = some p) (hnocut : NoCut h.version T p) (hlt : T < last) :
    Prunable T h ∧ KeyPruned T h h := by
  have hnone : ∀ u, ¬h.Doomed T u := by
    rintro u ⟨hu, w, huw, hwT, hw⟩
    rcases eq_last_or_le_link hl hlast hv hp hw with rfl | hwp
    · exact absurd hwT (Nat.not_le.mpr hlt)
    · obtain ⟨vw, hvw⟩ := Option.isSome_iff_exists.mp hw
      obtain ⟨y, hy, -⟩ := hl.exists_link hvw hu huw
      exact absurd (Nat.le_trans hwT (hnocut w vw y hwp hvw hy)) (Nat.not_le.mpr (hl.link_lt hvw hy))
  refine ⟨.of_not_doomed ?_ hnone, .refl hl hnone⟩
  intro u huT hu hT
  -- a version at or above `T` under the last one would have a link that crosses
  have hbelow : p < T := by
    refine Nat.lt_of_not_le fun hTp => ?_
    have hup : u < p := Nat.lt_of_lt_of_le huT hTp
    obtain ⟨x, vx, hvx, hlink, hux, hxp⟩ := hl.exists_linked_to hu (hl.link_stored hv hp) hup
    exact absurd (hnocut x vx u hxp hvx hlink) (Nat.not_le.mpr huT)
  have hlast_of : ∀ x, T < x → (h.version x).isSome → x = last := by
    intro x hTx hx
    rcases eq_last_or_le_link hl hlast hv hp hx with heq | hxp
    · exact heq
    · exact absurd (Nat.lt_trans hbelow hTx) (Nat.not_lt.mpr hxp)
  intro x y hTx hTy hx hy
  rw [hlast_of x hTx hx, hlast_of y hTy hy]

section Cut

variable {w q : TopoHeight} {vw : Versioned NoTransform} (hp : v.previousTopoheight = some p)
  (hcut : CutAt h.version T p w q vw)
include hp hcut

theorem cut_cases (hle : T ≤ last) : last = T ∨ T < w ∨ T < last ∧ h.HoldsAt T w vw := by
  rcases Nat.lt_or_eq_of_le hle with hlt | heq
  · refine .inr ?_
    rcases Nat.lt_or_ge T w with hTw | hwT
    · exact .inl hTw
    · refine .inr ⟨hlt, hcut.version, hwT, fun x hwx hxT => ?_⟩
      cases hx : h.version x with
      | none => rfl
      | some vx =>
        rcases eq_last_or_le_link hl hlast hv hp (u := x) (by rw [hx]; rfl) with rfl | hxp
        · exact absurd hxT (Nat.not_le.mpr hlt)
        · obtain ⟨y, hy, -⟩ := hl.exists_link hx (by rw [hcut.version]; rfl) hwx
          have hTy := hcut.first x vx y hwx hxp hx hy
          exact absurd (Nat.le_trans hxT hTy) (Nat.not_le.mpr (hl.link_lt hx hy))
  · exact .inl heq.symm

omit hlast in
theorem cut_above (hTw : T < w) :
    ¬Prunable T h ∧ (h'.version q = none → ¬KeyRetained T h h') := by
  obtain ⟨vq, hvq⟩ := Option.isSome_iff_exists.mp (hl.link_stored hcut.version hcut.link)
  have hholds : h.HoldsAt T q vq := hl.holdsAt_link hcut.version hcut.link hvq (Nat.le_of_lt hcut.crosses) hTw
  have hwl : w < last := Nat.lt_of_le_of_lt hcut.le (hl.link_lt hv hp)
  refine ⟨fun hprunable => ?_, fun hgone hret => ?_⟩
  · have hTnone : h.version T = none := (hl.link_some w vw q hcut.version hcut.link).2.2 T hcut.crosses hTw
    have heq := hprunable.oneAbove q hcut.crosses (by rw [hvq]; rfl) hTnone w last hTw (Nat.lt_trans hTw hwl)
      (by rw [hcut.version]; rfl) (by rw [hv]; rfl)
    exact Nat.lt_irrefl _ (heq ▸ hwl)
  · obtain ⟨v', hv', -⟩ := hret.holds T q vq (Nat.le_refl T) hholds
    rw [hgone] at hv'
    cases hv'

variable (hlt : T < last) (hholds : h.HoldsAt T w vw)
include hlt hholds

omit hlast hv hp hlt in
theorem cut_doomed_newest : h.Doomed T q ∧ ∀ u, h.Doomed T u → u ≤ q := by
  have hq := hl.link_stored hcut.version hcut.link
  refine ⟨(hholds.doomed_iff q).mpr ⟨hq, hl.link_lt hcut.version hcut.link⟩, fun u hu => ?_⟩
  obtain ⟨hstored, huw⟩ := (hholds.doomed_iff u).mp hu
  exact hl.le_link hcut.version hcut.link hstored huw

theorem cut_prunable (hwalk : Walk readRemoved h.version q l) (hmem : ∀ u, u ∈ l ↔ h.Doomed T u) :
    Prunable T h where
  oneAbove u huT hu hT := by
    have hwT : w < T := by
      rcases Nat.lt_or_eq_of_le hholds.le with hlt' | heq
      · exact hlt'
      · rw [← heq, hcut.version] at hT
        cases hT
    have hpw : p = w := by
      rcases Nat.lt_or_eq_of_le hcut.le with hwp | heq
      · obtain ⟨x, vx, hvx, hlink, hwx, hxp⟩ :=
          hl.exists_linked_to (by rw [hcut.version]; rfl) (hl.link_stored hv hp) hwp
        exact absurd (hcut.first x vx w hwx hxp hvx hlink) (Nat.not_le.mpr hwT)
      · exact heq.symm
    have hlast_of : ∀ x, T < x → (h.version x).isSome → x = last := by
      intro x hTx hx
      rcases eq_last_or_le_link hl hlast hv hp hx with heq | hxp
      · exact heq
      · rw [hpw] at hxp
        exact absurd (Nat.lt_trans hwT hTx) (Nat.not_lt.mpr hxp)
    intro x y hTx hTy hx hy
    rw [hlast_of x hTx hx, hlast_of y hTy hy]
  erased d hd hnewest := by
    obtain ⟨hq, hmax⟩ := cut_doomed_newest hl hcut hholds
    rw [Nat.le_antisymm (hmax d hd) (hnewest q hq)]
    exact ⟨⟨last, hlt, by rw [hv]; rfl⟩, l, hwalk, hmem⟩

omit hlast hv hp hlt in
theorem cut_keyPruned (hmem : ∀ u, u ∈ l ↔ h.Doomed T u) (hlt : T < last)
    (hlast : h.last = some last) : KeyPruned T h (cutHistory h w vw l) := by
  have hin : ∀ u, u ∈ l ↔ (h.version u).isSome ∧ u < w := fun u => (hmem u).trans (hholds.doomed_iff u)
  have hwl : w ∉ l := fun hm => Nat.lt_irrefl w ((hin w).mp hm).2
  have hbelow : ∀ u, u < w → (cutHistory h w vw l).version u = none := by
    intro u huw
    by_cases hu : u ∈ l
    · exact version_cutHistory_mem hu
    · rw [version_cutHistory_of_ne hu (Nat.ne_of_lt huw)]
      exact Option.not_isSome_iff_eq_none.mp fun hs => hu ((hin u).mpr ⟨hs, huw⟩)
  have habove : ∀ u, w < u → (cutHistory h w vw l).version u = h.version u := fun u hwu =>
    version_cutHistory_of_ne (fun hm => Nat.lt_asymm hwu ((hin u).mp hm).2) (Nat.ne_of_gt hwu)
  have hself : (cutHistory h w vw l).version w = some { vw with previousTopoheight := none } :=
    version_cutHistory_self hwl
  refine ⟨⟨?_, ?_, ?_, ?_⟩, ?_, ?_, ?_⟩
  · intro hnone
    rw [show (cutHistory h w vw l).last = h.last from rfl, hlast] at hnone
    cases hnone
  · intro last' hlast'
    have heq : last' = last := Option.some.inj (hlast'.symm.trans hlast)
    have hwlast : w < last := Nat.lt_of_le_of_lt hholds.le hlt
    subst heq
    refine ⟨?_, fun u hu => ?_⟩
    · rw [habove last' hwlast]
      exact (hl.last_some last' hlast).1
    · rw [habove u (Nat.lt_trans hwlast hu)]
      exact (hl.last_some last' hlast).2 u hu
  · intro u v' hv' hnone x hxu
    rcases Nat.lt_trichotomy u w with huw | rfl | hwu
    · exact hbelow x (Nat.lt_trans hxu huw)
    · exact hbelow x hxu
    · rw [habove u hwu] at hv'
      have hwnone : h.version w = none := hl.link_none u v' hv' hnone w hwu
      rw [hcut.version] at hwnone
      cases hwnone
  · intro u v' p' hv' hlink
    rcases Nat.lt_trichotomy u w with huw | rfl | hwu
    · rw [hbelow u huw] at hv'
      cases hv'
    · rw [hself, Option.some.injEq] at hv'
      rw [← hv'] at hlink
      cases hlink
    · rw [habove u hwu] at hv'
      obtain ⟨hpu, hps, hbetween⟩ := hl.link_some u v' p' hv' hlink
      have hwp : w ≤ p' := hl.le_link hv' hlink (by rw [hcut.version]; rfl) hwu
      refine ⟨hpu, ?_, fun x hpx hxu => ?_⟩
      · rcases Nat.lt_or_eq_of_le hwp with hlt' | rfl
        · rw [habove p' hlt']
          exact hps
        · rw [hself]
          rfl
      · rw [habove x (Nat.lt_of_le_of_lt hwp hpx)]
        exact hbetween x hpx hxu
  · intro u v' hv'
    rcases Nat.lt_trichotomy u w with huw | rfl | hwu
    · rw [hbelow u huw] at hv'
      cases hv'
    · rw [hself, Option.some.injEq] at hv'
      exact ⟨vw, hcut.version, by rw [← hv']⟩
    · rw [habove u hwu] at hv'
      exact ⟨v', hv', rfl⟩
  · intro u vu hvu hnot
    rcases Nat.lt_trichotomy u w with huw | rfl | hwu
    · exact absurd ((hholds.doomed_iff u).mpr ⟨by rw [hvu]; rfl, huw⟩) hnot
    · rw [hcut.version, Option.some.injEq] at hvu
      exact ⟨_, hself, by rw [← hvu]⟩
    · exact ⟨vu, by rw [habove u hwu]; exact hvu, rfl⟩
  · exact fun u hu => hbelow u ((hholds.doomed_iff u).mp hu).2

omit hl hlast hv hp hlt in
/-- A walk that spares what has to stay and takes what has to go meets the doomed versions and no other. -/
theorem cut_walk
    (hwalk : Walk readRemoved (Function.update h.version w (some { vw with previousTopoheight := none })) q l)
    (hret : KeyRetained T h (cutHistory h w vw l)) : Walk readRemoved h.version q l ∧ ∀ u, u ∈ l ↔ h.Doomed T u := by
  have hspared : ∀ t u v, T ≤ t → h.HoldsAt t u v → u ∉ l := by
    intro t u v hle hu hm
    obtain ⟨v', hv', -⟩ := hret.holds t u v hle hu
    rw [version_cutHistory_mem hm] at hv'
    cases hv'
  have hwl : w ∉ l := hspared T w vw (Nat.le_refl T) hholds
  refine ⟨hwalk.congr hwl ?_ ?_ fun u hu => (Function.update_of_ne hu ..).symm, fun u => ⟨fun hm => ?_, fun hu => ?_⟩⟩
  · rw [Function.update_self]
    rfl
  · rw [hcut.version]
    rfl
  · have huw : u ≠ w := fun he => hwl (he ▸ hm)
    have hstored := hwalk.stored u hm
    rw [Function.update_of_ne huw] at hstored
    obtain ⟨vu, hvu⟩ := Option.isSome_iff_exists.mp hstored
    refine (hholds.doomed_iff u).mpr ⟨hstored, Nat.lt_of_not_le fun hwu => ?_⟩
    have hwu : w < u := Nat.lt_of_le_of_ne hwu huw.symm
    rcases Nat.lt_or_ge T u with hTu | huT
    · exact hspared u u vu (Nat.le_of_lt hTu) (History.holdsAt_self hvu) hm
    · rw [hholds.newest u hwu huT] at hvu
      cases hvu
  · by_contra hm
    have hgone := hret.deletes u hu
    obtain ⟨hstored, huw⟩ := (hholds.doomed_iff u).mp hu
    rw [version_cutHistory_of_ne hm (Nat.ne_of_lt huw)] at hgone
    rw [hgone] at hstored
    cases hstored

end Cut

end Key

section Pointer

variable {tr tr' : VersionedTrees (Versioned NoTransform)} {key : Key} {T : TopoHeight} {context : DiskContext}

private theorem deleteBelowLoop_onlyKey {patched : Bool} {prev : Option TopoHeight}
    (h : deleteBelowLoop T context key fuel patched prev tr = .ok tr') : OnlyKey key tr tr' := by
  induction fuel generalizing patched prev tr with
  | zero => cases h
  | succ fuel ih =>
    cases prev with
    | none =>
      rw [deleteBelowLoop_none (Nat.succ_pos fuel)] at h
      cases h
      exact OnlyKey.refl key _
    | some p =>
      cases patched with
      | true =>
        rw [deleteBelowLoop_patched] at h
        obtain ⟨_, _, _, honly⟩ := removeLoop_walk h
        exact honly
      | false =>
        unfold deleteBelowLoop at h
        cases hv : tr.version key p with
        | none => simp [hv] at h
        | some v =>
          simp only [hv] at h
          split at h
          · exact (onlyKey_setAt tr key p _).trans (ih h)
          · exact ih h

theorem deleteBelowPointer_onlyKey {e : Key × TopoHeight} (h : deleteBelowPointer T context tr e = .ok tr') :
    OnlyKey e.1 tr tr' := by
  unfold deleteBelowPointer at h
  cases hload : tr.loadPrevious context e.1 e.2 with
  | error e => simp [hload] at h
  | ok prev =>
    simp only [hload] at h
    exact deleteBelowLoop_onlyKey h

private theorem history_eq_cutHistory {vw : Versioned NoTransform}
    (hversions : tr'.version key = without ((tr.setAt key w { vw with previousTopoheight := none }).version key) l)
    (honly : OnlyKey key (tr.setAt key w { vw with previousTopoheight := none }) tr') :
    tr'.history key = cutHistory (tr.history key) w vw l := by
  refine History.ext ?_ ?_
  · show tr'.pointers[key]? = tr.pointers[key]?
    rw [honly.pointers]
    rfl
  · show tr'.version key = _
    rw [hversions, version_setAt]
    rfl

variable {last : TopoHeight} (hl : (tr.history key).Linked Versioned.previousTopoheight)
  (hlast : (tr.history key).last = some last)
include hl hlast

/-- A chain that was pruned as it should had the shape for it. -/
theorem prunable_of_retained (hok : deleteBelowPointer T context tr (key, last) = .ok tr')
    (hret : KeyRetained T (tr.history key) (tr'.history key)) : Prunable T (tr.history key) := by
  obtain ⟨v, hv, hcases⟩ := deleteBelowPointer_cases T context hl hlast
  have hv' : (tr.history key).version last = some v := hv
  rcases hcases with ⟨hp, -⟩ | ⟨p, hp, hcases⟩
  · exact (alone_pruned hl hlast hv' hp).1
  have hpl : p < last := hl.link_lt hv hp
  rcases hcases with ⟨hbelow, fuel, -, hrem⟩ | ⟨hle, hnocut, hsame⟩ | ⟨hle, w, q, vw, fuel, hcut, -, hrem⟩
  · -- the last version is below `T`: it keeps its link to the first version that is removed
    rw [hrem] at hok
    obtain ⟨l, -, hversions, -⟩ := removeLoop_walk hok
    refine absurd hret (not_retained_of_last_le hl hlast hv' hp (Nat.le_of_lt hbelow) fun v' hkept => ?_)
    have hkept : tr'.version key last = some v' := hkept
    rw [hversions] at hkept
    by_cases hm : last ∈ l
    · rw [History.without_of_mem hm] at hkept
      cases hkept
    · rw [History.without_of_not_mem hm, hv, Option.some.injEq] at hkept
      exact hkept.symm
  · rw [hsame, Except.ok.injEq] at hok
    subst hok
    rcases Nat.lt_or_eq_of_le hle with hlt | heq
    · exact (nocut_pruned hl hlast hv' hp hnocut hlt).1
    · refine absurd hret (not_retained_of_last_le hl hlast hv' hp (Nat.le_of_eq heq.symm) fun v' hkept => ?_)
      exact Option.some.inj (hkept.symm.trans hv')
  · rw [hrem] at hok
    obtain ⟨l, hwalk, hversions, honly⟩ := removeLoop_walk hok
    rw [history_eq_cutHistory hversions honly] at hret
    rw [version_setAt] at hwalk
    have hwl : last ≠ w := fun he => Nat.lt_irrefl last (Nat.lt_of_le_of_lt (he ▸ hcut.le) hpl)
    rcases cut_cases hl hlast hv' hp hcut hle with heq | hTw | ⟨hlt, hholds⟩
    · refine absurd hret (not_retained_of_last_le hl hlast hv' hp (Nat.le_of_eq heq) fun v' hkept => ?_)
      by_cases hm : last ∈ l
      · rw [version_cutHistory_mem hm] at hkept
        cases hkept
      · rw [version_cutHistory_of_ne hm hwl] at hkept
        exact Option.some.inj (hkept.symm.trans hv')
    · refine absurd hret ((cut_above hl hv' hp hcut hTw).2 (version_cutHistory_mem (hwalk.mem_of_stored ?_)))
      rw [Function.update_of_ne (Nat.ne_of_lt (hl.link_lt hcut.version hcut.link))]
      exact hl.link_stored hcut.version hcut.link
    · obtain ⟨hwalk', hmem⟩ := cut_walk hcut hholds hwalk hret
      exact cut_prunable hl hlast hv' hp hcut hlt hholds hwalk' hmem

theorem pruned_of_prunable (hprunable : Prunable T (tr.history key)) :
    ∃ tr', deleteBelowPointer T context tr (key, last) = .ok tr' ∧ KeyPruned T (tr.history key) (tr'.history key) := by
  obtain ⟨v, hv, hcases⟩ := deleteBelowPointer_cases T context hl hlast
  have hv' : (tr.history key).version last = some v := hv
  rcases hcases with ⟨hp, hsame⟩ | ⟨p, hp, hcases⟩
  · exact ⟨tr, hsame, (alone_pruned hl hlast hv' hp).2⟩
  have hlt : T < last := Nat.lt_of_not_le fun hle => not_prunable_of_last_le hl hlast hv' hp hle hprunable
  rcases hcases with ⟨hbelow, -⟩ | ⟨-, hnocut, hsame⟩ | ⟨hle, w, q, vw, fuel, hcut, hfuel, hrem⟩
  · exact absurd hbelow (Nat.lt_asymm hlt)
  · exact ⟨tr, hsame, (nocut_pruned hl hlast hv' hp hnocut hlt).2⟩
  · rcases cut_cases hl hlast hv' hp hcut hle with heq | hTw | ⟨-, hholds⟩
    · exact absurd heq (Nat.ne_of_gt hlt)
    · have habove : ¬Prunable T (tr.history key) ∧ ((tr.history key).version q = none →
          ¬KeyRetained T (tr.history key) (tr.history key)) := cut_above hl hv' hp hcut hTw
      exact absurd hprunable habove.1
    · obtain ⟨hq, hnewest⟩ := cut_doomed_newest hl hcut hholds
      obtain ⟨-, l, hwalk, hmem⟩ := hprunable.erased q hq hnewest
      have hwl : w ∉ l := fun hm => hholds.not_doomed (Nat.le_refl T) ((hmem w).mp hm)
      have hwalk' : Walk readRemoved ((tr.setAt key w { vw with previousTopoheight := none }).version key) q l := by
        rw [version_setAt]
        refine hwalk.congr hwl ?_ ?_ fun u hu => Function.update_of_ne hu ..
        · show (tr.version key w).isSome
          rw [hcut.version]
          rfl
        · rw [Function.update_self]
          rfl
      have hlength := walk_length_le hwalk'
      rw [size_setAt (by rw [hcut.version]; rfl)] at hlength
      have henough : l.length + 2 ≤ fuel := by omega
      obtain ⟨tr', hok, hversions, honly⟩ := removeLoop_of_walk hwalk' henough
      refine ⟨tr', hrem.trans hok, ?_⟩
      rw [history_eq_cutHistory hversions honly]
      exact cut_keyPruned hl hcut hholds hmem hlt hlast

end Pointer

section Tree

variable {tr tr' : VersionedTrees (Versioned NoTransform)} {T : TopoHeight} {context : DiskContext}

/-- What a lookup at a maximum topoheight answers: where the value was set, and the value. -/
def answerAt (tr : VersionedTrees (Versioned NoTransform)) (context : DiskContext) (key : Key) (t : TopoHeight) :
    Except BlockchainError (Option (TopoHeight × NoTransform)) :=
  (tr.lookup (fun _ => context) (fun _ => context) key t (tr.searchStart key t)).map (Option.map fun e => (e.1, e.2.data))

/-- A version that some lookup from `T` on answers. -/
def Needed (tr : VersionedTrees (Versioned NoTransform)) (context : DiskContext) (T : TopoHeight) (key : Key)
    (u : TopoHeight) : Prop :=
  ∃ t data, T ≤ t ∧ tr.answerAt context key t = .ok (some (u, data))

/-- The state retained from `T` on: the answers are the same, nothing else is left below `T`, and no link was lost. -/
structure Retained (context : DiskContext) (T : TopoHeight) (tr tr' : VersionedTrees (Versioned NoTransform)) : Prop where
  answers : ∀ key t, T ≤ t → tr'.answerAt context key t = tr.answerAt context key t
  deletes : ∀ key u, u < T → ¬tr.Needed context T key u → tr'.version key u = none
  links : ∀ key u v p, tr'.version key u = some v → v.previousTopoheight = some p →
    (tr.version key p).isSome → (tr'.version key p).isSome

section Answers

variable {key : Key} {t u : TopoHeight} {v : Versioned NoTransform}

theorem answerAt_holdsAt (hl : (tr.history key).Linked Versioned.previousTopoheight) (hu : (tr.history key).HoldsAt t u v) :
    tr.answerAt context key t = .ok (some (u, v.data)) := by
  rw [answerAt, lookup_holdsAt hl hu]
  rfl

theorem answerAt_empty (hl : (tr.history key).Linked Versioned.previousTopoheight)
    (hempty : (tr.history key).EmptyUntil t) : tr.answerAt context key t = .ok none := by
  rw [answerAt, lookup_empty hl hempty]
  rfl

theorem stored_of_answerAt {data : NoTransform} (h : tr.answerAt context key t = .ok (some (u, data))) :
    ∃ v, tr.version key u = some v ∧ v.data = data := by
  unfold answerAt lookup at h
  cases hsearch : searchPrevious (fun t => tr.loadPrevious context key t) t
      (tr.fuel ((tr.searchStart key t).getD 0)) (tr.searchStart key t) with
  | error e => simp [hsearch, Except.map] at h
  | ok found =>
    cases found with
    | none => simp [hsearch, Except.map] at h
    | some topo =>
      cases hv : tr.version key topo with
      | none => simp [hsearch, loadVersion, hv, Except.map] at h
      | some v =>
        simp only [hsearch, loadVersion, hv, Except.map, Option.map_some, Except.ok.injEq, Option.some.injEq,
          Prod.mk.injEq] at h
        obtain ⟨rfl, rfl⟩ := h
        exact ⟨v, hv, rfl⟩

theorem not_needed_of_doomed (hl : (tr.history key).Linked Versioned.previousTopoheight)
    (hu : (tr.history key).Doomed T u) : ¬tr.Needed context T key u := by
  rintro ⟨t, data, hle, hanswer⟩
  rcases History.emptyUntil_or_holdsAt (tr.history key) t with hempty | ⟨u', v', hu'⟩
  · rw [answerAt_empty hl hempty] at hanswer
    cases hanswer
  · rw [answerAt_holdsAt hl hu', Except.ok.injEq, Option.some.injEq, Prod.mk.injEq] at hanswer
    obtain ⟨rfl, -⟩ := hanswer
    exact hu'.not_doomed hle hu

theorem doomed_of_not_needed (hl : (tr.history key).Linked Versioned.previousTopoheight) (huT : u < T)
    (hu : (tr.version key u).isSome) (hneeded : ¬tr.Needed context T key u) : (tr.history key).Doomed T u := by
  by_contra hnot
  obtain ⟨v, hv⟩ := Option.isSome_iff_exists.mp hu
  refine hneeded ⟨T, v.data, Nat.le_refl T, answerAt_holdsAt hl ⟨hv, Nat.le_of_lt huT, fun w huw hwT => ?_⟩⟩
  cases hw : (tr.history key).version w with
  | none => rfl
  | some vw => exact absurd ⟨hu, w, huw, hwT, by rw [hw]; rfl⟩ hnot

end Answers

theorem Retained.key (hwf : tr.WellFormed) (hret : Retained context T tr tr') (key : Key) :
    KeyRetained T (tr.history key) (tr'.history key) where
  holds t u v hle hu := by
    have hanswer := hret.answers key t hle
    rw [answerAt_holdsAt (hwf key) hu] at hanswer
    exact stored_of_answerAt hanswer
  deletes u hu := by
    obtain ⟨-, w, huw, hwT, -⟩ := id hu
    exact hret.deletes key u (Nat.lt_of_lt_of_le huw hwT) (not_needed_of_doomed (hwf key) hu)
  links := hret.links key

theorem retained_of_pruned (hwf : tr.WellFormed)
    (h : ∀ key, KeyPruned T (tr.history key) (tr'.history key)) : Retained context T tr tr' where
  answers key t hle := by
    rcases History.emptyUntil_or_holdsAt (tr.history key) t with hempty | ⟨u, v, hu⟩
    · rw [answerAt_empty (hwf key) hempty, answerAt_empty (h key).linked]
      intro u hut
      cases hv' : (tr'.history key).version u with
      | none => rfl
      | some v' =>
        obtain ⟨v, hv, -⟩ := (h key).stored u v' hv'
        rw [hempty u hut] at hv
        cases hv
    · obtain ⟨v', hv', hdata⟩ := (h key).retained.holds t u v hle hu
      rw [answerAt_holdsAt (hwf key) hu, answerAt_holdsAt (h key).linked ⟨hv', hu.le, fun w huw hwt => ?_⟩, hdata]
      cases hw : (tr'.history key).version w with
      | none => rfl
      | some vw =>
        obtain ⟨v₀, hv₀, -⟩ := (h key).stored w vw hw
        rw [hu.newest w huw hwt] at hv₀
        cases hv₀
  deletes key u huT hneeded := by
    cases hv' : tr'.version key u with
    | none => rfl
    | some v' =>
      obtain ⟨v, hv, -⟩ := (h key).stored u v' hv'
      have hstored : (tr.version key u).isSome := by
        rw [show tr.version key u = some v from hv]
        rfl
      rw [← hv']
      exact (h key).deletes u (doomed_of_not_needed (hwf key) huT hstored hneeded)
  links key := (h key).retained.links

private theorem other_history (tr : VersionedTrees (Versioned NoTransform)) (e : Key × TopoHeight)
    (tr' : VersionedTrees (Versioned NoTransform)) (h : deleteBelowPointer T context tr e = .ok tr') (key : Key)
    (hne : key ≠ e.1) : tr'.history key = tr.history key :=
  (deleteBelowPointer_onlyKey h).history hne

/-- Pruning keeps the state from `T` on and nothing else exactly when every chain has the shape for it. -/
theorem deleteVersionedTreeBelowTopoheight_retains_iff (tr : VersionedTrees (Versioned NoTransform)) (T : TopoHeight)
    (context : DiskContext) (hwf : tr.WellFormed) :
    (∃ tr', tr.deleteVersionedTreeBelowTopoheight T true context = .ok tr' ∧ Retained context T tr tr') ↔
      ∀ key, Prunable T (tr.history key) := by
  constructor
  · rintro ⟨tr', hok, hret⟩ key
    have hok : tr.pointers.toList.foldlM (deleteBelowPointer T context) tr = .ok tr' := hok
    have hkey := hret.key hwf key
    cases hpointer : tr.pointers[key]? with
    | none =>
      have hnone := (hwf key).last_none hpointer
      refine .of_not_doomed ?_ ?_
      · intro u _ hu
        rw [hnone u] at hu
        cases hu
      · rintro u ⟨hu, -⟩
        rw [hnone u] at hu
        cases hu
    | some last =>
      obtain ⟨tr₁, tr₂, hbefore, hturn, hafter⟩ :=
        FiniteMap.foldlM_toList_turn (v := fun key tr => history tr key) other_history hok hpointer
      have hl := hwf key
      rw [hafter] at hkey
      rw [← hbefore] at hkey hl ⊢
      refine prunable_of_retained hl ?_ hturn hkey
      rw [hbefore]
      exact hpointer
  · intro hprunable
    have hpruned : ∀ key last, tr.pointers[key]? = some last → ∀ tr₁ : VersionedTrees (Versioned NoTransform),
        tr₁.history key = tr.history key → ∃ tr₂, deleteBelowPointer T context tr₁ (key, last) = .ok tr₂ ∧
          KeyPruned T (tr.history key) (tr₂.history key) := by
      intro key last hpointer tr₁ hsame
      have hl := hwf key
      have hp := hprunable key
      rw [← hsame] at hl hp ⊢
      refine pruned_of_prunable hl ?_ hp
      rw [hsame]
      exact hpointer
    obtain ⟨tr', hok⟩ : ∃ tr', tr.pointers.toList.foldlM (deleteBelowPointer T context) tr = .ok tr' := by
      refine FiniteMap.foldlM_toList_succeeds (v := fun key tr => history tr key) other_history ?_
      intro key last hpointer tr₁ hsame
      obtain ⟨tr₂, hok, -⟩ := hpruned key last hpointer tr₁ hsame
      exact ⟨tr₂, hok⟩
    refine ⟨tr', hok, retained_of_pruned hwf fun key => ?_⟩
    cases hpointer : tr.pointers[key]? with
    | none =>
      have hsame := FiniteMap.foldlM_toList_other (v := fun key tr => history tr key) other_history hok hpointer
      have hnone := (hwf key).last_none hpointer
      rw [hsame]
      refine .refl (hwf key) ?_
      rintro u ⟨hu, -⟩
      rw [hnone u] at hu
      cases hu
    | some last =>
      obtain ⟨tr₁, tr₂, hbefore, hturn, hafter⟩ :=
        FiniteMap.foldlM_toList_turn (v := fun key tr => history tr key) other_history hok hpointer
      obtain ⟨tr₃, hturn', hkey⟩ := hpruned key last hpointer tr₁ hbefore
      rw [hturn, Except.ok.injEq] at hturn'
      rw [hafter, hturn']
      exact hkey

/-- A value of eight bytes, such as a nonce. -/
def sampleVersion (previousTopoheight : Option TopoHeight) : Versioned NoTransform :=
  ⟨previousTopoheight, [0, 0, 0, 0, 0, 0, 0, 1]⟩

def threeVersions : VersionedTrees (Versioned NoTransform) :=
  ((empty.setLast [7] 2 (sampleVersion none)).setLast [7] 5 (sampleVersion (some 2))).setLast [7] 10 (sampleVersion (some 5))

def twoVersions : VersionedTrees (Versioned NoTransform) :=
  (empty.setLast [7] 1 (sampleVersion none)).setLast [7] 2 (sampleVersion (some 1))

private theorem threeVersions_history : threeVersions.history [7] =
    (((⟨none, fun _ => none⟩ : History (Versioned NoTransform)).push 2 (sampleVersion none)).push 5
      (sampleVersion (some 2))).push 10 (sampleVersion (some 5)) := by
  rw [threeVersions, history_setLast_self, history_setLast_self, history_setLast_self, history_empty]

theorem threeVersions_wellFormed : threeVersions.WellFormed := by
  refine ((WellFormed.empty.setLast rfl ?_).setLast rfl ?_).setLast rfl ?_
  · exact fun l hl => nomatch hl
  · exact fun l hl => lt_of_pointers_setLast (by decide) hl
  · exact fun l hl => lt_of_pointers_setLast (by decide) hl

private theorem threeVersions_stored (hu : ((threeVersions.history [7]).version u).isSome) :
    u = 2 ∨ u = 5 ∨ u = 10 := by
  rw [threeVersions_history] at hu
  by_contra hne
  obtain ⟨h2, h5, h10⟩ : u ≠ 2 ∧ u ≠ 5 ∧ u ≠ 10 := by
    simpa only [not_or] using hne
  rw [History.version_push_of_ne _ _ _ h10, History.version_push_of_ne _ _ _ h5,
    History.version_push_of_ne _ _ _ h2] at hu
  cases hu

private theorem threeVersions_prunable (key : Key) : Prunable 5 (threeVersions.history key) := by
  by_cases hkey : [7] = key
  · subst hkey
    have h2 : (threeVersions.history [7]).version 2 = some (sampleVersion none) := by decide +kernel
    have h5 : ((threeVersions.history [7]).version 5).isSome := by decide +kernel
    have h10 : ((threeVersions.history [7]).version 10).isSome := by decide +kernel
    have hdoomed : ∀ u, (threeVersions.history [7]).Doomed 5 u ↔ u = 2 := by
      refine fun u => ⟨?_, ?_⟩
      · rintro ⟨hu, w, huw, hw5, -⟩
        rcases threeVersions_stored hu with rfl | rfl | rfl
        · rfl
        · exact absurd hw5 (Nat.not_le.mpr huw)
        · exact absurd (Nat.le_trans hw5 (by decide)) (Nat.not_le.mpr huw)
      · rintro rfl
        exact ⟨by rw [h2]; rfl, 5, by decide, by decide, h5⟩
    refine ⟨fun u _ _ hnone => ?_, fun d hd _ => ⟨⟨10, by decide, h10⟩, [2], ?_, fun u => ?_⟩⟩
    · rw [hnone] at h5
      cases h5
    · rw [(hdoomed d).mp hd]
      refine .step h2 (g := 0) rfl (.stop ?_)
      rw [Function.update_of_ne (by decide)]
      decide +kernel
    · rw [hdoomed, List.mem_singleton]
  · have hempty : threeVersions.history key = ⟨none, fun _ => none⟩ := by
      rw [threeVersions, history_setLast_of_ne _ _ _ _ hkey, history_setLast_of_ne _ _ _ _ hkey,
        history_setLast_of_ne _ _ _ _ hkey, history_empty]
    rw [hempty]
    exact .of_not_doomed (fun _ _ hu => nomatch hu) fun _ hu => nomatch hu.1

/-- With one version above `T`, one at it and one below, pruning does what it should. -/
theorem threeVersions_retained : threeVersions.WellFormed ∧
    ∃ tr', threeVersions.deleteVersionedTreeBelowTopoheight 5 true .lastNonce = .ok tr' ∧
      Retained .lastNonce 5 threeVersions tr' :=
  ⟨threeVersions_wellFormed,
    (deleteVersionedTreeBelowTopoheight_retains_iff threeVersions 5 .lastNonce threeVersions_wellFormed).mpr
      threeVersions_prunable⟩

theorem twoVersions_wellFormed : twoVersions.WellFormed := by
  refine (WellFormed.empty.setLast rfl ?_).setLast rfl ?_
  · exact fun l hl => nomatch hl
  · exact fun l hl => lt_of_pointers_setLast (by decide) hl

/-- The last version, below `T`, is left with a link to the version that was deleted. -/
theorem pruning_leaves_dangling_link : twoVersions.WellFormed ∧
    ¬∃ tr', twoVersions.deleteVersionedTreeBelowTopoheight 5 true .lastNonce = .ok tr' ∧
      Retained .lastNonce 5 twoVersions tr' := by
  refine ⟨twoVersions_wellFormed, ?_⟩
  rintro ⟨tr', hok, hret⟩
  have hlast : (tr'.version [7] 2) = some (sampleVersion (some 1)) := by
    have heval : (twoVersions.deleteVersionedTreeBelowTopoheight 5 true .lastNonce).toOption.bind (version · [7] 2) =
        some (sampleVersion (some 1)) := by decide +kernel
    rw [hok] at heval
    exact heval
  have hdeleted : (tr'.version [7] 1) = none := by
    have heval : (twoVersions.deleteVersionedTreeBelowTopoheight 5 true .lastNonce).toOption.bind (version · [7] 1) =
        none := by decide +kernel
    rw [hok] at heval
    exact heval
  have hstored : (twoVersions.version [7] 1).isSome := by decide +kernel
  have hlinked := hret.links [7] 2 _ 1 hlast rfl hstored
  rw [hdeleted] at hlinked
  cases hlinked

end Tree

end Xelis.Storage.VersionedTrees
