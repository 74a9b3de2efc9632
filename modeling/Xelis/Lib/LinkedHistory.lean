import Xelis.Lib.History

namespace Xelis.Lib.History

variable {V E : Type} {link : V → Option Nat} {h : History V}

/-- The last pointer is at the greatest version, and every version links to the next one below it. -/
structure Linked (link : V → Option Nat) (h : History V) : Prop where
  last_none : h.last = none → ∀ u, h.version u = none
  last_some : ∀ l, h.last = some l → (h.version l).isSome ∧ ∀ u, l < u → h.version u = none
  link_none : ∀ u v, h.version u = some v → link v = none → ∀ w, w < u → h.version w = none
  link_some : ∀ u v p, h.version u = some v → link v = some p →
    p < u ∧ (h.version p).isSome ∧ ∀ w, p < w → w < u → h.version w = none

/-- The version that holds at a time: the newest one not after it. -/
structure HoldsAt (h : History V) (t u : Nat) (v : V) : Prop where
  version : h.version u = some v
  le : u ≤ t
  newest : ∀ w, u < w → w ≤ t → h.version w = none

/-- Versions that hold at no time from `T` on, since another one not after `T` replaced them. -/
def Doomed (h : History V) (T u : Nat) : Prop := (h.version u).isSome ∧ ∃ w, u < w ∧ w ≤ T ∧ (h.version w).isSome

/-- Nothing is stored at a time or before it. -/
def EmptyUntil (h : History V) (t : Nat) : Prop := ∀ u, u ≤ t → h.version u = none

variable {t u u' T w l t' base p : Nat} {v v' : V}

theorem HoldsAt.unique (hu : h.HoldsAt t u v) (hu' : h.HoldsAt t u' v') : u = u' := by
  rcases Nat.lt_trichotomy u u' with hlt | heq | hgt
  · have hnone := hu.newest u' hlt hu'.le
    rw [hu'.version] at hnone
    cases hnone
  · exact heq
  · have hnone := hu'.newest u hgt hu.le
    rw [hu.version] at hnone
    cases hnone

theorem HoldsAt.not_doomed (hu : h.HoldsAt t u v) (hle : T ≤ t) : ¬h.Doomed T u := by
  rintro ⟨-, w, huw, hwT, hw⟩
  rw [hu.newest w huw (Nat.le_trans hwT hle)] at hw
  cases hw

theorem HoldsAt.doomed_iff (hw : h.HoldsAt T w v) (u : Nat) : h.Doomed T u ↔ (h.version u).isSome ∧ u < w := by
  constructor
  · rintro ⟨hu, x, hux, hxT, hx⟩
    refine ⟨hu, Nat.lt_of_lt_of_le hux (Nat.le_of_not_lt fun hwx => ?_)⟩
    rw [hw.newest x hwx hxT] at hx
    cases hx
  · rintro ⟨hu, huw⟩
    exact ⟨hu, w, huw, hw.le, by rw [hw.version]; rfl⟩

theorem holdsAt_self (hv : h.version u = some v) : h.HoldsAt u u v where
  version := hv
  le := Nat.le_refl u
  newest _ hlt hle := absurd hle (Nat.not_le.mpr hlt)

theorem emptyUntil_or_holdsAt (h : History V) (t : Nat) : h.EmptyUntil t ∨ ∃ u v, h.HoldsAt t u v := by
  induction t with
  | zero =>
    cases hv : h.version 0 with
    | some v => exact .inr ⟨0, v, holdsAt_self hv⟩
    | none =>
      refine .inl fun u hu => ?_
      rw [Nat.le_zero.mp hu]
      exact hv
  | succ t ih =>
    cases hv : h.version (t + 1) with
    | some v => exact .inr ⟨t + 1, v, holdsAt_self hv⟩
    | none =>
      rcases ih with hempty | ⟨u, v, hu⟩
      · refine .inl fun u hle => ?_
        rcases Nat.lt_or_ge t u with hlt | hge
        · rw [Nat.le_antisymm hle hlt]
          exact hv
        · exact hempty u hge
      · refine .inr ⟨u, v, hu.version, Nat.le_succ_of_le hu.le, fun w huw hle => ?_⟩
        rcases Nat.lt_or_ge t w with hlt | hge
        · rw [Nat.le_antisymm hle hlt]
          exact hv
        · exact hu.newest w huw hge

/-- What a search up to a time is to find: the version that holds then, or nothing where nothing is stored. -/
def Found (h : History V) (t : Nat) : Option (Nat × V) → Prop
  | none => h.EmptyUntil t
  | some (u, v) => h.HoldsAt t u v

/-- The newest version before a time, or none where nothing is stored before it. -/
def Earlier (h : History V) (t : Nat) : Option (Nat × V) → Prop
  | none => ∀ u, u < t → h.version u = none
  | some (u, v) => h.version u = some v ∧ u < t ∧ ∀ w, u < w → w < t → h.version w = none

variable {r r' : Option (Nat × V)}

theorem Earlier.unique (hr : h.Earlier t r) (hr' : h.Earlier t r') : r = r' := by
  match r, r', hr, hr' with
  | none, none, _, _ => rfl
  | none, some (u, v), hempty, ⟨hv, hlt, _⟩ =>
    rw [hempty u hlt] at hv
    cases hv
  | some (u, v), none, ⟨hv, hlt, _⟩, hempty =>
    rw [hempty u hlt] at hv
    cases hv
  | some (u, v), some (u', v'), ⟨hv, hlt, hnewer⟩, ⟨hv', hlt', hnewer'⟩ =>
    rcases Nat.lt_trichotomy u u' with hless | rfl | hmore
    · rw [hnewer u' hless hlt'] at hv'
      cases hv'
    · rw [hv] at hv'
      rw [Option.some.inj hv']
    · rw [hnewer' u hmore hlt] at hv
      cases hv

theorem Earlier.elim_one {α : Type} [Zero α] (hr : h.Earlier 1 r) (f : V → α) :
    r.elim 0 (fun e => f e.2) = (h.version 0).elim 0 f := by
  match r, hr with
  | none, hempty =>
    rw [hempty 0 Nat.one_pos]
    rfl
  | some (u, v), ⟨hv, hlt, _⟩ =>
    obtain rfl := Nat.lt_one_iff.mp hlt
    rw [hv]
    rfl

/-- What is stored at a time does not matter for what is before it. -/
theorem Earlier.extend (hr : h.Earlier t r) (entry : Option V) : (h.extend t entry).Earlier t r := by
  have hversion : ∀ u, u < t → (h.extend t entry).version u = h.version u := by
    intro u hu
    cases entry with
    | none => rfl
    | some v => exact version_push_of_ne h t v (Nat.ne_of_lt hu)
  match r, hr with
  | none, hempty =>
    intro u hu
    rw [hversion u hu]
    exact hempty u hu
  | some (u, v), ⟨hv, hlt, hnewer⟩ =>
    refine ⟨?_, hlt, fun w huw hw => ?_⟩
    · rw [hversion u hlt]
      exact hv
    · rw [hversion w hw]
      exact hnewer w huw hw

/-- A search needs no step back: the last version is not after the time, or there is one at the time itself. -/
def AtHand (h : History V) (t : Nat) : Prop := ∀ l, h.last = some l → t < l → (h.version t).isSome

theorem exists_found (h : History V) (t : Nat) : ∃ r, h.Found t r := by
  rcases h.emptyUntil_or_holdsAt t with hempty | ⟨u, v, hu⟩
  · exact ⟨none, hempty⟩
  · exact ⟨some (u, v), hu⟩

theorem Found.unique (hr : h.Found t r) (hr' : h.Found t r') : r = r' := by
  match r, r', hr, hr' with
  | none, none, _, _ => rfl
  | none, some (u, v), hempty, hu =>
    have hnone := hempty u hu.le
    rw [hu.version] at hnone
    cases hnone
  | some (u, v), none, hu, hempty =>
    have hnone := hempty u hu.le
    rw [hu.version] at hnone
    cases hnone
  | some (u, v), some (u', v'), hu, hu' =>
    obtain rfl := HoldsAt.unique hu hu'
    have hv : some v = some v' := hu.version.symm.trans hu'.version
    rw [Option.some.inj hv]

def newestVersion (h : History V) : Option (Nat × V) := h.last.bind fun l => (h.version l).map (l, ·)

theorem Linked.found_newestVersion (hl : h.Linked link) (hle : ∀ l, h.last = some l → l ≤ t) :
    h.Found t h.newestVersion := by
  unfold newestVersion
  cases hlast : h.last with
  | none => exact fun u _ => hl.last_none hlast u
  | some l =>
    obtain ⟨hstored, hnewer⟩ := hl.last_some l hlast
    obtain ⟨v, hv⟩ := Option.isSome_iff_exists.mp hstored
    rw [Option.bind_some, hv]
    exact ⟨hv, hle l hlast, fun w hw _ => hnewer w hw⟩

theorem Linked.earlier_newestVersion (hl : h.Linked link) (hbelow : h.Below t) : h.Earlier t h.newestVersion := by
  have hfound := hl.found_newestVersion fun l hlast => Nat.le_of_lt (hbelow.last l hlast)
  match hnewest : h.newestVersion with
  | none =>
    rw [hnewest] at hfound
    exact fun u hu => hfound u (Nat.le_of_lt hu)
  | some (u, v) =>
    rw [hnewest] at hfound
    have hlt : u < t := by
      refine Nat.lt_of_not_le fun hle => ?_
      have hv := hfound.version
      rw [hbelow.version u hle] at hv
      cases hv
    exact ⟨hfound.version, hlt, fun w huw hw => hfound.newest w huw (Nat.le_of_lt hw)⟩

theorem Linked.last_eq (hl : h.Linked link) : h.last = h.newestVersion.map Prod.fst := by
  unfold newestVersion
  cases hlast : h.last with
  | none => rfl
  | some l =>
    obtain ⟨v, hv⟩ := Option.isSome_iff_exists.mp (hl.last_some l hlast).1
    rw [Option.bind_some, hv]
    rfl

theorem Linked.empty : (⟨none, fun _ => none⟩ : History V).Linked link where
  last_none _ _ := rfl
  last_some _ hl := nomatch hl
  link_none _ _ hv := nomatch hv
  link_some _ _ _ hv := nomatch hv

/-- The last pointer is at the greatest version. -/
structure Headed (h : History V) : Prop where
  last_none : h.last = none → ∀ u, h.version u = none
  last_some : ∀ l, h.last = some l → (h.version l).isSome ∧ ∀ u, l < u → h.version u = none

/-- From a time on, every version links to the next one below it. -/
structure LinkedFrom (link : V → Option Nat) (base : Nat) (h : History V) : Prop where
  link_none : ∀ u v, base ≤ u → h.version u = some v → link v = none → ∀ w, w < u → h.version w = none
  link_some : ∀ u v p, base ≤ u → h.version u = some v → link v = some p →
    p < u ∧ (h.version p).isSome ∧ ∀ w, p < w → w < u → h.version w = none

theorem linked_iff : h.Linked link ↔ h.Headed ∧ h.LinkedFrom link 0 := by
  constructor
  · intro hl
    exact ⟨⟨hl.last_none, hl.last_some⟩, ⟨fun u v _ => hl.link_none u v, fun u v p _ => hl.link_some u v p⟩⟩
  · rintro ⟨hh, hl⟩
    exact ⟨hh.last_none, hh.last_some, fun u v => hl.link_none u v (Nat.zero_le u), fun u v p =>
      hl.link_some u v p (Nat.zero_le u)⟩

namespace Headed

variable (hh : h.Headed)
include hh

theorem lt_of_isSome (hlt : ∀ l, h.last = some l → l < t) (hu : (h.version u).isSome) : u < t := by
  cases hlast : h.last with
  | none =>
    rw [hh.last_none hlast u] at hu
    cases hu
  | some l =>
    refine Nat.lt_of_le_of_lt (Nat.le_of_not_lt fun hul => ?_) (hlt l hlast)
    rw [(hh.last_some l hlast).2 u hul] at hu
    cases hu

theorem push (hlt : ∀ l, h.last = some l → l < t) (v : V) : (h.push t v).Headed where
  last_none hnone := nomatch hnone
  last_some l hlast := by
    rw [last_push, Option.some.injEq] at hlast
    subst hlast
    refine ⟨by rw [version_push_self]; rfl, fun u hu => ?_⟩
    rw [version_push_of_ne h t v (Nat.ne_of_gt hu)]
    exact Option.not_isSome_iff_eq_none.mp fun hs => Nat.lt_asymm hu (hh.lt_of_isSome hlt hs)

theorem holdsAt_last (hlast : h.last = some l) (hv : h.version l = some v) (hle : l ≤ t) :
    h.HoldsAt t l v where
  version := hv
  le := hle
  newest w hw _ := (hh.last_some l hlast).2 w hw

end Headed

theorem HoldsAt.push_later (hu : h.HoldsAt t u v) (hlt : t < t') (v' : V) :
    (h.push t' v').HoldsAt t u v where
  version := by
    rw [version_push_of_ne _ _ _ (Nat.ne_of_lt (Nat.lt_of_le_of_lt hu.le hlt))]
    exact hu.version
  le := hu.le
  newest w huw hw := by
    rw [version_push_of_ne _ _ _ (Nat.ne_of_lt (Nat.lt_of_le_of_lt hw hlt))]
    exact hu.newest w huw hw

theorem LinkedFrom.push (hl : h.LinkedFrom link base) (hh : h.Headed)
    (hlink : link v = h.last) (hlt : ∀ l, h.last = some l → l < t) : (h.push t v).LinkedFrom link base := by
  have hbelow : ∀ u, u < t → (h.push t v).version u = h.version u := fun u hu =>
    version_push_of_ne h t v (Nat.ne_of_lt hu)
  have habove : ∀ u, t < u → (h.push t v).version u = none := ((hh.push hlt v).last_some t rfl).2
  refine ⟨fun u v' hbase hv' hnone w hw => ?_, fun u v' p hbase hv' hp => ?_⟩
  · rcases Nat.lt_trichotomy u t with hut | rfl | htu
    · rw [hbelow u hut] at hv'
      rw [hbelow w (Nat.lt_trans hw hut)]
      exact hl.link_none u v' hbase hv' hnone w hw
    · rw [version_push_self, Option.some.injEq] at hv'
      rw [hbelow w hw]
      refine hh.last_none ?_ w
      rw [← hlink, hv', hnone]
    · rw [habove u htu] at hv'
      cases hv'
  · rcases Nat.lt_trichotomy u t with hut | rfl | htu
    · rw [hbelow u hut] at hv'
      obtain ⟨hpu, hps, hbetween⟩ := hl.link_some u v' p hbase hv' hp
      refine ⟨hpu, by rw [hbelow p (Nat.lt_trans hpu hut)]; exact hps, fun w hpw hwu => ?_⟩
      rw [hbelow w (Nat.lt_trans hwu hut)]
      exact hbetween w hpw hwu
    · rw [version_push_self, Option.some.injEq] at hv'
      have hlast : h.last = some p := by rw [← hlink, hv', hp]
      have hpu := hlt p hlast
      refine ⟨hpu, by rw [hbelow p hpu]; exact (hh.last_some p hlast).1, fun w hpw hwu => ?_⟩
      rw [hbelow w hwu]
      exact (hh.last_some p hlast).2 w hpw
    · rw [habove u htu] at hv'
      cases hv'

theorem Linked.push (hl : h.Linked link) (hlink : link v = h.last)
    (hlt : ∀ l, h.last = some l → l < t) : (h.push t v).Linked link := by
  obtain ⟨hh, hfrom⟩ := linked_iff.mp hl
  exact linked_iff.mpr ⟨hh.push hlt v, hfrom.push hh hlink hlt⟩

theorem Linked.push_first (hlink : link v = none) (halone : ∀ u, u ≠ t → h.version u = none) :
    (h.push t v).Linked link := by
  have hversion : ∀ u, u ≠ t → (h.push t v).version u = none := fun u hu =>
    (version_push_of_ne h t v hu).trans (halone u hu)
  refine ⟨nofun, fun l hlast => ?_, fun u v' hv' _ w hw => ?_, fun u v' p hv' hp => ?_⟩
  · rw [last_push, Option.some.injEq] at hlast
    subst hlast
    exact ⟨by rw [version_push_self]; rfl, fun u hu => hversion u (Nat.ne_of_gt hu)⟩
  · by_cases hut : u = t
    · exact hversion w (by rw [← hut]; exact Nat.ne_of_lt hw)
    · rw [hversion u hut] at hv'
      cases hv'
  · by_cases hut : u = t
    · rw [hut, version_push_self, Option.some.injEq] at hv'
      rw [← hv', hlink] at hp
      cases hp
    · rw [hversion u hut] at hv'
      cases hv'

namespace Linked

variable (hl : h.Linked link)
include hl

theorem exists_last (hu : (h.version u).isSome) : ∃ l, h.last = some l ∧ u ≤ l := by
  cases hlast : h.last with
  | none =>
    rw [hl.last_none hlast u] at hu
    cases hu
  | some l =>
    refine ⟨l, rfl, Nat.le_of_not_lt fun hlt => ?_⟩
    rw [(hl.last_some l hlast).2 u hlt] at hu
    cases hu

theorem le_last (hlast : h.last = some l) (hu : (h.version u).isSome) : u ≤ l := by
  obtain ⟨l', hl', hle⟩ := hl.exists_last hu
  rw [hlast, Option.some.injEq] at hl'
  rw [hl']
  exact hle

theorem exists_link (hu : h.version u = some v) (hw : (h.version w).isSome) (hlt : w < u) :
    ∃ p, link v = some p ∧ w ≤ p := by
  cases hlink : link v with
  | none =>
    rw [hl.link_none u v hu hlink w hlt] at hw
    cases hw
  | some p =>
    refine ⟨p, rfl, Nat.le_of_not_lt fun hpw => ?_⟩
    rw [(hl.link_some u v p hu hlink).2.2 w hpw hlt] at hw
    cases hw

theorem link_lt (hu : h.version u = some v) (hp : link v = some p) : p < u :=
  (hl.link_some u v p hu hp).1

theorem link_stored (hu : h.version u = some v) (hp : link v = some p) : (h.version p).isSome :=
  (hl.link_some u v p hu hp).2.1

theorem le_link (hu : h.version u = some v) (hp : link v = some p) (hw : (h.version w).isSome) (hlt : w < u) : w ≤ p := by
  obtain ⟨p', hp', hle⟩ := hl.exists_link hu hw hlt
  rw [hp, Option.some.injEq] at hp'
  rw [hp']
  exact hle

theorem exists_linked_to (hw : (h.version w).isSome) (hu : (h.version u).isSome) (hlt : w < u) :
    ∃ x v, h.version x = some v ∧ link v = some w ∧ w < x ∧ x ≤ u := by
  induction u using Nat.strongRecOn with
  | _ u ih =>
    obtain ⟨v, hv⟩ := Option.isSome_iff_exists.mp hu
    obtain ⟨p, hp, hle⟩ := hl.exists_link hv hw hlt
    have hpu := hl.link_lt hv hp
    rcases Nat.lt_or_eq_of_le hle with hwp | rfl
    · obtain ⟨x, vx, hvx, hlink, hwx, hxp⟩ := ih p hpu (hl.link_stored hv hp) hwp
      exact ⟨x, vx, hvx, hlink, hwx, Nat.le_trans hxp (Nat.le_of_lt hpu)⟩
    · exact ⟨u, v, hv, hp, hlt, Nat.le_refl u⟩

theorem holdsAt_link (hu : h.version u = some v) (hp : link v = some p)
    (hv' : h.version p = some v') (hpt : p ≤ t) (htu : t < u) : h.HoldsAt t p v' where
  version := hv'
  le := hpt
  newest w hpw hwt := (hl.link_some u v p hu hp).2.2 w hpw (Nat.lt_of_le_of_lt hwt htu)

end Linked

/-- Removing the version at a pointer, reading the next pointer off it, until nothing is stored there. -/
inductive Walk (read : V → Except E Nat) : (Nat → Option V) → Nat → List Nat → Prop where
  | stop {f : Nat → Option V} {p : Nat} : f p = none → Walk read f p []
  | step {f : Nat → Option V} {p g : Nat} {v : V} {l : List Nat} : f p = some v → read v = .ok g →
    Walk read (Function.update f p none) g l → Walk read f p (p :: l)

/-- The versions that are left. -/
def without (f : Nat → Option V) (l : List Nat) (u : Nat) : Option V := if u ∈ l then none else f u

variable {f : Nat → Option V}

theorem without_of_mem {l : List Nat} (hu : u ∈ l) : without f l u = none := if_pos hu

theorem without_of_not_mem {l : List Nat} (hu : u ∉ l) : without f l u = f u :=
  if_neg hu

theorem without_cons (f : Nat → Option V) (p : Nat) (l : List Nat) :
    without f (p :: l) = without (Function.update f p none) l := by
  funext u
  by_cases hup : u = p
  · subst hup
    rw [without_of_mem List.mem_cons_self]
    unfold without
    rw [Function.update_self, ite_self]
  · by_cases hul : u ∈ l
    · rw [without_of_mem (List.mem_cons_of_mem p hul), without_of_mem hul]
    · rw [without_of_not_mem (List.not_mem_cons_of_ne_of_not_mem hup hul), without_of_not_mem hul,
        Function.update_of_ne hup]

namespace Walk

variable {read : V → Except E Nat} {f f' : Nat → Option V} {p : Nat} {l : List Nat}

/-- There is only one way. -/
theorem unique {l' : List Nat} (hw : Walk read f p l) (hw' : Walk read f p l') : l = l' := by
  induction hw generalizing l' with
  | stop hnone =>
    cases hw' with
    | stop => rfl
    | step hv => simp [hnone] at hv
  | step hv hread _ ih =>
    cases hw' with
    | stop hnone => simp [hnone] at hv
    | step hv' hread' hrest' =>
      rw [hv, Option.some.injEq] at hv'
      subst hv'
      rw [hread, Except.ok.injEq] at hread'
      subst hread'
      rw [ih hrest']

theorem stored (hw : Walk read f p l) : ∀ u ∈ l, (f u).isSome := by
  induction hw with
  | stop => exact fun u hu => (List.not_mem_nil hu).elim
  | @step f p g v l hv hread hrest ih =>
    intro u hu
    rcases List.mem_cons.mp hu with rfl | hu
    · rw [hv]
      rfl
    · have hsome := ih u hu
      by_cases hup : u = p
      · rw [hup, hv]
        rfl
      · rwa [Function.update_of_ne hup] at hsome

theorem mem_of_stored (hw : Walk read f p l) (hp : (f p).isSome) : p ∈ l := by
  cases hw with
  | stop hnone =>
    rw [hnone] at hp
    cases hp
  | step => exact List.mem_cons_self

theorem congr (hw : Walk read f p l) (hwl : w ∉ l) (hstored : (f w).isSome) (hstored' : (f' w).isSome)
    (hsame : ∀ u, u ≠ w → f' u = f u) : Walk read f' p l := by
  induction hw generalizing f' with
  | @stop f p hnone =>
    refine .stop ?_
    by_cases hpw : p = w
    · rw [hpw] at hnone
      rw [hnone] at hstored
      cases hstored
    · rw [hsame p hpw]
      exact hnone
  | @step f p g v l hv hread hrest ih =>
    have hwp : w ≠ p := fun he => hwl (he ▸ List.mem_cons_self)
    have hwl' : w ∉ l := fun hm => hwl (List.mem_cons_of_mem p hm)
    refine .step ((hsame p hwp.symm).trans hv) hread (ih hwl' ?_ ?_ ?_)
    · rwa [Function.update_of_ne hwp]
    · rwa [Function.update_of_ne hwp]
    · intro u hu
      by_cases hup : u = p
      · rw [hup, Function.update_self, Function.update_self]
      · rw [Function.update_of_ne hup, Function.update_of_ne hup]
        exact hsame u hu

end Walk

end Xelis.Lib.History
