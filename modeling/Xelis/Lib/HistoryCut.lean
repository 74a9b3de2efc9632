import Mathlib.Data.List.Range
import Xelis.Lib.LinkedHistory

namespace Xelis.Lib.History

variable {V : Type} {link : V → Option Nat} {h : History V}

def newest (h : History V) : Nat → Option Nat
  | 0 => if (h.version 0).isSome then some 0 else none
  | t + 1 => if (h.version (t + 1)).isSome then some (t + 1) else h.newest t

variable {t u T m n : Nat}

theorem newest_eq_none : h.newest t = none ↔ h.EmptyUntil t := by
  induction t with
  | zero =>
    constructor
    · intro hnone u hu
      rw [Nat.le_zero.mp hu]
      by_contra hstored
      rw [newest, if_pos (Option.isSome_iff_ne_none.mpr hstored)] at hnone
      cases hnone
    · intro hempty
      rw [newest, hempty 0 (Nat.le_refl 0)]
      rfl
  | succ t ih =>
    constructor
    · intro hnone u hu
      by_cases hstored : (h.version (t + 1)).isSome
      · rw [newest, if_pos hstored] at hnone
        cases hnone
      · rw [newest, if_neg hstored] at hnone
        rcases Nat.lt_or_eq_of_le hu with hlt | rfl
        · exact ih.mp hnone u (Nat.le_of_lt_succ hlt)
        · exact Option.not_isSome_iff_eq_none.mp hstored
    · intro hempty
      rw [newest, hempty (t + 1) (Nat.le_refl _), Option.isSome_none, if_neg Bool.false_ne_true]
      exact ih.mpr fun u hu => hempty u (Nat.le_succ_of_le hu)

theorem newest_eq_some :
    h.newest t = some u ↔ u ≤ t ∧ (h.version u).isSome ∧ ∀ w, u < w → w ≤ t → h.version w = none := by
  induction t with
  | zero =>
    by_cases hstored : (h.version 0).isSome
    · rw [newest, if_pos hstored, Option.some.injEq]
      constructor
      · rintro rfl
        exact ⟨Nat.le_refl 0, hstored, fun w hlt hle => absurd hle (Nat.not_le.mpr hlt)⟩
      · rintro ⟨hle, -, -⟩
        exact (Nat.le_zero.mp hle).symm
    · rw [newest, if_neg hstored]
      refine ⟨nofun, ?_⟩
      rintro ⟨hle, hu, -⟩
      rw [Nat.le_zero.mp hle] at hu
      exact absurd hu hstored
  | succ t ih =>
    by_cases hstored : (h.version (t + 1)).isSome
    · rw [newest, if_pos hstored, Option.some.injEq]
      constructor
      · rintro rfl
        exact ⟨Nat.le_refl _, hstored, fun w hlt hle => absurd hle (Nat.not_le.mpr hlt)⟩
      · rintro ⟨hle, -, hnone⟩
        refine (Nat.lt_or_eq_of_le hle).elim (fun hlt => ?_) Eq.symm
        rw [hnone (t + 1) hlt (Nat.le_refl _)] at hstored
        cases hstored
    · rw [newest, if_neg hstored, ih]
      have hmissing := Option.not_isSome_iff_eq_none.mp hstored
      constructor
      · rintro ⟨hle, hu, hnone⟩
        refine ⟨Nat.le_succ_of_le hle, hu, fun w hlt hw => ?_⟩
        rcases Nat.lt_or_eq_of_le hw with hw | rfl
        · exact hnone w hlt (Nat.le_of_lt_succ hw)
        · exact hmissing
      · rintro ⟨hle, hu, hnone⟩
        refine ⟨?_, hu, fun w hlt hw => hnone w hlt (Nat.le_succ_of_le hw)⟩
        rcases Nat.lt_or_eq_of_le hle with hlt | rfl
        · exact Nat.le_of_lt_succ hlt
        · exact absurd hu hstored

theorem Linked.link_eq_newest (hl : h.Linked link) {v : V} (hv : h.version (t + 1) = some v) : link v = h.newest t := by
  cases hp : link v with
  | none =>
    refine (newest_eq_none.mpr fun u hu => ?_).symm
    exact hl.link_none (t + 1) v hv hp u (Nat.lt_succ_of_le hu)
  | some p =>
    obtain ⟨hlt, hstored, hbetween⟩ := hl.link_some (t + 1) v p hv hp
    refine (newest_eq_some.mpr ⟨Nat.le_of_lt_succ hlt, hstored, fun w hw hle => ?_⟩).symm
    exact hbetween w hw (Nat.lt_succ_of_le hle)

theorem Headed.last_eq_newest (hh : h.Headed) (hlt : ∀ l, h.last = some l → l ≤ t) : h.last = h.newest t := by
  cases hlast : h.last with
  | none => exact (newest_eq_none.mpr fun u _ => hh.last_none hlast u).symm
  | some l =>
    obtain ⟨hstored, hnone⟩ := hh.last_some l hlast
    exact (newest_eq_some.mpr ⟨hlt l hlast, hstored, fun w hw _ => hnone w hw⟩).symm

/-- What is left of a history when every version after `t` is gone. -/
def upTo (h : History V) (t : Nat) : History V := ⟨h.newest t, fun u => if u ≤ t then h.version u else none⟩

theorem headed_upTo (h : History V) (t : Nat) : (h.upTo t).Headed where
  last_none hnone u := by
    show (if u ≤ t then h.version u else none) = none
    by_cases hu : u ≤ t
    · rw [if_pos hu]
      exact newest_eq_none.mp hnone u hu
    · rw [if_neg hu]
  last_some l hlast := by
    obtain ⟨hle, hstored, hnone⟩ := newest_eq_some.mp hlast
    refine ⟨?_, fun u hu => ?_⟩
    · show (if l ≤ t then h.version l else none).isSome = true
      rwa [if_pos hle]
    · show (if u ≤ t then h.version u else none) = none
      by_cases hut : u ≤ t
      · rw [if_pos hut]
        exact hnone u hu hut
      · rw [if_neg hut]

theorem Headed.upTo_eq_self (hh : h.Headed) (hnone : ∀ u, t < u → h.version u = none) : h.upTo t = h := by
  refine History.ext (hh.last_eq_newest fun l hlast => ?_).symm (funext fun u => ?_)
  · refine Nat.le_of_not_lt fun hlt => ?_
    have hstored := (hh.last_some l hlast).1
    rw [hnone l hlt] at hstored
    cases hstored
  · show (if u ≤ t then h.version u else none) = _
    by_cases hu : u ≤ t
    · rw [if_pos hu]
    · rw [if_neg hu, hnone u (Nat.lt_of_not_le hu)]

section Drops

variable (link)

/-- The version at one time is taken out: a pointer that is not before it goes back along its link. -/
def dropAt (h : History V) (t : Nat) : History V :=
  match h.version t with
  | none => h
  | some v => ⟨h.last.bind fun l => if t ≤ l then link v else some l, Function.update h.version t none⟩

/-- What is left when the times from `T + 1` to `m` are gone: a pointer that had to move is not after `T`. -/
def skipping (h : History V) (T m : Nat) : History V where
  last := if h.newest m = h.newest T then h.last else h.newest T
  version u := if T < u ∧ u ≤ m then none else h.version u

variable {link}

theorem dropAt_of_none (hnone : h.version t = none) : h.dropAt link t = h := by
  rw [dropAt, hnone]

theorem dropAt_of_some {v : V} (hv : h.version t = some v) :
    h.dropAt link t = ⟨h.last.bind fun l => if t ≤ l then link v else some l, Function.update h.version t none⟩ := by
  rw [dropAt, hv]

theorem newest_succ_of_none (hnone : h.version (t + 1) = none) : h.newest (t + 1) = h.newest t := by
  rw [newest, hnone, Option.isSome_none, if_neg Bool.false_ne_true]

theorem newest_succ_of_some {v : V} (hv : h.version (t + 1) = some v) : h.newest (t + 1) = some (t + 1) := by
  rw [newest, hv, Option.isSome_some, if_pos rfl]

/-- From the newest time downwards every step leaves the history up to the time before. -/
theorem Linked.dropAt_upTo (hl : h.Linked link) (t : Nat) : (h.upTo (t + 1)).dropAt link (t + 1) = h.upTo t := by
  have hat : (h.upTo (t + 1)).version (t + 1) = h.version (t + 1) := if_pos (Nat.le_refl _)
  cases hv : h.version (t + 1) with
  | none =>
    rw [dropAt_of_none (hat.trans hv)]
    refine History.ext (newest_succ_of_none hv) (funext fun u => ?_)
    show (if u ≤ t + 1 then h.version u else none) = if u ≤ t then h.version u else none
    by_cases hu : u = t + 1
    · rw [hu, hv, ite_self, ite_self]
    · rw [if_congr (show u ≤ t + 1 ↔ u ≤ t by omega) rfl rfl]
  | some v =>
    rw [dropAt_of_some (hat.trans hv)]
    refine History.ext ?_ (funext fun u => ?_)
    · show (h.newest (t + 1)).bind _ = h.newest t
      rw [newest_succ_of_some hv, Option.bind_some, if_pos (Nat.le_refl _)]
      exact hl.link_eq_newest hv
    · show Function.update (h.upTo (t + 1)).version (t + 1) none u = if u ≤ t then h.version u else none
      by_cases hu : u = t + 1
      · rw [hu, Function.update_self, if_neg (Nat.not_succ_le_self t)]
      · rw [Function.update_of_ne hu]
        exact if_congr (show u ≤ t + 1 ↔ u ≤ t by omega) rfl rfl

/-- Upwards the pointer moves once, with the oldest version that goes, and stays where it is then. -/
theorem Linked.dropAt_skipping (hl : h.Linked link) (hle : T ≤ m) :
    (h.skipping T m).dropAt link (m + 1) = h.skipping T (m + 1) := by
  have hat : (h.skipping T m).version (m + 1) = h.version (m + 1) := if_neg fun hc => Nat.not_succ_le_self m hc.2
  have hversions : ∀ u, u ≠ m + 1 → (h.skipping T m).version u = (h.skipping T (m + 1)).version u := by
    intro u hu
    exact if_congr (show T < u ∧ u ≤ m ↔ T < u ∧ u ≤ m + 1 by omega) rfl rfl
  have hgone : (h.skipping T (m + 1)).version (m + 1) = none := if_pos ⟨Nat.lt_succ_of_le hle, Nat.le_refl _⟩
  cases hv : h.version (m + 1) with
  | none =>
    rw [dropAt_of_none (hat.trans hv)]
    refine History.ext ?_ (funext fun u => ?_)
    · show (if h.newest m = h.newest T then h.last else h.newest T) = if h.newest (m + 1) = _ then h.last else _
      rw [newest_succ_of_none hv]
    · by_cases hu : u = m + 1
      · rw [hu, hgone, hat, hv]
      · exact hversions u hu
  | some v =>
    have hmoved : h.newest (m + 1) ≠ h.newest T := by
      rw [newest_succ_of_some hv]
      intro heq
      exact absurd (newest_eq_some.mp heq.symm).1 (Nat.not_le.mpr (Nat.lt_succ_of_le hle))
    rw [dropAt_of_some (hat.trans hv)]
    refine History.ext ?_ (funext fun u => ?_)
    · show (if h.newest m = h.newest T then h.last else h.newest T).bind _ = if h.newest (m + 1) = _ then h.last else _
      rw [if_neg hmoved]
      by_cases hfirst : h.newest m = h.newest T
      · obtain ⟨l, hlast, hml⟩ := hl.exists_last (u := m + 1) (by rw [hv]; rfl)
        rw [if_pos hfirst, hlast, Option.bind_some, if_pos hml, hl.link_eq_newest hv, hfirst]
      · rw [if_neg hfirst]
        cases hnew : h.newest T with
        | none => rfl
        | some p =>
          have hp : p ≤ T := (newest_eq_some.mp hnew).1
          rw [Option.bind_some, if_neg (show ¬m + 1 ≤ p by omega)]
    · by_cases hu : u = m + 1
      · rw [hu, hgone]
        exact Function.update_self ..
      · rw [← hversions u hu]
        exact Function.update_of_ne hu ..

theorem skipping_self (h : History V) (T : Nat) : h.skipping T T = h := by
  refine History.ext (if_pos rfl) (funext fun u => if_neg fun hc => ?_)
  exact absurd hc.2 (Nat.not_le.mpr hc.1)

theorem Headed.skipping_eq_upTo (hh : h.Headed) (hnone : ∀ u, m < u → h.version u = none) :
    h.skipping T m = h.upTo T := by
  have hlast : h.last = h.newest m := congrArg History.last (hh.upTo_eq_self hnone).symm
  refine History.ext ?_ (funext fun u => ?_)
  · show (if h.newest m = h.newest T then h.last else h.newest T) = h.newest T
    by_cases hsame : h.newest m = h.newest T
    · rw [if_pos hsame, hlast, hsame]
    · rw [if_neg hsame]
  · show (if T < u ∧ u ≤ m then none else h.version u) = if u ≤ T then h.version u else none
    by_cases hu : u ≤ T
    · rw [if_pos hu, if_neg fun hc => Nat.not_le.mpr hc.1 hu]
    · rw [if_neg hu]
      by_cases hum : u ≤ m
      · rw [if_pos ⟨Nat.lt_of_not_le hu, hum⟩]
      · rw [if_neg fun hc => hum hc.2, hnone u (Nat.lt_of_not_le hum)]

theorem Linked.dropAt_ascending (hl : h.Linked link) (hnone : ∀ u, T + n < u → h.version u = none) :
    (List.range' (T + 1) n).foldl (dropAt link) h = h.upTo T := by
  have hrun : ∀ k, (List.range' (T + 1) k).foldl (dropAt link) h = h.skipping T (T + k) := by
    intro k
    induction k with
    | zero => exact (skipping_self h T).symm
    | succ k ih =>
      rw [List.range'_concat, List.foldl_append, ih, Nat.one_mul, Nat.add_right_comm]
      exact hl.dropAt_skipping (Nat.le_add_right T k)
  rw [hrun n]
  exact (linked_iff.mp hl).1.skipping_eq_upTo hnone

theorem Linked.dropAt_descending (hl : h.Linked link) (hnone : ∀ u, T + n < u → h.version u = none) :
    (List.range' (T + 1) n).reverse.foldl (dropAt link) h = h.upTo T := by
  have hrun : ∀ k, (List.range' (T + 1) k).reverse.foldl (dropAt link) (h.upTo (T + k)) = h.upTo T := by
    intro k
    induction k with
    | zero => rfl
    | succ k ih =>
      rw [List.range'_concat, List.reverse_append, Nat.one_mul, Nat.add_right_comm]
      show (List.range' (T + 1) k).reverse.foldl (dropAt link) ((h.upTo (T + k + 1)).dropAt link (T + k + 1)) = _
      rw [hl.dropAt_upTo (T + k)]
      exact ih
  have hfull := hrun n
  rwa [(linked_iff.mp hl).1.upTo_eq_self hnone] at hfull

/-- Cutting a chain leaves a chain. -/
theorem Linked.upTo (hl : h.Linked link) (t : Nat) : (h.upTo t).Linked link := by
  have hhead := h.headed_upTo t
  have hkept : ∀ u v, (h.upTo t).version u = some v → u ≤ t ∧ h.version u = some v := by
    intro u v hv
    have hv : (if u ≤ t then h.version u else none) = some v := hv
    split at hv
    · exact ⟨‹_›, hv⟩
    · cases hv
  have hsame : ∀ u, u ≤ t → (h.upTo t).version u = h.version u := fun u hu => if_pos hu
  refine ⟨hhead.last_none, hhead.last_some, fun u v hv hnone w hw => ?_, fun u v p hv hp => ?_⟩
  · obtain ⟨hu, hv⟩ := hkept u v hv
    rw [hsame w (Nat.le_trans (Nat.le_of_lt hw) hu)]
    exact hl.link_none u v hv hnone w hw
  · obtain ⟨hu, hv⟩ := hkept u v hv
    obtain ⟨hpu, hstored, hbetween⟩ := hl.link_some u v p hv hp
    refine ⟨hpu, ?_, fun w hpw hwu => ?_⟩
    · rw [hsame p (Nat.le_trans (Nat.le_of_lt hpu) hu)]
      exact hstored
    · rw [hsame w (Nat.le_trans (Nat.le_of_lt hwu) hu)]
      exact hbetween w hpw hwu

theorem below_upTo (h : History V) (t : Nat) : (h.upTo t).Below (t + 1) where
  last _ hlast := Nat.lt_succ_of_le (newest_eq_some.mp hlast).1
  version _ hu := if_neg (Nat.not_le.mpr hu)

theorem dropAt_foldl_of_no_last (link : V → Option Nat) (hlast : h.last = none) (ts : List Nat) :
    (ts.foldl (dropAt link) h).last = none ∧
      ∀ u, (ts.foldl (dropAt link) h).version u = if u ∈ ts then none else h.version u := by
  induction ts generalizing h with
  | nil => exact ⟨hlast, fun u => (if_neg List.not_mem_nil).symm⟩
  | cons t ts ih =>
    have hdrop : (h.dropAt link t).last = none ∧ ∀ u, (h.dropAt link t).version u = if u = t then none else h.version u := by
      cases hv : h.version t with
      | none =>
        rw [dropAt_of_none hv]
        refine ⟨hlast, fun u => ?_⟩
        split
        · subst_vars
          exact hv
        · rfl
      | some v =>
        rw [dropAt_of_some hv]
        refine ⟨by rw [hlast]; rfl, fun u => ?_⟩
        show Function.update h.version t none u = _
        by_cases hu : u = t
        · rw [hu, Function.update_self, if_pos rfl]
        · rw [Function.update_of_ne hu, if_neg hu]
    obtain ⟨hlast', hversion⟩ := ih hdrop.1
    refine ⟨hlast', fun u => ?_⟩
    rw [List.foldl_cons, hversion, hdrop.2]
    by_cases hu : u ∈ ts
    · rw [if_pos hu, if_pos (List.mem_cons_of_mem _ hu)]
    · rw [if_neg hu, if_congr (show u = t ↔ u ∈ t :: ts by simp [hu]) rfl rfl]

theorem Linked.dropAt_all (hl : h.Linked link) (hnone : ∀ u, n ≤ u → h.version u = none) :
    ((List.range' 0 n).foldl (dropAt link) h).last = none ∧
      ∀ u, ((List.range' 0 n).foldl (dropAt link) h).version u = none := by
  by_cases hempty : h.last = none
  · obtain ⟨hlast, hversion⟩ := dropAt_foldl_of_no_last link hempty (List.range' 0 n)
    refine ⟨hlast, fun u => ?_⟩
    rw [hversion, hl.last_none hempty, ite_self]
  · cases n with
    | zero =>
      obtain ⟨l, hlast⟩ := Option.ne_none_iff_exists'.mp hempty
      have hstored := (hl.last_some l hlast).1
      rw [hnone l (Nat.zero_le l)] at hstored
      cases hstored
    | succ n =>
      rw [List.range'_succ, List.foldl_cons]
      cases hv : h.version 0 with
      | none =>
        rw [dropAt_of_none hv, hl.dropAt_ascending (T := 0) fun u hu => hnone u (by omega)]
        refine ⟨?_, fun u => ?_⟩
        · refine newest_eq_none.mpr fun u hu => ?_
          rw [Nat.le_zero.mp hu]
          exact hv
        · show (if u ≤ 0 then h.version u else none) = none
          split
          · rw [Nat.le_zero.mp ‹u ≤ 0›]
            exact hv
          · rfl
      | some v =>
        -- the first version links to nothing, so that the pointer is gone at once
        have hlink : link v = none := by
          cases hp : link v with
          | none => rfl
          | some p => exact absurd (hl.link_some 0 v p hv hp).1 (Nat.not_lt_zero p)
        have hdrop : h.dropAt link 0 = ⟨none, Function.update h.version 0 none⟩ := by
          rw [dropAt_of_some hv]
          refine History.ext ?_ rfl
          show (h.last.bind fun l => if 0 ≤ l then link v else some l) = none
          cases h.last with
          | none => rfl
          | some l => rw [Option.bind_some, if_pos (Nat.zero_le l), hlink]
        rw [hdrop]
        obtain ⟨hlast, hversion⟩ := dropAt_foldl_of_no_last link (h := ⟨none, Function.update h.version 0 none⟩) rfl
          (List.range' (0 + 1) n)
        refine ⟨hlast, fun u => ?_⟩
        rw [hversion]
        split
        · rfl
        · rename_i hu
          show Function.update h.version 0 none u = none
          by_cases hzero : u = 0
          · rw [hzero, Function.update_self]
          · rw [Function.update_of_ne hzero]
            refine hnone u ?_
            rw [List.mem_range'_1] at hu
            omega

/-- Dropping the last stretch of times, upwards, leaves a chain below it. -/
theorem Linked.dropAt_from (hl : h.Linked link) (hnone : ∀ u, T + n ≤ u → h.version u = none) :
    ((List.range' T n).foldl (dropAt link) h).Linked link ∧ ((List.range' T n).foldl (dropAt link) h).Below T := by
  cases T with
  | zero =>
    rw [Nat.zero_add] at hnone
    obtain ⟨hlast, hversion⟩ := hl.dropAt_all hnone
    have hgone : (List.range' 0 n).foldl (dropAt link) h = ⟨none, fun _ => none⟩ :=
      History.ext hlast (funext hversion)
    rw [hgone]
    exact ⟨Linked.empty, ⟨nofun, fun _ _ => rfl⟩⟩
  | succ T =>
    rw [hl.dropAt_ascending fun u hu => hnone u (by omega)]
    exact ⟨hl.upTo T, h.below_upTo T⟩

end Drops

end Xelis.Lib.History
