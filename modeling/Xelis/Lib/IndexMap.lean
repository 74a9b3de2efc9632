import Mathlib.Algebra.BigOperators.Group.List.Basic
import Mathlib.Data.List.Nodup
import Xelis.Lib.FiniteMap

namespace Xelis.Lib

/-- A map that keeps its insertion order: its keys are distinct. -/
structure IndexMap (K V : Type) where
  entries : List (K × V)
  nodup : (entries.map Prod.fst).Nodup

namespace IndexMap

variable {K V : Type}

def empty : IndexMap K V := ⟨[], List.nodup_nil⟩

def single (k : K) (v : V) : IndexMap K V := ⟨[(k, v)], List.nodup_singleton k⟩

def get [DecidableEq K] (m : IndexMap K V) (k : K) : Option V :=
  (m.entries.find? (fun e => e.1 = k)).map Prod.snd

def keys (m : IndexMap K V) : List K := m.entries.map Prod.fst

/-- A known key keeps its place and takes the new value. -/
def insert [DecidableEq K] (m : IndexMap K V) (k : K) (v : V) : IndexMap K V :=
  if h : k ∈ m.keys then
    ⟨m.entries.map (fun e => (e.1, if e.1 = k then v else e.2)), by
      rw [List.map_map]
      exact m.nodup⟩
  else
    ⟨m.entries ++ [(k, v)], by
      rw [List.map_append]
      exact m.nodup.append (List.nodup_singleton k) (List.disjoint_singleton.mpr h)⟩

def ofList [DecidableEq K] (es : List (K × V)) : IndexMap K V := es.foldl (fun m e => m.insert e.1 e.2) empty

theorem get_eq_none_iff [DecidableEq K] (m : IndexMap K V) (k : K) : m.get k = none ↔ k ∉ m.keys := by
  unfold get keys
  rw [Option.map_eq_none_iff, List.find?_eq_none]
  constructor
  · intro h hk
    obtain ⟨e, he, rfl⟩ := List.mem_map.mp hk
    have hne := h e he
    simp at hne
  · intro h e he hk
    have hke : e.1 = k := by simpa using hk
    exact h (List.mem_map.mpr ⟨e, he, hke⟩)

theorem get_insert [DecidableEq K] (m : IndexMap K V) (k a : K) (v : V) :
    (m.insert k v).get a = if a = k then some v else m.get a := by
  by_cases hk : k ∈ m.keys
  · rw [insert, dif_pos hk, get, get, List.find?_map, Option.map_map]
    cases hfind : m.entries.find? (fun e => e.1 = a) with
    | none =>
      have ha : a ∉ m.keys := (get_eq_none_iff m a).mp (by rw [get, hfind]; rfl)
      rw [if_neg fun heq : a = k => ha (heq ▸ hk)]
      exact congrArg _ hfind
    | some e =>
      have hkey : e.1 = a := by simpa using List.find?_some hfind
      have hfound : m.entries.find? ((fun e => decide (e.1 = a)) ∘ fun e => (e.1, if e.1 = k then v else e.2)) = some e := hfind
      rw [hfound, Option.map_some, Option.map_some]
      dsimp only [Function.comp]
      rw [hkey]
      split <;> rfl
  · have hnone := (get_eq_none_iff m k).mpr hk
    rw [insert, dif_neg hk, get, List.find?_append, get]
    by_cases ha : a = k
    · subst ha
      rw [get, Option.map_eq_none_iff] at hnone
      rw [hnone, if_pos rfl]
      simp
    · have hother : [(k, v)].find? (fun e => decide (e.1 = a)) = none := by simp [Ne.symm ha]
      rw [hother, Option.or_none, if_neg ha]

section Over

variable {W : Type} [Ord K] [Std.TransOrd K] [Std.LawfulEqOrd K]

def laidOver (m : IndexMap K V) (f : V → Option W) (below : FiniteMap K W) : FiniteMap K W :=
  m.entries.foldl (fun acc e => (f e.2).elim acc (acc.insert e.1)) below

private theorem getElem?_laidOver_absent (f : V → Option W) {es : List (K × V)} {k : K} (h : k ∉ es.map Prod.fst)
    (below : FiniteMap K W) : (es.foldl (fun acc e => (f e.2).elim acc (acc.insert e.1)) below)[k]? = below[k]? := by
  induction es generalizing below with
  | nil => rfl
  | cons e es ih =>
    rw [List.map_cons, List.mem_cons, not_or] at h
    rw [List.foldl_cons, ih h.2]
    cases f e.2 with
    | none => rfl
    | some w => exact FiniteMap.getElem?_insert_of_ne below w (Ne.symm h.1)

theorem getElem?_laidOver [DecidableEq K] (m : IndexMap K V) (f : V → Option W) (below : FiniteMap K W) (k : K) :
    (m.laidOver f below)[k]? = ((m.get k).bind f).or below[k]? := by
  obtain ⟨entries, hnodup⟩ := m
  unfold laidOver get
  dsimp only
  induction entries generalizing below with
  | nil => rfl
  | cons e es ih =>
    obtain ⟨hnot, hes⟩ := List.nodup_cons.mp hnodup
    rw [List.foldl_cons, List.find?_cons]
    by_cases hk : e.1 = k
    · subst hk
      rw [getElem?_laidOver_absent f hnot]
      simp only [decide_true, Option.map_some, Option.bind_some]
      cases f e.2 with
      | none => rfl
      | some w => exact FiniteMap.getElem?_insert_self' below e.1 w
    · rw [ih _ hes]
      simp only [hk, decide_false]
      congr 1
      cases f e.2 with
      | none => rfl
      | some w => exact FiniteMap.getElem?_insert_of_ne below w hk

end Over

theorem sum_entries_of_key {M : Type} [AddMonoid M] [DecidableEq K] (m : IndexMap K V) (k : K) (f : K → V → M) :
    (m.entries.map (fun e => if k = e.1 then f e.1 e.2 else 0)).sum =
      match m.get k with
      | some v => f k v
      | none => 0 := by
  have hskip : ∀ es : List (K × V), k ∉ es.map Prod.fst →
      (es.map (fun e => if k = e.1 then f e.1 e.2 else 0)).sum = 0 := by
    intro es hes
    refine List.sum_eq_zero fun x hx => ?_
    obtain ⟨e, he, rfl⟩ := List.mem_map.mp hx
    exact if_neg fun hk : k = e.1 => hes (hk ▸ List.mem_map_of_mem he)
  obtain ⟨entries, hnodup⟩ := m
  unfold get
  induction entries with
  | nil => rfl
  | cons e es ih =>
    obtain ⟨hnot, hes⟩ := List.nodup_cons.mp hnodup
    rw [List.map_cons, List.sum_cons, List.find?_cons]
    by_cases hk : e.1 = k
    · subst hk
      rw [if_pos rfl, hskip es hnot, add_zero]
      simp
    · rw [if_neg (Ne.symm hk), zero_add, ih hes]
      simp [hk]

end IndexMap

end Xelis.Lib
