import Mathlib.Algebra.BigOperators.Group.Finset.Basic
import Mathlib.Algebra.Ring.Nat
import Mathlib.Order.WellFounded
import Xelis.Lib.FiniteMap
import Xelis.Lib.Loop

/-! A search that marks the vertices of a graph without cycles in a map. A vertex may wait on the stack several times. -/

namespace Xelis.Lib

theorem FiniteMap.sum_map_snd {K : Type} [Ord K] [Std.TransOrd K] [Std.LawfulEqOrd K] [DecidableEq K] (m : FiniteMap K Nat) :
    (m.toList.map Prod.snd).sum = ∑ k ∈ m.keys.toFinset, m[k]?.getD 0 := by
  have hnodup : m.keys.Nodup := Std.ExtTreeMap.nodup_keys
  rw [List.sum_toFinset _ hnodup, ← Std.ExtTreeMap.map_fst_toList_eq_keys, List.map_map]
  refine congrArg List.sum (List.map_congr_left fun e he => ?_)
  rw [Function.comp_apply, Std.ExtTreeMap.mem_toList_iff_getElem?_eq_some.mp he]
  rfl

namespace Marking

variable {K V ε τ α : Type} [Ord K] [Std.TransOrd K]

/-- A vertex keeps the mark it has. -/
def enter (mark : K → V) (map : FiniteMap K V) (x : K) : FiniteMap K V := if map.contains x then map else map.insert x (mark x)

/-- The successors that have no mark are put on the stack, the last one on top. -/
def push (next : K → List K) (map : FiniteMap K V) (x : K) (stack : List K) : List K :=
  ((next x).filter (fun y => !map.contains y)).reverse ++ stack

variable {next : K → List K} {mark : K → V} {starts xs : List K} {x y : K} {map map₁ map' : FiniteMap K V}

/-- What `starts` lead to was marked, and nothing else. What had a mark before was not looked behind. -/
structure Grown (next : K → List K) (mark : K → V) (starts : List K) (map map' : FiniteMap K V) : Prop where
  kept : ∀ y ∈ map, map'[y]? = map[y]?
  added : ∀ y ∈ map', y ∈ map ∨ map'[y]? = some (mark y) ∧ ∃ x ∈ starts, Relation.ReflTransGen (fun x y => y ∈ next x) x y
  closed : ∀ y ∈ map', y ∉ map ∨ y ∈ starts → ∀ z ∈ next y, z ∈ map'
  met : ∀ x ∈ starts, x ∈ map'

theorem mem_of_getElem?_eq {m m' : FiniteMap K V} (hy : y ∈ m) (h : m'[y]? = m[y]?) : y ∈ m' := by
  by_contra hnot
  rw [Std.ExtTreeMap.getElem?_eq_none hnot, Std.ExtTreeMap.getElem?_eq_some_getElem hy] at h
  cases h

theorem Grown.mem (h : Grown next mark starts map map') (hy : y ∈ map) : y ∈ map' := mem_of_getElem?_eq hy (h.kept y hy)

theorem Grown.nil (next : K → List K) (mark : K → V) (map : FiniteMap K V) : Grown next mark [] map map where
  kept _ _ := rfl
  added _ hy := .inl hy
  closed _ hy h := absurd hy (h.resolve_right List.not_mem_nil)
  met _ hx := absurd hx List.not_mem_nil

theorem Grown.cons (h₁ : Grown next mark [x] map map₁) (h₂ : Grown next mark xs map₁ map') :
    Grown next mark (x :: xs) map map' where
  kept y hy := (h₂.kept y (h₁.mem hy)).trans (h₁.kept y hy)
  added y hy := by
    rcases h₂.added y hy with hy₁ | ⟨hmark, z, hz, hreach⟩
    · refine (h₁.added y hy₁).imp_right ?_
      rintro ⟨hmark, z, hz, hreach⟩
      exact ⟨(h₂.kept y hy₁).trans hmark, x, List.mem_cons_self, List.mem_singleton.mp hz ▸ hreach⟩
    · exact .inr ⟨hmark, z, List.mem_cons_of_mem _ hz, hreach⟩
  closed y hy h z hz := by
    by_cases hy₁ : y ∈ map₁
    · rcases h with hnot | hmem
      · exact h₂.mem (h₁.closed y hy₁ (.inl hnot) z hz)
      · rcases List.mem_cons.mp hmem with rfl | hmem
        · exact h₂.mem (h₁.closed y hy₁ (.inr List.mem_cons_self) z hz)
        · exact h₂.closed y hy (.inr hmem) z hz
    · exact h₂.closed y hy (.inl hy₁) z hz
  met z hz := by
    rcases List.mem_cons.mp hz with rfl | hz
    · exact h₂.mem (h₁.met z List.mem_cons_self)
    · exact h₂.met z hz

variable [Std.LawfulEqOrd K]

theorem mem_enter : y ∈ enter mark map x ↔ y = x ∨ y ∈ map := by
  unfold enter
  split
  · rename_i h
    constructor
    · exact .inr
    · rintro (rfl | hy)
      · exact Std.ExtTreeMap.mem_iff_contains.mpr h
      · exact hy
  · rw [Std.ExtTreeMap.mem_insert, Std.LawfulEqCmp.compare_eq_iff_eq, eq_comm]

theorem getElem?_enter_of_mem (hy : y ∈ map) : (enter mark map x)[y]? = map[y]? := by
  unfold enter
  split
  · rfl
  · rename_i h
    refine FiniteMap.getElem?_insert_of_ne _ _ ?_
    rintro rfl
    exact h (Std.ExtTreeMap.mem_iff_contains.mp hy)

theorem getElem?_enter_self (hx : x ∉ map) : (enter mark map x)[x]? = some (mark x) := by
  unfold enter
  rw [if_neg (fun h => hx (Std.ExtTreeMap.mem_iff_contains.mpr h)), FiniteMap.getElem?_insert_self']

theorem Grown.of_successors (h : Grown next mark ((next x).filter (fun y => !map.contains y)).reverse (enter mark map x) map') :
    Grown next mark [x] map map' where
  kept y hy := (h.kept y (mem_enter.mpr (.inr hy))).trans (getElem?_enter_of_mem hy)
  added y hy := by
    by_cases hmem : y ∈ map
    · exact .inl hmem
    rcases h.added y hy with hy₁ | ⟨hmark, z, hz, hreach⟩
    · obtain rfl : y = x := (mem_enter.mp hy₁).resolve_right hmem
      exact .inr ⟨(h.kept y hy₁).trans (getElem?_enter_self hmem), y, List.mem_cons_self, .refl⟩
    · have hnext : z ∈ next x := List.mem_of_mem_filter (List.mem_reverse.mp hz)
      exact .inr ⟨hmark, x, List.mem_cons_self, .head hnext hreach⟩
  closed y hy hor z hz := by
    by_cases hyx : y = x
    · subst hyx
      by_cases hmem : z ∈ map
      · exact h.mem (mem_enter.mpr (.inr hmem))
      · refine h.met z (List.mem_reverse.mpr (List.mem_filter.mpr ⟨hz, ?_⟩))
        rw [Bool.not_eq_true', Bool.eq_false_iff]
        exact fun hcontains => hmem (Std.ExtTreeMap.mem_iff_contains.mpr hcontains)
    · have hnot : y ∉ map := hor.resolve_right (fun hx => hyx (List.mem_singleton.mp hx))
      exact h.closed y hy (.inl (fun hy => (mem_enter.mp hy).elim hyx hnot)) z hz
  met z hz := h.mem (mem_enter.mpr (.inl (List.mem_singleton.mp hz)))

section Loops

variable {body : FiniteMap K V × List K → Exec (Halt ε) τ (FiniteMap K V × List K ⊕ α)} {met : K → Prop}

/-- The body turns as the search does, at the vertices that can be met. -/
def Turns (next : K → List K) (mark : K → V) (met : K → Prop)
    (body : FiniteMap K V × List K → Exec (Halt ε) τ (FiniteMap K V × List K ⊕ α)) : Prop :=
  ∀ x, met x → ∀ map stack t, body (map, x :: stack) t = .ok (.inl (enter mark map x, push next map x stack)) t

omit [Std.LawfulEqOrd K] in
theorem leads_all {t : τ} (h : ∀ x ∈ xs, ∀ map stack, ∃ map',
      Loop.Leads body ((map, x :: stack), t) ((map', stack), t) ∧ Grown next mark [x] map map')
    (map : FiniteMap K V) (stack : List K) :
    ∃ map', Loop.Leads body ((map, xs ++ stack), t) ((map', stack), t) ∧ Grown next mark xs map map' := by
  induction xs generalizing map with
  | nil => exact ⟨map, .refl, .nil next mark map⟩
  | cons x xs ih =>
    obtain ⟨map₁, hleads, hgrown⟩ := h x List.mem_cons_self map (xs ++ stack)
    obtain ⟨map', hleads', hgrown'⟩ := ih (fun y hy => h y (List.mem_cons_of_mem _ hy)) map₁
    exact ⟨map', hleads.trans hleads', hgrown.cons hgrown'⟩

theorem leads_grown (hwf : WellFounded (fun y x => y ∈ next x)) (hmet : ∀ x, met x → ∀ y ∈ next x, met y)
    (hturns : Turns next mark met body) (x : K) (hx : met x) (t : τ) (map : FiniteMap K V) (stack : List K) :
    ∃ map', Loop.Leads body ((map, x :: stack), t) ((map', stack), t) ∧ Grown next mark [x] map map' := by
  induction x using hwf.induction generalizing map stack with
  | _ x ih =>
    have hsuccessors : ∀ y ∈ ((next x).filter (fun y => !map.contains y)).reverse, y ∈ next x :=
      fun y hy => List.mem_of_mem_filter (List.mem_reverse.mp hy)
    obtain ⟨map', hleads, hgrown⟩ := leads_all
      (fun y hy map stack => ih y (hsuccessors y hy) (hmet x hx y (hsuccessors y hy)) map stack) (enter mark map x) stack
    have hturn : Loop.Turn body ((map, x :: stack), t) ((enter mark map x, push next map x stack), t) := hturns x hx map stack t
    exact ⟨map', .head hturn hleads, hgrown.of_successors⟩

end Loops

def Marks (next : K → List K) (mark : K → V) (starts : List K) (map : FiniteMap K V) : Prop :=
  ∀ y v, map[y]? = some v ↔ v = mark y ∧ ∃ x ∈ starts, Relation.ReflTransGen (fun x y => y ∈ next x) x y

section

omit [Std.LawfulEqOrd K]

theorem Marks.empty (next : K → List K) (mark : K → V) : Marks next mark [] (∅ : FiniteMap K V) := by
  intro y v
  simp

theorem Marks.mem_iff (h : Marks next mark starts map) (y : K) :
    y ∈ map ↔ ∃ x ∈ starts, Relation.ReflTransGen (fun x y => y ∈ next x) x y := by
  constructor
  · intro hy
    exact ((h y _).mp (Std.ExtTreeMap.getElem?_eq_some_getElem hy)).2
  · intro hreach
    by_contra hnot
    exact absurd ((h y (mark y)).mpr ⟨rfl, hreach⟩) (by rw [Std.ExtTreeMap.getElem?_eq_none hnot]; exact nofun)

theorem Marks.cons_of_mem (h : Marks next mark starts map) (hx : x ∈ map) : Marks next mark (x :: starts) map := by
  intro y v
  rw [h y v]
  refine and_congr_right fun _ => ⟨?_, ?_⟩
  · rintro ⟨z, hz, hreach⟩
    exact ⟨z, List.mem_cons_of_mem _ hz, hreach⟩
  · rintro ⟨z, hz, hreach⟩
    rcases List.mem_cons.mp hz with rfl | hz
    · obtain ⟨w, hw, hreach'⟩ := (h.mem_iff z).mp hx
      exact ⟨w, hw, hreach'.trans hreach⟩
    · exact ⟨z, hz, hreach⟩

theorem Marks.grown (h : Marks next mark starts map) (hgrown : Grown next mark xs map map') :
    Marks next mark (xs ++ starts) map' := by
  have hvalue : ∀ y ∈ map', map'[y]? = some (mark y) := by
    intro y hy
    rcases hgrown.added y hy with hmem | ⟨hmark, -⟩
    · rw [hgrown.kept y hmem]
      exact (h y _).mpr ⟨rfl, (h.mem_iff y).mp hmem⟩
    · exact hmark
  have hclosed : ∀ y ∈ map', ∀ z ∈ next y, z ∈ map' := by
    intro y hy z hz
    by_cases hmem : y ∈ map
    · obtain ⟨x, hx, hreach⟩ := (h.mem_iff y).mp hmem
      exact hgrown.mem ((h.mem_iff z).mpr ⟨x, hx, hreach.tail hz⟩)
    · exact hgrown.closed y hy (.inl hmem) z hz
  intro y v
  constructor
  · intro hy
    have hmem : y ∈ map' := by
      by_contra hnot
      rw [Std.ExtTreeMap.getElem?_eq_none hnot] at hy
      cases hy
    refine ⟨Option.some.inj (hy.symm.trans (hvalue y hmem)), ?_⟩
    rcases hgrown.added y hmem with hmem | ⟨-, x, hx, hreach⟩
    · obtain ⟨x, hx, hreach⟩ := (h.mem_iff y).mp hmem
      exact ⟨x, List.mem_append_right _ hx, hreach⟩
    · exact ⟨x, List.mem_append_left _ hx, hreach⟩
  · rintro ⟨rfl, x, hx, hreach⟩
    refine hvalue y ?_
    induction hreach with
    | refl =>
      rcases List.mem_append.mp hx with hx | hx
      · exact hgrown.met x hx
      · exact hgrown.mem ((h.mem_iff x).mpr ⟨x, hx, .refl⟩)
    | tail _ hz ih => exact hclosed _ ih _ hz

end

end Marking

end Xelis.Lib
