import Mathlib.Data.List.Induction
import Mathlib.Data.List.Nodup
import Mathlib.Data.List.Sort
import Xelis.Lib.FiniteMap

/-! Ordered maps that number the elements of a list from zero on. -/

namespace Xelis.Lib

variable {V : Type}

/-- The map has the elements of the list under their positions, and nothing else. -/
def Numbers (m : FiniteMap Nat V) (l : List V) : Prop := ∀ i : Nat, m[i]? = l[i]?

/-- The elements of a list behind their positions. -/
def numbered (l : List V) : List (Nat × V) := l.zipIdx.map Prod.swap

theorem mem_numbered {l : List V} {i : Nat} {v : V} : (i, v) ∈ numbered l ↔ l[i]? = some v := by
  simp [numbered, List.mem_zipIdx_iff_getElem?]

theorem numbered_pairwise (l : List V) : (numbered l).Pairwise (fun a b => a.1 < b.1) := by
  have hkeys : (numbered l).map Prod.fst = List.range l.length := by
    rw [numbered, List.map_map]
    exact List.zipIdx_map_snd 0 l |>.trans (by rw [List.range_eq_range'])
  have hsorted : ((numbered l).map Prod.fst).Pairwise (· < ·) := by
    rw [hkeys]
    exact List.pairwise_lt_range
  exact List.pairwise_map.mp hsorted

@[simp] theorem map_snd_numbered (l : List V) : (numbered l).map Prod.snd = l := by
  rw [numbered, List.map_map]
  exact List.zipIdx_map_fst 0 l

namespace Numbers

variable {m : FiniteMap Nat V} {l : List V}

theorem empty : Numbers (∅ : FiniteMap Nat V) [] := fun i => by simp

theorem toList (h : Numbers m l) : m.toList = numbered l := by
  have hsorted : m.toList.Pairwise (fun a b => a.1 < b.1) := by
    refine Std.ExtTreeMap.ordered_keys_toList.imp ?_
    intro a b hab
    exact Nat.compare_eq_lt.mp hab
  have hnodup (es : List (Nat × V)) (hes : es.Pairwise (fun a b => a.1 < b.1)) : es.Nodup := by
    refine hes.imp ?_
    rintro a b hab rfl
    exact Nat.lt_irrefl _ hab
  have hperm : m.toList.Perm (numbered l) := by
    refine (List.perm_ext_iff_of_nodup (hnodup _ hsorted) (hnodup _ (numbered_pairwise l))).mpr ?_
    rintro ⟨i, v⟩
    rw [Std.ExtTreeMap.mem_toList_iff_getElem?_eq_some, h i, mem_numbered]
  refine hperm.eq_of_pairwise ?_ hsorted (numbered_pairwise l)
  intro a b _ _ hab hba
  exact absurd hba (Nat.lt_asymm hab)

theorem getLast? (h : Numbers m l) : m.toList.getLast?.map Prod.fst = if l = [] then none else some (l.length - 1) := by
  rw [h.toList, numbered, List.getLast?_map, Option.map_map]
  rcases List.eq_nil_or_concat' l with rfl | ⟨init, last, rfl⟩
  · rfl
  · rw [if_neg (by simp), List.zipIdx_append]
    simp

theorem insert (h : Numbers m l) (v : V) : Numbers (m.insert l.length v) (l ++ [v]) := by
  intro i
  by_cases hi : l.length = i
  · subst hi
    rw [FiniteMap.getElem?_insert_self', List.getElem?_concat_length]
  · rw [FiniteMap.getElem?_insert_of_ne m v hi, h i]
    by_cases hlt : i < l.length
    · rw [List.getElem?_append_left hlt]
    · rw [List.getElem?_eq_none (by omega), List.getElem?_eq_none (by simp; omega)]

theorem erase (h : Numbers m l) {es : List (Nat × V)} {lo : Nat} (hes : ∀ i, (∃ v, (i, v) ∈ es) ↔ lo ≤ i ∧ i < l.length) :
    Numbers (es.foldl (fun m e => m.erase e.1) m) (l.take lo) := by
  intro i
  rw [FiniteMap.getElem?_foldl_erase, h i, List.getElem?_take]
  by_cases hlo : i < lo
  · rw [if_pos hlo, if_neg]
    intro hmem
    obtain ⟨e, he, rfl⟩ := List.mem_map.mp hmem
    exact absurd ((hes e.1).mp ⟨e.2, he⟩).1 (by omega)
  · rw [if_neg hlo]
    by_cases hi : i < l.length
    · obtain ⟨v, hv⟩ := (hes i).mpr ⟨by omega, hi⟩
      rw [if_pos (List.mem_map.mpr ⟨(i, v), hv, rfl⟩)]
    · rw [List.getElem?_eq_none (by omega), ite_self]

theorem mem_iff (h : Numbers m l) {i : Nat} : i ∈ m ↔ i < l.length := by
  rw [Std.ExtTreeMap.mem_iff_isSome_getElem?, h i]
  simp

end Numbers

/-- Whether a position is in a half open range; an end that is missing does not bound it. -/
def inRange (min max : Option Nat) (i : Nat) : Bool := min.all (· ≤ i) && max.all (i < ·)

/-- The elements in a half open range of positions. -/
def slice (min max : Option Nat) (l : List V) : List V := (max.elim l l.take).drop (min.getD 0)

theorem inRange_iff (min max : Option Nat) (i : Nat) : inRange min max i = true ↔ min.getD 0 ≤ i ∧ ∀ n ∈ max, i < n := by
  cases min <;> cases max <;> simp [inRange]

theorem filter_numbered (min max : Option Nat) (l : List V) :
    ((numbered l).filter (fun e => inRange min max e.1)).map Prod.snd = slice min max l := by
  induction l using List.reverseRecOn with
  | nil => cases max <;> simp [numbered, slice]
  | append_singleton l v ih =>
    have hnumbered : numbered (l ++ [v]) = numbered l ++ [(l.length, v)] := by simp [numbered, List.zipIdx_append]
    have hcut : slice min max (l ++ [v]) = slice min max l ++ if inRange min max l.length then [v] else [] := by
      by_cases hmax : ∀ n ∈ max, l.length < n
      · -- the end of the range is behind the element
        have htake (k : List V) (hk : k.length ≤ l.length + 1) : max.elim k k.take = k := by
          cases max with
          | none => rfl
          | some n => exact List.take_of_length_le (Nat.le_trans hk (hmax n rfl))
        rw [slice, slice, htake _ (by simp), htake _ (by simp)]
        by_cases hmin : min.getD 0 ≤ l.length
        · rw [if_pos ((inRange_iff min max _).mpr ⟨hmin, hmax⟩), List.drop_append_of_le_length hmin]
        · rw [if_neg (fun h => hmin ((inRange_iff min max _).mp h).1), List.drop_eq_nil_of_le (by simp; omega),
            List.drop_eq_nil_of_le (by omega), List.append_nil]
      · rw [if_neg (fun h => hmax ((inRange_iff min max _).mp h).2), List.append_nil, slice, slice]
        push Not at hmax
        obtain ⟨n, rfl, hn⟩ := hmax
        rw [Option.elim_some, Option.elim_some, List.take_append_of_le_length hn]
    rw [hnumbered, List.filter_append, List.map_append, ih, hcut]
    by_cases hlast : inRange min max l.length <;> simp [hlast]

/-- A range lists exactly what has a property when its positions are those where it holds. -/
theorem slice_eq_filter_iff (min max : Option Nat) (p : V → Bool) (l : List V) :
    slice min max l = l.filter p ↔ ∀ i v, l[i]? = some v → inRange min max i = p v := by
  have hfilter : l.filter p = ((numbered l).filter (fun e => p e.2)).map Prod.snd := by
    conv_lhs => rw [← map_snd_numbered l]
    rw [List.filter_map]
    rfl
  rw [hfilter, ← filter_numbered]
  constructor
  · intro heq i v hi
    have hlist : ∀ e ∈ (numbered l).filter (fun e => inRange min max e.1), p e.2 = true := by
      intro e he
      have hmem : e.2 ∈ ((numbered l).filter (fun e => inRange min max e.1)).map Prod.snd := List.mem_map_of_mem he
      rw [heq, ← hfilter] at hmem
      exact (List.mem_filter.mp hmem).2
    -- what is in the range is a part of what has the property, and not a shorter one
    have hpart : ((numbered l).filter (fun e => p e.2)).filter (fun e => inRange min max e.1) =
        (numbered l).filter (fun e => inRange min max e.1) := by
      rw [List.filter_filter]
      refine List.filter_congr fun e he => ?_
      by_cases hrange : inRange min max e.1 = true
      · rw [hrange, hlist e (List.mem_filter.mpr ⟨he, hrange⟩)]
        rfl
      · rw [Bool.eq_false_iff.mpr hrange, Bool.false_and]
    have hlength : ((numbered l).filter (fun e => inRange min max e.1)).length = ((numbered l).filter (fun e => p e.2)).length := by
      have hsame := congrArg List.length heq
      rwa [List.length_map, List.length_map] at hsame
    rw [← hpart, List.length_filter_eq_length_iff] at hlength
    have hat : (i, v) ∈ numbered l := mem_numbered.mpr hi
    cases hp : p v with
    | true => exact hlength (i, v) (List.mem_filter.mpr ⟨hat, hp⟩)
    | false =>
      refine Bool.eq_false_iff.mpr fun hrange => ?_
      have hholds := hlist (i, v) (List.mem_filter.mpr ⟨hat, hrange⟩)
      rw [hp] at hholds
      cases hholds
  · intro hsame
    refine congrArg (List.map Prod.snd) (List.filter_congr fun e he => ?_)
    exact hsame e.1 e.2 (mem_numbered.mp he)

end Xelis.Lib
