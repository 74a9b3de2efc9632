import Std.Data.ExtTreeMap
import Mathlib.Data.List.Basic

/-! Ordered finite maps over a lawful key order, and write overlays on them. -/

namespace Xelis.Lib

/-- An ordered map is extensional: it is its lookup function. -/
abbrev FiniteMap (K V : Type) [Ord K] := Std.ExtTreeMap K V

namespace FiniteMap

variable {K V : Type} [Ord K] [Std.TransOrd K] [Std.LawfulEqOrd K]

theorem getElem?_insert_self' (m : FiniteMap K V) (k : K) (v : V) : (m.insert k v)[k]? = some v := by
  rw [Std.ExtTreeMap.getElem?_insert, if_pos Std.ReflCmp.compare_self]

variable {k a : K}

theorem getElem?_insert_of_ne (m : FiniteMap K V) (v : V) (h : k ≠ a) : (m.insert k v)[a]? = m[a]? := by
  rw [Std.ExtTreeMap.getElem?_insert, if_neg]
  exact fun hc => h (Std.LawfulEqCmp.eq_of_compare hc)

variable {m : FiniteMap K V}

omit [Std.LawfulEqOrd K] in
theorem not_mem_of_getElem?_eq_none (h : m[k]? = none) : k ∉ m := by
  intro hmem
  rw [Std.ExtTreeMap.getElem?_eq_some_getElem hmem] at h
  cases h

/-- Writing the value that is there changes nothing. -/
theorem insert_eq_self {v : V} (h : m[k]? = some v) : m.insert k v = m := by
  refine Std.ExtTreeMap.ext_getElem? fun a => ?_
  by_cases hk : k = a
  · subst hk
    rw [getElem?_insert_self', h]
  · exact getElem?_insert_of_ne m v hk

theorem insert_insert_self (m : FiniteMap K V) (k : K) (v w : V) : (m.insert k v).insert k w = m.insert k w := by
  refine Std.ExtTreeMap.ext_getElem? fun a => ?_
  by_cases hk : k = a
  · subst hk
    rw [getElem?_insert_self', getElem?_insert_self']
  · rw [getElem?_insert_of_ne _ _ hk, getElem?_insert_of_ne _ _ hk, getElem?_insert_of_ne _ _ hk]

theorem getElem?_erase_self' (m : FiniteMap K V) (k : K) : (m.erase k)[k]? = none := by
  rw [Std.ExtTreeMap.getElem?_erase, if_pos Std.ReflCmp.compare_self]

theorem getElem?_erase_of_ne (m : FiniteMap K V) (h : k ≠ a) : (m.erase k)[a]? = m[a]? := by
  rw [Std.ExtTreeMap.getElem?_erase, if_neg]
  exact fun hc => h (Std.LawfulEqCmp.eq_of_compare hc)

theorem getElem?_foldl_erase {E : Type} (key : E → K) (es : List E) (m : FiniteMap K V) (k : K) [DecidableEq K] :
    (es.foldl (fun m e => m.erase (key e)) m)[k]? = if k ∈ es.map key then none else m[k]? := by
  induction es generalizing m with
  | nil => rfl
  | cons e es ih =>
    rw [List.foldl_cons, ih]
    by_cases hk : key e = k
    · subst hk
      rw [getElem?_erase_self', ite_self, if_pos (List.mem_map_of_mem List.mem_cons_self)]
    · rw [getElem?_erase_of_ne m hk]
      have hmem : k ∈ (e :: es).map key ↔ k ∈ es.map key := by simp [Ne.symm hk]
      simp only [hmem]

/-- One pending write: `some v` sets the key, `none` is a tombstone. -/
def write (m : FiniteMap K V) (k : K) : Option V → FiniteMap K V
  | some v => m.insert k v
  | none => m.erase k

theorem getElem?_write_self (m : FiniteMap K V) (k : K) (w : Option V) : (m.write k w)[k]? = w := by
  cases w with
  | none => exact getElem?_erase_self' m k
  | some v => exact getElem?_insert_self' m k v

theorem getElem?_write_of_ne (m : FiniteMap K V) (w : Option V) (h : k ≠ a) : (m.write k w)[a]? = m[a]? := by
  cases w with
  | none => exact getElem?_erase_of_ne m h
  | some v => exact getElem?_insert_of_ne m v h

/-- Every entry of `ws`, in key order, updates its own key of `m` through `f`. -/
def merge {W : Type} (f : W → Option V → Option V) (m : FiniteMap K V) (ws : FiniteMap K W) : FiniteMap K V :=
  ws.toList.foldl (fun acc e => acc.write e.1 (f e.2 acc[e.1]?)) m

section Merge

variable {W : Type} (f : W → Option V → Option V)

private theorem getElem?_foldl_absent (es : List (K × W)) (m : FiniteMap K V) (k : K)
    (h : ∀ e ∈ es, e.1 ≠ k) : (es.foldl (fun acc e => acc.write e.1 (f e.2 acc[e.1]?)) m)[k]? = m[k]? := by
  induction es generalizing m with
  | nil => rfl
  | cons e es ih =>
    rw [List.foldl_cons, ih _ (fun d hd => h d (List.mem_cons_of_mem _ hd))]
    exact getElem?_write_of_ne m _ (h e List.mem_cons_self)

private theorem getElem?_foldl_present (es : List (K × W)) (m : FiniteMap K V) (k : K) (w : W)
    (hd : es.Pairwise (fun a b => a.1 ≠ b.1)) (h : (k, w) ∈ es) :
    (es.foldl (fun acc e => acc.write e.1 (f e.2 acc[e.1]?)) m)[k]? = f w m[k]? := by
  induction es generalizing m with
  | nil => cases h
  | cons e es ih =>
    rw [List.pairwise_cons] at hd
    rw [List.foldl_cons]
    rcases List.mem_cons.mp h with rfl | hmem
    · rw [getElem?_foldl_absent f es _ k (fun d hdm => (hd.1 d hdm).symm)]
      exact getElem?_write_self m k _
    · rw [ih _ hd.2 hmem, getElem?_write_of_ne m _ (hd.1 (k, w) hmem)]

theorem toList_keys_distinct (ws : FiniteMap K W) : ws.toList.Pairwise (fun a b => a.1 ≠ b.1) := by
  refine Std.ExtTreeMap.distinct_keys_toList.imp ?_
  intro a b hab heq
  exact hab (by rw [heq]; exact Std.ReflCmp.compare_self)

/-- The order of the entries does not matter: each one meets the value `m` had at its key. -/
theorem getElem?_merge (m : FiniteMap K V) (ws : FiniteMap K W) (k : K) :
    (m.merge f ws)[k]? = match ws[k]? with
      | some w => f w m[k]?
      | none => m[k]? := by
  cases hw : ws[k]? with
  | none =>
    refine getElem?_foldl_absent f _ m k ?_
    rintro ⟨k', w⟩ he rfl
    rw [Std.ExtTreeMap.mem_toList_iff_getElem?_eq_some, hw] at he
    cases he
  | some w =>
    exact getElem?_foldl_present f _ m k w (toList_keys_distinct ws)
      (Std.ExtTreeMap.mem_toList_iff_getElem?_eq_some.mpr hw)

end Merge

/-- The pending writes of an overlay, applied to the map below in key order. -/
def overlay (m : FiniteMap K V) (writes : FiniteMap K (Option V)) : FiniteMap K V :=
  m.merge (fun w _ => w) writes

/-- Reading through an overlay: its own entry decides, tombstones included. -/
theorem getElem?_overlay (m : FiniteMap K V) (writes : FiniteMap K (Option V)) (k : K) :
    (m.overlay writes)[k]? = writes[k]?.getD m[k]? := by
  rw [overlay, getElem?_merge]
  cases writes[k]? with
  | none => rfl
  | some w => rfl

end FiniteMap

end Xelis.Lib
