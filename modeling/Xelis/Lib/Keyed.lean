import Mathlib.Data.List.Nodup
import Mathlib.Data.List.Perm.Basic

namespace Xelis.Lib.Keyed

variable {α β K : Type} [DecidableEq K] {key : α → K} {l l' : List α} {a : α} {k : K}

theorem find?_eq_none_iff : l.find? (fun a => key a = k) = none ↔ k ∉ l.map key := by
  simp only [List.find?_eq_none, decide_eq_true_eq, List.mem_map, not_exists, not_and]

theorem find?_eq_some_iff (h : (l.map key).Nodup) : l.find? (fun a => key a = k) = some a ↔ a ∈ l ∧ key a = k := by
  constructor
  · intro hfind
    exact ⟨List.mem_of_find?_eq_some hfind, by simpa using List.find?_some hfind⟩
  · rintro ⟨hmem, rfl⟩
    cases hfind : l.find? (fun b => key b = key a) with
    | none => exact absurd (List.mem_map_of_mem hmem) (find?_eq_none_iff.mp hfind)
    | some b =>
      have hkey : key b = key a := by simpa using List.find?_some hfind
      rw [List.inj_on_of_nodup_map h (List.mem_of_find?_eq_some hfind) hmem hkey]

/-- What is found does not depend on the order of the list. -/
theorem find?_perm (h : (l.map key).Nodup) (hperm : l'.Perm l) :
    l'.find? (fun a => key a = k) = l.find? (fun a => key a = k) := by
  have h' : (l'.map key).Nodup := (hperm.map key).nodup_iff.mpr h
  refine Option.ext fun a => ?_
  rw [find?_eq_some_iff h', find?_eq_some_iff h, hperm.mem_iff]

theorem eraseP_eq_filter (h : (l.map key).Nodup) : l.eraseP (fun a => key a = k) = l.filter (fun a => key a ≠ k) := by
  induction l with
  | nil => rfl
  | cons b l ih =>
    rw [List.map_cons, List.nodup_cons] at h
    by_cases hkey : key b = k
    · have hrest : l.filter (fun a => key a ≠ k) = l := by
        refine List.filter_eq_self.mpr fun c hc => decide_eq_true ?_
        rintro rfl
        exact h.1 (hkey ▸ List.mem_map_of_mem hc)
      rw [List.eraseP_cons_of_pos (by simpa using hkey), List.filter_cons_of_neg (by simpa using hkey), hrest]
    · rw [List.eraseP_cons_of_neg (by simpa using hkey), List.filter_cons_of_pos (by simpa using hkey), ih h.2]

end Xelis.Lib.Keyed
