import Mathlib.Data.List.Induction
import Mathlib.Data.List.Nodup

/-! Groups dealt out in turn over a number of batches. -/

namespace Xelis.Lib

variable {α K : Type}

/-- Group `i` goes to the end of batch `i % count`. -/
def roundRobin (count : Nat) (groups : List (List α)) : List (List α) :=
  groups.zipIdx.foldl (fun batches group => batches.modify (group.2 % count) (· ++ group.1)) (List.replicate count [])

@[simp] theorem roundRobin_nil (count : Nat) : roundRobin count ([] : List (List α)) = List.replicate count [] := rfl

theorem roundRobin_concat (count : Nat) (groups : List (List α)) (group : List α) :
    roundRobin count (groups ++ [group]) = (roundRobin count groups).modify (groups.length % count) (· ++ group) := by
  unfold roundRobin
  rw [List.zipIdx_append, List.foldl_append]
  simp

@[simp] theorem length_roundRobin (count : Nat) (groups : List (List α)) : (roundRobin count groups).length = count := by
  induction groups using List.reverseRecOn with
  | nil => simp
  | append_singleton groups group ih => rw [roundRobin_concat, List.length_modify, ih]

theorem roundRobin_length (groups : List (List α)) : roundRobin groups.length groups = groups := by
  have hfill (rest : Nat) : roundRobin (groups.length + rest) groups = groups ++ List.replicate rest [] := by
    induction groups using List.reverseRecOn generalizing rest with
    | nil => simp
    | append_singleton groups group ih =>
      have hcount : (groups ++ [group]).length + rest = groups.length + (rest + 1) := by
        simp only [List.length_append, List.length_singleton]
        omega
      have hturn : groups.length % (groups.length + (rest + 1)) = groups.length := Nat.mod_eq_of_lt (by omega)
      rw [roundRobin_concat, hcount, ih (rest + 1), hturn, List.modify_eq_take_cons_drop (by simp)]
      simp [List.replicate_succ]
  simpa using hfill 0

theorem mem_modify_append {batches : List (List α)} {i : Nat} {group b : List α}
    (h : b ∈ batches.modify i (· ++ group)) : b ∈ batches ∨ ∃ b' ∈ batches, b = b' ++ group := by
  obtain ⟨j, hj⟩ := List.mem_iff_getElem?.mp h
  rw [List.getElem?_modify] at hj
  cases hb : batches[j]? with
  | none =>
    rw [hb] at hj
    cases hj
  | some b' =>
    rw [hb] at hj
    have hmem := List.mem_of_getElem? hb
    by_cases hij : i = j
    · rw [Option.map_eq_map, Option.map_some, if_pos hij] at hj
      exact .inr ⟨b', hmem, (Option.some.inj hj).symm⟩
    · rw [Option.map_eq_map, Option.map_some, if_neg hij] at hj
      cases hj
      exact .inl hmem

section Keyed

variable [DecidableEq K] (key : α → K) (all : List α)

/-- The elements of a key, in their order. -/
def groupOf (k : K) : List α := all.filter (fun a => key a = k)

/-- Every batch holds all the elements of a key or none of them. -/
structure Dealt (keys : List K) (batches : List (List α)) : Prop where
  subset : ∀ b ∈ batches, ∀ a ∈ b, a ∈ all
  whole : ∀ b ∈ batches, ∀ k, groupOf key b k = [] ∨ k ∈ keys ∧ groupOf key b k = groupOf key all k
  placed : ∀ k ∈ keys, ∃ b ∈ batches, groupOf key b k = groupOf key all k

variable {key all}

theorem groupOf_append (b b' : List α) (k : K) : groupOf key (b ++ b') k = groupOf key b k ++ groupOf key b' k :=
  List.filter_append ..

theorem groupOf_groupOf_self (k : K) : groupOf key (groupOf key all k) k = groupOf key all k := by
  unfold groupOf
  rw [List.filter_filter]
  simp

theorem groupOf_groupOf_of_ne {k k' : K} (hne : k ≠ k') : groupOf key (groupOf key all k) k' = [] := by
  unfold groupOf
  rw [List.filter_filter, List.filter_eq_nil_iff]
  intro a _ hboth
  simp only [Bool.and_eq_true, decide_eq_true_eq] at hboth
  exact hne (hboth.2.symm.trans hboth.1)

theorem dealt_roundRobin {count : Nat} (hcount : 0 < count) {keys : List K} (hnodup : keys.Nodup) :
    Dealt key all keys (roundRobin count (keys.map (groupOf key all))) := by
  induction keys using List.reverseRecOn with
  | nil =>
    rw [List.map_nil, roundRobin_nil]
    refine ⟨fun b hb a ha => ?_, fun b hb k => ?_, fun k hk => nomatch hk⟩
    · rw [List.eq_of_mem_replicate hb] at ha
      cases ha
    · rw [List.eq_of_mem_replicate hb]
      exact .inl rfl
  | append_singleton keys k ih =>
    obtain ⟨hkeys, -, hnew⟩ := List.nodup_append.mp hnodup
    have hfresh : k ∉ keys := fun hk => hnew k hk k (List.mem_singleton.mpr rfl) rfl
    have hdealt := ih hkeys
    rw [List.map_append, List.map_singleton, roundRobin_concat, List.length_map]
    -- a batch that takes the group has nothing of its key yet
    have hempty (b : List α) (hb : b ∈ roundRobin count (keys.map (groupOf key all))) : groupOf key b k = [] :=
      (hdealt.whole b hb k).resolve_right fun h => hfresh h.1
    have hself (b : List α) (hb : b ∈ roundRobin count (keys.map (groupOf key all))) :
        groupOf key (b ++ groupOf key all k) k = groupOf key all k := by
      rw [groupOf_append, hempty b hb, List.nil_append, groupOf_groupOf_self]
    have hother (b : List α) {k' : K} (hne : k ≠ k') : groupOf key (b ++ groupOf key all k) k' = groupOf key b k' := by
      rw [groupOf_append, groupOf_groupOf_of_ne hne, List.append_nil]
    have hlt : keys.length % count < (roundRobin count (keys.map (groupOf key all))).length := by
      rw [length_roundRobin]
      exact Nat.mod_lt _ hcount
    refine ⟨fun b hb a ha => ?_, fun b hb k' => ?_, fun k' hk' => ?_⟩
    · rcases mem_modify_append hb with hold | ⟨b', hb', rfl⟩
      · exact hdealt.subset b hold a ha
      · rcases List.mem_append.mp ha with ha | ha
        · exact hdealt.subset b' hb' a ha
        · exact List.mem_of_mem_filter ha
    · rcases mem_modify_append hb with hold | ⟨b', hb', rfl⟩
      · exact (hdealt.whole b hold k').imp id fun h => ⟨List.mem_append_left _ h.1, h.2⟩
      · by_cases hne : k = k'
        · subst hne
          exact .inr ⟨by simp, hself b' hb'⟩
        · rw [hother b' hne]
          exact (hdealt.whole b' hb' k').imp id fun h => ⟨List.mem_append_left _ h.1, h.2⟩
    · by_cases hne : k = k'
      · subst hne
        refine ⟨(roundRobin count (keys.map (groupOf key all)))[keys.length % count] ++ groupOf key all k, ?_,
          hself _ (List.getElem_mem hlt)⟩
        rw [List.mem_iff_getElem?]
        refine ⟨keys.length % count, ?_⟩
        rw [List.getElem?_modify_eq, List.getElem?_eq_getElem hlt]
        rfl
      · have hk' : k' ∈ keys := by
          rcases List.mem_append.mp hk' with hk' | hk'
          · exact hk'
          · exact absurd (List.mem_singleton.mp hk').symm hne
        obtain ⟨b, hb, hgroup⟩ := hdealt.placed k' hk'
        obtain ⟨j, hj⟩ := List.mem_iff_getElem?.mp hb
        by_cases hturn : keys.length % count = j
        · refine ⟨b ++ groupOf key all k, List.mem_iff_getElem?.mpr ⟨j, ?_⟩, (hother b hne).trans hgroup⟩
          rw [List.getElem?_modify, hj, Option.map_eq_map, Option.map_some, if_pos hturn]
        · refine ⟨b, List.mem_iff_getElem?.mpr ⟨j, ?_⟩, hgroup⟩
          rw [List.getElem?_modify, hj, Option.map_eq_map, Option.map_some, if_neg hturn]

end Keyed

end Xelis.Lib
