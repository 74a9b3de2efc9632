import Xelis.Lib.LinkedHistory
import Xelis.Storage.Pruning
import Xelis.Storage.Versions

namespace Xelis.Storage

open Lib (FiniteMap History)

section Search

variable {V : Type} {link : V → Option Nat} {h : History V} {t u : Nat} {v : V}
  {load : TopoHeight → Except BlockchainError (Option TopoHeight)}
variable {x fuel : Nat}

theorem searchPrevious_of_holdsAt (hload : ∀ x v, h.version x = some v → load x = .ok (link v)) (hl : h.Linked link)
    (hu : h.HoldsAt t u v) (hx : (h.version x).isSome) (hux : u ≤ x) (hfuel : x + 2 ≤ fuel) :
    searchPrevious load t fuel (some x) = .ok (some u) := by
  induction x using Nat.strongRecOn generalizing fuel with
  | _ x ih =>
    obtain ⟨fuel, rfl⟩ : ∃ k : Nat, fuel = k + 1 := ⟨fuel - 1, by omega⟩
    unfold searchPrevious
    by_cases hxt : x ≤ t
    · rcases Nat.lt_or_eq_of_le hux with hlt | heq
      · rw [hu.newest x hlt hxt] at hx
        cases hx
      · rw [if_pos hxt, heq]
    · obtain ⟨vx, hvx⟩ := Option.isSome_iff_exists.mp hx
      have hlt : u < x := Nat.lt_of_le_of_lt hu.le (Nat.lt_of_not_le hxt)
      obtain ⟨p, hp, hup⟩ := hl.exists_link hvx (by rw [hu.version]; rfl) hlt
      have hpx : p < x := hl.link_lt hvx hp
      rw [if_neg hxt, hload x vx hvx, hp]
      exact ih p hpx (hl.link_stored hvx hp) hup (by omega)

theorem searchPrevious_of_empty (hload : ∀ x v, h.version x = some v → load x = .ok (link v)) (hl : h.Linked link)
    (hempty : h.EmptyUntil t) (hx : (h.version x).isSome) (hfuel : x + 2 ≤ fuel) :
    searchPrevious load t fuel (some x) = .ok none := by
  induction x using Nat.strongRecOn generalizing fuel with
  | _ x ih =>
    obtain ⟨fuel, rfl⟩ : ∃ k : Nat, fuel = k + 1 := ⟨fuel - 1, by omega⟩
    obtain ⟨vx, hvx⟩ := Option.isSome_iff_exists.mp hx
    have hxt : ¬x ≤ t := by
      intro hle
      rw [hempty x hle] at hx
      cases hx
    unfold searchPrevious
    rw [if_neg hxt, hload x vx hvx]
    cases hp : link vx with
    | none =>
      obtain ⟨fuel, rfl⟩ : ∃ k : Nat, fuel = k + 1 := ⟨fuel - 1, by omega⟩
      rfl
    | some p =>
      have hpx : p < x := hl.link_lt hvx hp
      exact ih p hpx (hl.link_stored hvx hp) (by omega)

end Search

end Xelis.Storage

namespace Xelis.Storage.VersionedTrees

open Lib (FiniteMap History)
open Lib.History (Walk without)

variable {key' key : Key} {t : TopoHeight}

section Keys

variable {V : Type} {tr tr' tr'' : VersionedTrees V} {key : Key}

structure OnlyKey (key : Key) (tr tr' : VersionedTrees V) : Prop where
  pointers : tr'.pointers = tr.pointers
  versions : ∀ key', key' ≠ key → ∀ u, tr'.version key' u = tr.version key' u

theorem OnlyKey.refl (key : Key) (tr : VersionedTrees V) : OnlyKey key tr tr := ⟨rfl, fun _ _ _ => rfl⟩

theorem OnlyKey.trans (h : OnlyKey key tr tr') (h' : OnlyKey key tr' tr'') : OnlyKey key tr tr'' where
  pointers := h'.pointers.trans h.pointers
  versions key' hne u := (h'.versions key' hne u).trans (h.versions key' hne u)

theorem OnlyKey.history (h : OnlyKey key tr tr') (hne : key' ≠ key) : tr'.history key' = tr.history key' := by
  refine History.ext ?_ (funext fun u => h.versions key' hne u)
  show tr'.pointers[key']? = tr.pointers[key']?
  rw [h.pointers]

theorem onlyKey_removeAt (tr : VersionedTrees V) (key : Key) (t : TopoHeight) : OnlyKey key tr (tr.removeAt key t) where
  pointers := rfl
  versions _ hne _ := FiniteMap.getElem?_erase_of_ne _ fun he => hne (getVersionedKey_inj he).1.symm

theorem onlyKey_setAt (tr : VersionedTrees V) (key : Key) (t : TopoHeight) (v : V) : OnlyKey key tr (tr.setAt key t v) where
  pointers := rfl
  versions _ hne _ := FiniteMap.getElem?_insert_of_ne _ _ fun he => hne (getVersionedKey_inj he).1.symm

theorem version_removeAt (tr : VersionedTrees V) (key : Key) (t : TopoHeight) :
    (tr.removeAt key t).version key = Function.update (tr.version key) t none := by
  funext u
  by_cases hu : u = t
  · subst hu
    rw [Function.update_self]
    exact FiniteMap.getElem?_erase_self' _ _
  · rw [Function.update_of_ne hu]
    exact FiniteMap.getElem?_erase_of_ne _ fun he => hu (getVersionedKey_inj he).2.symm

theorem version_setAt (tr : VersionedTrees V) (key : Key) (t : TopoHeight) (v : V) :
    (tr.setAt key t v).version key = Function.update (tr.version key) t (some v) := by
  funext u
  by_cases hu : u = t
  · subst hu
    rw [Function.update_self]
    exact FiniteMap.getElem?_insert_self' _ _ _
  · rw [Function.update_of_ne hu]
    exact FiniteMap.getElem?_insert_of_ne _ _ fun he => hu (getVersionedKey_inj he).2.symm

theorem size_removeAt (h : (tr.version key t).isSome) : (tr.removeAt key t).versions.size + 1 = tr.versions.size := by
  have hmem : getVersionedKey key t ∈ tr.versions := Std.ExtTreeMap.mem_iff_isSome_getElem?.mpr h
  have hcontains : tr.versions.contains (getVersionedKey key t) = true := Std.ExtTreeMap.mem_iff_contains.mp hmem
  have hpos : tr.versions.size ≠ 0 := by
    intro hzero
    rw [Std.ExtTreeMap.eq_empty_iff_size_eq_zero.mpr hzero] at hmem
    exact Std.ExtTreeMap.not_mem_empty hmem
  show (tr.versions.erase (getVersionedKey key t)).size + 1 = _
  rw [Std.ExtTreeMap.size_erase, if_pos hcontains]
  omega

theorem size_setAt (h : (tr.version key t).isSome) (v : V) : (tr.setAt key t v).versions.size = tr.versions.size := by
  have hcontains : tr.versions.contains (getVersionedKey key t) = true := by
    rw [Std.ExtTreeMap.contains_eq_isSome_getElem?]
    exact h
  show (tr.versions.insert (getVersionedKey key t) v).size = _
  rw [Std.ExtTreeMap.size_insert, if_pos hcontains]

end Keys

variable {t' l x fuel : Nat}

section WellFormed

variable {V : Type}

theorem history_empty (key : Key) : (empty : VersionedTrees V).history key = ⟨none, fun _ => none⟩ :=
  History.ext Std.ExtTreeMap.getElem?_empty (funext fun _ => Std.ExtTreeMap.getElem?_empty)

variable [HasPrevious V]

def WellFormed (tr : VersionedTrees V) : Prop := ∀ key, (tr.history key).Linked HasPrevious.previousTopoheight

theorem WellFormed.empty : (empty : VersionedTrees V).WellFormed := by
  intro key
  rw [history_empty]
  exact History.Linked.empty

variable {tr : VersionedTrees V}

omit [HasPrevious V] in
theorem lt_of_pointers_setLast {t : Nat} {v : V} (hlt : t < t')
    (hl : (tr.setLast key t v).pointers[key]? = some l) : l < t' := by
  rw [pointers_setLast_self, Option.some.injEq] at hl
  rwa [← hl]

theorem WellFormed.setLast (hwf : tr.WellFormed) {v : V}
    (hlink : HasPrevious.previousTopoheight v = tr.pointers[key]?) (hlt : ∀ l, tr.pointers[key]? = some l → l < t) :
    (tr.setLast key t v).WellFormed := by
  intro key'
  by_cases hkey : key = key'
  · subst hkey
    rw [history_setLast_self]
    exact (hwf key).push hlink hlt
  · rw [history_setLast_of_ne _ _ _ _ hkey]
    exact hwf key'

end WellFormed

section Lookup

variable {V : Type} [HasPrevious V] {tr : VersionedTrees V} {key : Key} {t u : TopoHeight} {v : V}
  {linkContext versionContext : TopoHeight → DiskContext}

theorem loadPrevious_of_version {context : DiskContext} (hv : (tr.history key).version u = some v) :
    tr.loadPrevious context key u = .ok (HasPrevious.previousTopoheight v) := by
  have hv : tr.version key u = some v := hv
  simp only [loadPrevious, hv]

theorem searchPrevious_holdsAt (linkContext : TopoHeight → DiskContext)
    (hl : (tr.history key).Linked HasPrevious.previousTopoheight)
    (hu : (tr.history key).HoldsAt t u v) (hx : (tr.version key x).isSome) (hux : u ≤ x) (hfuel : x + 2 ≤ fuel) :
    searchPrevious (fun t => tr.loadPrevious (linkContext t) key t) t fuel (some x) = .ok (some u) :=
  searchPrevious_of_holdsAt (fun _ _ => loadPrevious_of_version) hl hu hx hux hfuel

theorem searchPrevious_empty (linkContext : TopoHeight → DiskContext)
    (hl : (tr.history key).Linked HasPrevious.previousTopoheight)
    (hempty : (tr.history key).EmptyUntil t) (hx : (tr.version key x).isSome) (hfuel : x + 2 ≤ fuel) :
    searchPrevious (fun t => tr.loadPrevious (linkContext t) key t) t fuel (some x) = .ok none :=
  searchPrevious_of_empty (fun _ _ => loadPrevious_of_version) hl hempty hx hfuel

theorem lookup_holdsAt (hl : (tr.history key).Linked HasPrevious.previousTopoheight)
    (hu : (tr.history key).HoldsAt t u v) :
    tr.lookup linkContext versionContext key t (tr.searchStart key t) = .ok (some (u, v)) := by
  have hv : tr.version key u = some v := hu.version
  unfold searchStart
  by_cases hexact : (tr.version key t).isSome
  · have heq : u = t := by
      rcases Nat.lt_or_eq_of_le hu.le with hlt | heq
      · have hnone : tr.version key t = none := hu.newest t hlt (Nat.le_refl t)
        rw [hnone] at hexact
        cases hexact
      · exact heq
    subst heq
    rw [if_pos hexact]
    exact lookup_of_le (Nat.le_refl _) hv
  · obtain ⟨last, hlast, hle⟩ := hl.exists_last (u := u) (by rw [hu.version]; rfl)
    have hpointer : tr.pointers[key]? = some last := hlast
    have henough : @HAdd.hAdd Nat Nat Nat _ last 2 ≤ tr.fuel last :=
      Nat.add_le_add_right (Nat.le_add_right last tr.versions.size) 2
    have hsearch := searchPrevious_holdsAt linkContext hl hu (hl.last_some last hlast).1 hle henough
    rw [if_neg hexact, hpointer]
    simp only [lookup, Option.getD_some, hsearch, loadVersion, hv, Except.map]

theorem lookup_empty (hl : (tr.history key).Linked HasPrevious.previousTopoheight)
    (hempty : (tr.history key).EmptyUntil t) :
    tr.lookup linkContext versionContext key t (tr.searchStart key t) = .ok none := by
  have hnone : tr.version key t = none := hempty t (Nat.le_refl t)
  unfold searchStart
  rw [hnone, Option.isSome_none, if_neg Bool.false_ne_true]
  cases hpointer : tr.pointers[key]? with
  | none => rfl
  | some last =>
    have henough : @HAdd.hAdd Nat Nat Nat _ last 2 ≤ tr.fuel last :=
      Nat.add_le_add_right (Nat.le_add_right last tr.versions.size) 2
    have hsearch := searchPrevious_empty linkContext hl hempty (hl.last_some last hpointer).1 henough
    simp only [lookup, Option.getD_some, hsearch]

end Lookup

section Removal

variable {V : Type} [StoredVersion V] {tr tr' : VersionedTrees V} {key : Key} {p : TopoHeight} {l : List TopoHeight}

/-- The deleting mode follows what it reads off the versions it removes. -/
theorem removeLoop_walk (h : removeLoop key fuel (some p) tr = .ok tr') :
    ∃ l, Walk readRemoved (tr.version key) p l ∧ tr'.version key = without (tr.version key) l ∧ OnlyKey key tr tr' := by
  induction fuel generalizing p tr with
  | zero => cases h
  | succ fuel ih =>
    unfold removeLoop removeFromDisk at h
    cases hv : tr.version key p with
    | none =>
      simp only [hv] at h
      refine ⟨[], .stop hv, ?_, ?_⟩
      · cases fuel with
        | zero => cases h
        | succ fuel =>
          cases h
          rw [version_removeAt]
          funext u
          rw [History.without_of_not_mem List.not_mem_nil]
          by_cases hu : u = p
          · rw [hu, Function.update_self, hv]
          · rw [Function.update_of_ne hu]
      · cases fuel with
        | zero => cases h
        | succ fuel =>
          cases h
          exact onlyKey_removeAt tr key p
    | some v =>
      cases hread : readRemoved v with
      | error e => simp [hv, hread] at h
      | ok next =>
        simp only [hv, hread] at h
        obtain ⟨l, hwalk, hversions, honly⟩ := ih h
        rw [version_removeAt] at hwalk hversions
        refine ⟨p :: l, .step hv hread hwalk, ?_, (onlyKey_removeAt tr key p).trans honly⟩
        rw [hversions, History.without_cons]

theorem walk_length_le (hwalk : Walk (E := BlockchainError) readRemoved (tr.version key) p l) :
    l.length ≤ tr.versions.size := by
  induction l generalizing tr p with
  | nil => exact Nat.zero_le _
  | cons q l ih =>
    cases hwalk with
    | step hv hread hrest =>
      rw [← version_removeAt] at hrest
      have hsize := size_removeAt (t := q) (show (tr.version key q).isSome by rw [hv]; rfl)
      have hle := ih hrest
      rw [List.length_cons]
      omega

theorem removeLoop_of_walk (hwalk : Walk readRemoved (tr.version key) p l) (hfuel : l.length + 2 ≤ fuel) :
    ∃ tr', removeLoop key fuel (some p) tr = .ok tr' ∧ tr'.version key = without (tr.version key) l ∧
      OnlyKey key tr tr' := by
  have hends : ∃ tr', removeLoop key fuel (some p) tr = .ok tr' := by
    induction l generalizing tr p fuel with
    | nil =>
      obtain ⟨fuel, rfl⟩ : ∃ k, fuel = k + 2 := ⟨fuel - 2, by simp at hfuel; omega⟩
      cases hwalk with
      | stop hv => exact ⟨tr.removeAt key p, by simp only [removeLoop, removeFromDisk, hv]⟩
    | cons q l ih =>
      obtain ⟨fuel, rfl⟩ : ∃ k, fuel = k + 1 := ⟨fuel - 1, by simp at hfuel; omega⟩
      cases hwalk with
      | step hv hread hrest =>
        rw [← version_removeAt] at hrest
        have hfuel' : l.length + 2 ≤ fuel := by
          rw [List.length_cons] at hfuel
          omega
        obtain ⟨tr', htr'⟩ := ih hrest hfuel'
        exact ⟨tr', by simp only [removeLoop, removeFromDisk, hv, hread]; exact htr'⟩
  obtain ⟨tr', htr'⟩ := hends
  obtain ⟨l', hwalk', hversions, honly⟩ := removeLoop_walk htr'
  rw [hwalk'.unique hwalk] at hversions
  exact ⟨tr', htr', hversions, honly⟩

end Removal

end Xelis.Storage.VersionedTrees
