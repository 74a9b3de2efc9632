import Xelis.Storage.AccountSearch
import Xelis.Storage.Deletion
import Xelis.Wire.Account

namespace Xelis.Storage

open Lib (FiniteMap History Exec toBeBytes)

variable {P : Type} {s s' : Storage P} {key : PublicKey} {t : TopoHeight}

/-- The multisigs of an account, with the deletions among them. -/
def multisigHistory (s : Storage P) (key : PublicKey) : History (Versioned (Option MultiSigPayload)) :=
  ⟨s.multisig.pointers[keyBytes key]?, fun t => s.multisig.versions[getVersionedMultisigKey key t]?⟩

/-- What the multisigs of some accounts were in a range. -/
def getUpdatedMultisigs (s : Storage P) (keys : List PublicKey) (minTopoheight maxTopoheight : TopoHeight) :
    Except BlockchainError (List (Wire.State MultiSigPayload)) :=
  keys.mapM fun key => do
    match ← s.getMultisigAtMaximumTopoheightFor key maxTopoheight with
    | none => return .none
    | some (topoheight, version) =>
      if topoheight < minTopoheight then return .clean
      match version.data with
      | some multisig => return .some multisig
      | none => return .deleted

theorem getVersionedMultisigKey_inj {key' : PublicKey} {t' : TopoHeight}
    (h : getVersionedMultisigKey key t = getVersionedMultisigKey key' t') : key = key' ∧ t = t' := by
  unfold getVersionedMultisigKey at h
  obtain ⟨hkey, htopo⟩ := List.append_inj h (by rw [length_keyBytes, length_keyBytes])
  exact ⟨keyBytes_injective hkey, Lib.toBeBytes_injective htopo⟩

theorem multisigHistory_setLast_self (s : Storage P) (key : PublicKey) (t : TopoHeight)
    (v : Versioned (Option MultiSigPayload)) :
    (s.setLastMultisigTo key t v).multisigHistory key = (s.multisigHistory key).push t v := by
  refine History.ext (FiniteMap.getElem?_insert_self' _ _ _) (funext fun u => ?_)
  by_cases hu : u = t
  · subst hu
    rw [History.version_push_self]
    exact FiniteMap.getElem?_insert_self' _ _ _
  · rw [History.version_push_of_ne _ _ _ hu]
    exact FiniteMap.getElem?_insert_of_ne _ _ fun he => hu (getVersionedMultisigKey_inj he).2.symm

theorem multisigHistory_setLast_of_ne (s : Storage P) {key key' : PublicKey} (hne : key' ≠ key) (t : TopoHeight)
    (v : Versioned (Option MultiSigPayload)) :
    (s.setLastMultisigTo key' t v).multisigHistory key = s.multisigHistory key := by
  refine History.ext (FiniteMap.getElem?_insert_of_ne _ _ fun he => hne (keyBytes_injective he)) (funext fun u => ?_)
  exact FiniteMap.getElem?_insert_of_ne _ _ fun he => hne (getVersionedMultisigKey_inj he).1

theorem multisigHistory_congr (h : s'.multisig = s.multisig) (key : PublicKey) :
    s'.multisigHistory key = s.multisigHistory key := by
  unfold multisigHistory
  rw [h]

theorem multisigHistory_empty (h : s.multisig = .empty) (key : PublicKey) :
    s.multisigHistory key = ⟨none, fun _ => none⟩ := by
  unfold multisigHistory
  rw [h]
  exact History.ext Std.ExtTreeMap.getElem?_empty (funext fun _ => Std.ExtTreeMap.getElem?_empty)

section Lookup

variable {r : Option (TopoHeight × Versioned (Option MultiSigPayload))}

theorem getMultisig_congr (h : s'.multisig = s.multisig) (key : PublicKey) (t : TopoHeight) :
    s'.getMultisigAtMaximumTopoheightFor key t = s.getMultisigAtMaximumTopoheightFor key t := by
  unfold getMultisigAtMaximumTopoheightFor loadMultisig
  rw [h]

theorem loadMultisig_of_version {u : TopoHeight} {v : Versioned (Option MultiSigPayload)}
    (hv : (s.multisigHistory key).version u = some v) : s.loadMultisig key u = .ok v := by
  have hv : s.multisig.versions[getVersionedMultisigKey key u]? = some v := hv
  simp only [loadMultisig, hv]

theorem getMultisigAtMaximumTopoheightFor_found (hl : (s.multisigHistory key).Linked (·.previousTopoheight))
    (hr : (s.multisigHistory key).Found t r) : s.getMultisigAtMaximumTopoheightFor key t = .ok r := by
  have hload : ∀ x v, (s.multisigHistory key).version x = some v →
      (s.loadMultisig key x).map (·.previousTopoheight) = .ok v.previousTopoheight := by
    intro x v hv
    rw [loadMultisig_of_version hv]
    rfl
  have hsearch : searchPrevious (fun x => (s.loadMultisig key x).map (·.previousTopoheight)) t
      (s.multisig.fuel ((if s.multisig.versions.contains (getVersionedMultisigKey key t) then some t
        else s.multisig.pointers[keyBytes key]?).getD 0))
      (if s.multisig.versions.contains (getVersionedMultisigKey key t) then some t
        else s.multisig.pointers[keyBytes key]?) = .ok (r.map Prod.fst) := by
    by_cases hexact : s.multisig.versions.contains (getVersionedMultisigKey key t) = true
    · rw [if_pos hexact]
      rw [Std.ExtTreeMap.contains_eq_isSome_getElem?] at hexact
      obtain ⟨v, hv⟩ := Option.isSome_iff_exists.mp hexact
      have hself : (s.multisigHistory key).Found t (some (t, v)) := History.holdsAt_self hv
      have henough : @HAdd.hAdd Nat Nat Nat _ t 2 ≤ s.multisig.fuel t :=
        Nat.add_le_add_right (Nat.le_add_right t s.multisig.versions.size) 2
      rw [hr.unique hself]
      exact searchPrevious_of_holdsAt hload hl hself hexact (Nat.le_refl t) henough
    · rw [if_neg hexact]
      cases hpointer : s.multisig.pointers[keyBytes key]? with
      | none =>
        have hempty : (s.multisigHistory key).Found t none := fun u _ => hl.last_none hpointer u
        rw [hr.unique hempty]
        rfl
      | some last =>
        have hlast := (hl.last_some last hpointer).1
        have henough : @HAdd.hAdd Nat Nat Nat _ last 2 ≤ s.multisig.fuel last :=
          Nat.add_le_add_right (Nat.le_add_right last s.multisig.versions.size) 2
        match r, hr with
        | none, hempty => exact searchPrevious_of_empty hload hl hempty hlast henough
        | some (u, v), hu =>
          have hle : u ≤ last := hl.le_last hpointer (by rw [hu.version]; rfl)
          exact searchPrevious_of_holdsAt hload hl hu hlast hle henough
  unfold getMultisigAtMaximumTopoheightFor
  simp only [hsearch, bind, Except.bind, pure, Except.pure]
  match r, hr with
  | none, _ => rfl
  | some (u, v), hu => simp only [Option.map_some, loadMultisig_of_version hu.version]

/-- The versions of an account point to the newest one before them, only the first one to none, and a lookup ends with
the newest version that is not above its maximum. -/
structure MultisigChain (s : Storage P) (key : PublicKey) : Prop where
  first : ∀ t v, (s.multisigHistory key).version t = some v → v.previousTopoheight = none →
    ∀ u, u < t → (s.multisigHistory key).version u = none
  previous : ∀ t v p, (s.multisigHistory key).version t = some v → v.previousTopoheight = some p →
    p < t ∧ ((s.multisigHistory key).version p).isSome ∧ ∀ u, p < u → u < t → (s.multisigHistory key).version u = none
  lookup : ∀ m, ∃ r, s.getMultisigAtMaximumTopoheightFor key m = .ok r ∧ (s.multisigHistory key).Found m r

theorem MultisigChain.of_linked (hl : (s.multisigHistory key).Linked (·.previousTopoheight)) : s.MultisigChain key where
  first := hl.link_none
  previous := hl.link_some
  lookup m := by
    obtain ⟨r, hr⟩ := (s.multisigHistory key).exists_found m
    exact ⟨r, getMultisigAtMaximumTopoheightFor_found hl hr, hr⟩

end Lookup

section Continuation

variable {h : History (Versioned (Option MultiSigPayload))} {r : Option (TopoHeight × Versioned (Option MultiSigPayload))}
  {v : Versioned (Option MultiSigPayload)}

/-- What a version written at a topoheight points to, when a lookup there finds `r`: a deletion counts as nothing. -/
def linkAfter (r : Option (TopoHeight × Versioned (Option MultiSigPayload))) : Option TopoHeight :=
  r.bind (fun found => found.2.data.map (fun _ => found.1))

/-- Nothing is stored after the topoheight, and the newest version comes before it and is no deletion. A deletion at the
topoheight itself may be replaced when it is the first version. -/
structure Continues (h : History (Versioned (Option MultiSigPayload))) (t : TopoHeight) : Prop where
  after : ∀ u, t < u → h.version u = none
  newest : ∀ u v, h.HoldsAt t u v →
    (u < t ∧ v.data.isSome) ∨ (u = t ∧ v.data = none ∧ ∀ w, w < t → h.version w = none)

theorem Continues.of_empty (t : TopoHeight) : Continues ⟨none, fun _ => none⟩ t where
  after _ _ := rfl
  newest _ _ hu := nomatch hu.version

theorem Continues.push_linked (hc : Continues h t) (hl : h.Linked (·.previousTopoheight)) (hr : h.Found t r)
    (hlink : v.previousTopoheight = linkAfter r) : (h.push t v).Linked (·.previousTopoheight) := by
  match r, hr with
  | none, hempty =>
    refine History.Linked.push_first hlink fun u hu => ?_
    rcases Nat.lt_or_gt_of_ne hu with hlt | hgt
    · exact hempty u (Nat.le_of_lt hlt)
    · exact hc.after u hgt
  | some (u, found), hu =>
    rcases hc.newest u found hu with ⟨hlt, hsome⟩ | ⟨rfl, hnone, hfirst⟩
    · obtain ⟨payload, hpayload⟩ := Option.isSome_iff_exists.mp hsome
      have hlink : v.previousTopoheight = some u := by
        rw [hlink, linkAfter, Option.bind_some, hpayload]
        rfl
      obtain ⟨last, hlast, hle⟩ := hl.exists_last (u := u) (by rw [hu.version]; rfl)
      -- the pointer is at the version that was found, since nothing comes after it
      have heq : last = u := by
        obtain ⟨hstored, -⟩ := hl.last_some last hlast
        refine Nat.le_antisymm (Nat.le_of_not_lt fun hul => ?_) hle
        rcases Nat.lt_or_ge t last with htl | hlt'
        · rw [hc.after last htl] at hstored
          cases hstored
        · rw [hu.newest last hul hlt'] at hstored
          cases hstored
      refine hl.push (hlink.trans (by rw [hlast, heq])) fun l hl' => ?_
      rw [hlast, Option.some.injEq] at hl'
      rw [← hl', heq]
      exact hlt
    · refine History.Linked.push_first ?_ fun w hw => ?_
      · rw [hlink, linkAfter, Option.bind_some, hnone]
        rfl
      · rcases Nat.lt_or_gt_of_ne hw with hlt | hgt
        · exact hfirst w hlt
        · exact hc.after w hgt

end Continuation

def NoMultisigUnder (t : TopoHeight) (s : Storage P) : Prop :=
  ∀ k ∈ s.multisig.versions.keys, (toBeBytes t).isPrefixOf k = false

/-- Where no stored key begins with the topoheight, the multisigs are left alone. -/
def LeavesMultisigs (t : TopoHeight) (s s' : Storage P) : Prop := NoMultisigUnder t s → s'.multisig = s.multisig

theorem LeavesMultisigs.trans (a b c : Storage P) (hab : LeavesMultisigs t a b) (hbc : LeavesMultisigs t b c) :
    LeavesMultisigs t a c := by
  intro ha
  have hsame := hab ha
  refine (hbc ?_).trans hsame
  unfold NoMultisigUnder
  rw [hsame]
  exact ha

private theorem deleteMultisigs_leaves : Exec.Moves (LeavesMultisigs t) (deleteVersionedMultisigsAtTopoheight (P := P) t) := by
  intro s hnone
  have hkeys : s.multisig.versions.keys.filter ((toBeBytes t).isPrefixOf ·) = [] :=
    List.filter_eq_nil_iff.mpr fun k hk => by rw [hnone k hk]; exact Bool.false_ne_true
  unfold deleteVersionedMultisigsAtTopoheight deleteFamilyAtTopoheight VersionedTrees.deleteVersionedTreeAtTopoheight
  rw [hkeys]
  rfl

theorem deleteVersionedData_leavesMultisigs (t : TopoHeight) :
    Exec.Moves (LeavesMultisigs t) (deleteVersionedDataAtTopoheight (P := P) t) := by
  have hrefl : ∀ s : Storage P, LeavesMultisigs t s s := fun _ _ => rfl
  unfold deleteVersionedDataAtTopoheight
  refine .bind LeavesMultisigs.trans (deleteFamily_moves hrefl fun _ _ _ => rfl) fun _ => ?_
  refine .bind LeavesMultisigs.trans (deleteFamily_moves hrefl fun _ _ _ => rfl) fun _ => ?_
  refine .bind LeavesMultisigs.trans deleteMultisigs_leaves fun _ => ?_
  refine .bind LeavesMultisigs.trans (fun s => deleteRegistrations_moves hrefl LeavesMultisigs.trans (fun _ _ _ => rfl) _ s) fun _ => ?_
  refine .bind LeavesMultisigs.trans (deleteFamily_moves hrefl fun _ _ _ => rfl) fun _ => ?_
  refine .bind LeavesMultisigs.trans (deleteFamily_moves hrefl fun _ _ _ => rfl) fun _ => ?_
  refine .bind LeavesMultisigs.trans (deleteFamily_moves hrefl fun _ _ _ => rfl) fun _ => ?_
  split
  · exact deleteFamily_moves hrefl fun _ _ _ => rfl
  · exact hrefl

end Xelis.Storage
