import Xelis.Storage.Chains

namespace Xelis.Storage

open Lib (History)

namespace VersionedTrees

variable {V : Type} [HasPrevious V] {tr : VersionedTrees V} {key : Key} {t : TopoHeight}
variable {fuel : Nat}

theorem searchPrevious_of_le (load : TopoHeight → Except BlockchainError (Option TopoHeight))
    (hfuel : 0 < fuel) {u : TopoHeight} (hle : u ≤ t) : searchPrevious load t fuel (some u) = .ok (some u) := by
  obtain ⟨fuel, rfl⟩ : ∃ k : Nat, fuel = k + 1 := ⟨fuel - 1, by omega⟩
  rw [searchPrevious, if_pos hle]

/-- Where no step back is needed a search is right, whatever its steps would read. -/
theorem search_atHand (hl : (tr.history key).Linked HasPrevious.previousTopoheight)
    (hhand : (tr.history key).AtHand t) (load : TopoHeight → Except BlockchainError (Option TopoHeight))
    (hfuel : 0 < fuel) {r : Option (Nat × V)} (hr : (tr.history key).Found t r) :
    searchPrevious load t fuel (tr.searchStart key t) = .ok (r.map Prod.fst) := by
  unfold searchStart
  cases hexact : tr.version key t with
  | some v =>
    have hself : (tr.history key).Found t (some (t, v)) := History.holdsAt_self hexact
    rw [Option.isSome_some, if_pos rfl, searchPrevious_of_le load hfuel (Nat.le_refl t), hr.unique hself]
    rfl
  | none =>
    rw [Option.isSome_none, if_neg Bool.false_ne_true]
    cases hlast : tr.pointers[key]? with
    | none =>
      have hempty : (tr.history key).Found t none := fun u _ => hl.last_none hlast u
      obtain ⟨fuel, rfl⟩ : ∃ k : Nat, fuel = k + 1 := ⟨fuel - 1, by omega⟩
      rw [hr.unique hempty]
      rfl
    | some l =>
      obtain ⟨v, hv⟩ := Option.isSome_iff_exists.mp (hl.last_some l hlast).1
      have hle : l ≤ t := by
        refine Nat.le_of_not_lt fun hlt => ?_
        have hstored : (tr.version key t).isSome := hhand l hlast hlt
        rw [hexact] at hstored
        cases hstored
      have hholds : (tr.history key).Found t (some (l, v)) := (History.linked_iff.mp hl).1.holdsAt_last hlast hv hle
      rw [searchPrevious_of_le load hfuel hle, hr.unique hholds]
      rfl

omit [HasPrevious V] in
/-- Where a step back is needed, a step that reads nothing fails the search. -/
theorem search_lost (hhand : ¬(tr.history key).AtHand t) {e : BlockchainError}
    (hload : tr.version key t = none → ∀ l, load l = .error e) (hfuel : 0 < fuel) :
    searchPrevious load t fuel (tr.searchStart key t) = .error e := by
  obtain ⟨l, hl⟩ := not_forall.mp hhand
  obtain ⟨hlast, hl⟩ := Classical.not_imp.mp hl
  obtain ⟨hlt, hnot⟩ := Classical.not_imp.mp hl
  have hexact : tr.version key t = none := Option.not_isSome_iff_eq_none.mp hnot
  have hpointer : tr.pointers[key]? = some l := hlast
  obtain ⟨fuel, rfl⟩ : ∃ k : Nat, fuel = k + 1 := ⟨fuel - 1, by omega⟩
  unfold searchStart
  rw [hexact, Option.isSome_none, if_neg Bool.false_ne_true, hpointer, searchPrevious, if_neg (Nat.not_le.mpr hlt),
    hload hexact l]

omit [HasPrevious V] in
theorem loadVersion_found {u : TopoHeight} {v : V} (hu : (tr.history key).Found t (some (u, v))) (context : DiskContext) :
    tr.loadVersion context key u = .ok v := by
  have hv : tr.version key u = some v := hu.version
  rw [loadVersion, hv]

def HashKeys (tr : VersionedTrees V) : Prop := ∀ k : Key, (tr.versions[k]?).isSome → k.length = 40

omit [HasPrevious V] in
theorem HashKeys.setLast (h : tr.HashKeys) (hash : Hash) (t : TopoHeight) (v : V) :
    (tr.setLast (keyBytes hash) t v).HashKeys := by
  intro k hk
  by_cases heq : getVersionedKey (keyBytes hash) t = k
  · rw [← heq, getVersionedKey, List.length_append, Lib.length_toBeBytes, length_keyBytes]
  · refine h k ?_
    have hsame : (tr.versions.insert (getVersionedKey (keyBytes hash) t) v)[k]? = tr.versions[k]? := by
      simp [Std.ExtTreeMap.getElem?_insert, heq]
    rw [← hsame]
    exact hk

end VersionedTrees

section Stored

variable {P : Type} {s : Storage P}

def supplyHistory (s : Storage P) (asset : Hash) : History (Versioned Nat) := s.assetsSupply.history (keyBytes asset)

def dataHistory (s : Storage P) (blake3 : IVec → Hash) (contract : Hash) (key : ValueCell) :
    History (Versioned (Option ValueCell)) := s.contractsData.history (getContractDataKey blake3 key contract)

section Supply

variable {asset : Hash} {t : TopoHeight}

theorem hasAssetSupplyAtExactTopoheight_eq_false (hkeys : s.assetsSupply.HashKeys) :
    s.hasAssetSupplyAtExactTopoheight asset t = false := by
  refine Bool.eq_false_iff.mpr (fun hstored => ?_)
  have hlength := hkeys _ hstored
  rw [List.length_append, getVersionedKey, List.length_append, Lib.length_digitsBE, Lib.length_toBeBytes, length_keyBytes]
    at hlength
  cases hlength

theorem getAssetSupplyAtMaximumTopoheight_reached (hkeys : s.assetsSupply.HashKeys)
    (hl : (s.supplyHistory asset).Linked HasPrevious.previousTopoheight)
    (hle : ∀ l, (s.supplyHistory asset).last = some l → l ≤ t) :
    s.getAssetSupplyAtMaximumTopoheight asset t = .ok (s.supplyHistory asset).newestVersion := by
  have hfound := hl.found_newestVersion hle
  simp only [getAssetSupplyAtMaximumTopoheight, hasAssetSupplyAtExactTopoheight_eq_false hkeys, Bool.false_eq_true, if_false]
  rw [hl.last_eq] at hle
  rw [show s.assetsSupply.pointers[keyBytes asset]? = _ from hl.last_eq]
  cases hnewest : (s.supplyHistory asset).newestVersion with
  | none => rfl
  | some newest =>
    rw [hnewest] at hfound hle
    have hsearch := VersionedTrees.searchPrevious_of_le (fun _ => s.assetsSupply.loadPrevious .assetSupplyTopoHeight
      (keyBytes asset) t) (Nat.succ_pos (newest.1 + s.assetsSupply.versions.size + 1)) (hle newest.1 rfl)
    simp only [Option.map_some, Option.getD_some, VersionedTrees.fuel, hsearch, bind, Except.bind, pure, Except.pure,
      VersionedTrees.loadVersion_found hfound]

theorem getAssetSupplyAtMaximumTopoheight_passed (hkeys : s.assetsSupply.HashKeys)
    (hl : (s.supplyHistory asset).Linked HasPrevious.previousTopoheight) {l : TopoHeight}
    (hlast : (s.supplyHistory asset).last = some l) (hlt : t < l) {r : Option (Nat × Versioned Nat)}
    (hr : s.getAssetSupplyAtMaximumTopoheight asset t = .ok r) : ¬(s.supplyHistory asset).Found t r := by
  intro hfound
  have hpointer : s.assetsSupply.pointers[keyBytes asset]? = some l := hlast
  simp only [getAssetSupplyAtMaximumTopoheight, hasAssetSupplyAtExactTopoheight_eq_false hkeys, Bool.false_eq_true, if_false,
    hpointer, Option.getD_some, VersionedTrees.fuel, searchPrevious, if_neg (Nat.not_le.mpr hlt)] at hr
  cases hversion : s.assetsSupply.version (keyBytes asset) t with
  | none =>
    rw [VersionedTrees.loadPrevious, hversion] at hr
    cases hr
  | some v =>
    have hself : (s.supplyHistory asset).Found t (some (t, v)) := History.holdsAt_self hversion
    obtain rfl := hfound.unique hself
    simp only [VersionedTrees.loadPrevious, hversion] at hr
    cases hlink : HasPrevious.previousTopoheight v with
    | none =>
      rw [hlink] at hr
      cases hr
    | some p =>
      obtain ⟨hp, hstored, -⟩ := hl.link_some t v p hversion hlink
      obtain ⟨w, hw⟩ := Option.isSome_iff_exists.mp hstored
      have hload : s.assetsSupply.version (keyBytes asset) p = some w := hw
      simp only [hlink, searchPrevious, if_pos hp.le, VersionedTrees.loadVersion, hload, bind, Except.bind, pure, Except.pure,
        Except.ok.injEq, Option.some.injEq, Prod.mk.injEq] at hr
      exact absurd hr.1 (Nat.ne_of_lt hp)

end Supply

section Data

variable {blake3 : IVec → Hash} {contract : Hash} {key : ValueCell} {t : TopoHeight}

/-- The search with its start as that of the other searches: an unknown key has no pointer to start from. -/
theorem getContractDataTopoheightAtMaximumTopoheightFor_eq
    (hl : (s.dataHistory blake3 contract key).Linked HasPrevious.previousTopoheight) :
    ∃ fuel : Nat, 0 < fuel ∧ s.getContractDataTopoheightAtMaximumTopoheightFor blake3 contract key t =
      searchPrevious (s.contracts.loadPrevious .contractDataTopoHeight (getContractDataKey blake3 key contract)) t fuel
        (s.contractsData.searchStart (getContractDataKey blake3 key contract) t) := by
  unfold getContractDataTopoheightAtMaximumTopoheightFor VersionedTrees.searchStart
  dsimp only
  cases hpointer : s.contractsData.pointers[getContractDataKey blake3 key contract]? with
  | none =>
    have hnone : s.contractsData.version (getContractDataKey blake3 key contract) t = none := hl.last_none hpointer t
    rw [hnone, Option.isSome_none, if_neg Bool.false_ne_true]
    exact ⟨1, Nat.one_pos, rfl⟩
  | some pointer =>
    by_cases hexact : (s.contractsData.version (getContractDataKey blake3 key contract) t).isSome
    · simp only [if_pos hexact]
      exact ⟨s.contracts.fuel t, Nat.succ_pos _, rfl⟩
    · simp only [if_neg hexact]
      exact ⟨s.contracts.fuel pointer, Nat.succ_pos _, rfl⟩

theorem getContractDataTopoheightAtMaximumTopoheightFor_atHand
    (hl : (s.dataHistory blake3 contract key).Linked HasPrevious.previousTopoheight)
    (hhand : (s.dataHistory blake3 contract key).AtHand t) {r : Option (Nat × Versioned (Option ValueCell))}
    (hr : (s.dataHistory blake3 contract key).Found t r) :
    s.getContractDataTopoheightAtMaximumTopoheightFor blake3 contract key t = .ok (r.map Prod.fst) := by
  obtain ⟨fuel, hfuel, heq⟩ := getContractDataTopoheightAtMaximumTopoheightFor_eq (t := t) hl
  rw [heq]
  exact VersionedTrees.search_atHand hl hhand _ hfuel hr

/-- Under the digest of a key no module is stored, so there is no link to read. -/
theorem getContractDataTopoheightAtMaximumTopoheightFor_lost
    (hl : (s.dataHistory blake3 contract key).Linked HasPrevious.previousTopoheight)
    (hapart : ∀ u, s.contracts.version (getContractDataKey blake3 key contract) u = none)
    (hhand : ¬(s.dataHistory blake3 contract key).AtHand t) :
    s.getContractDataTopoheightAtMaximumTopoheightFor blake3 contract key t =
      .error (.notFoundOnDisk .contractDataTopoHeight) := by
  obtain ⟨fuel, hfuel, heq⟩ := getContractDataTopoheightAtMaximumTopoheightFor_eq (t := t) hl
  rw [heq]
  refine VersionedTrees.search_lost hhand (fun _ l => ?_) hfuel
  rw [VersionedTrees.loadPrevious, hapart l]

end Data

section Lookups

variable (s) (blake3 : IVec → Hash) (contract asset : Hash) (key : ValueCell) (t : TopoHeight)

/-- The topoheight of what a contract stored last is found. -/
def FindsData : Prop := ∃ r, (s.dataHistory blake3 contract key).Found t r ∧
  s.getContractDataTopoheightAtMaximumTopoheightFor blake3 contract key t = .ok (r.map Prod.fst)

def FindsSupply : Prop := ∃ r, (s.supplyHistory asset).Found t r ∧ s.getAssetSupplyAtMaximumTopoheight asset t = .ok r

variable {s blake3 contract asset key}

/-- The search for data is right when it needs no step back, and only then. The one for a supply, which never sees a
version at `t` itself, is right when the last version is not after `t`, and only then. -/
theorem lookups_correct_iff (hdata : (s.dataHistory blake3 contract key).Linked HasPrevious.previousTopoheight)
    (hsupply : (s.supplyHistory asset).Linked HasPrevious.previousTopoheight) (hkeys : s.assetsSupply.HashKeys)
    (hapart : ∀ u, s.contracts.version (getContractDataKey blake3 key contract) u = none) :
    (s.FindsData blake3 contract key t ↔ (s.dataHistory blake3 contract key).AtHand t) ∧
      (s.FindsSupply asset t ↔ ∀ l, (s.supplyHistory asset).last = some l → l ≤ t) := by
  refine ⟨⟨?_, fun hhand => ?_⟩, ⟨?_, fun hle => ?_⟩⟩
  · rintro ⟨r, -, hr⟩
    by_contra hhand
    rw [getContractDataTopoheightAtMaximumTopoheightFor_lost hdata hapart hhand] at hr
    cases hr
  · obtain ⟨r, hr⟩ := (s.dataHistory blake3 contract key).exists_found t
    exact ⟨r, hr, getContractDataTopoheightAtMaximumTopoheightFor_atHand hdata hhand hr⟩
  · rintro ⟨r, hfound, hr⟩ l hlast
    exact Nat.le_of_not_lt (fun hlt => getAssetSupplyAtMaximumTopoheight_passed hkeys hsupply hlast hlt hr hfound)
  · exact ⟨_, hsupply.found_newestVersion hle, getAssetSupplyAtMaximumTopoheight_reached hkeys hsupply hle⟩

end Lookups

section Samples

def storedTwice : Storage Int :=
  ((((({} : Storage Int).setLastSupplyForAsset 1 5 ⟨none, 100⟩).setLastSupplyForAsset 1 10 ⟨some 5, 200⟩)
    |>.setLastContractDataTo (fun _ => 3) 2 [] 5 ⟨none, some []⟩)
    |>.setLastContractDataTo (fun _ => 3) 2 [] 10 ⟨some 5, none⟩)

theorem storedTwice_supply_wellFormed : storedTwice.assetsSupply.WellFormed := by
  refine (VersionedTrees.WellFormed.empty.setLast rfl ?_).setLast (VersionedTrees.pointers_setLast_self _ _ _ _).symm ?_
  · exact fun l hl => nomatch hl
  · exact fun l hl => VersionedTrees.lt_of_pointers_setLast (by decide) hl

theorem storedTwice_data_wellFormed : storedTwice.contractsData.WellFormed := by
  refine (VersionedTrees.WellFormed.empty.setLast rfl ?_).setLast (VersionedTrees.pointers_setLast_self _ _ _ _).symm ?_
  · exact fun l hl => nomatch hl
  · exact fun l hl => VersionedTrees.lt_of_pointers_setLast (by decide) hl

/-- Two versions, at 5 and at 10. -/
private def pushedTwice {V : Type} (v v' : V) : History V := ((⟨none, fun _ => none⟩ : History V).push 5 v).push 10 v'

variable {V : Type}

private theorem pushedTwice_holdsAt (v v' : V) : (pushedTwice v v').HoldsAt 7 5 v := by
  refine History.HoldsAt.push_later ⟨History.version_push_self _ _ _, by decide, fun w hlt _ => ?_⟩ (by decide) v'
  exact History.version_push_of_ne _ _ _ (Nat.ne_of_gt hlt)

private theorem pushedTwice_not_atHand (v v' : V) : ¬(pushedTwice v v').AtHand 7 := by
  intro hhand
  have hstored : ((pushedTwice v v').version 7).isSome := hhand 10 rfl (by decide)
  unfold pushedTwice at hstored
  rw [History.version_push_of_ne _ _ _ (by decide), History.version_push_of_ne _ _ _ (by decide)] at hstored
  cases hstored

private theorem pushedTwice_atHand (v v' : V) : (pushedTwice v v').AtHand 12 := by
  intro l hl hlt
  have hten : 10 = l := Option.some.inj hl
  omega

private theorem history_setLast_twice (key : Key) (v v' : V) :
    ((VersionedTrees.empty.setLast key 5 v).setLast key 10 v').history key = pushedTwice v v' := by
  rw [VersionedTrees.history_setLast_self, VersionedTrees.history_setLast_self, VersionedTrees.history_empty]
  rfl

private theorem storedTwice_supply_history : storedTwice.supplyHistory 1 = pushedTwice ⟨none, 100⟩ ⟨some 5, 200⟩ :=
  history_setLast_twice _ _ _

private theorem storedTwice_data_history :
    storedTwice.dataHistory (fun _ => 3) 2 [] = pushedTwice ⟨none, some []⟩ ⟨some 5, none⟩ :=
  history_setLast_twice _ _ _

private theorem storedTwice_apart (u : TopoHeight) :
    storedTwice.contracts.version (getContractDataKey (fun _ => 3) [] 2) u = none := Std.ExtTreeMap.getElem?_empty

private theorem storedTwice_hashKeys : storedTwice.assetsSupply.HashKeys := by
  have hempty : (VersionedTrees.empty : VersionedTrees (Versioned Nat)).HashKeys := fun k hk => by cases hk
  exact (hempty.setLast 1 5 ⟨none, 100⟩).setLast 1 10 ⟨some 5, 200⟩

/-- Between the two topoheights both searches miss the older version, which holds there. The one for the supply does not
find that version at its own topoheight either. -/
theorem storedTwice_lost :
    (storedTwice.contractsData.WellFormed ∧ storedTwice.assetsSupply.WellFormed) ∧
      ((storedTwice.dataHistory (fun _ => 3) 2 []).HoldsAt 7 5 ⟨none, some []⟩ ∧
        ¬storedTwice.FindsData (fun _ => 3) 2 [] 7) ∧
      (storedTwice.supplyHistory 1).HoldsAt 7 5 ⟨none, 100⟩ ∧ ¬storedTwice.FindsSupply 1 7 ∧
      ¬storedTwice.FindsSupply 1 5 := by
  have hsupply : ∀ t < 10, ¬storedTwice.FindsSupply 1 t := by
    rintro t ht ⟨r, hr, hfound⟩
    have hlast : (storedTwice.supplyHistory 1).last = some 10 := by
      rw [storedTwice_supply_history]
      rfl
    exact getAssetSupplyAtMaximumTopoheight_passed storedTwice_hashKeys (storedTwice_supply_wellFormed _) hlast ht hfound hr
  refine ⟨⟨storedTwice_data_wellFormed, storedTwice_supply_wellFormed⟩, ⟨?_, ?_⟩, ?_, hsupply 7 (by decide),
    hsupply 5 (by decide)⟩
  · rw [storedTwice_data_history]
    exact pushedTwice_holdsAt _ _
  · rintro ⟨r, hr, hfound⟩
    have hhand : ¬(storedTwice.dataHistory (fun _ => 3) 2 []).AtHand 7 := by
      rw [storedTwice_data_history]
      exact pushedTwice_not_atHand _ _
    rw [getContractDataTopoheightAtMaximumTopoheightFor_lost (storedTwice_data_wellFormed _) storedTwice_apart hhand]
      at hfound
    cases hfound
  · rw [storedTwice_supply_history]
    exact pushedTwice_holdsAt _ _

/-- The data is found at the topoheight of the older version, and from the later one on nothing is lost. -/
theorem lookups_correct_storedTwice : storedTwice.FindsData (fun _ => 3) 2 [] 5 ∧
    storedTwice.FindsData (fun _ => 3) 2 [] 12 ∧ storedTwice.FindsSupply 1 12 := by
  have hcorrect := fun t => lookups_correct_iff t (storedTwice_data_wellFormed (getContractDataKey (fun _ => 3) [] 2))
    (storedTwice_supply_wellFormed (keyBytes 1)) storedTwice_hashKeys storedTwice_apart
  rw [storedTwice_data_history, storedTwice_supply_history] at hcorrect
  refine ⟨(hcorrect 5).1.mpr (fun _ _ _ => ?_), (hcorrect 12).1.mpr (pushedTwice_atHand _ _), (hcorrect 12).2.mpr ?_⟩
  · rw [pushedTwice, History.version_push_of_ne _ _ _ (by decide), History.version_push_self]
    rfl
  · intro l hl
    have hten : 10 = l := Option.some.inj hl
    omega

end Samples

end Stored

end Xelis.Storage
