import Xelis.Lib.IndexSet
import Xelis.Storage.AccountSearch

namespace Xelis.Storage

open Lib (FiniteMap History IndexMap IndexSet)

/-- The walk of a listing from a pointer down: a version at the maximum itself is passed over. -/
def searchRange (load : TopoHeight → Except BlockchainError (Option TopoHeight)) (minimum maximum : TopoHeight) :
    Nat → Option TopoHeight → Except BlockchainError Bool
  | 0, _ => .error .endlessChain
  | _ + 1, none => .ok false
  | fuel + 1, some topoheight =>
    if topoheight < minimum then .ok false
    else if topoheight < maximum then .ok true
    else match load topoheight with
      | .ok previous => searchRange load minimum maximum fuel previous
      | .error e => .error e

def StoredIn {V : Type} (h : History V) (lo hi : TopoHeight) : Prop := ∃ u, lo ≤ u ∧ u < hi ∧ (h.version u).isSome

theorem searchRange_stored {V : Type} {link : V → Option Nat} {h : History V} {lo hi : TopoHeight}
    {load : TopoHeight → Except BlockchainError (Option TopoHeight)}
    (hload : ∀ x v, h.version x = some v → load x = .ok (link v)) (hl : h.Linked link) {x : Nat}
    (hx : (h.version x).isSome) {fuel : Nat} (hfuel : x + 2 ≤ fuel) :
    ∃ found, searchRange load lo hi fuel (some x) = .ok found ∧
      (found = true ↔ ∃ u, u ≤ x ∧ lo ≤ u ∧ u < hi ∧ (h.version u).isSome) := by
  induction x using Nat.strongRecOn generalizing fuel with
  | _ x ih =>
    obtain ⟨fuel, rfl⟩ : ∃ k : Nat, fuel = k + 1 := ⟨fuel - 1, by omega⟩
    unfold searchRange
    by_cases hlow : x < lo
    · refine ⟨false, if_pos hlow, Bool.false_eq_true.to_iff.trans (iff_of_false id ?_)⟩
      rintro ⟨u, hux, hlou, -⟩
      exact absurd (Nat.le_trans hlou hux) (Nat.not_le.mpr hlow)
    · rw [if_neg hlow]
      by_cases hhigh : x < hi
      · exact ⟨true, if_pos hhigh, iff_of_true rfl ⟨x, Nat.le_refl x, Nat.le_of_not_lt hlow, hhigh, hx⟩⟩
      · obtain ⟨v, hv⟩ := Option.isSome_iff_exists.mp hx
        rw [if_neg hhigh, hload x v hv]
        cases hp : link v with
        | none =>
          obtain ⟨fuel, rfl⟩ : ∃ k : Nat, fuel = k + 1 := ⟨fuel - 1, by omega⟩
          refine ⟨false, rfl, Bool.false_eq_true.to_iff.trans (iff_of_false id ?_)⟩
          rintro ⟨u, hux, -, huhi, hu⟩
          rw [hl.link_none x v hv hp u (by omega)] at hu
          cases hu
        | some p =>
          have hpx := hl.link_lt hv hp
          obtain ⟨found, hsearch, hiff⟩ := ih p hpx (hl.link_stored hv hp) (Nat.le_of_lt_succ (Nat.lt_of_lt_of_le (Nat.add_lt_add_right hpx 2) hfuel))
          refine ⟨found, hsearch, hiff.trans ⟨?_, ?_⟩⟩
          · rintro ⟨u, hup, hu⟩
            exact ⟨u, Nat.le_trans hup (Nat.le_of_lt hpx), hu⟩
          · rintro ⟨u, hux, hlou, huhi, hu⟩
            exact ⟨u, hl.le_link hv hp hu (by omega), hlou, huhi, hu⟩

variable {u l : TopoHeight}

section Stored

section Definitions

variable {P : Type} (s : Storage P)

def isAssetRegisteredAtMaximumTopoheight (asset : Hash) (maximum : TopoHeight) : Bool :=
  match s.getAssetTopoheight asset with
  | some topo => topo ≤ maximum
  | none => false

/-- The loop of the listing over the pointers: how many assets were skipped so far, and those collected. -/
def collectAssets (maximum skip : Nat) (minTopoheight maxTopoheight : TopoHeight) :
    List (Key × TopoHeight) → Nat → IndexMap Hash AssetData → Except BlockchainError (IndexMap Hash AssetData)
  | [], _, assets => .ok assets
  | (key, topo) :: entries, skipCount, assets =>
    if topo < minTopoheight ∨ maxTopoheight < topo then
      collectAssets maximum skip minTopoheight maxTopoheight entries skipCount assets
    else if skipCount < skip then
      collectAssets maximum skip minTopoheight maxTopoheight entries (skipCount + 1) assets
    else do
      let asset ← hashFromKey key
      let data ← s.assets.loadVersion (.assetAtTopoHeight topo) (keyBytes asset) topo
      let assets := assets.insert asset data.data
      if assets.entries.length = maximum then return assets
      collectAssets maximum skip minTopoheight maxTopoheight entries skipCount assets

/-- One page of the assets whose last topoheight is in a range, in key order. -/
def getPartialAssets (maximum skip : Nat) (minTopoheight maxTopoheight : TopoHeight) :
    Except BlockchainError (IndexMap Hash AssetData) :=
  s.collectAssets maximum skip minTopoheight maxTopoheight s.assets.pointers.toList 0 .empty

/-- The loop of the listing over the pointers: how many contracts were skipped so far, and those collected. -/
def collectContracts (maximum skip : Nat) (minTopoheight maxTopoheight : TopoHeight) :
    List (Key × TopoHeight) → Nat → IndexSet Hash → Except BlockchainError (IndexSet Hash)
  | [], _, contracts => .ok contracts
  | (key, topoheight) :: entries, skipCount, contracts => do
    let hash ← hashFromKey key
    let load := s.contracts.loadPrevious .contractTopoHeight (keyBytes hash)
    let found ← searchRange load minTopoheight maxTopoheight (s.contracts.fuel topoheight) (some topoheight)
    if !found then
      collectContracts maximum skip minTopoheight maxTopoheight entries skipCount contracts
    else if skipCount < skip then
      collectContracts maximum skip minTopoheight maxTopoheight entries (skipCount + 1) contracts
    else
      let contracts := contracts.insert hash
      if maximum ≤ contracts.elems.length then return contracts
      collectContracts maximum skip minTopoheight maxTopoheight entries skipCount contracts

/-- One page of the contracts, in key order. -/
def getContracts (maximum skip : Nat) (minTopoheight maxTopoheight : TopoHeight) :
    Except BlockchainError (IndexSet Hash) :=
  s.collectContracts maximum skip minTopoheight maxTopoheight s.contracts.pointers.toList 0 .empty

/-- The versions of an asset. Its last topoheight is read through the cache. -/
def assetHistory (asset : Hash) : History (Versioned AssetData) :=
  ⟨s.getAssetTopoheight asset, s.assets.version (keyBytes asset)⟩

def contractHistory (contract : Hash) : History (Versioned (Option Module)) := s.contracts.history (keyBytes contract)

end Definitions

variable {P : Type} {s : Storage P}

section Assets

variable {asset : Hash} {t : TopoHeight}

theorem hasAsset_eq (s : Storage P) (asset : Hash) : s.hasAsset asset = (s.assetHistory asset).last.isSome := by
  show (s.assetsCache.contains asset || s.assets.pointers.contains (keyBytes asset)) = (s.getAssetTopoheight asset).isSome
  unfold getAssetTopoheight
  rw [Std.ExtTreeMap.contains_eq_isSome_getElem?, Std.ExtTreeMap.contains_eq_isSome_getElem?]
  cases s.assetsCache[asset]? with
  | none => rw [Option.isSome_none, Bool.false_or]
  | some topo => rfl

theorem hasAssetAtExactTopoheight_eq (hl : (s.assetHistory asset).Linked HasPrevious.previousTopoheight) (t : TopoHeight) :
    s.hasAssetAtExactTopoheight asset t = ((s.assetHistory asset).version t).isSome := by
  rw [hasAssetAtExactTopoheight, hasAsset_eq]
  cases hlast : (s.assetHistory asset).last with
  | none =>
    rw [hl.last_none hlast t]
    rfl
  | some l => exact Bool.true_and _

theorem loadPrevious_asset {v : Versioned AssetData} (context : DiskContext)
    (hv : (s.assetHistory asset).version u = some v) :
    s.assets.loadPrevious context (keyBytes asset) u = .ok v.previousTopoheight :=
  @VersionedTrees.loadPrevious_of_version _ _ s.assets (keyBytes asset) u v context hv

private theorem assetStart_stored (hl : (s.assetHistory asset).Linked HasPrevious.previousTopoheight)
    (hlast : (s.assetHistory asset).last = some l) (t : TopoHeight) :
    ∃ start, (if s.hasAssetAtExactTopoheight asset t then some t else s.getAssetTopoheight asset) = some start ∧
      ((s.assetHistory asset).version start).isSome ∧ ∀ u v, (s.assetHistory asset).HoldsAt t u v → u ≤ start := by
  rw [hasAssetAtExactTopoheight_eq hl]
  by_cases hexact : ((s.assetHistory asset).version t).isSome
  · exact ⟨t, if_pos hexact, hexact, fun u v hu => hu.le⟩
  · refine ⟨l, ?_, (hl.last_some l hlast).1, fun u v hu => hl.le_last hlast (by rw [hu.version]; rfl)⟩
    rw [if_neg hexact]
    exact hlast

theorem getAssetAtMaximumTopoheight_found (hl : (s.assetHistory asset).Linked HasPrevious.previousTopoheight)
    {r : Option (Nat × Versioned AssetData)} (hr : (s.assetHistory asset).Found t r) :
    s.getAssetAtMaximumTopoheight asset t = .ok r := by
  unfold getAssetAtMaximumTopoheight
  dsimp only
  cases hlast : (s.assetHistory asset).last with
  | none =>
    have hempty : (s.assetHistory asset).Found t none := fun u _ => hl.last_none hlast u
    have hpointer : s.getAssetTopoheight asset = none := hlast
    rw [hr.unique hempty, hasAssetAtExactTopoheight_eq hl, hl.last_none hlast t, Option.isSome_none,
      if_neg Bool.false_ne_true, hpointer]
    rfl
  | some l =>
    obtain ⟨start, heq, hstart, hle⟩ := assetStart_stored hl hlast t
    have hload (u : Nat) (v : Versioned AssetData) (hv : (s.assetHistory asset).version u = some v) :
        s.assets.loadPrevious (.assetAtTopoHeight u) (keyBytes asset) u = .ok (HasPrevious.previousTopoheight v) :=
      loadPrevious_asset _ hv
    have hfuel : @HAdd.hAdd Nat Nat Nat _ start 2 ≤ s.assets.fuel start :=
      Nat.add_le_add_right (Nat.le_add_right start s.assets.versions.size) 2
    rw [heq]
    match r, hr with
    | none, hempty =>
      have hsearch := searchPrevious_of_empty hload hl hempty hstart hfuel
      simp only [Option.getD_some, bind, Except.bind, hsearch]
      rfl
    | some (u, v), hu =>
      have hsearch := searchPrevious_of_holdsAt hload hl hu hstart (hle u v hu) hfuel
      have hversion : s.assets.version (keyBytes asset) u = some v := hu.version
      simp only [Option.getD_some, bind, Except.bind, hsearch, VersionedTrees.loadVersion, hversion]
      rfl

/-- The test of the last topoheight is right where that one is low enough, and where there is nothing to be found. -/
theorem isAssetRegisteredAtMaximumTopoheight_iff (hl : (s.assetHistory asset).Linked HasPrevious.previousTopoheight) :
    (s.isAssetRegisteredAtMaximumTopoheight asset t = true ↔ ∃ u, u ≤ t ∧ ((s.assetHistory asset).version u).isSome) ↔
      (∀ l, (s.assetHistory asset).last = some l → l ≤ t) ∨ (s.assetHistory asset).EmptyUntil t := by
  have hregistered : s.isAssetRegisteredAtMaximumTopoheight asset t = true ↔
      ∃ l, (s.assetHistory asset).last = some l ∧ l ≤ t := by
    have hlast : s.getAssetTopoheight asset = (s.assetHistory asset).last := rfl
    unfold isAssetRegisteredAtMaximumTopoheight
    rw [hlast]
    cases (s.assetHistory asset).last with
    | none => simp
    | some l => simp
  rw [hregistered]
  constructor
  · intro hiff
    refine Classical.or_iff_not_imp_right.mpr fun hnonempty l hlast => ?_
    obtain ⟨u, hu⟩ := not_forall.mp hnonempty
    obtain ⟨hut, hstored⟩ := Classical.not_imp.mp hu
    obtain ⟨l', hl', hle⟩ := hiff.mpr ⟨u, hut, Option.isSome_iff_ne_none.mpr hstored⟩
    rw [hlast] at hl'
    rwa [Option.some.inj hl']
  · rintro (hlow | hempty)
    · constructor
      · rintro ⟨l, hlast, hle⟩
        exact ⟨l, hle, (hl.last_some l hlast).1⟩
      · rintro ⟨u, -, hu⟩
        obtain ⟨l, hlast, -⟩ := hl.exists_last hu
        exact ⟨l, hlast, hlow l hlast⟩
    · constructor
      · rintro ⟨l, hlast, hle⟩
        exact ⟨l, hle, (hl.last_some l hlast).1⟩
      · rintro ⟨u, hut, hu⟩
        rw [hempty u hut] at hu
        cases hu

end Assets

section Contracts

variable {contract : Hash} {t lo hi : TopoHeight}

theorem searchContract_eq (hlast : s.contracts.pointers[keyBytes contract]? = some l) (t : TopoHeight) :
    s.searchContract contract t = searchPrevious (s.contracts.loadPrevious .contractTopoHeight (keyBytes contract)) t
      (s.contracts.fuel ((s.contracts.searchStart (keyBytes contract) t).getD 0))
      (s.contracts.searchStart (keyBytes contract) t) := by
  unfold searchContract getLastTopoheightForContract VersionedTrees.searchStart
  rw [hlast]
  by_cases hexact : (s.contracts.version (keyBytes contract) t).isSome
  · simp only [if_pos hexact]
    rfl
  · simp only [if_neg hexact]
    rfl

theorem hasContractPointer_eq (s : Storage P) (contract : Hash) :
    s.hasContractPointer contract = (s.contractHistory contract).last.isSome :=
  Std.ExtTreeMap.contains_eq_isSome_getElem?

theorem getContractAtMaximumTopoheightFor_eq (s : Storage P) (contract : Hash) (t : TopoHeight) :
    s.getContractAtMaximumTopoheightFor contract t =
      match s.contracts.pointers[keyBytes contract]? with
      | none => .ok none
      | some _ => s.contracts.lookup (fun _ => .contractTopoHeight) (fun _ => .contractTopoHeight) (keyBytes contract) t
          (s.contracts.searchStart (keyBytes contract) t) := by
  unfold getContractAtMaximumTopoheightFor VersionedTrees.lookup
  rw [hasContractPointer_eq]
  show (if (!(s.contracts.pointers[keyBytes contract]?).isSome) = true then _ else _) = _
  cases hlast : s.contracts.pointers[keyBytes contract]? with
  | none => rfl
  | some l =>
    rw [if_neg (by rw [Option.isSome_some]; decide), searchContract_eq hlast]
    dsimp only [bind, Except.bind]
    cases searchPrevious (s.contracts.loadPrevious .contractTopoHeight (keyBytes contract)) t
        (s.contracts.fuel ((s.contracts.searchStart (keyBytes contract) t).getD 0))
        (s.contracts.searchStart (keyBytes contract) t) with
    | error e => rfl
    | ok found =>
      cases found with
      | none => rfl
      | some topo =>
        dsimp only
        cases s.contracts.loadVersion .contractTopoHeight (keyBytes contract) topo with
        | error e => rfl
        | ok v => rfl

variable {r : Option (Nat × Versioned (Option Module))}

theorem getContractAtMaximumTopoheightFor_found
    (hl : (s.contractHistory contract).Linked HasPrevious.previousTopoheight)
    (hr : (s.contractHistory contract).Found t r) : s.getContractAtMaximumTopoheightFor contract t = .ok r := by
  rw [getContractAtMaximumTopoheightFor_eq]
  cases hlast : s.contracts.pointers[keyBytes contract]? with
  | none =>
    have hempty : (s.contractHistory contract).Found t none := fun u _ => hl.last_none hlast u
    rw [hr.unique hempty]
  | some l => exact VersionedTrees.lookup_found hl hr

theorem hasContractAtMaximumTopoheight_found (hl : (s.contractHistory contract).Linked HasPrevious.previousTopoheight)
    (hr : (s.contractHistory contract).Found t r) : s.hasContractAtMaximumTopoheight contract t = .ok r.isSome := by
  have hfound := getContractAtMaximumTopoheightFor_found hl hr
  unfold getContractAtMaximumTopoheightFor at hfound
  unfold hasContractAtMaximumTopoheight
  cases hpointer : s.hasContractPointer contract with
  | false =>
    rw [hpointer] at hfound
    cases hfound
    rfl
  | true =>
    rw [hpointer] at hfound
    dsimp only [bind, Except.bind] at hfound ⊢
    cases hsearch : s.searchContract contract t with
    | error e =>
      rw [hsearch] at hfound
      cases hfound
    | ok found =>
      rw [hsearch] at hfound
      cases found with
      | none =>
        cases hfound
        rfl
      | some topo =>
        dsimp only at hfound ⊢
        cases hversion : s.contracts.loadVersion .contractTopoHeight (keyBytes contract) topo with
        | error e =>
          rw [hversion] at hfound
          cases hfound
        | ok v =>
          rw [hversion] at hfound
          cases hfound
          rfl

theorem searchRange_contract (hl : (s.contractHistory contract).Linked HasPrevious.previousTopoheight)
    (hlast : s.contracts.pointers[keyBytes contract]? = some l) (lo hi : TopoHeight) :
    ∃ found, searchRange (s.contracts.loadPrevious .contractTopoHeight (keyBytes contract)) lo hi (s.contracts.fuel l)
      (some l) = .ok found ∧ (found = true ↔ StoredIn (s.contractHistory contract) lo hi) := by
  have hload (u : Nat) (v : Versioned (Option Module)) (hv : (s.contractHistory contract).version u = some v) :
      s.contracts.loadPrevious .contractTopoHeight (keyBytes contract) u = .ok (HasPrevious.previousTopoheight v) :=
    VersionedTrees.loadPrevious_of_version hv
  have hfuel : @HAdd.hAdd Nat Nat Nat _ l 2 ≤ s.contracts.fuel l :=
    Nat.add_le_add_right (Nat.le_add_right l s.contracts.versions.size) 2
  obtain ⟨found, hsearch, hiff⟩ := @searchRange_stored _ _ _ lo hi _ hload hl l (hl.last_some l hlast).1 _ hfuel
  refine ⟨found, hsearch, hiff.trans ⟨?_, ?_⟩⟩
  · rintro ⟨u, -, hu⟩
    exact ⟨u, hu⟩
  · rintro ⟨u, hlo, hhi, hu⟩
    exact ⟨u, hl.le_last hlast hu, hlo, hhi, hu⟩

end Contracts

section Listing

variable {lo hi : TopoHeight}

def ContractKeys (s : Storage P) : Prop := ∀ (key : Key) topo, s.contracts.pointers[key]? = some topo → ∃ c, key = keyBytes c

open Classical in
/-- The contracts that the listing of a range is made of, in key order. -/
noncomputable def contractsIn (s : Storage P) (lo hi : TopoHeight) : List Hash :=
  (s.contracts.pointers.toList.map fun e => keyHash e.1).filter fun c => StoredIn (s.contractHistory c) lo hi

open Classical in
/-- The loop passes over what is left to skip, and takes what there is room for. -/
theorem collectContracts_elems (hwf : s.contracts.WellFormed) {maximum skip skipCount : Nat} {contracts : IndexSet Hash}
    {entries : List (Key × TopoHeight)}
    (hentries : ∀ e ∈ entries, ∃ c, e.1 = keyBytes c ∧ s.contracts.pointers[keyBytes c]? = some e.2)
    (hnodup : (contracts.elems ++ entries.map fun e => keyHash e.1).Nodup) (hroom : contracts.elems.length < maximum) :
    (s.collectContracts maximum skip lo hi entries skipCount contracts).map IndexSet.elems =
      .ok (contracts.elems ++ (((entries.map fun e => keyHash e.1).filter
        fun c => StoredIn (s.contractHistory c) lo hi).drop (skip - skipCount)).take
          (maximum - contracts.elems.length)) := by
  induction entries generalizing skipCount contracts with
  | nil => simp [collectContracts, Except.map]
  | cons e entries ih =>
    obtain ⟨c, hkey, hlast⟩ := hentries e List.mem_cons_self
    have hrest := fun e' he' => hentries e' (List.mem_cons_of_mem e he')
    obtain ⟨found, hsearch, hiff⟩ := searchRange_contract (hwf (keyBytes c)) hlast lo hi
    have hhash : keyHash e.1 = c := by rw [hkey, keyHash_keyBytes]
    have hnotIn : c ∉ contracts.elems := by
      intro hmem
      rw [List.map_cons, hhash] at hnodup
      exact (List.nodup_append.mp hnodup).2.2 c hmem c List.mem_cons_self rfl
    have hdropped : (contracts.elems ++ entries.map fun e => keyHash e.1).Nodup := by
      rw [List.map_cons] at hnodup
      exact hnodup.sublist ((List.sublist_cons_self _ _).append_left _)
    unfold collectContracts
    rw [hkey, hashFromKey_keyBytes]
    dsimp only [bind, Except.bind]
    rw [hsearch, List.map_cons, hhash]
    dsimp only
    cases found with
    | false =>
      have hnot : ¬StoredIn (s.contractHistory c) lo hi := fun hin => Bool.false_ne_true (hiff.mpr hin)
      rw [List.filter_cons_of_neg (by simpa using hnot), if_pos (by decide)]
      exact ih hrest hdropped hroom
    | true =>
      have hin : StoredIn (s.contractHistory c) lo hi := hiff.mp rfl
      rw [List.filter_cons_of_pos (by simpa using hin), if_neg (by decide)]
      by_cases hskip : skipCount < skip
      · have hleft : skip - skipCount = skip - (skipCount + 1) + 1 := by omega
        rw [if_pos hskip, hleft, List.drop_succ_cons]
        exact ih hrest hdropped hroom
      · have hleft : skip - skipCount = 0 := by omega
        have hroom' : maximum - contracts.elems.length = maximum - (contracts.elems.length + 1) + 1 := by omega
        have helems := IndexSet.elems_insert_of_not_mem hnotIn
        rw [if_neg hskip, hleft, List.drop_zero, hroom', List.take_succ_cons]
        by_cases hfull : maximum ≤ (contracts.insert c).elems.length
        · rw [if_pos hfull]
          rw [helems, List.length_append, List.length_singleton] at hfull
          have hnone : maximum - (contracts.elems.length + 1) = 0 := by omega
          rw [hnone, List.take_zero, ← helems]
          rfl
        · rw [if_neg hfull]
          rw [helems, List.length_append, List.length_singleton] at hfull
          have hnodup' : ((contracts.insert c).elems ++ entries.map fun e => keyHash e.1).Nodup := by
            rw [helems, List.append_assoc]
            rw [List.map_cons, hhash] at hnodup
            exact hnodup
          have hroom'' : (contracts.insert c).elems.length < maximum := by
            rw [helems, List.length_append, List.length_singleton]
            omega
          have hih := @ih skipCount (contracts.insert c) hrest hnodup' hroom''
          rw [hleft, List.drop_zero, helems, List.length_append, List.length_singleton, List.append_assoc] at hih
          exact hih

theorem nodup_contractHashes (hkeys : s.ContractKeys) : (s.contracts.pointers.toList.map fun e => keyHash e.1).Nodup := by
  have hdistinct := FiniteMap.toList_keys_distinct s.contracts.pointers
  refine List.pairwise_map.mpr (hdistinct.imp_of_mem ?_)
  intro a b ha hb hne heq
  obtain ⟨ca, hca⟩ := hkeys a.1 a.2 (Std.ExtTreeMap.mem_toList_iff_getElem?_eq_some.mp ha)
  obtain ⟨cb, hcb⟩ := hkeys b.1 b.2 (Std.ExtTreeMap.mem_toList_iff_getElem?_eq_some.mp hb)
  rw [hca, hcb, keyHash_keyBytes, keyHash_keyBytes] at heq
  exact hne (by rw [hca, hcb, heq])

theorem nodup_contractsIn (hkeys : s.ContractKeys) (lo hi : TopoHeight) : (s.contractsIn lo hi).Nodup :=
  (nodup_contractHashes hkeys).filter _

theorem mem_contractsIn (hwf : s.contracts.WellFormed) {contract : Hash} :
    contract ∈ s.contractsIn lo hi ↔ StoredIn (s.contractHistory contract) lo hi := by
  classical
  rw [contractsIn, List.mem_filter, decide_eq_true_eq]
  refine and_iff_right_of_imp fun hin => ?_
  obtain ⟨u, -, -, hu⟩ := hin
  obtain ⟨l, hlast, -⟩ := (hwf (keyBytes contract)).exists_last hu
  have hmem : (keyBytes contract, l) ∈ s.contracts.pointers.toList :=
    Std.ExtTreeMap.mem_toList_iff_getElem?_eq_some.mpr hlast
  exact List.mem_map.mpr ⟨_, hmem, keyHash_keyBytes contract⟩

/-- The pages of a listing are the consecutive parts of one list. -/
theorem getContracts_elems (hwf : s.contracts.WellFormed) (hkeys : s.ContractKeys) {maximum : Nat}
    (hpos : 0 < maximum) (skip : Nat) (lo hi : TopoHeight) :
    (s.getContracts maximum skip lo hi).map IndexSet.elems = .ok (((s.contractsIn lo hi).drop skip).take maximum) := by
  have hentries (e : Key × TopoHeight) (he : e ∈ s.contracts.pointers.toList) :
      ∃ c, e.1 = keyBytes c ∧ s.contracts.pointers[keyBytes c]? = some e.2 := by
    have hpointer := Std.ExtTreeMap.mem_toList_iff_getElem?_eq_some.mp he
    obtain ⟨c, hc⟩ := hkeys e.1 e.2 hpointer
    exact ⟨c, hc, by rwa [← hc]⟩
  have hnodup : ((IndexSet.empty : IndexSet Hash).elems ++ s.contracts.pointers.toList.map fun e => keyHash e.1).Nodup :=
    nodup_contractHashes hkeys
  exact collectContracts_elems hwf hentries hnodup hpos

def ListsContracts (s : Storage P) (lo hi : TopoHeight) : Prop :=
  ∃ all : List Hash, all.Nodup ∧
    (∀ c, c ∈ all ↔ ∃ u, lo ≤ u ∧ u ≤ hi ∧ ((s.contractHistory c).version u).isSome) ∧
    ∀ n : Nat, 0 < n → ∀ i : Nat,
      (s.getContracts n (i * n) lo hi).map IndexSet.elems = .ok ((all.drop (i * n)).take n)

/-- The range of a listing ends before its maximum, so a contract stored only there is left out. -/
theorem listsContracts_iff (hwf : s.contracts.WellFormed) (hkeys : s.ContractKeys) (lo hi : TopoHeight) :
    s.ListsContracts lo hi ↔
      ∀ c, lo ≤ hi → ((s.contractHistory c).version hi).isSome → StoredIn (s.contractHistory c) lo hi := by
  constructor
  · rintro ⟨all, -, hall, hpages⟩ c hle hc
    let n := Max.max (all.length + (s.contractsIn lo hi).length) 1
    have hpage := hpages n (by omega) 0
    rw [Nat.zero_mul, getContracts_elems hwf hkeys (by omega), List.drop_zero, List.drop_zero,
      List.take_of_length_le (by omega), List.take_of_length_le (by omega)] at hpage
    have heq : s.contractsIn lo hi = all := Except.ok.inj hpage
    have hmem : c ∈ all := (hall c).mpr ⟨hi, hle, Nat.le_refl hi, hc⟩
    rw [← heq] at hmem
    exact (mem_contractsIn hwf).mp hmem
  · intro hlast
    refine ⟨s.contractsIn lo hi, nodup_contractsIn hkeys lo hi, fun c => ?_, fun n hn i => ?_⟩
    · rw [mem_contractsIn hwf]
      constructor
      · rintro ⟨u, hlo, hhi, hu⟩
        exact ⟨u, hlo, Nat.le_of_lt hhi, hu⟩
      · rintro ⟨u, hlo, hhi, hu⟩
        rcases Nat.lt_or_eq_of_le hhi with hlt | rfl
        · exact ⟨u, hlo, hlt, hu⟩
        · exact hlast c hlo hu
    · exact getContracts_elems hwf hkeys hn (i * n) lo hi

end Listing

section Agreement

variable {asset contract : Hash} {maximum lo hi : TopoHeight}

/-- The lookups up to a topoheight, and the listing of a range, answer what the stored versions say. -/
structure LookupsAgree (s : Storage P) (asset contract : Hash) (maximum lo hi : TopoHeight) : Prop where
  finds_asset : ∃ r, s.getAssetAtMaximumTopoheight asset maximum = .ok r ∧ (s.assetHistory asset).Found maximum r
  registered : s.isAssetRegisteredAtMaximumTopoheight asset maximum = true ↔
    ∃ u, u ≤ maximum ∧ ((s.assetHistory asset).version u).isSome
  finds_contract : ∃ r, s.getContractAtMaximumTopoheightFor contract maximum = .ok r ∧
    (s.contractHistory contract).Found maximum r
  has_contract : ∃ found, s.hasContractAtMaximumTopoheight contract maximum = .ok found ∧
    (found = true ↔ ∃ u, u ≤ maximum ∧ ((s.contractHistory contract).version u).isSome)
  lists : s.ListsContracts lo hi

/-- The lookups agree unless an asset was changed after the topoheight, or a contract is stored at the end of the range only. -/
theorem lookupsAgree_iff (hasset : (s.assetHistory asset).Linked HasPrevious.previousTopoheight)
    (hwf : s.contracts.WellFormed) (hkeys : s.ContractKeys) :
    s.LookupsAgree asset contract maximum lo hi ↔
      ((∀ l, (s.assetHistory asset).last = some l → l ≤ maximum) ∨ (s.assetHistory asset).EmptyUntil maximum) ∧
      ∀ c, lo ≤ hi → ((s.contractHistory c).version hi).isSome → StoredIn (s.contractHistory c) lo hi := by
  constructor
  · intro h
    exact ⟨(isAssetRegisteredAtMaximumTopoheight_iff hasset).mp h.registered, (listsContracts_iff hwf hkeys lo hi).mp h.lists⟩
  · rintro ⟨hpointer, hend⟩
    obtain ⟨ra, hra⟩ := (s.assetHistory asset).exists_found maximum
    obtain ⟨rc, hrc⟩ := (s.contractHistory contract).exists_found maximum
    refine ⟨⟨ra, getAssetAtMaximumTopoheight_found hasset hra, hra⟩,
      (isAssetRegisteredAtMaximumTopoheight_iff hasset).mpr hpointer,
      ⟨rc, getContractAtMaximumTopoheightFor_found (hwf _) hrc, hrc⟩,
      ⟨rc.isSome, hasContractAtMaximumTopoheight_found (hwf _) hrc, ?_⟩, (listsContracts_iff hwf hkeys lo hi).mpr hend⟩
    match rc, hrc with
    | none, hempty =>
      refine Bool.false_eq_true.to_iff.trans (iff_of_false id ?_)
      rintro ⟨u, hle, hu⟩
      rw [hempty u hle] at hu
      cases hu
    | some (u, v), hu => exact iff_of_true rfl ⟨u, hu.le, by rw [hu.version]; rfl⟩

end Agreement

theorem assetHistory_addAsset_self (s : Storage P) (asset : Hash) (t : TopoHeight) (data : Versioned AssetData) :
    (s.addAsset asset t data).assetHistory asset = (s.assetHistory asset).push t data := by
  have hcache : (s.assetsCache.insert asset t)[asset]? = some t := FiniteMap.getElem?_insert_self' _ _ _
  refine History.ext ?_ (VersionedTrees.version_setAt _ _ _ _)
  show (match (s.assetsCache.insert asset t)[asset]? with
    | some topo => some topo
    | none => _) = some t
  rw [hcache]

theorem ContractKeys.setLastContractTo (hkeys : s.ContractKeys) (contract : Hash) (t : TopoHeight)
    (version : Versioned (Option Module)) : (s.setLastContractTo contract t version).ContractKeys := by
  intro key topo hkey
  by_cases heq : keyBytes contract = key
  · exact ⟨contract, heq.symm⟩
  · have hpointer : (s.contracts.setLast (keyBytes contract) t version).pointers[key]? = some topo := hkey
    rw [VersionedTrees.pointers_setLast_of_ne _ _ _ _ heq] at hpointer
    exact hkeys key topo hpointer

private def coin : AssetData := ⟨8, "Xelis", "XEL", none, none⟩

private def removedModule : Versioned (Option Module) := ⟨none, none⟩

def changedAsset : Storage Int :=
  ((({} : Storage Int).addAsset 1 1 ⟨none, coin⟩).addAsset 1 3 ⟨some 1, coin⟩).setLastContractTo 5 2 removedModule

private theorem changedAsset_assetHistory :
    changedAsset.assetHistory 1 = ((⟨none, fun _ => none⟩ : History (Versioned AssetData)).push 1 ⟨none, coin⟩).push 3
      ⟨some 1, coin⟩ := by
  have hempty : ({} : Storage Int).assetHistory 1 = ⟨none, fun _ => none⟩ :=
    History.ext rfl (funext fun _ => Std.ExtTreeMap.getElem?_empty)
  show ((({} : Storage Int).addAsset 1 1 _).addAsset 1 3 _).assetHistory 1 = _
  rw [assetHistory_addAsset_self, assetHistory_addAsset_self, hempty]

private theorem changedAsset_contractHistory :
    changedAsset.contractHistory 5 = (⟨none, fun _ => none⟩ : History (Versioned (Option Module))).push 2 removedModule := by
  show (VersionedTrees.empty.setLast (keyBytes 5) 2 removedModule).history (keyBytes 5) = _
  rw [VersionedTrees.history_setLast_self, VersionedTrees.history_empty]

theorem changedAsset_wellFormed : (changedAsset.assetHistory 1).Linked HasPrevious.previousTopoheight ∧
    changedAsset.contracts.WellFormed ∧ changedAsset.ContractKeys := by
  refine ⟨?_, VersionedTrees.WellFormed.empty.setLast rfl ?_, ?_⟩
  · rw [changedAsset_assetHistory]
    exact (History.Linked.empty.push rfl fun _ hl => nomatch hl).push rfl fun l hl => by
      rw [← Option.some.inj hl]
      decide
  · exact fun _ hl => nomatch hl
  · have hnone : ContractKeys (((({} : Storage Int).addAsset 1 1 ⟨none, coin⟩).addAsset 1 3 ⟨some 1, coin⟩)) :=
      fun _ _ h => nomatch h
    exact hnone.setLastContractTo 5 2 removedModule

/-- Between its two versions the asset passes for unregistered; the contract is not listed in a range that ends at it. -/
theorem changedAsset_lookups_disagree :
    ((changedAsset.assetHistory 1).Linked HasPrevious.previousTopoheight ∧
      changedAsset.contracts.WellFormed ∧ changedAsset.ContractKeys) ∧
    ¬changedAsset.LookupsAgree 1 5 2 0 3 ∧ ¬changedAsset.LookupsAgree 1 5 3 0 2 := by
  refine ⟨changedAsset_wellFormed, fun h => ?_, fun h => ?_⟩
  · have hstored : ((changedAsset.assetHistory 1).version 1).isSome := by
      rw [changedAsset_assetHistory]
      rfl
    have hregistered : changedAsset.isAssetRegisteredAtMaximumTopoheight 1 2 = true := h.registered.mpr ⟨1, by decide, hstored⟩
    have hlast : changedAsset.getAssetTopoheight 1 = some 3 := congrArg History.last changedAsset_assetHistory
    rw [isAssetRegisteredAtMaximumTopoheight, hlast] at hregistered
    exact absurd hregistered (by decide)
  · obtain ⟨u, -, hu, hstored⟩ := (listsContracts_iff changedAsset_wellFormed.2.1 changedAsset_wellFormed.2.2 0 2).mp h.lists 5
      (by decide) (by rw [changedAsset_contractHistory]; rfl)
    rw [changedAsset_contractHistory, History.version_push_of_ne _ _ _ (Nat.ne_of_lt hu)] at hstored
    cases hstored

/-- From 3 on, and in a range that ends behind the contract, they agree. -/
theorem lookupsAgree_changedAsset : changedAsset.LookupsAgree 1 5 3 0 3 := by
  refine (lookupsAgree_iff changedAsset_wellFormed.1 changedAsset_wellFormed.2.1 changedAsset_wellFormed.2.2).mpr ⟨.inl ?_, ?_⟩
  · intro l hl
    rw [changedAsset_assetHistory, History.last_push, Option.some.injEq] at hl
    exact Nat.le_of_eq hl.symm
  · intro c _ hc
    by_cases heq : 5 = c
    · subst heq
      exact ⟨2, by decide, by decide, by rw [changedAsset_contractHistory]; rfl⟩
    · have hempty : changedAsset.contractHistory c = ⟨none, fun _ => none⟩ := by
        show (VersionedTrees.empty.setLast (keyBytes 5) 2 removedModule).history (keyBytes c) = _
        rw [VersionedTrees.history_setLast_of_ne _ _ _ _ fun hk => heq (keyBytes_injective hk), VersionedTrees.history_empty]
      rw [hempty] at hc
      cases hc

end Stored

end Xelis.Storage
