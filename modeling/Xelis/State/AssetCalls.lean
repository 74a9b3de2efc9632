import Xelis.State.Execution
import Xelis.Storage.ContractSearch

namespace Xelis.State

open Lib (FiniteMap History)
open Storage (HasPrevious)

variable {l amount id decimals : Nat}

section Entries

variable {V : Type} {h : History (Versioned V)} {entry : VersionedState × V} {top t : TopoHeight}

def latest (h : History (Versioned V)) : Option V := h.newestVersion.map (·.2.data)

/-- A cached value keeps the topoheight of the version it replaces, and one that was only read is the stored one. -/
def Remembers (h : History (Versioned V)) (entry : VersionedState × V) : Prop :=
  entry.1.getTopoheight = h.last ∧ (entry.1.isFetchedAt = true → latest h = some entry.2)

def storedFor (entry : VersionedState × V) : Option (Versioned V) :=
  if entry.1.shouldBeStored then some ⟨entry.1.getTopoheight, entry.2⟩ else none

/-- The versions are linked from the last one down, and none is above a topoheight. -/
structure Chained (top : TopoHeight) (h : History (Versioned V)) : Prop where
  linked : h.Linked HasPrevious.previousTopoheight
  le : ∀ l, h.last = some l → l ≤ top

theorem Chained.mono (hc : Chained top h) (hle : top ≤ t) : Chained t h := ⟨hc.linked, fun l hl => Nat.le_trans (hc.le l hl) hle⟩

theorem Chained.found (hc : Chained top h) (hle : top ≤ t) : h.Found t h.newestVersion :=
  hc.linked.found_newestVersion fun l hl => Nat.le_trans (hc.le l hl) hle

theorem Chained.last_eq_none (hc : Chained top h) (hnone : latest h = none) : h.last = none := by
  rw [hc.linked.last_eq, Option.map_eq_none_iff.mp hnone]
  rfl

theorem Chained.remembers_fetched (hc : Chained top h) {v : Versioned V} (hnewest : h.newestVersion = some (l, v)) :
    Remembers h (.fetchedAt l, v.data) := by
  refine ⟨?_, fun _ => ?_⟩
  · rw [hc.linked.last_eq, hnewest]
    rfl
  · rw [latest, hnewest]
    rfl

theorem remembers_new (hnone : h.last = none) (value : V) : Remembers h (.new, value) := ⟨hnone.symm, nofun⟩

theorem Remembers.markUpdated (hr : Remembers h entry) (value : V) : Remembers h (entry.1.markUpdated, value) := by
  obtain ⟨versioned, previous⟩ := entry
  obtain ⟨hlast, -⟩ := hr
  cases versioned with
  | new => exact ⟨hlast, nofun⟩
  | fetchedAt topo => exact ⟨hlast, nofun⟩
  | updated topo => exact ⟨hlast, nofun⟩

theorem newestVersion_push (h : History (Versioned V)) (t : Nat) (v : Versioned V) : (h.push t v).newestVersion = some (t, v) := by
  rw [History.newestVersion, History.last_push, Option.bind_some, History.version_push_self]
  rfl

/-- What is stored for a cached value is the new last version, linked to the one it replaces. -/
theorem Chained.extend (hc : Chained top h) (hlt : top < t) (hr : Remembers h entry) :
    Chained t (h.extend t (storedFor entry)) ∧ latest (h.extend t (storedFor entry)) = some entry.2 := by
  have hbefore : ∀ l, h.last = some l → l < t := fun l hl => Nat.lt_of_le_of_lt (hc.le l hl) hlt
  unfold storedFor
  cases hstore : entry.1.shouldBeStored with
  | true =>
    rw [if_pos rfl, History.extend_some]
    refine ⟨⟨hc.linked.push hr.1 hbefore, fun l hl => ?_⟩, ?_⟩
    · rw [History.last_push, Option.some.injEq] at hl
      exact Nat.le_of_eq hl.symm
    · rw [latest, newestVersion_push]
      rfl
  | false =>
    rw [if_neg (by simp), History.extend_none]
    refine ⟨hc.mono (Nat.le_of_lt hlt), hr.2 ?_⟩
    simpa [VersionedState.shouldBeStored] using hstore

end Entries

/-- Who owns the assets: nothing where there is no asset, no one for an asset that no contract made. -/
abbrev Registry := Hash → Option (Option Hash)

def contractOwner (data : AssetData) : Option Hash := data.owner.map AssetOwner.contract

variable {caller asset owner newContract : Hash} {existing : Set Hash} {m : Registry} {call : HostCall}

namespace HostCall

open Classical in
/-- What a call makes of the owners: a contract owns the assets it makes, and gives its own to other contracts. -/
noncomputable def owners (blake3 : IVec → Hash) (caller : Hash) (existing : Set Hash) (m : Registry) : HostCall → Registry
  | .assetCreate id _ _ _ _ =>
    let asset := blake3 (hashToBytes caller ++ Serializer.toBytes (UInt64.ofNat id))
    if m asset = none then Function.update m asset (some (some caller)) else m
  | .assetTransferOwnership asset newContract =>
    if m asset = some (some caller) ∧ newContract ∈ existing then Function.update m asset (some (some newContract)) else m
  | _ => m

variable {blake3 : IVec → Hash}

/-- An owner changes where a contract makes a new asset, or gives its own one away. -/
theorem owners_changed (hne : call.owners blake3 caller existing m asset ≠ m asset) :
    (m asset = none ∧ call.owners blake3 caller existing m asset = some (some caller)) ∨
      ∃ newContract, call = .assetTransferOwnership asset newContract ∧ m asset = some (some caller) ∧
        newContract ∈ existing ∧ call.owners blake3 caller existing m asset = some (some newContract) := by
  cases call with
  | assetCreate id name ticker decimals maxSupply =>
    simp only [owners] at hne ⊢
    split at hne
    · rename_i hnone
      by_cases hsame : asset = blake3 (hashToBytes caller ++ Serializer.toBytes (UInt64.ofNat id))
      · rw [if_pos hnone, hsame, Function.update_self]
        exact .inl ⟨hnone, rfl⟩
      · exact absurd (Function.update_of_ne hsame _ _) hne
    · exact absurd rfl hne
  | assetTransferOwnership given newContract =>
    simp only [owners] at hne ⊢
    split at hne
    · rename_i hgives
      by_cases hsame : asset = given
      · subst hsame
        rw [if_pos hgives, Function.update_self]
        exact .inr ⟨newContract, rfl, hgives.1, hgives.2, rfl⟩
      · exact absurd (Function.update_of_ne hsame _ _) hne
    · exact absurd rfl hne
  | _ => exact absurd rfl hne

theorem owners_existing (hcaller : caller ∈ existing)
    (hm : ∀ asset owner, m asset = some (some owner) → owner ∈ existing) (call : HostCall)
    (howner : call.owners blake3 caller existing m asset = some (some owner)) : owner ∈ existing := by
  by_cases hsame : call.owners blake3 caller existing m asset = m asset
  · rw [hsame] at howner
    exact hm asset owner howner
  · rcases owners_changed hsame with ⟨-, hnew⟩ | ⟨newContract, -, -, hexisting, hnew⟩
    · rw [howner, Option.some.injEq, Option.some.injEq] at hnew
      rwa [hnew]
    · rw [howner, Option.some.injEq, Option.some.injEq] at hnew
      rwa [hnew]

end HostCall

namespace Registry

noncomputable def after (blake3 : IVec → Hash) (caller : Hash) (existing : Set Hash) (m : Registry) (calls : List HostCall) :
    Registry :=
  calls.foldl (HostCall.owners blake3 caller existing) m

end Registry

variable {entry : Option AssetChanges}

namespace ContractChainState

section Calls

variable {P : Type} (blake3 : IVec → Hash) (provider : Storage P) (state : ContractChainState)

def answerTransferOwnership (asset newContract : Hash) : Option (Bool × ContractChainState) := do
  match provider.hasContractAtMaximumTopoheight asset state.topoheight with
  | .error _ => none
  | .ok false => return (false, state)
  | .ok true =>
    let changes ← state.getAssetChangesForHash asset
    match changes.data.2.owner with
    | some owner =>
      if owner.contract = state.contract then
        let data := { changes.data.2 with owner := some { owner with contract := newContract } }
        return (true, state.setAsset asset (some { changes with data := (changes.data.1.markUpdated, data) }))
      else return (false, state)
    | none => return (false, state)

def answerMint (asset : Hash) (amount : Nat) : Option (Bool × ContractChainState) := do
  let changes ← state.getAssetChangesForHash asset
  if changes.data.2.owner.map AssetOwner.contract != some state.contract then
    return (false, state)
  if changes.data.2.maxSupply.isSome then
    return (false, state)
  let (supplyState, supply) ← state.currentSupply provider asset changes
  if 2 ^ 64 ≤ supply + amount then none
  else
    let state := state.setAsset asset (some { changes with supply := some (supplyState.markUpdated, supply + amount) })
    let (balance, state) ← state.getBalanceFromCache provider asset
    match balance with
    | some (balanceState, balance) =>
      if 2 ^ 64 ≤ balance + amount then none
      else return (true, (state.setBalance asset (balanceState.markUpdated, balance + amount)).pushOutput (.mint asset amount))
    | none => return (true, (state.setBalance asset (.new, amount)).pushOutput (.mint asset amount))

theorem answerTransferOwnership_exec (asset newContract : Hash) :
    (state.answerTransferOwnership provider asset newContract).map Prod.snd =
      state.assetTransferOwnership provider asset newContract := by
  unfold answerTransferOwnership assetTransferOwnership
  cases provider.hasContractAtMaximumTopoheight asset state.topoheight with
  | error e => rfl
  | ok found =>
    cases found with
    | false => rfl
    | true =>
      cases state.getAssetChangesForHash asset with
      | none => rfl
      | some changes =>
        dsimp only [bind, Option.bind]
        cases changes.data.2.owner with
        | none => rfl
        | some owner =>
          dsimp only
          split
          · rfl
          · rfl

theorem answerMint_exec (asset : Hash) (amount : Nat) :
    (state.answerMint provider asset amount).map Prod.snd = state.assetMint provider asset amount := by
  unfold answerMint assetMint
  cases state.getAssetChangesForHash asset with
  | none => rfl
  | some changes =>
    dsimp only [bind, Option.bind]
    split
    · rfl
    split
    · rfl
    cases state.currentSupply provider asset changes with
    | none => rfl
    | some supply =>
      obtain ⟨supplyState, supply⟩ := supply
      dsimp only
      split
      · rfl
      cases getBalanceFromCache provider (state.setAsset asset (some { changes with
          supply := some (supplyState.markUpdated, supply + amount) })) asset with
      | none => rfl
      | some found =>
        obtain ⟨balance, state₁⟩ := found
        cases balance with
        | none => rfl
        | some balance =>
          dsimp only
          split
          · rfl
          · rfl

/-- The owners as an execution sees them: cached, or stored. -/
def ownersSeen (assets : FiniteMap Hash (Option AssetChanges)) : Registry := fun asset =>
  match assets[asset]? with
  | some entry => entry.map (fun changes => contractOwner changes.data.2)
  | none => (latest (provider.assetHistory asset)).map contractOwner

/-- A cached asset keeps the version it replaces, and one that was not found is not stored. -/
def EntryKept (h : History (Versioned AssetData)) : Option AssetChanges → Prop
  | some changes => Remembers h changes.data
  | none => h.last = none

def AssetsKept (assets : FiniteMap Hash (Option AssetChanges)) : Prop :=
  ∀ (asset : Hash) (entry : Option AssetChanges), assets[asset]? = some entry → EntryKept (provider.assetHistory asset) entry

/-- The contract that the owner asks the storage for is there exactly when the new owner exists. -/
def LooksUp (existing : Set Hash) : HostCall → Prop
  | .assetTransferOwnership asset newContract =>
    ownersSeen provider state.assets asset = some (some state.contract) →
      ∀ found, provider.hasContractAtMaximumTopoheight asset state.topoheight = .ok found →
        (found = true ↔ newContract ∈ existing)
  | _ => True

def Meets (cond : ContractChainState → HostCall → Prop) : ContractChainState → List HostCall → Prop
  | _, [] => True
  | state, call :: calls => cond state call ∧ ∀ next, state.exec blake3 provider call = some next → Meets cond next calls

end Calls

section Assets

variable {P : Type} {blake3 : IVec → Hash} {provider : Storage P} {state next : ContractChainState}
  {assets : FiniteMap Hash (Option AssetChanges)} {asset : Hash}

theorem ownersSeen_cached (h : assets[asset]? = some entry) :
    ownersSeen provider assets asset = entry.map (fun changes => contractOwner changes.data.2) := by
  simp only [ownersSeen, h]

theorem ownersSeen_uncached (h : assets[asset]? = none) :
    ownersSeen provider assets asset = (latest (provider.assetHistory asset)).map contractOwner := by
  simp only [ownersSeen, h]

theorem ownersSeen_insert (asset : Hash) (entry : Option AssetChanges) :
    ownersSeen provider (assets.insert asset entry) =
      Function.update (ownersSeen provider assets) asset (entry.map (fun changes => contractOwner changes.data.2)) := by
  funext other
  by_cases hsame : other = asset
  · subst hsame
    rw [Function.update_self, ownersSeen_cached (FiniteMap.getElem?_insert_self' _ _ _)]
  · rw [Function.update_of_ne hsame, ownersSeen, ownersSeen, FiniteMap.getElem?_insert_of_ne _ _ (Ne.symm hsame)]

theorem ownersSeen_insert_same
    (h : entry.map (fun changes => contractOwner changes.data.2) = ownersSeen provider assets asset) :
    ownersSeen provider (assets.insert asset entry) = ownersSeen provider assets := by
  rw [ownersSeen_insert, h, Function.update_eq_self]

theorem AssetsKept.insert (hk : AssetsKept provider assets)
    (hentry : EntryKept (provider.assetHistory asset) entry) : AssetsKept provider (assets.insert asset entry) := by
  intro other found hfound
  by_cases hsame : asset = other
  · subst hsame
    rw [FiniteMap.getElem?_insert_self', Option.some.injEq] at hfound
    rw [← hfound]
    exact hentry
  · rw [FiniteMap.getElem?_insert_of_ne _ _ hsame] at hfound
    exact hk other found hfound

theorem getAssetChangesForHash_some {changes : AssetChanges} (h : state.getAssetChangesForHash asset = some changes) :
    state.assets[asset]? = some (some changes) := by
  rw [getAssetChangesForHash, Option.join_eq_some_iff] at h
  exact h

/-- The assets of an execution: the owners that are seen, and cached assets that keep what they replace. -/
structure Owned (provider : Storage P) (m : Registry) (assets : FiniteMap Hash (Option AssetChanges)) : Prop where
  seen : ownersSeen provider assets = m
  kept : AssetsKept provider assets

theorem Owned.insert_same (ho : Owned provider m assets)
    (howner : entry.map (fun changes => contractOwner changes.data.2) = m asset)
    (hentry : EntryKept (provider.assetHistory asset) entry) : Owned provider m (assets.insert asset entry) := by
  refine ⟨(ownersSeen_insert_same ?_).trans ho.seen, ho.kept.insert hentry⟩
  rw [howner, ho.seen]

theorem Owned.insert_new (ho : Owned provider m assets) (changes : AssetChanges)
    (hentry : Remembers (provider.assetHistory asset) changes.data) :
    Owned provider (Function.update m asset (some (contractOwner changes.data.2))) (assets.insert asset (some changes)) := by
  refine ⟨?_, ho.kept.insert hentry⟩
  rw [ownersSeen_insert, ho.seen]
  rfl

theorem Owned.cached (ho : Owned provider m assets) (h : assets[asset]? = some entry) :
    entry.map (fun changes => contractOwner changes.data.2) = m asset ∧ EntryKept (provider.assetHistory asset) entry := by
  refine ⟨?_, ho.kept asset entry h⟩
  rw [← ho.seen, ownersSeen_cached h]

section Lookups

variable {top : TopoHeight} (hchain : Chained top (provider.assetHistory asset)) (htop : top ≤ state.topoheight)

include hchain htop

theorem getAssetFromProvider_found (h : state.getAssetFromProvider provider asset = some entry) :
    entry.map (fun changes => contractOwner changes.data.2) = (latest (provider.assetHistory asset)).map contractOwner ∧
      EntryKept (provider.assetHistory asset) entry := by
  unfold getAssetFromProvider at h
  rw [Storage.getAssetAtMaximumTopoheight_found hchain.linked (hchain.found htop)] at h
  cases hnewest : (provider.assetHistory asset).newestVersion with
  | none =>
    simp only [hnewest] at h
    cases h
    have hnone : latest (provider.assetHistory asset) = none := by rw [latest, hnewest, Option.map_none]
    rw [hnone]
    exact ⟨rfl, hchain.last_eq_none hnone⟩
  | some found =>
    obtain ⟨topo, version⟩ := found
    simp only [hnewest, bind, Option.bind_eq_some_iff] at h
    obtain ⟨supply, -, h⟩ := h
    cases h
    refine ⟨?_, hchain.remembers_fetched hnewest⟩
    rw [latest, hnewest]
    rfl

theorem Owned.lookup (ho : Owned provider m state.assets)
    (h : state.getOptionalAssetFromCache provider asset = some (entry, next)) :
    Owned provider m next.assets ∧ entry.map (fun changes => contractOwner changes.data.2) = m asset ∧
      EntryKept (provider.assetHistory asset) entry := by
  unfold getOptionalAssetFromCache at h
  cases hcached : state.assets[asset]? with
  | some cached =>
    simp only [hcached, Option.some.injEq, Prod.mk.injEq] at h
    obtain ⟨rfl, rfl⟩ := h
    exact ⟨ho, ho.cached hcached⟩
  | none =>
    simp only [hcached, bind, Option.bind_eq_some_iff, Option.some.injEq, Prod.mk.injEq] at h
    obtain ⟨found, hfound, rfl, rfl⟩ := h
    obtain ⟨howner, hentry⟩ := getAssetFromProvider_found hchain htop hfound
    have hseen : found.map (fun changes => contractOwner changes.data.2) = m asset := by
      rw [howner, ← ho.seen, ownersSeen_uncached hcached]
    exact ⟨ho.insert_same hseen hentry, hseen, hentry⟩

end Lookups

end Assets

section Steps

variable {P : Type} {blake3 : IVec → Hash} {provider : Storage P} {state next : ContractChainState} {m : Registry}

theorem getBalanceForAsset_assets
    (h : (state.getBalanceFromCache provider asset).map Prod.snd = some next) : next.assets = state.assets := by
  rw [getBalanceFromCache_eq, Option.map_map, Option.map_eq_some_iff] at h
  obtain ⟨balance, -, rfl⟩ := h
  rfl

theorem transfer_assets {destination : Address}
    (h : state.transfer provider destination amount asset = some next) : next.assets = state.assets := by
  rcases transfer_ok h with rfl | ⟨balance, -, rfl | ⟨versioned, held, -, -, rfl⟩⟩
  · rfl
  · rfl
  · rfl

theorem burn_assets (h : state.burn provider amount asset = some next) : next.assets = state.assets := by
  obtain ⟨balance, -, rfl | ⟨versioned, held, -, -, rfl⟩⟩ := burn_ok h
  · rfl
  · rfl

theorem assetGetSupply_owned (ho : Owned provider m state.assets)
    (h : state.assetGetSupply provider asset = some next) : Owned provider m next.assets := by
  simp only [assetGetSupply, bind, Option.bind_eq_some_iff] at h
  obtain ⟨changes, hchanges, h⟩ := h
  have hcached := getAssetChangesForHash_some hchanges
  cases hsupply : changes.supply with
  | some supply =>
    simp only [hsupply] at h
    cases h
    exact ho
  | none =>
    simp only [hsupply, Option.bind_eq_some_iff] at h
    obtain ⟨supply, -, h⟩ := h
    cases h
    exact ho.insert_same (ho.cached hcached).1 (ho.cached hcached).2

variable {answer : Bool}

theorem answerMint_owned (ho : Owned provider m state.assets)
    (h : state.answerMint provider asset amount = some (answer, next)) :
    Owned provider m next.assets ∧ (answer = true → m asset = some (some state.contract)) := by
  unfold answerMint at h
  simp only [bind, Option.bind_eq_some_iff] at h
  obtain ⟨changes, hchanges, h⟩ := h
  obtain ⟨howner, hentry⟩ := ho.cached (getAssetChangesForHash_some hchanges)
  split at h
  · cases h
    exact ⟨ho, nofun⟩
  rename_i hcaller
  have hcaller : m asset = some (some state.contract) := by
    rw [← howner]
    exact congrArg some (by simpa [contractOwner] using hcaller)
  refine ⟨?_, fun _ => hcaller⟩
  split at h
  · cases h
    exact ho
  obtain ⟨⟨supplyState, supply⟩, -, h⟩ := Option.bind_eq_some_iff.mp h
  dsimp only at h
  split at h
  · cases h
  have hminted : Owned provider m (state.assets.insert asset (some { changes with
      supply := some (supplyState.markUpdated, supply + amount) })) := ho.insert_same howner hentry
  simp only [getBalanceFromCache_eq, Option.bind_eq_some_iff, Option.map_eq_some_iff] at h
  obtain ⟨_, ⟨balance, -, rfl⟩, h⟩ := h
  cases balance with
  | none =>
    cases h
    exact hminted
  | some balance =>
    dsimp only at h
    split at h
    · cases h
    · cases h
      exact hminted

theorem answerTransferOwnership_owned (ho : Owned provider m state.assets)
    (h : state.answerTransferOwnership provider asset newContract = some (answer, next)) :
    ∃ found, provider.hasContractAtMaximumTopoheight asset state.topoheight = .ok found ∧
      (answer = true ↔ found = true ∧ m asset = some (some state.contract)) ∧
      Owned provider (if answer = true then Function.update m asset (some (some newContract)) else m) next.assets := by
  unfold answerTransferOwnership at h
  cases hfound : provider.hasContractAtMaximumTopoheight asset state.topoheight with
  | error e => simp [hfound] at h
  | ok found =>
    refine ⟨found, rfl, ?_⟩
    cases found with
    | false =>
      simp only [hfound] at h
      cases h
      exact ⟨by simp, by simpa using ho⟩
    | true =>
      simp only [hfound, bind, Option.bind_eq_some_iff] at h
      obtain ⟨changes, hchanges, h⟩ := h
      obtain ⟨howner, hentry⟩ := ho.cached (getAssetChangesForHash_some hchanges)
      cases hdata : changes.data.2.owner with
      | none =>
        simp only [hdata] at h
        cases h
        rw [← howner, Option.map_some, contractOwner, hdata]
        exact ⟨by simp, by simpa using ho⟩
      | some owner =>
        simp only [hdata] at h
        rw [Option.map_some, contractOwner, hdata, Option.map_some] at howner
        split at h
        · rename_i hcaller
          cases h
          rw [← howner, hcaller]
          refine ⟨by simp, ?_⟩
          rw [if_pos rfl]
          let data : AssetData := { changes.data.2 with owner := some { owner with contract := newContract } }
          exact ho.insert_new { changes with data := (changes.data.1.markUpdated, data) } (Remembers.markUpdated hentry data)
        · rename_i hcaller
          cases h
          rw [← howner]
          exact ⟨by simpa using hcaller, by simpa using ho⟩

theorem answerTransferOwnership_right (ho : Owned provider m state.assets)
    (h : state.answerTransferOwnership provider asset newContract = some (answer, next)) (existing : Set Hash) :
    (answer = true ↔ m asset = some (some state.contract) ∧ newContract ∈ existing) ↔
      state.LooksUp provider existing (.assetTransferOwnership asset newContract) := by
  obtain ⟨found, hfound, hanswer, -⟩ := answerTransferOwnership_owned ho h
  unfold LooksUp
  rw [ho.seen, hanswer]
  constructor
  · intro hright howner found' hfound'
    rw [hfound, Except.ok.injEq] at hfound'
    rw [← hfound']
    exact ⟨fun hf => (hright.mp ⟨hf, howner⟩).2, fun hn => (hright.mpr ⟨howner, hn⟩).1⟩
  · intro hlooks
    constructor
    · rintro ⟨hf, howner⟩
      exact ⟨howner, (hlooks howner found hfound).mp hf⟩
    · rintro ⟨howner, hn⟩
      exact ⟨(hlooks howner found hfound).mpr hn, howner⟩

variable {top : TopoHeight}

theorem assetCreate_owned (hchain : ∀ asset, Chained top (provider.assetHistory asset))
    (htop : top ≤ state.topoheight) (existing : Set Hash) {name ticker : String}
    {maxSupply : Option Nat} (ho : Owned provider m state.assets)
    (h : state.assetCreate blake3 provider id name ticker decimals maxSupply = some next) :
    Owned provider ((HostCall.assetCreate id name ticker decimals maxSupply).owners blake3 state.contract existing m)
      next.assets := by
  unfold assetCreate at h
  split at h
  · cases h
  split at h
  · cases h
  simp only [bind, Option.bind_eq_some_iff] at h
  obtain ⟨⟨entry, state₁⟩, hlookup, h⟩ := h
  obtain ⟨hloaded, hseen, hentry⟩ := ho.lookup (hchain _) htop hlookup
  obtain ⟨assets, rfl⟩ := getOptionalAssetFromCache_frame hlookup
  cases entry with
  | some changes =>
    cases h
    have hsome : m (blake3 (hashToBytes state.contract ++ Serializer.toBytes (UInt64.ofNat id))) ≠ none := by
      intro hnone
      rw [assetHash, hnone] at hseen
      cases hseen
    simp only [HostCall.owners, if_neg hsome]
    exact hloaded
  | none =>
    have hnone : m (blake3 (hashToBytes state.contract ++ Serializer.toBytes (UInt64.ofNat id))) = none := hseen.symm
    simp only [HostCall.owners, if_pos hnone]
    have hmade : ∀ data : AssetData, contractOwner data = some state.contract →
        Owned provider (Function.update m (state.assetHash blake3 id) (some (some state.contract)))
          (assets.insert (state.assetHash blake3 id) (some { data := (.new, data), supply := none })) := by
      intro data hdata
      rw [← hdata]
      exact hloaded.insert_new { data := (.new, data), supply := none } (remembers_new hentry data)
    cases maxSupply with
    | none =>
      cases h
      exact hmade _ rfl
    | some maxSupply =>
      cases h
      exact hmade _ rfl

/-- One call leaves the owners that it should. -/
theorem exec_owned (hchain : ∀ asset, Chained top (provider.assetHistory asset))
    (htop : top ≤ state.topoheight) (ho : Owned provider m state.assets)
    (hlooks : state.LooksUp provider existing call) (h : state.exec blake3 provider call = some next) :
    Owned provider (call.owners blake3 state.contract existing m) next.assets := by
  have hsame : next.assets = state.assets → Owned provider m next.assets := fun heq => heq ▸ ho
  cases call with
  | getBalanceForAsset asset => exact hsame (getBalanceForAsset_assets h)
  | transfer destination amount asset => exact hsame (transfer_assets h)
  | burn amount asset => exact hsame (burn_assets h)
  | assetCreate id name ticker decimals maxSupply => exact assetCreate_owned hchain htop existing ho h
  | assetGetByHash asset =>
    obtain ⟨⟨entry, state₁⟩, hlookup, rfl⟩ := Option.map_eq_some_iff.mp h
    exact (ho.lookup (hchain asset) htop hlookup).1
  | assetGetSupply asset => exact assetGetSupply_owned ho h
  | assetTransferOwnership asset newContract =>
    have htransfer : state.assetTransferOwnership provider asset newContract = some next := h
    rw [← answerTransferOwnership_exec, Option.map_eq_some_iff] at htransfer
    obtain ⟨⟨answer, state₁⟩, hanswer, rfl⟩ := htransfer
    have hright := (answerTransferOwnership_right ho hanswer existing).mpr hlooks
    obtain ⟨-, -, -, hnext⟩ := answerTransferOwnership_owned ho hanswer
    simp only [HostCall.owners, ← hright]
    exact hnext
  | assetMint asset amount =>
    have hmint : state.assetMint provider asset amount = some next := h
    rw [← answerMint_exec, Option.map_eq_some_iff] at hmint
    obtain ⟨⟨answer, state₁⟩, hanswer, rfl⟩ := hmint
    exact (answerMint_owned ho hanswer).1
  | storageLoad | storageHas | storageStore | storageDelete | memoryStorageStore | memoryStorageDelete
  | fireEvent => exact hsame (data_frame h trivial).2.2.2.2

/-- A run of calls leaves the owners that it should. -/
theorem execAll_owned (hchain : ∀ asset, Chained top (provider.assetHistory asset))
    (htop : top ≤ state.topoheight) {calls : List HostCall} (ho : Owned provider m state.assets)
    (hmeet : Meets blake3 provider (fun state call => state.LooksUp provider existing call) state calls)
    (h : state.execAll blake3 provider calls = some next) :
    Owned provider (m.after blake3 state.contract existing calls) next.assets ∧ next.contract = state.contract ∧
      next.topoheight = state.topoheight := by
  induction calls generalizing state m with
  | nil =>
    cases h
    exact ⟨ho, rfl, rfl⟩
  | cons call calls ih =>
    obtain ⟨state₁, hcall, hrest⟩ := Option.bind_eq_some_iff.mp h
    obtain ⟨hcontract, htopo, -⟩ := exec_stepped hcall
    have hstep := exec_owned hchain htop ho hmeet.1 hcall
    rw [← hcontract] at hstep
    obtain ⟨howned, hcontract', htopo'⟩ := ih (htopo ▸ htop) hstep (hmeet.2 state₁ hcall) hrest
    rw [hcontract] at howned hcontract'
    exact ⟨howned, hcontract', htopo'.trans htopo⟩

end Steps

end ContractChainState

end Xelis.State
