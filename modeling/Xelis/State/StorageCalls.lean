import Xelis.Lib.LinkedHistory
import Xelis.State.Execution
import Xelis.Storage.Versions

namespace Xelis.State

open Lib (FiniteMap History)
open Storage (VersionedTrees)

inductive StorageCall where
  | load (key : ValueCell)
  | has (key : ValueCell)
  | store (key value : ValueCell)
  | delete (key : ValueCell)
  deriving DecidableEq

/-- What a call gives back to the contract. -/
inductive Answer where
  | cell (value : ValueCell)
  | boolean (value : Bool)
  deriving DecidableEq

def nullCell : ValueCell := [0, 0]

/-- A plain map. -/
abbrev Contents := ValueCell → Option ValueCell

variable {call : StorageCall}

namespace StorageCall

def key : StorageCall → ValueCell
  | .load key => key
  | .has key => key
  | .store key _ => key
  | .delete key => key

/-- The limits on what is stored. -/
def Sized : StorageCall → Prop
  | .store key value => key.length ≤ MAX_KEY_SIZE ∧ value.length ≤ MAX_VALUE_SIZE
  | _ => True

/-- What a plain map answers: a value, a presence, or the previous value. -/
def answer (m : Contents) : StorageCall → Answer
  | .load key => .cell ((m key).getD nullCell)
  | .has key => .boolean (m key).isSome
  | .store key _ => .cell ((m key).getD nullCell)
  | .delete key => .cell ((m key).getD nullCell)

/-- What a call makes of a plain map. -/
def update (m : Contents) : StorageCall → Contents
  | .load _ => m
  | .has _ => m
  | .store key value => Function.update m key (some value)
  | .delete key => Function.update m key none

theorem answer_congr {m m' : Contents} (h : m call.key = m' call.key) : call.answer m = call.answer m' := by
  cases call with
  | load key => exact congrArg (fun value : Option ValueCell => Answer.cell (value.getD nullCell)) h
  | has key => exact congrArg (fun value : Option ValueCell => Answer.boolean value.isSome) h
  | store key value => exact congrArg (fun value : Option ValueCell => Answer.cell (value.getD nullCell)) h
  | delete key => exact congrArg (fun value : Option ValueCell => Answer.cell (value.getD nullCell)) h

theorem update_congr {m m' : Contents} {k : ValueCell} (h : m k = m' k) : call.update m k = call.update m' k := by
  cases call with
  | load key => exact h
  | has key => exact h
  | store key value => simp only [update, Function.update_apply, h]
  | delete key => simp only [update, Function.update_apply, h]

end StorageCall

namespace Contents

def after (m : Contents) (calls : List StorageCall) : Contents := calls.foldl StorageCall.update m

def answers : Contents → List StorageCall → List Answer
  | _, [] => []
  | m, call :: calls => call.answer m :: answers (call.update m) calls

end Contents

/-- The calls on the storage among those of the chain. -/
def HostCall.storage : HostCall → Option StorageCall
  | .storageLoad key => some (.load key)
  | .storageHas key => some (.has key)
  | .storageStore key value => some (.store key value)
  | .storageDelete key => some (.delete key)
  | _ => none

def storageCalls (calls : List HostCall) : List StorageCall := calls.filterMap HostCall.storage

variable {entry : VersionedState × Option ValueCell}

namespace ContractChainState

section Calls

variable {P : Type} (blake3 : IVec → Hash) (provider : Storage P) (state : ContractChainState)

def answerLoad (key : ValueCell) : Option (Answer × ContractChainState) :=
  match state.cache.storage[key]? with
  | some (_, value) => some (.cell (value.getD nullCell), state)
  | none =>
    match provider.getContractDataAtMaximumTopoheightFor blake3 state.contract key state.topoheight with
    | .error _ => none
    | .ok (some (topo, version)) =>
      some (.cell (version.data.getD nullCell), state.setStorage key (.fetchedAt topo, version.data))
    | .ok none => some (.cell nullCell, state)

def answerHas (key : ValueCell) : Option (Answer × ContractChainState) :=
  match state.cache.storage[key]? with
  | some (_, value) => some (.boolean value.isSome, state)
  | none =>
    match provider.hasContractDataAtTopoheight blake3 state.contract key state.topoheight with
    | .error _ => none
    | .ok contains => some (.boolean contains, state)

/-- The answer is the cached value that was replaced. -/
def answerStore (key value : ValueCell) : Option (Answer × ContractChainState) :=
  if MAX_KEY_SIZE < key.length || MAX_VALUE_SIZE < value.length then none
  else match state.cache.storage[key]? with
    | some (dataState, previous) =>
      some (.cell (previous.getD nullCell), state.setStorage key (dataState.markUpdated, some value))
    | none =>
      match provider.getContractDataTopoheightAtMaximumTopoheightFor blake3 state.contract key state.topoheight with
      | .error _ => none
      | .ok (some topo) => some (.cell nullCell, state.setStorage key (.updated topo, some value))
      | .ok none => some (.cell nullCell, state.setStorage key (.new, some value))

/-- A value that was new in the block leaves the cache, the others are replaced by a deletion. -/
def answerDelete (key : ValueCell) : Option (Answer × ContractChainState) :=
  match state.cache.storage[key]? with
  | some (.new, previous) =>
    some (.cell (previous.getD nullCell),
      { state with cache := { state.cache with storage := state.cache.storage.erase key } })
  | some (.fetchedAt topo, previous) =>
    some (.cell (previous.getD nullCell), state.setStorage key (.updated topo, none))
  | some (.updated topo, previous) =>
    some (.cell (previous.getD nullCell), state.setStorage key (.updated topo, none))
  | none =>
    match provider.getContractDataTopoheightAtMaximumTopoheightFor blake3 state.contract key state.topoheight with
    | .error _ => none
    | .ok (some topo) => some (.cell nullCell, state.setStorage key (.updated topo, none))
    | .ok none => some (.cell nullCell, state)

def answerOf : StorageCall → Option (Answer × ContractChainState)
  | .load key => state.answerLoad blake3 provider key
  | .has key => state.answerHas blake3 provider key
  | .store key value => state.answerStore blake3 provider key value
  | .delete key => state.answerDelete blake3 provider key

def perform (call : HostCall) : Option (List Answer × ContractChainState) :=
  match call.storage with
  | some c => (state.answerOf blake3 provider c).map (fun r => ([r.1], r.2))
  | none => (state.exec blake3 provider call).map (fun next => ([], next))

def performAll : ContractChainState → List HostCall → Option (List Answer × ContractChainState)
  | state, [] => some ([], state)
  | state, call :: calls => do
    let (answers, next) ← state.perform blake3 provider call
    let (rest, final) ← performAll next calls
    return (answers ++ rest, final)

theorem answerLoad_exec (key : ValueCell) :
    (state.answerLoad blake3 provider key).map Prod.snd = state.storageLoad blake3 provider key := by
  unfold answerLoad storageLoad
  cases state.cache.storage[key]? with
  | some entry => rfl
  | none =>
    dsimp only
    cases provider.getContractDataAtMaximumTopoheightFor blake3 state.contract key state.topoheight with
    | error e => rfl
    | ok found =>
      cases found with
      | none => rfl
      | some version => rfl

theorem answerHas_exec (key : ValueCell) :
    (state.answerHas blake3 provider key).map Prod.snd = state.storageHas blake3 provider key := by
  unfold answerHas storageHas
  cases state.cache.storage[key]? with
  | some entry => rfl
  | none =>
    dsimp only
    cases provider.hasContractDataAtTopoheight blake3 state.contract key state.topoheight with
    | error e => rfl
    | ok contains => rfl

theorem answerStore_exec (key value : ValueCell) :
    (state.answerStore blake3 provider key value).map Prod.snd = state.storageStore blake3 provider key value := by
  unfold answerStore storageStore
  split
  · rfl
  cases state.cache.storage[key]? with
  | some entry => rfl
  | none =>
    dsimp only
    cases provider.getContractDataTopoheightAtMaximumTopoheightFor blake3 state.contract key state.topoheight with
    | error e => rfl
    | ok found =>
      cases found with
      | none => rfl
      | some topo => rfl

theorem answerDelete_exec (key : ValueCell) :
    (state.answerDelete blake3 provider key).map Prod.snd = state.storageDelete blake3 provider key := by
  unfold answerDelete storageDelete
  cases state.cache.storage[key]? with
  | some entry =>
    obtain ⟨dataState, value⟩ := entry
    cases dataState with
    | new => rfl
    | fetchedAt topo => rfl
    | updated topo => rfl
  | none =>
    dsimp only
    cases provider.getContractDataTopoheightAtMaximumTopoheightFor blake3 state.contract key state.topoheight with
    | error e => rfl
    | ok found =>
      cases found with
      | none => rfl
      | some topo => rfl

theorem perform_exec (call : HostCall) :
    (state.perform blake3 provider call).map Prod.snd = state.exec blake3 provider call := by
  unfold perform
  cases call with
  | storageLoad key => exact (Option.map_map ..).trans (answerLoad_exec blake3 provider state key)
  | storageHas key => exact (Option.map_map ..).trans (answerHas_exec blake3 provider state key)
  | storageStore key value => exact (Option.map_map ..).trans (answerStore_exec blake3 provider state key value)
  | storageDelete key => exact (Option.map_map ..).trans (answerDelete_exec blake3 provider state key)
  | _ => exact (Option.map_map ..).trans Option.map_id'

theorem performAll_exec (calls : List HostCall) :
    (state.performAll blake3 provider calls).map Prod.snd = state.execAll blake3 provider calls := by
  induction calls generalizing state with
  | nil => rfl
  | cons call calls ih =>
    unfold performAll execAll
    rw [← perform_exec]
    cases state.perform blake3 provider call with
    | none => rfl
    | some r =>
      obtain ⟨answers, next⟩ := r
      show Option.map Prod.snd ((performAll blake3 provider next calls).bind _) = execAll blake3 provider next calls
      rw [← ih next]
      cases next.performAll blake3 provider calls with
      | none => rfl
      | some rest => rfl

end Calls

section Frame

variable {P : Type} {blake3 : IVec → Hash} {provider : Storage P} {state next : ContractChainState}
variable {amount id decimals : Nat} {asset newContract : Hash}

theorem transfer_storage {destination : Address}
    (h : state.transfer provider destination amount asset = some next) : next.cache.storage = state.cache.storage := by
  rcases transfer_ok h with rfl | ⟨balance, -, rfl | ⟨versioned, held, -, -, rfl⟩⟩
  · rfl
  · rfl
  · rfl

theorem burn_storage (h : state.burn provider amount asset = some next) : next.cache.storage = state.cache.storage := by
  obtain ⟨balance, -, rfl | ⟨versioned, held, -, -, rfl⟩⟩ := burn_ok h
  · rfl
  · rfl

theorem assetCreate_storage {name ticker : String} {maxSupply : Option Nat}
    (h : state.assetCreate blake3 provider id name ticker decimals maxSupply = some next) :
    next.cache.storage = state.cache.storage := by
  unfold assetCreate at h
  split at h
  · cases h
  split at h
  · cases h
  simp only [bind, Option.bind_eq_some_iff] at h
  obtain ⟨⟨changes, state₁⟩, hlookup, h⟩ := h
  obtain ⟨assets, rfl⟩ := getOptionalAssetFromCache_frame hlookup
  cases changes with
  | some changes =>
    cases h
    rfl
  | none =>
    cases maxSupply with
    | none =>
      cases h
      rfl
    | some maxSupply =>
      cases h
      rfl

theorem assetMint_storage (h : state.assetMint provider asset amount = some next) :
    next.cache.storage = state.cache.storage := by
  simp only [assetMint, bind, Option.bind_eq_some_iff] at h
  obtain ⟨changes, -, h⟩ := h
  split at h
  · cases h
    rfl
  split at h
  · cases h
    rfl
  simp only [getBalanceFromCache_eq, Option.bind_eq_some_iff] at h
  obtain ⟨supply, -, h⟩ := h
  split at h
  · cases h
  simp only [Option.bind_eq_some_iff, Option.map_eq_some_iff] at h
  obtain ⟨_, ⟨balance, -, rfl⟩, h⟩ := h
  cases balance with
  | none =>
    cases h
    rfl
  | some balance =>
    dsimp only at h
    split at h
    · cases h
    · cases h
      rfl

theorem exec_storage {call : HostCall} (hcall : call.storage = none)
    (h : state.exec blake3 provider call = some next) : next.cache.storage = state.cache.storage := by
  cases call with
  | getBalanceForAsset asset =>
    simp only [exec, getBalanceFromCache_eq, Option.map_map, Option.map_eq_some_iff] at h
    obtain ⟨balance, -, rfl⟩ := h
    rfl
  | transfer destination amount asset => exact transfer_storage h
  | burn amount asset => exact burn_storage h
  | assetCreate id name ticker decimals maxSupply => exact assetCreate_storage h
  | assetGetByHash asset =>
    obtain ⟨⟨changes, state₁⟩, hlookup, rfl⟩ := Option.map_eq_some_iff.mp h
    obtain ⟨assets, rfl⟩ := getOptionalAssetFromCache_frame hlookup
    rfl
  | assetGetSupply asset => exact congrArg (·.storage) (assetGetSupply_keepsCache h).cache
  | assetTransferOwnership asset newContract => exact congrArg (·.storage) (assetTransferOwnership_keepsCache h).cache
  | assetMint asset amount => exact assetMint_storage h
  | memoryStorageStore key value =>
    simp only [exec, memoryStorageStore] at h
    split at h
    · cases h
    · cases h
      rfl
  | memoryStorageDelete key =>
    cases h
    rfl
  | fireEvent id data =>
    cases h
    rfl
  | _ => cases hcall

end Frame

section Lookup

variable {P : Type} (blake3 : IVec → Hash) (provider : Storage P) (contract : Hash) (key : ValueCell)

def dataHistory : History (Versioned (Option ValueCell)) :=
  provider.contractsData.history (Storage.getContractDataKey blake3 key contract)

def newest {V : Type} (h : History V) : Option (TopoHeight × V) := h.last.bind fun l => (h.version l).map (l, ·)

def storedValue (h : History (Versioned (Option ValueCell))) : Option ValueCell := (newest h).bind (·.2.data)

variable {blake3 provider contract key}
variable {l t : TopoHeight}

theorem newest_of_last {V : Type} {h : History V} {v : V} (hlast : h.last = some l)
    (hv : h.version l = some v) : newest h = some (l, v) := by
  simp [newest, hlast, hv]

theorem storedValue_push (h : History (Versioned (Option ValueCell))) (t : TopoHeight) (v : Versioned (Option ValueCell)) :
    storedValue (h.push t v) = v.data := by
  rw [storedValue, newest_of_last (h.last_push t v) (h.version_push_self t v)]
  rfl

/-- A search from above every version stops at the last pointer, before it reads a link. -/
theorem getContractDataTopoheight_eq (hh : (dataHistory blake3 provider contract key).Headed)
    (hle : ∀ l, (dataHistory blake3 provider contract key).last = some l → l ≤ t) :
    provider.getContractDataTopoheightAtMaximumTopoheightFor blake3 contract key t =
      .ok (dataHistory blake3 provider contract key).last := by
  have hlast : (dataHistory blake3 provider contract key).last =
    provider.contractsData.pointers[Storage.getContractDataKey blake3 key contract]? := rfl
  unfold Storage.getContractDataTopoheightAtMaximumTopoheightFor
  cases hpointer : provider.contractsData.pointers[Storage.getContractDataKey blake3 key contract]? with
  | none =>
    simp only [hlast, hpointer]
    rfl
  | some l =>
    rw [hpointer] at hlast
    have htopo : (if (provider.contractsData.version (Storage.getContractDataKey blake3 key contract) t).isSome
        then t else l) = l := by
      split
      · rename_i hversion
        refine Nat.le_antisymm (Nat.le_of_not_lt fun hlt => ?_) (hle l hlast)
        have hnone : provider.contractsData.version (Storage.getContractDataKey blake3 key contract) t = none :=
          (hh.last_some l hlast).2 t hlt
        rw [hnone] at hversion
        cases hversion
      · rfl
    have hfuel : provider.contracts.fuel l = (l + provider.contracts.versions.size + 1) + 1 := rfl
    simp only [hpointer, htopo, hfuel, Storage.searchPrevious, if_pos (hle l hlast), hlast]

theorem getContractData_eq (hh : (dataHistory blake3 provider contract key).Headed)
    (hle : ∀ l, (dataHistory blake3 provider contract key).last = some l → l ≤ t) :
    provider.getContractDataAtMaximumTopoheightFor blake3 contract key t =
      .ok (newest (dataHistory blake3 provider contract key)) := by
  unfold Storage.getContractDataAtMaximumTopoheightFor
  dsimp only
  rw [getContractDataTopoheight_eq hh hle]
  cases hlast : (dataHistory blake3 provider contract key).last with
  | none => simp [newest, hlast, bind, Except.bind, pure, Except.pure]
  | some l =>
    obtain ⟨v, hv⟩ := Option.isSome_iff_exists.mp (hh.last_some l hlast).1
    have hversion : provider.contractsData.version (Storage.getContractDataKey blake3 key contract) l = some v := hv
    rw [newest_of_last hlast hv]
    simp [VersionedTrees.loadVersion, hversion, bind, Except.bind, pure, Except.pure]

end Lookup

section Cache

variable {P : Type} (blake3 : IVec → Hash) (provider : Storage P)

/-- What a contract should see: the cached values over the stored ones. -/
def contentsOf (contract : Hash) (cache : ContractCache) : Contents := fun key =>
  match cache.storage[key]? with
  | some (_, value) => value
  | none => storedValue (dataHistory blake3 provider contract key)

/-- A cached value keeps the last stored version it replaces, and one that was only read is the stored one. -/
def EntryTracks (h : History (Versioned (Option ValueCell))) (entry : VersionedState × Option ValueCell) : Prop :=
  entry.1.getTopoheight = h.last ∧ (entry.1.isFetchedAt = true → entry.2 = storedValue h)

def CacheTracks (contract : Hash) (cache : ContractCache) : Prop :=
  ∀ key entry, cache.storage[key]? = some entry → EntryTracks (dataHistory blake3 provider contract key) entry

/-- The keys whose data is found: the last pointer is right, and nothing is stored from the topoheight on. -/
structure Readable (topoheight : TopoHeight) (contract : Hash) (key : ValueCell) : Prop where
  headed : (dataHistory blake3 provider contract key).Headed
  before : ∀ l, (dataHistory blake3 provider contract key).last = some l → l < topoheight

/-- The calls that do as a plain map does: a presence is only asked for a key in the cache of the block, and a value
that is replaced or deleted is in the cache too. -/
def Allowed (state : ContractChainState) : StorageCall → Prop
  | .load _ => True
  | .has key => key ∈ state.cache.storage
  | .store key _ => key ∈ state.cache.storage ∨ storedValue (dataHistory blake3 provider state.contract key) = none
  | .delete key => key ∈ state.cache.storage ∨ storedValue (dataHistory blake3 provider state.contract key) = none

variable {blake3 provider} {contract : Hash} {cache : ContractCache} {key : ValueCell}

theorem contentsOf_cached (h : cache.storage[key]? = some entry) :
    contentsOf blake3 provider contract cache key = entry.2 := by
  simp [contentsOf, h]

theorem contentsOf_uncached (h : cache.storage[key]? = none) :
    contentsOf blake3 provider contract cache key = storedValue (dataHistory blake3 provider contract key) := by
  simp [contentsOf, h]

theorem contentsOf_insert (entry : VersionedState × Option ValueCell) :
    contentsOf blake3 provider contract { cache with storage := cache.storage.insert key entry } =
      Function.update (contentsOf blake3 provider contract cache) key entry.2 := by
  funext k
  by_cases hk : k = key
  · subst hk
    rw [Function.update_self]
    exact contentsOf_cached (FiniteMap.getElem?_insert_self' _ _ _)
  · rw [Function.update_of_ne hk, contentsOf, contentsOf, FiniteMap.getElem?_insert_of_ne _ _ (Ne.symm hk)]

theorem contentsOf_erase : contentsOf blake3 provider contract { cache with storage := cache.storage.erase key } =
    Function.update (contentsOf blake3 provider contract cache) key
      (storedValue (dataHistory blake3 provider contract key)) := by
  funext k
  by_cases hk : k = key
  · subst hk
    rw [Function.update_self]
    exact contentsOf_uncached (FiniteMap.getElem?_erase_self' _ _)
  · rw [Function.update_of_ne hk, contentsOf, contentsOf, FiniteMap.getElem?_erase_of_ne _ (Ne.symm hk)]

theorem CacheTracks.insert (h : CacheTracks blake3 provider contract cache)
    (hentry : EntryTracks (dataHistory blake3 provider contract key) entry) :
    CacheTracks blake3 provider contract { cache with storage := cache.storage.insert key entry } := by
  intro k found hfound
  by_cases hk : key = k
  · subst hk
    rw [FiniteMap.getElem?_insert_self', Option.some.injEq] at hfound
    rw [← hfound]
    exact hentry
  · rw [FiniteMap.getElem?_insert_of_ne _ _ hk] at hfound
    exact h k found hfound

theorem CacheTracks.erase (h : CacheTracks blake3 provider contract cache) (key : ValueCell) :
    CacheTracks blake3 provider contract { cache with storage := cache.storage.erase key } := by
  intro k found hfound
  by_cases hk : key = k
  · subst hk
    rw [FiniteMap.getElem?_erase_self'] at hfound
    cases hfound
  · rw [FiniteMap.getElem?_erase_of_ne _ hk] at hfound
    exact h k found hfound

theorem entryTracks_markUpdated {h : History (Versioned (Option ValueCell))}
    (hentry : EntryTracks h entry) (value : Option ValueCell) : EntryTracks h (entry.1.markUpdated, value) := by
  obtain ⟨dataState, previous⟩ := entry
  obtain ⟨hlast, -⟩ := hentry
  cases dataState with
  | new => exact ⟨hlast, nofun⟩
  | fetchedAt topo => exact ⟨hlast, nofun⟩
  | updated topo => exact ⟨hlast, nofun⟩

end Cache

section Answers

variable {P : Type} {blake3 : IVec → Hash} {provider : Storage P} {state : ContractChainState}

structure DidAsMap (blake3 : IVec → Hash) (provider : Storage P) (state : ContractChainState) (call : StorageCall)
    (answer : Answer) (next : ContractChainState) : Prop where
  contract : next.contract = state.contract
  topoheight : next.topoheight = state.topoheight
  answered : answer = call.answer (contentsOf blake3 provider state.contract state.cache)
  contents : contentsOf blake3 provider state.contract next.cache =
    call.update (contentsOf blake3 provider state.contract state.cache)
  tracks : CacheTracks blake3 provider state.contract next.cache
  keys : ∀ k, k ∈ next.cache.storage → k ∈ state.cache.storage ∨ k = call.key

theorem mem_insert_keys {storage : FiniteMap ValueCell (VersionedState × Option ValueCell)} {key k : ValueCell}
    (h : k ∈ storage.insert key entry) : k ∈ storage ∨ k = key := by
  rcases Std.ExtTreeMap.mem_insert.mp h with heq | hmem
  · exact .inr (Std.compare_eq_iff_eq.mp heq).symm
  · exact .inl hmem

variable {key : ValueCell} (htracks : CacheTracks blake3 provider state.contract state.cache)
include htracks

theorem answerLoad_asMap (hread : Readable blake3 provider state.topoheight state.contract key) :
    ∃ answer next, state.answerLoad blake3 provider key = some (answer, next) ∧
      DidAsMap blake3 provider state (.load key) answer next := by
  unfold answerLoad
  cases hcached : state.cache.storage[key]? with
  | some entry =>
    refine ⟨_, _, rfl, rfl, rfl, ?_, rfl, htracks, fun k hk => .inl hk⟩
    rw [StorageCall.answer, contentsOf_cached hcached]
  | none =>
    dsimp only
    rw [getContractData_eq hread.headed fun l hl => Nat.le_of_lt (hread.before l hl)]
    have hvalue : contentsOf blake3 provider state.contract state.cache key =
        storedValue (dataHistory blake3 provider state.contract key) := contentsOf_uncached hcached
    cases hnewest : newest (dataHistory blake3 provider state.contract key) with
    | none =>
      refine ⟨_, _, rfl, rfl, rfl, ?_, rfl, htracks, fun k hk => .inl hk⟩
      rw [StorageCall.answer, hvalue, storedValue, hnewest]
      rfl
    | some found =>
      obtain ⟨l, version⟩ := found
      have hstored : storedValue (dataHistory blake3 provider state.contract key) = version.data := by
        rw [storedValue, hnewest]
        rfl
      have hlast : (dataHistory blake3 provider state.contract key).last = some l := by
        simp only [newest, Option.bind_eq_some_iff, Option.map_eq_some_iff, Prod.mk.injEq] at hnewest
        obtain ⟨l', hlast, v, -, rfl, -⟩ := hnewest
        exact hlast
      refine ⟨_, _, rfl, rfl, rfl, ?_, ?_, ?_, fun k hk => mem_insert_keys hk⟩
      · rw [StorageCall.answer, hvalue, hstored]
      · refine (contentsOf_insert _).trans ?_
        rw [← hstored, ← hvalue]
        exact Function.update_eq_self _ _
      · exact htracks.insert ⟨hlast.symm, fun _ => hstored.symm⟩

theorem answerHas_asMap (hcached : key ∈ state.cache.storage) :
    ∃ answer next, state.answerHas blake3 provider key = some (answer, next) ∧
      DidAsMap blake3 provider state (.has key) answer next := by
  obtain ⟨entry, hentry⟩ := Option.isSome_iff_exists.mp (Std.ExtTreeMap.isSome_getElem?_iff_mem.mpr hcached)
  unfold answerHas
  rw [hentry]
  refine ⟨_, _, rfl, rfl, rfl, ?_, rfl, htracks, fun k hk => .inl hk⟩
  rw [StorageCall.answer, contentsOf_cached hentry]

theorem answerStore_asMap (hread : Readable blake3 provider state.topoheight state.contract key) {value : ValueCell}
    (hsized : key.length ≤ MAX_KEY_SIZE ∧ value.length ≤ MAX_VALUE_SIZE)
    (hallowed : Allowed blake3 provider state (.store key value)) :
    ∃ answer next, state.answerStore blake3 provider key value = some (answer, next) ∧
      DidAsMap blake3 provider state (.store key value) answer next := by
  unfold answerStore
  rw [if_neg (by simp [Nat.not_lt.mpr hsized.1, Nat.not_lt.mpr hsized.2])]
  cases hcached : state.cache.storage[key]? with
  | some entry =>
    refine ⟨_, _, rfl, rfl, rfl, ?_, contentsOf_insert _, ?_, fun k hk => mem_insert_keys hk⟩
    · rw [StorageCall.answer, contentsOf_cached hcached]
    · exact htracks.insert (entryTracks_markUpdated (htracks key entry hcached) _)
  | none =>
    have hnone := hallowed.resolve_left (FiniteMap.not_mem_of_getElem?_eq_none hcached)
    have hanswer : Answer.cell nullCell =
        (StorageCall.store key value).answer (contentsOf blake3 provider state.contract state.cache) := by
      rw [StorageCall.answer, contentsOf_uncached hcached, hnone]
      rfl
    dsimp only
    rw [getContractDataTopoheight_eq hread.headed fun l hl => Nat.le_of_lt (hread.before l hl)]
    cases hlast : (dataHistory blake3 provider state.contract key).last with
    | none =>
      refine ⟨_, _, rfl, rfl, rfl, hanswer, contentsOf_insert _, ?_, fun k hk => mem_insert_keys hk⟩
      exact htracks.insert ⟨hlast.symm, nofun⟩
    | some topo =>
      refine ⟨_, _, rfl, rfl, rfl, hanswer, contentsOf_insert _, ?_, fun k hk => mem_insert_keys hk⟩
      exact htracks.insert ⟨hlast.symm, nofun⟩

theorem answerDelete_asMap (hread : Readable blake3 provider state.topoheight state.contract key)
    (hallowed : Allowed blake3 provider state (.delete key)) :
    ∃ answer next, state.answerDelete blake3 provider key = some (answer, next) ∧
      DidAsMap blake3 provider state (.delete key) answer next := by
  unfold answerDelete
  cases hcached : state.cache.storage[key]? with
  | some entry =>
    obtain ⟨dataState, previous⟩ := entry
    have hanswer : Answer.cell (previous.getD nullCell) =
        (StorageCall.delete key).answer (contentsOf blake3 provider state.contract state.cache) := by
      rw [StorageCall.answer, contentsOf_cached hcached]
    have hlast := (htracks key _ hcached).1
    cases dataState with
    | new =>
      -- without a stored version nothing shows under the erased entry
      have hstored : storedValue (dataHistory blake3 provider state.contract key) = none := by
        rw [storedValue, newest, ← hlast]
        rfl
      refine ⟨_, _, rfl, rfl, rfl, hanswer, ?_, htracks.erase key, fun k hk => .inl (Std.ExtTreeMap.mem_of_mem_erase hk)⟩
      rw [StorageCall.update, ← hstored]
      exact contentsOf_erase
    | fetchedAt topo =>
      refine ⟨_, _, rfl, rfl, rfl, hanswer, contentsOf_insert _, ?_, fun k hk => mem_insert_keys hk⟩
      exact htracks.insert ⟨hlast, nofun⟩
    | updated topo =>
      refine ⟨_, _, rfl, rfl, rfl, hanswer, contentsOf_insert _, ?_, fun k hk => mem_insert_keys hk⟩
      exact htracks.insert ⟨hlast, nofun⟩
  | none =>
    have hnone : contentsOf blake3 provider state.contract state.cache key = none := by
      rw [contentsOf_uncached hcached]
      exact hallowed.resolve_left (FiniteMap.not_mem_of_getElem?_eq_none hcached)
    have hanswer : Answer.cell nullCell =
        (StorageCall.delete key).answer (contentsOf blake3 provider state.contract state.cache) := by
      rw [StorageCall.answer, hnone]
      rfl
    dsimp only
    rw [getContractDataTopoheight_eq hread.headed fun l hl => Nat.le_of_lt (hread.before l hl)]
    cases hlast : (dataHistory blake3 provider state.contract key).last with
    | none =>
      refine ⟨_, _, rfl, rfl, rfl, hanswer, ?_, htracks, fun k hk => .inl hk⟩
      rw [StorageCall.update, ← hnone]
      exact (Function.update_eq_self _ _).symm
    | some topo =>
      refine ⟨_, _, rfl, rfl, rfl, hanswer, contentsOf_insert _, ?_, fun k hk => mem_insert_keys hk⟩
      exact htracks.insert ⟨hlast.symm, nofun⟩

theorem answerOf_asMap (hread : Readable blake3 provider state.topoheight state.contract call.key)
    (hsized : call.Sized) (hallowed : Allowed blake3 provider state call) :
    ∃ answer next, state.answerOf blake3 provider call = some (answer, next) ∧
      DidAsMap blake3 provider state call answer next := by
  cases call with
  | load key => exact answerLoad_asMap htracks hread
  | has key => exact answerHas_asMap htracks hallowed
  | store key value => exact answerStore_asMap htracks hread hsized hallowed
  | delete key => exact answerDelete_asMap htracks hread hallowed

end Answers

section Runs

variable {P : Type} (blake3 : IVec → Hash) (provider : Storage P)

def CallsMeet (cond : ContractChainState → StorageCall → Prop) : ContractChainState → List HostCall → Prop
  | _, [] => True
  | state, call :: calls =>
    (∀ c, call.storage = some c → cond state c) ∧
      ∀ answers next, state.perform blake3 provider call = some (answers, next) → CallsMeet cond next calls

/-- A cache that makes a plain map of the keys of a contract. -/
structure Holds (keys : Set ValueCell) (contract : Hash) (m : Contents) (cache : ContractCache) : Prop where
  contents : ∀ key ∈ keys, contentsOf blake3 provider contract cache key = m key
  tracks : CacheTracks blake3 provider contract cache
  keys : ∀ key ∈ cache.storage, key ∈ keys

/-- An execution of a contract that sees a plain map. -/
structure Sees (keys : Set ValueCell) (contract : Hash) (topoheight : TopoHeight) (m : Contents)
    (state : ContractChainState) : Prop where
  isOf : state.contract = contract
  isAt : state.topoheight = topoheight
  holds : Holds blake3 provider keys contract m state.cache

variable {blake3 provider} {keys : Set ValueCell} {contract : Hash} {topoheight : TopoHeight} {m : Contents}
  {state next : ContractChainState}

theorem Holds.congr {cache cache' : ContractCache} (h : Holds blake3 provider keys contract m cache)
    (hstorage : cache'.storage = cache.storage) : Holds blake3 provider keys contract m cache' where
  contents key hkey := by
    rw [← h.contents key hkey, contentsOf, contentsOf, hstorage]
  tracks key entry hentry := by
    rw [hstorage] at hentry
    exact h.tracks key entry hentry
  keys key hkey := by
    rw [hstorage] at hkey
    exact h.keys key hkey

/-- Only what is within the limits is stored. -/
theorem sized_of_answerOf {r : Answer × ContractChainState}
    (h : state.answerOf blake3 provider call = some r) : call.Sized := by
  cases call with
  | store key value =>
    simp only [answerOf, answerStore] at h
    split at h
    · cases h
    · rename_i hsize
      simp only [Bool.or_eq_true, decide_eq_true_eq, not_or, Nat.not_lt] at hsize
      exact hsize
  | _ => trivial

theorem Sees.answerOf (h : Sees blake3 provider keys contract topoheight m state)
    (hread : ∀ key ∈ keys, Readable blake3 provider topoheight contract key) (hkey : call.key ∈ keys)
    (hsized : call.Sized) (hallowed : Allowed blake3 provider state call) :
    ∃ next, state.answerOf blake3 provider call = some (call.answer m, next) ∧
      Sees blake3 provider keys contract topoheight (call.update m) next := by
  obtain ⟨rfl, rfl, hcontents, htracks, hkeys⟩ := h
  obtain ⟨answer, next, hnext, hdid⟩ := answerOf_asMap htracks (hread call.key hkey) hsized hallowed
  rw [hdid.answered, StorageCall.answer_congr (hcontents call.key hkey)] at hnext
  refine ⟨next, hnext, hdid.contract, hdid.topoheight, fun k hk => ?_, hdid.tracks, fun k hk => ?_⟩
  · rw [hdid.contents]
    exact StorageCall.update_congr (hcontents k hk)
  · rcases hdid.keys k hk with hold | rfl
    · exact hkeys k hold
    · exact hkey

theorem Sees.exec (h : Sees blake3 provider keys contract topoheight m state) {call : HostCall}
    (hcall : call.storage = none) (hexec : state.exec blake3 provider call = some next) :
    Sees blake3 provider keys contract topoheight m next := by
  obtain ⟨hcontract, htopo, -⟩ := exec_stepped hexec
  exact ⟨hcontract.trans h.isOf, htopo.trans h.isAt, h.holds.congr (exec_storage hcall hexec)⟩

def MapCall (blake3 : IVec → Hash) (provider : Storage P) (keys : Set ValueCell) (state : ContractChainState)
    (call : StorageCall) : Prop :=
  call.key ∈ keys ∧ Allowed blake3 provider state call

theorem Sees.perform (h : Sees blake3 provider keys contract topoheight m state)
    (hread : ∀ key ∈ keys, Readable blake3 provider topoheight contract key) {call : HostCall} {answers : List Answer}
    (hmeet : ∀ c, call.storage = some c → MapCall blake3 provider keys state c)
    (hperform : state.perform blake3 provider call = some (answers, next)) :
    answers = m.answers (storageCalls [call]) ∧
      Sees blake3 provider keys contract topoheight (m.after (storageCalls [call])) next := by
  unfold ContractChainState.perform at hperform
  cases hcall : call.storage with
  | none =>
    simp only [hcall, Option.map_eq_some_iff, Prod.mk.injEq] at hperform
    obtain ⟨_, hexec, rfl, rfl⟩ := hperform
    have hcalls : storageCalls [call] = [] := by simp [storageCalls, hcall]
    rw [hcalls]
    exact ⟨rfl, h.exec hcall hexec⟩
  | some c =>
    simp only [hcall, Option.map_eq_some_iff, Prod.mk.injEq] at hperform
    obtain ⟨r, hanswer, rfl, rfl⟩ := hperform
    have hcalls : storageCalls [call] = [c] := by simp [storageCalls, hcall]
    obtain ⟨hkey, hallowed⟩ := hmeet c hcall
    obtain ⟨next', hnext', hsees⟩ := h.answerOf hread hkey (sized_of_answerOf hanswer) hallowed
    rw [hanswer, Option.some.injEq] at hnext'
    subst hnext'
    rw [hcalls]
    exact ⟨rfl, hsees⟩

theorem storageCalls_cons (call : HostCall) (calls : List HostCall) :
    storageCalls (call :: calls) = storageCalls [call] ++ storageCalls calls :=
  List.filterMap_append (l := [call])

theorem answers_append (m : Contents) (calls rest : List StorageCall) :
    m.answers (calls ++ rest) = m.answers calls ++ (m.after calls).answers rest := by
  induction calls generalizing m with
  | nil => rfl
  | cons call calls ih => exact congrArg (call.answer m :: ·) (ih _)

/-- A run of calls answers as the plain map does, and leaves what the plain map leaves. -/
theorem Sees.performAll (hread : ∀ key ∈ keys, Readable blake3 provider topoheight contract key) {calls : List HostCall}
    {answers : List Answer} (h : Sees blake3 provider keys contract topoheight m state)
    (hmeet : CallsMeet blake3 provider (MapCall blake3 provider keys) state calls)
    (hperform : state.performAll blake3 provider calls = some (answers, next)) :
    answers = m.answers (storageCalls calls) ∧
      Sees blake3 provider keys contract topoheight (m.after (storageCalls calls)) next := by
  induction calls generalizing state m answers with
  | nil =>
    cases hperform
    exact ⟨rfl, h⟩
  | cons call calls ih =>
    obtain ⟨⟨first, state₁⟩, hfirst, hrest⟩ := Option.bind_eq_some_iff.mp hperform
    obtain ⟨⟨rest, final⟩, hrest, hsome⟩ := Option.bind_eq_some_iff.mp hrest
    cases hsome
    obtain ⟨hanswers, hsees⟩ := h.perform hread hmeet.1 hfirst
    obtain ⟨hanswers', hsees'⟩ := ih hsees (hmeet.2 first state₁ hfirst) hrest
    rw [storageCalls_cons, answers_append, hanswers, hanswers']
    refine ⟨rfl, ?_⟩
    rw [Contents.after, List.foldl_append]
    exact hsees'

end Runs

end ContractChainState

end Xelis.State
