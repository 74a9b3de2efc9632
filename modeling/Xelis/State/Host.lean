import Xelis.Storage.Storage

namespace Xelis.State

open Lib (FiniteMap IndexMap)

structure ContractChainState where
  mainnet : Bool
  contract : Hash
  topoheight : TopoHeight
  blockHash : Hash
  block : Block
  txHash : Hash
  deposits : IndexMap Hash ContractDeposit
  cache : ContractCache
  outputs : List ContractOutput
  tracker : ContractEventTracker
  globalCaches : FiniteMap Hash ContractCache
  assets : FiniteMap Hash (Option AssetChanges)

/-- A destination given by a contract, as its address says. -/
structure Address where
  mainnet : Bool
  normal : Bool
  key : PublicKey
  deriving DecidableEq

/-- The calls that read or change the chain state of an execution. -/
inductive HostCall where
  | getBalanceForAsset (asset : Hash)
  | transfer (destination : Address) (amount : Nat) (asset : Hash)
  | burn (amount : Nat) (asset : Hash)
  | assetCreate (id : Nat) (name ticker : String) (decimals : Nat) (maxSupply : Option Nat)
  | assetGetByHash (asset : Hash)
  | assetGetSupply (asset : Hash)
  | assetTransferOwnership (asset newContract : Hash)
  | assetMint (asset : Hash) (amount : Nat)
  | storageLoad (key : ValueCell)
  | storageHas (key : ValueCell)
  | storageStore (key value : ValueCell)
  | storageDelete (key : ValueCell)
  | memoryStorageStore (key value : ValueCell)
  | memoryStorageDelete (key : ValueCell)
  | fireEvent (id : Nat) (data : ValueCell)

def TICKER_LEN : Nat := 8
def MAX_VALUE_SIZE : Nat := 4096
def MAX_KEY_SIZE : Nat := 256

def isValidCharForAsset (c : Char) (whitespace uppercaseOnly : Bool) : Bool :=
  ('A' ≤ c && c ≤ 'Z') || ('0' ≤ c && c ≤ '9') || (!uppercaseOnly && 'a' ≤ c && c ≤ 'z') || (whitespace && c == ' ')

def isValidStrForAsset (name : String) (whitespace uppercaseOnly : Bool) : Bool :=
  if whitespace && (name.startsWith " " || name.endsWith " ") then false
  else name.toList.all (isValidCharForAsset · whitespace uppercaseOnly)

namespace ContractChainState

variable {P : Type} (blake3 : IVec → Hash) (provider : Storage P) (state : ContractChainState)

def getBalanceFromProvider (asset : Hash) : Option (Option (VersionedState × Nat)) :=
  match provider.getContractBalanceAtMaximumTopoheight state.contract asset state.topoheight with
  | .ok balance => some (balance.map (fun b => (.fetchedAt b.1, b.2.data)))
  | .error _ => none

def getBalanceFromCache (asset : Hash) : Option (Option (VersionedState × Nat) × ContractChainState) :=
  match state.cache.balances[asset]? with
  | some balance => some (balance, state)
  | none => do
    let balance ← state.getBalanceFromProvider provider asset
    some (balance, { state with cache := { state.cache with balances := state.cache.balances.insert asset balance } })

def setBalance (asset : Hash) (balance : VersionedState × Nat) : ContractChainState :=
  { state with cache := { state.cache with balances := state.cache.balances.insert asset (some balance) } }

def pushOutput (output : ContractOutput) : ContractChainState :=
  { state with outputs := state.outputs ++ [output] }

def addTransfer (key : PublicKey) (asset : Hash) (amount : Nat) : ContractChainState :=
  let assets := state.tracker.transfers[key]?.getD ∅
  let assets := assets.insert asset (assets[asset]?.getD 0 + amount)
  { state with tracker := { state.tracker with transfers := state.tracker.transfers.insert key assets } }

def transfer (destination : Address) (amount : Nat) (asset : Hash) : Option ContractChainState := do
  if !destination.normal then
    return state
  match provider.isAccountRegisteredForTopoheight destination.key state.topoheight with
  | .error _ => none
  | .ok _ =>
    if destination.mainnet != state.mainnet then
      return state
    let (balance, state) ← state.getBalanceFromCache provider asset
    match balance with
    | none => return state
    | some (balanceState, balance) =>
      if balance < amount || amount == 0 then
        return state
      let state := state.setBalance asset (balanceState.markUpdated, balance - amount)
      let state := state.addTransfer destination.key asset amount
      return state.pushOutput (.transfer amount asset destination.key)

def burn (amount : Nat) (asset : Hash) : Option ContractChainState := do
  let (balance, state) ← state.getBalanceFromCache provider asset
  match balance with
  | none => return state
  | some (balanceState, balance) =>
    if balance < amount || amount == 0 then
      return state
    let state := state.setBalance asset (balanceState.markUpdated, balance - amount)
    return state.pushOutput (.burn asset amount)

def loadAssetSupply (asset : Hash) : Option (Option (VersionedState × Nat)) :=
  match provider.getAssetSupplyAtMaximumTopoheight asset state.topoheight with
  | .ok supply => some (supply.map (fun v => (.fetchedAt v.1, v.2.data)))
  | .error _ => none

def getAssetFromProvider (asset : Hash) : Option (Option AssetChanges) :=
  match provider.getAssetAtMaximumTopoheight asset state.topoheight with
  | .error _ => none
  | .ok none => some none
  | .ok (some (topo, data)) => do
    let supply ← state.loadAssetSupply provider asset
    some (some { data := (.fetchedAt topo, data.data), supply })

def setAsset (asset : Hash) (changes : Option AssetChanges) : ContractChainState :=
  { state with assets := state.assets.insert asset changes }

def getOptionalAssetFromCache (asset : Hash) : Option (Option AssetChanges × ContractChainState) :=
  match state.assets[asset]? with
  | some changes => some (changes, state)
  | none => do
    let changes ← state.getAssetFromProvider provider asset
    some (changes, state.setAsset asset changes)

/-- The digest of the contract followed by the eight bytes of the id. -/
def assetHash (id : Nat) : Hash := blake3 (hashToBytes state.contract ++ Serializer.toBytes (UInt64.ofNat id))

def assetCreate (id : Nat) (name ticker : String) (decimals : Nat) (maxSupply : Option Nat) :
    Option ContractChainState :=
  if TICKER_LEN < ticker.utf8ByteSize || !isValidStrForAsset ticker false true then none
  else if 255 < name.utf8ByteSize || !isValidStrForAsset name true false then none
  else do
    let asset := state.assetHash blake3 id
    let (changes, state) ← state.getOptionalAssetFromCache provider asset
    if changes.isSome then
      return state
    let data : AssetData := { decimals, name, ticker, maxSupply, owner := some ⟨state.contract, id⟩ }
    let state := state.setAsset asset (some { data := (.new, data), supply := none })
    let state := match maxSupply with
      | some maxSupply => state.setBalance asset (.new, maxSupply)
      | none => state
    return state.pushOutput (.newAsset asset)

/-- Assets that were never looked up are an error for the calls below. -/
def getAssetChangesForHash (asset : Hash) : Option AssetChanges := state.assets[asset]?.join

def assetGetSupply (asset : Hash) : Option ContractChainState := do
  let changes ← state.getAssetChangesForHash asset
  match changes.supply with
  | some _ => return state
  | none =>
    let supply ← state.loadAssetSupply provider asset
    return state.setAsset asset (some { changes with supply := some (supply.getD (.new, 0)) })

/-- The registered contract is looked up under the hash of the asset. -/
def assetTransferOwnership (asset newContract : Hash) : Option ContractChainState := do
  match provider.hasContractAtMaximumTopoheight asset state.topoheight with
  | .error _ => none
  | .ok false => return state
  | .ok true =>
    let changes ← state.getAssetChangesForHash asset
    match changes.data.2.owner with
    | some owner =>
      if owner.contract = state.contract then
        let data := { changes.data.2 with owner := some { owner with contract := newContract } }
        return state.setAsset asset (some { changes with data := (changes.data.1.markUpdated, data) })
      else return state
    | none => return state

def currentSupply (asset : Hash) (changes : AssetChanges) : Option (VersionedState × Nat) :=
  match changes.supply with
  | some supply => some supply
  | none => (state.loadAssetSupply provider asset).map (·.getD (.new, 0))

def assetMint (asset : Hash) (amount : Nat) : Option ContractChainState := do
  let changes ← state.getAssetChangesForHash asset
  if changes.data.2.owner.map AssetOwner.contract != some state.contract then
    return state
  if changes.data.2.maxSupply.isSome then
    return state
  let (supplyState, supply) ← state.currentSupply provider asset changes
  if 2 ^ 64 ≤ supply + amount then none
  else
    let state := state.setAsset asset (some { changes with supply := some (supplyState.markUpdated, supply + amount) })
    let (balance, state) ← state.getBalanceFromCache provider asset
    match balance with
    | some (balanceState, balance) =>
      if 2 ^ 64 ≤ balance + amount then none
      else return (state.setBalance asset (balanceState.markUpdated, balance + amount)).pushOutput (.mint asset amount)
    | none => return (state.setBalance asset (.new, amount)).pushOutput (.mint asset amount)

def setStorage (key : ValueCell) (value : VersionedState × Option ValueCell) : ContractChainState :=
  { state with cache := { state.cache with storage := state.cache.storage.insert key value } }

def storageLoad (key : ValueCell) : Option ContractChainState :=
  match state.cache.storage[key]? with
  | some _ => some state
  | none =>
    match provider.getContractDataAtMaximumTopoheightFor blake3 state.contract key state.topoheight with
    | .error _ => none
    | .ok (some (topo, version)) => some (state.setStorage key (.fetchedAt topo, version.data))
    | .ok none => some state

def storageHas (key : ValueCell) : Option ContractChainState :=
  match state.cache.storage[key]? with
  | some _ => some state
  | none =>
    match provider.hasContractDataAtTopoheight blake3 state.contract key state.topoheight with
    | .error _ => none
    | .ok _ => some state

def storageStore (key value : ValueCell) : Option ContractChainState :=
  if MAX_KEY_SIZE < key.length || MAX_VALUE_SIZE < value.length then none
  else match state.cache.storage[key]? with
    | some (dataState, _) => some (state.setStorage key (dataState.markUpdated, some value))
    | none =>
      match provider.getContractDataTopoheightAtMaximumTopoheightFor blake3 state.contract key state.topoheight with
      | .error _ => none
      | .ok (some topo) => some (state.setStorage key (.updated topo, some value))
      | .ok none => some (state.setStorage key (.new, some value))

def storageDelete (key : ValueCell) : Option ContractChainState :=
  match state.cache.storage[key]? with
  | some (.new, _) =>
    some { state with cache := { state.cache with storage := state.cache.storage.erase key } }
  | some (.fetchedAt topo, _) => some (state.setStorage key (.updated topo, none))
  | some (.updated topo, _) => some (state.setStorage key (.updated topo, none))
  | none =>
    match provider.getContractDataTopoheightAtMaximumTopoheightFor blake3 state.contract key state.topoheight with
    | .error _ => none
    | .ok (some topo) => some (state.setStorage key (.updated topo, none))
    | .ok none => some state

def memoryStorageStore (key value : ValueCell) : Option ContractChainState :=
  if MAX_KEY_SIZE < key.length || MAX_VALUE_SIZE < value.length then none
  else some { state with cache := { state.cache with memory := state.cache.memory.insert key value } }

def memoryStorageDelete (key : ValueCell) : ContractChainState :=
  { state with cache := { state.cache with memory := state.cache.memory.erase key } }

def fireEvent (id : Nat) (data : ValueCell) : ContractChainState :=
  let events := state.cache.events[id]?.getD [] ++ [data]
  { state with cache := { state.cache with events := state.cache.events.insert id events } }

/-- One call. `none` is an error that stops the virtual machine. -/
def exec : HostCall → Option ContractChainState
  | .getBalanceForAsset asset => (state.getBalanceFromCache provider asset).map Prod.snd
  | .transfer destination amount asset => state.transfer provider destination amount asset
  | .burn amount asset => state.burn provider amount asset
  | .assetCreate id name ticker decimals maxSupply =>
    state.assetCreate blake3 provider id name ticker decimals maxSupply
  | .assetGetByHash asset => (state.getOptionalAssetFromCache provider asset).map Prod.snd
  | .assetGetSupply asset => state.assetGetSupply provider asset
  | .assetTransferOwnership asset newContract => state.assetTransferOwnership provider asset newContract
  | .assetMint asset amount => state.assetMint provider asset amount
  | .storageLoad key => state.storageLoad blake3 provider key
  | .storageHas key => state.storageHas blake3 provider key
  | .storageStore key value => state.storageStore blake3 provider key value
  | .storageDelete key => state.storageDelete blake3 provider key
  | .memoryStorageStore key value => state.memoryStorageStore key value
  | .memoryStorageDelete key => some (state.memoryStorageDelete key)
  | .fireEvent id data => some (state.fireEvent id data)

/-- A run of calls stops at the first error. -/
def execAll : ContractChainState → List HostCall → Option ContractChainState
  | state, [] => some state
  | state, call :: calls => (state.exec blake3 provider call).bind (execAll · calls)

end ContractChainState

end Xelis.State
