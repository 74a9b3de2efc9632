import Xelis.Common.Block
import Xelis.Common.Contract
import Xelis.Storage.VersionedTrees

namespace Xelis

open Lib (FiniteMap)

open Storage in
/-- The trees of the storage. Keys are kept as the bytes the source builds, values are decoded. -/
structure Storage (P : Type) where
  nonces : VersionedTrees VersionedNonce := .empty
  balances : VersionedTrees (VersionedBalance P) := .empty
  multisig : VersionedTrees (Versioned (Option MultiSigPayload)) := .empty
  registrations : FiniteMap Key TopoHeight := ∅
  registrationsPrefixed : FiniteMap Key Unit := ∅
  contracts : VersionedTrees (Versioned (Option Module)) := .empty
  contractsData : VersionedTrees (Versioned (Option ValueCell)) := .empty
  contractsBalances : VersionedTrees (Versioned Nat) := .empty
  contractsOutputs : FiniteMap Hash (List ContractOutput) := ∅
  assets : VersionedTrees (Versioned AssetData) := .empty
  assetsCache : FiniteMap Hash TopoHeight := ∅
  assetsSupply : VersionedTrees (Versioned Nat) := .empty
  topoByHash : FiniteMap Hash TopoHeight := ∅
  hashAtTopo : FiniteMap TopoHeight Hash := ∅
  prunedTopoheight : Option TopoHeight := none
  burnedSupply : FiniteMap TopoHeight Nat := ∅
  supply : FiniteMap TopoHeight Nat := ∅
  rewards : FiniteMap TopoHeight Nat := ∅
  txsExecuted : FiniteMap Hash Hash := ∅
  txBlocks : FiniteMap Hash (List Hash) := ∅
  blocks : FiniteMap Hash BlockHeader := ∅
  transactions : FiniteMap Hash Transaction := ∅
  blocksAtHeight : FiniteMap Nat (List Hash) := ∅
  difficulty : FiniteMap Hash Nat := ∅
  difficultyCovariance : FiniteMap Hash Nat := ∅
  cumulativeDifficulty : FiniteMap Hash Nat := ∅
  blocksExecutionOrder : FiniteMap Hash Nat := ∅
  blocksExecutionCount : Nat := 0
  tips : Tips := []
  topTopoheight : Option TopoHeight := none
  topHeight : Option Nat := none

namespace Storage

open Lib (toBeBytes bitVecBytes)

def keyBytes (h : BitVec 256) : Key := bitVecBytes (w := 32) h

variable {P : Type} (s : Storage P)

def hasNonce (key : PublicKey) : Bool := s.nonces.pointers.contains (keyBytes key)

def getLastTopoheightForNonce (key : PublicKey) : Except BlockchainError TopoHeight :=
  match s.nonces.pointers[keyBytes key]? with
  | some topo => .ok topo
  | none => .error (.notFoundOnDisk .lastTopoheightForNonce)

def getNonceAtExactTopoheight (key : PublicKey) (topoheight : TopoHeight) : Except BlockchainError VersionedNonce :=
  s.nonces.loadVersion (.nonceAtTopoHeight topoheight) (keyBytes key) topoheight

def getLastNonce (key : PublicKey) : Except BlockchainError (TopoHeight × VersionedNonce) :=
  match s.nonces.pointers[keyBytes key]? with
  | none => .error (.noNonce key)
  | some topoheight => do
    let version ← s.getNonceAtExactTopoheight key topoheight
    return (topoheight, version)

def getNonceAtMaximumTopoheight (key : PublicKey) (topoheight : TopoHeight) :
    Except BlockchainError (Option (TopoHeight × VersionedNonce)) := do
  if !s.hasNonce key then
    return none
  let topo ←
    if (s.nonces.version (keyBytes key) topoheight).isSome then pure topoheight
    else s.getLastTopoheightForNonce key
  match ← searchPrevious (s.nonces.loadPrevious .lastNonce (keyBytes key)) topoheight (s.nonces.fuel topo) (some topo) with
  | some topo => return some (topo, ← s.getNonceAtExactTopoheight key topo)
  | none => return none

def setLastNonceTo (key : PublicKey) (topoheight : TopoHeight) (version : VersionedNonce) : Storage P :=
  { s with nonces := s.nonces.setLast (keyBytes key) topoheight version }

def hasAsset (asset : Hash) : Bool := s.assetsCache.contains asset || s.assets.pointers.contains (keyBytes asset)

def getAssetTopoheight (asset : Hash) : Option TopoHeight :=
  match s.assetsCache[asset]? with
  | some topo => some topo
  | none => s.assets.pointers[keyBytes asset]?

def hasAssetAtExactTopoheight (asset : Hash) (topoheight : TopoHeight) : Bool :=
  s.hasAsset asset && (s.assets.version (keyBytes asset) topoheight).isSome

def getAssetAtMaximumTopoheight (asset : Hash) (topoheight : TopoHeight) :
    Except BlockchainError (Option (TopoHeight × Versioned AssetData)) := do
  let topo := if s.hasAssetAtExactTopoheight asset topoheight then some topoheight else s.getAssetTopoheight asset
  -- the context of the error names the topoheight at which the link was read
  let load (t : TopoHeight) := s.assets.loadPrevious (.assetAtTopoHeight t) (keyBytes asset) t
  match ← searchPrevious load topoheight (s.assets.fuel (topo.getD 0)) topo with
  | some topo => return some (topo, ← s.assets.loadVersion (.assetAtTopoHeight topo) (keyBytes asset) topo)
  | none => return none

def addAsset (asset : Hash) (topoheight : TopoHeight) (data : Versioned AssetData) : Storage P :=
  { s with
    assets := (s.assets.setPointer (keyBytes asset) topoheight).setAt (keyBytes asset) topoheight data
    assetsCache := s.assetsCache.insert asset topoheight }

def getBalanceKeyFor (key : PublicKey) (asset : Hash) : Key := keyBytes key ++ keyBytes asset

def hasBalanceFor (key : PublicKey) (asset : Hash) : Except BlockchainError Bool :=
  if !s.hasAsset asset then .error (.assetNotFound asset)
  else .ok (s.balances.pointers.contains (getBalanceKeyFor key asset))

def getLastTopoheightForBalance (key : PublicKey) (asset : Hash) : TopoHeight :=
  (s.balances.pointers[getBalanceKeyFor key asset]?).getD 0

def hasBalanceAtExactTopoheight (key : PublicKey) (asset : Hash) (topoheight : TopoHeight) :
    Except BlockchainError Bool := do
  if !(← s.hasBalanceFor key asset) then
    return false
  return (s.balances.version (getBalanceKeyFor key asset) topoheight).isSome

def getBalanceAtExactTopoheight (key : PublicKey) (asset : Hash) (topoheight : TopoHeight) :
    Except BlockchainError (VersionedBalance P) := do
  if !(← s.hasBalanceAtExactTopoheight key asset topoheight) then
    throw (.noBalanceChanges key topoheight asset)
  match s.balances.version (getBalanceKeyFor key asset) topoheight with
  | some version => return version
  | none => throw (.noBalanceChanges key topoheight asset)

def loadBalancePrevious (key : PublicKey) (asset : Hash) (topo : TopoHeight) :
    Except BlockchainError (Option TopoHeight) :=
  s.balances.loadPrevious (.balanceAtTopoHeight topo) (getBalanceKeyFor key asset) topo

def getBalanceAtMaximumTopoheight (key : PublicKey) (asset : Hash) (topoheight : TopoHeight) :
    Except BlockchainError (Option (TopoHeight × VersionedBalance P)) := do
  if !(← s.hasBalanceFor key asset) then
    return none
  let topo := if ← s.hasBalanceAtExactTopoheight key asset topoheight then topoheight
    else s.getLastTopoheightForBalance key asset
  match ← searchPrevious (s.loadBalancePrevious key asset) topoheight (s.balances.fuel topo) (some topo) with
  | some topo => return some (topo, ← s.getBalanceAtExactTopoheight key asset topo)
  | none => return none

/-- A clean version to change at the next topoheight; the flag says that there was none before. -/
def getNewVersionedBalance [RistrettoPoint P] (key : PublicKey) (asset : Hash) (topoheight : TopoHeight) :
    Except BlockchainError (VersionedBalance P × Bool) := do
  match ← s.getBalanceAtMaximumTopoheight key asset topoheight with
  | some (topo, version) => return (version.prepareNew (some topo), false)
  | none => return (VersionedBalance.zero, true)

/-- Walking back to the last version that spent something, not below `minTopoheight`. -/
def searchOutput (key : PublicKey) (asset : Hash) (minTopoheight maxTopoheight : TopoHeight) :
    Nat → Option TopoHeight → Except BlockchainError (Option (TopoHeight × VersionedBalance P))
  | 0, _ => .error .endlessChain
  | _ + 1, none => .ok none
  | fuel + 1, some topo =>
    if topo < minTopoheight then .ok none
    else match s.balances.version (getBalanceKeyFor key asset) topo with
      | none => .error (.notFoundOnDisk (.balanceAtTopoHeight topo))
      | some v =>
        if topo ≤ maxTopoheight ∧ v.balanceType.containsOutput then
          match s.getBalanceAtExactTopoheight key asset topo with
          | .ok version => .ok (some (topo, version))
          | .error e => .error e
        else searchOutput key asset minTopoheight maxTopoheight fuel v.previousTopoheight

def getOutputBalanceInRange (key : PublicKey) (asset : Hash) (minTopoheight maxTopoheight : TopoHeight) :
    Except BlockchainError (Option (TopoHeight × VersionedBalance P)) := do
  if !(← s.hasBalanceFor key asset) then
    return none
  let topo := if ← s.hasBalanceAtExactTopoheight key asset maxTopoheight then maxTopoheight
    else s.getLastTopoheightForBalance key asset
  s.searchOutput key asset minTopoheight maxTopoheight (s.balances.fuel topo) (some topo)

def setLastBalanceTo (key : PublicKey) (asset : Hash) (topoheight : TopoHeight) (version : VersionedBalance P) :
    Storage P :=
  { s with balances := s.balances.setLast (getBalanceKeyFor key asset) topoheight version }

def getVersionedMultisigKey (account : PublicKey) (topoheight : TopoHeight) : Key :=
  keyBytes account ++ toBeBytes topoheight

def loadMultisig (account : PublicKey) (topoheight : TopoHeight) :
    Except BlockchainError (Versioned (Option MultiSigPayload)) :=
  match s.multisig.versions[getVersionedMultisigKey account topoheight]? with
  | some v => .ok v
  | none => .error (.notFoundOnDisk .multisig)

def getMultisigAtMaximumTopoheightFor (account : PublicKey) (maximum : TopoHeight) :
    Except BlockchainError (Option (TopoHeight × Versioned (Option MultiSigPayload))) := do
  let topo := if s.multisig.versions.contains (getVersionedMultisigKey account maximum) then some maximum
    else s.multisig.pointers[keyBytes account]?
  let load (t : TopoHeight) := (s.loadMultisig account t).map (·.previousTopoheight)
  match ← searchPrevious load maximum (s.multisig.fuel (topo.getD 0)) topo with
  | some topo => return some (topo, ← s.loadMultisig account topo)
  | none => return none

def setLastMultisigTo (account : PublicKey) (topoheight : TopoHeight) (multisig : Versioned (Option MultiSigPayload)) :
    Storage P :=
  { s with multisig :=
    { pointers := s.multisig.pointers.insert (keyBytes account) topoheight
      versions := s.multisig.versions.insert (getVersionedMultisigKey account topoheight) multisig } }

def prefixedDbKey (topoheight : TopoHeight) (key : PublicKey) : Key := toBeBytes topoheight ++ keyBytes key

def isAccountRegistered (key : PublicKey) : Bool :=
  match s.registrations[keyBytes key]? with
  | some topo => s.registrationsPrefixed.contains (prefixedDbKey topo key)
  | none => false

def isAccountRegisteredForTopoheight (key : PublicKey) (topoheight : TopoHeight) : Except BlockchainError Bool :=
  if !s.isAccountRegistered key then .ok false
  else match s.registrations[keyBytes key]? with
    | some registration => .ok (registration ≤ topoheight)
    | none => .error (.notFoundOnDisk .accountRegistrationTopoHeight)

def setAccountRegistrationTopoheight (key : PublicKey) (topoheight : TopoHeight) : Storage P :=
  let old := s.registrations[keyBytes key]?
  let prefixed := match old with
    | some old => s.registrationsPrefixed.erase (prefixedDbKey old key)
    | none => s.registrationsPrefixed
  { s with
    registrations := s.registrations.insert (keyBytes key) topoheight
    registrationsPrefixed := prefixed.insert (prefixedDbKey topoheight key) () }

def hasContractPointer (contract : Hash) : Bool := s.contracts.pointers.contains (keyBytes contract)

def getLastTopoheightForContract (contract : Hash) : Except BlockchainError TopoHeight :=
  match s.contracts.pointers[keyBytes contract]? with
  | some topo => .ok topo
  | none => .error (.notFoundOnDisk .contractTopoHeight)

def searchContract (contract : Hash) (maximum : TopoHeight) : Except BlockchainError (Option TopoHeight) := do
  let topo ←
    if (s.contracts.version (keyBytes contract) maximum).isSome then pure maximum
    else s.getLastTopoheightForContract contract
  searchPrevious (s.contracts.loadPrevious .contractTopoHeight (keyBytes contract)) maximum
    (s.contracts.fuel topo) (some topo)

def getContractAtMaximumTopoheightFor (contract : Hash) (maximum : TopoHeight) :
    Except BlockchainError (Option (TopoHeight × Versioned (Option Module))) := do
  if !s.hasContractPointer contract then
    return none
  match ← s.searchContract contract maximum with
  | some topo => return some (topo, ← s.contracts.loadVersion .contractTopoHeight (keyBytes contract) topo)
  | none => return none

/-- A version counts here even when it holds no module. -/
def hasContractAtMaximumTopoheight (contract : Hash) (maximum : TopoHeight) : Except BlockchainError Bool := do
  if !s.hasContractPointer contract then
    return false
  return (← s.searchContract contract maximum).isSome

def setLastContractTo (contract : Hash) (topoheight : TopoHeight) (version : Versioned (Option Module)) : Storage P :=
  { s with contracts := s.contracts.setLast (keyBytes contract) topoheight version }

def getContractBalanceKey (contract asset : Hash) : Key := keyBytes contract ++ keyBytes asset

/-- This search has no exact lookup: it always starts at the pointer. -/
def getContractBalanceAtMaximumTopoheight (contract asset : Hash) (topoheight : TopoHeight) :
    Except BlockchainError (Option (TopoHeight × Versioned Nat)) := do
  let key := getContractBalanceKey contract asset
  let topo := s.contractsBalances.pointers[key]?
  match ← searchPrevious (s.contractsBalances.loadPrevious .contractBalance key) topoheight
      (s.contractsBalances.fuel (topo.getD 0)) topo with
  | some topo => return some (topo, ← s.contractsBalances.loadVersion .contractBalance key topo)
  | none => return none

def setLastContractBalanceTo (contract asset : Hash) (topoheight : TopoHeight) (balance : Versioned Nat) : Storage P :=
  { s with contractsBalances := s.contractsBalances.setLast (getContractBalanceKey contract asset) topoheight balance }

/-- The versioned key is handed over as a vector, which writes its length before its bytes. -/
def hasAssetSupplyAtExactTopoheight (asset : Hash) (topoheight : TopoHeight) : Bool :=
  let key := getVersionedKey (keyBytes asset) topoheight
  (s.assetsSupply.versions[Lib.digitsBE 2 key.length ++ key]?).isSome

/-- The link is read at the requested topoheight, not at the one reached so far. -/
def getAssetSupplyAtMaximumTopoheight (asset : Hash) (topoheight : TopoHeight) :
    Except BlockchainError (Option (TopoHeight × Versioned Nat)) := do
  let key := keyBytes asset
  let topo := if s.hasAssetSupplyAtExactTopoheight asset topoheight then some topoheight else s.assetsSupply.pointers[key]?
  let load (_ : TopoHeight) := s.assetsSupply.loadPrevious .assetSupplyTopoHeight key topoheight
  match ← searchPrevious load topoheight (s.assetsSupply.fuel (topo.getD 0)) topo with
  | some topo => return some (topo, ← s.assetsSupply.loadVersion (.assetSupplyAtTopoHeight topo) key topo)
  | none => return none

def setLastSupplyForAsset (asset : Hash) (topoheight : TopoHeight) (supply : Versioned Nat) : Storage P :=
  { s with assetsSupply := s.assetsSupply.setLast (keyBytes asset) topoheight supply }

def getContractDataKey (blake3 : IVec → Hash) (key : ValueCell) (contract : Hash) : Key :=
  keyBytes (blake3 (key ++ hashToBytes contract))

/-- The links are read in the tree of the contracts' modules. -/
def getContractDataTopoheightAtMaximumTopoheightFor (blake3 : IVec → Hash) (contract : Hash) (key : ValueCell)
    (maximum : TopoHeight) : Except BlockchainError (Option TopoHeight) := do
  let dataKey := getContractDataKey blake3 key contract
  match s.contractsData.pointers[dataKey]? with
  | none => return none
  | some pointer =>
    let topo := if (s.contractsData.version dataKey maximum).isSome then maximum else pointer
    searchPrevious (s.contracts.loadPrevious .contractDataTopoHeight dataKey) maximum
      (s.contracts.fuel topo) (some topo)

def getContractDataAtMaximumTopoheightFor (blake3 : IVec → Hash) (contract : Hash) (key : ValueCell)
    (maximum : TopoHeight) : Except BlockchainError (Option (TopoHeight × Versioned (Option ValueCell))) := do
  let dataKey := getContractDataKey blake3 key contract
  match ← s.getContractDataTopoheightAtMaximumTopoheightFor blake3 contract key maximum with
  | some topo => return some (topo, ← s.contractsData.loadVersion .contractData dataKey topo)
  | none => return none

/-- Only a version at the exact topoheight is looked at; a missing one is an error. -/
def hasContractDataAtTopoheight (blake3 : IVec → Hash) (contract : Hash) (key : ValueCell)
    (topoheight : TopoHeight) : Except BlockchainError Bool := do
  let version ← s.contractsData.loadVersion .contractData (getContractDataKey blake3 key contract) topoheight
  return version.data.isSome

def setLastContractDataTo (blake3 : IVec → Hash) (contract : Hash) (key : ValueCell) (topoheight : TopoHeight)
    (version : Versioned (Option ValueCell)) : Storage P :=
  { s with contractsData := s.contractsData.setLast (getContractDataKey blake3 key contract) topoheight version }

def setTopoHeightForBlock (hash : Hash) (topoheight : TopoHeight) : Storage P :=
  { s with
    topoByHash := s.topoByHash.insert hash topoheight
    hashAtTopo := s.hashAtTopo.insert topoheight hash }

/-- Ordered means that the two trees agree on the block. -/
def isBlockTopologicalOrdered (hash : Hash) : Bool :=
  match s.topoByHash[hash]? with
  | some topoheight => s.hashAtTopo[topoheight]? == some hash
  | none => false

end Storage

end Xelis
