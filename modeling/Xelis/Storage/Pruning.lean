import Xelis.Storage.VersionedTrees

namespace Xelis.Storage

open Lib (FiniteMap)

/-- Bytes that are kept as they are. -/
abbrev NoTransform := IVec

def optionToBytes : Option TopoHeight → IVec
  | none => [0]
  | some topoheight => 1 :: Serializer.toBytes (UInt64.ofNat topoheight)

class StoredVersion (V : Type) extends HasPrevious V where
  toBytes : V → IVec

instance : StoredVersion (Versioned NoTransform) where
  toBytes v := optionToBytes v.previousTopoheight ++ v.data

/-- A balance on disk. The ciphertexts behind its type are not decoded. -/
structure StoredBalance where
  previousTopoheight : Option TopoHeight
  balanceType : BalanceType
  ciphertexts : NoTransform
  deriving DecidableEq, Repr

def BalanceType.toBytes : BalanceType → IVec
  | .input => [0]
  | .output => [1]
  | .both => [2]

instance : StoredVersion StoredBalance where
  previousTopoheight := StoredBalance.previousTopoheight
  toBytes v := optionToBytes v.previousTopoheight ++ BalanceType.toBytes v.balanceType ++ v.ciphertexts

def readRemoved {V : Type} [StoredVersion V] (v : V) : Except BlockchainError TopoHeight :=
  match (Serializer.fromBytes (StoredVersion.toBytes v) : Except ReaderError UInt64) with
  | .ok topoheight => .ok topoheight.toNat
  | .error e => .error (.errorOnReader e)

def topoheightOfKey (key : Key) : TopoHeight := (key.take 8).foldl (fun acc b => acc * 256 + b) 0

namespace VersionedTrees

section Removal

variable {V : Type}

def removeAt (tr : VersionedTrees V) (key : Key) (topoheight : TopoHeight) : VersionedTrees V :=
  { tr with versions := tr.versions.erase (getVersionedKey key topoheight) }

/-- The version at `prevTopo` is removed; what is read off it says where to go on. -/
def removeFromDisk [StoredVersion V] (tr : VersionedTrees V) (key : Key) (prevTopo : TopoHeight) :
    Except BlockchainError (Option TopoHeight × VersionedTrees V) :=
  match tr.version key prevTopo with
  | none => .ok (none, tr.removeAt key prevTopo)
  | some v =>
    match readRemoved v with
    | .ok next => .ok (some next, tr.removeAt key prevTopo)
    | .error e => .error e

/-- The deleting mode of both loops below, which neither of them leaves. -/
def removeLoop [StoredVersion V] (key : Key) :
    Nat → Option TopoHeight → VersionedTrees V → Except BlockchainError (VersionedTrees V)
  | 0, _, _ => .error .endlessChain
  | _ + 1, none, tr => .ok tr
  | fuel + 1, some prevTopo, tr =>
    match tr.removeFromDisk key prevTopo with
    | .ok (next, tr) => removeLoop key fuel next tr
    | .error e => .error e

/-- One stored version, whatever it is linked to. -/
def deleteKeyBelow (topoheight : TopoHeight) (versions : FiniteMap Key V) (key : Key) : FiniteMap Key V :=
  if topoheightOfKey key < topoheight then versions.erase key else versions

/-- The deletion that does not keep the last versions. -/
def deleteAllBelow (tr : VersionedTrees V) (topoheight : TopoHeight) : VersionedTrees V :=
  { tr with versions := tr.versions.keys.foldl (deleteKeyBelow topoheight) tr.versions }

end Removal

/-- The chain of one key: kept until the link that crosses `topoheight`, which is cut, and deleted from there on. -/
def deleteBelowLoop (topoheight : TopoHeight) (context : DiskContext) (key : Key) : Nat → Bool → Option TopoHeight →
    VersionedTrees (Versioned NoTransform) → Except BlockchainError (VersionedTrees (Versioned NoTransform))
  | 0, _, _, _ => .error .endlessChain
  | _ + 1, _, none, tr => .ok tr
  | fuel + 1, true, some prevTopo, tr => removeLoop key (fuel + 1) (some prevTopo) tr
  | fuel + 1, false, some prevTopo, tr =>
    match tr.version key prevTopo with
    | none => .error (.notFoundOnDisk context)
    | some data =>
      if (data.previousTopoheight.filter (· < topoheight)).isSome then
        deleteBelowLoop topoheight context key fuel true data.previousTopoheight
          (tr.setAt key prevTopo { data with previousTopoheight := none })
      else deleteBelowLoop topoheight context key fuel false data.previousTopoheight tr

def deleteBelowPointer (topoheight : TopoHeight) (context : DiskContext) (tr : VersionedTrees (Versioned NoTransform))
    (pointer : Key × TopoHeight) : Except BlockchainError (VersionedTrees (Versioned NoTransform)) :=
  match tr.loadPrevious context pointer.1 pointer.2 with
  | .ok prevVersion =>
    deleteBelowLoop topoheight context pointer.1 (tr.fuel pointer.2) (pointer.2 < topoheight) prevVersion tr
  | .error e => .error e

def deleteVersionedTreeBelowTopoheight (tr : VersionedTrees (Versioned NoTransform)) (topoheight : TopoHeight)
    (keepLast : Bool) (context : DiskContext) : Except BlockchainError (VersionedTrees (Versioned NoTransform)) :=
  if keepLast then tr.pointers.toList.foldlM (deleteBelowPointer topoheight context) tr
  else .ok (tr.deleteAllBelow topoheight)

/-- The chain of one balance: kept down to the first version that spent something, deleted below it. -/
def deleteBalancesLoop (key : Key) : Nat → Bool → Option TopoHeight → VersionedTrees StoredBalance →
    Except BlockchainError (VersionedTrees StoredBalance)
  | 0, _, _, _ => .error .endlessChain
  | _ + 1, _, none, tr => .ok tr
  | fuel + 1, true, some prevTopo, tr => removeLoop key (fuel + 1) (some prevTopo) tr
  | fuel + 1, false, some prevTopo, tr =>
    match tr.version key prevTopo with
    | none => .error (.notFoundOnDisk (.balanceAtTopoHeight prevTopo))
    | some v => deleteBalancesLoop key fuel v.balanceType.containsOutput v.previousTopoheight tr

def deleteBalancesPointer (tr : VersionedTrees StoredBalance) (pointer : Key × TopoHeight) :
    Except BlockchainError (VersionedTrees StoredBalance) :=
  match tr.loadPrevious (.balanceAtTopoHeight pointer.2) pointer.1 pointer.2 with
  | .ok prevVersion => deleteBalancesLoop pointer.1 (tr.fuel pointer.2) false prevVersion tr
  | .error e => .error e

def deleteVersionedBalancesBelowTopoheight (tr : VersionedTrees StoredBalance) (topoheight : TopoHeight)
    (keepLast : Bool) : Except BlockchainError (VersionedTrees StoredBalance) :=
  if keepLast then tr.pointers.toList.foldlM deleteBalancesPointer tr
  else .ok (tr.deleteAllBelow topoheight)

end VersionedTrees

end Xelis.Storage
