import Xelis.Common.Error
import Xelis.Common.Versioned
import Xelis.Lib.Bytes

namespace Xelis.Storage

open Lib (FiniteMap toBeBytes)

/-- Key bytes, as numbers. -/
abbrev Key := List Nat

/-- Values whose encoding starts with the topoheight of the version before. -/
class HasPrevious (V : Type) where
  previousTopoheight : V → Option TopoHeight

instance (T : Type) : HasPrevious (Versioned T) := ⟨Versioned.previousTopoheight⟩
instance : HasPrevious VersionedNonce := ⟨VersionedNonce.previousTopoheight⟩
instance (P : Type) : HasPrevious (VersionedBalance P) := ⟨VersionedBalance.previousTopoheight⟩

/-- A pointer tree with the versioned tree it points into. -/
structure VersionedTrees (V : Type) where
  pointers : FiniteMap Key TopoHeight
  versions : FiniteMap Key V

def getVersionedKey (key : Key) (topoheight : TopoHeight) : Key := toBeBytes topoheight ++ key

/-- Following the links from `topo` until the first topoheight not above `maximum`. -/
def searchPrevious (load : TopoHeight → Except BlockchainError (Option TopoHeight)) (maximum : TopoHeight) :
    Nat → Option TopoHeight → Except BlockchainError (Option TopoHeight)
  | 0, _ => .error .endlessChain
  | _ + 1, none => .ok none
  | fuel + 1, some topo =>
    if topo ≤ maximum then .ok (some topo)
    else match load topo with
      | .ok previous => searchPrevious load maximum fuel previous
      | .error e => .error e

namespace VersionedTrees

variable {V : Type}

def empty : VersionedTrees V := ⟨∅, ∅⟩

/-- More steps than a walk over the stored versions can take without coming back to one of them. -/
def fuel (tr : VersionedTrees V) (topo : TopoHeight) : Nat := topo + tr.versions.size + 2

def version (tr : VersionedTrees V) (key : Key) (topoheight : TopoHeight) : Option V :=
  tr.versions[getVersionedKey key topoheight]?

def loadVersion (tr : VersionedTrees V) (context : DiskContext) (key : Key) (topoheight : TopoHeight) :
    Except BlockchainError V :=
  match tr.version key topoheight with
  | some v => .ok v
  | none => .error (.notFoundOnDisk context)

def setAt (tr : VersionedTrees V) (key : Key) (topoheight : TopoHeight) (v : V) : VersionedTrees V :=
  { tr with versions := tr.versions.insert (getVersionedKey key topoheight) v }

def setPointer (tr : VersionedTrees V) (key : Key) (topoheight : TopoHeight) : VersionedTrees V :=
  { tr with pointers := tr.pointers.insert key topoheight }

/-- Store a version and point to it. -/
def setLast (tr : VersionedTrees V) (key : Key) (topoheight : TopoHeight) (v : V) : VersionedTrees V :=
  (tr.setAt key topoheight v).setPointer key topoheight

variable [HasPrevious V]

def loadPrevious (tr : VersionedTrees V) (context : DiskContext) (key : Key) (topoheight : TopoHeight) :
    Except BlockchainError (Option TopoHeight) :=
  match tr.version key topoheight with
  | some v => .ok (HasPrevious.previousTopoheight v)
  | none => .error (.notFoundOnDisk context)

def searchStart (tr : VersionedTrees V) (key : Key) (maximum : TopoHeight) : Option TopoHeight :=
  if (tr.version key maximum).isSome then some maximum else tr.pointers[key]?

/-- One version of the scan: it is removed, and the pointer goes back to the version before. -/
def deleteVersion (topoheight : TopoHeight) (tr : VersionedTrees V) (prefixedKey : Key) :
    Except BlockchainError (VersionedTrees V) :=
  match tr.versions[prefixedKey]? with
  | none => .error .corruptedData
  | some v =>
    let versions := tr.versions.erase prefixedKey
    let key := prefixedKey.drop 8
    match tr.pointers[key]? with
    | none => .ok { tr with versions }
    | some pointer =>
      if topoheight ≤ pointer then
        match HasPrevious.previousTopoheight v with
        | some previous => .ok ⟨tr.pointers.insert key previous, versions⟩
        | none => .ok ⟨tr.pointers.erase key, versions⟩
      else .ok { tr with versions }

def deleteVersionedTreeAtTopoheight (tr : VersionedTrees V) (topoheight : TopoHeight) :
    Except BlockchainError (VersionedTrees V) :=
  (tr.versions.keys.filter ((toBeBytes topoheight).isPrefixOf ·)).foldlM (deleteVersion topoheight) tr

end VersionedTrees

end Xelis.Storage
