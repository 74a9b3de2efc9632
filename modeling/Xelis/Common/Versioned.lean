import Xelis.Common.Crypto

namespace Xelis

/-- Where a cached value comes from: a fresh one, a stored version, or a stored version since changed. -/
inductive VersionedState where
  | new
  | fetchedAt (topoheight : TopoHeight)
  | updated (topoheight : TopoHeight)
  deriving DecidableEq, Repr

namespace VersionedState

def isNew : VersionedState → Bool
  | .new => true
  | _ => false

def isFetchedAt : VersionedState → Bool
  | .fetchedAt _ => true
  | _ => false

def shouldBeStored (s : VersionedState) : Bool := !s.isFetchedAt

def getTopoheight : VersionedState → Option TopoHeight
  | .fetchedAt topoheight => some topoheight
  | .updated topoheight => some topoheight
  | .new => none

def markUpdated : VersionedState → VersionedState
  | .fetchedAt topoheight => .updated topoheight
  | .updated topoheight => .updated topoheight
  | .new => .new

end VersionedState

/-- A value with the topoheight of the version it replaces. -/
structure Versioned (T : Type) where
  previousTopoheight : Option TopoHeight
  data : T
  deriving DecidableEq, Repr

structure VersionedNonce where
  previousTopoheight : Option TopoHeight
  nonce : Nonce
  deriving DecidableEq, Repr

/-- What touched a balance at its topoheight. -/
inductive BalanceType where
  | input
  | output
  | both
  deriving DecidableEq, Repr

def BalanceType.containsOutput : BalanceType → Bool
  | .output => true
  | .both => true
  | .input => false

/-- An encrypted balance at a topoheight. The output balance is the one left by spendings alone. -/
structure VersionedBalance (P : Type) where
  previousTopoheight : Option TopoHeight
  outputBalance : Option (Ciphertext P)
  finalBalance : Ciphertext P
  balanceType : BalanceType
  deriving DecidableEq

namespace VersionedBalance

variable {P : Type} [RistrettoPoint P]

def zero : VersionedBalance P := ⟨none, none, Ciphertext.zero, .input⟩

def prepareNew (v : VersionedBalance P) (previousTopoheight : Option TopoHeight) : VersionedBalance P :=
  { v with previousTopoheight, outputBalance := none, balanceType := .input }

def takeBalanceWith (v : VersionedBalance P) (output : Bool) : Ciphertext P :=
  match v.outputBalance with
  | some balance => if output then balance else v.finalBalance
  | none => v.finalBalance

def selectBalance (v : VersionedBalance P) (output : Bool) : Ciphertext P × Bool :=
  match v.outputBalance with
  | some balance => if output then (balance, true) else (v.finalBalance, false)
  | none => (v.finalBalance, false)

/-- Writing through the reference that `selectBalance` hands out. -/
def setSelected (v : VersionedBalance P) (output : Bool) (ct : Ciphertext P) : VersionedBalance P :=
  match v.outputBalance with
  | some _ => if output then { v with outputBalance := some ct } else { v with finalBalance := ct }
  | none => { v with finalBalance := ct }

def containsOutput (v : VersionedBalance P) : Bool := v.balanceType.containsOutput

end VersionedBalance

end Xelis
