import Xelis.Lib.FiniteMap

namespace Xelis

/-- A 32 byte digest. The order is the byte order the source derives. -/
abbrev Hash := BitVec 256

namespace Hash

def zero : Hash := 0#256

end Hash

/-- A compressed account key, compared as its 32 bytes. -/
abbrev PublicKey := BitVec 256

instance : Std.TransOrd Hash := inferInstance

instance : Std.LawfulEqOrd Hash := inferInstance

instance : LawfulBEq Hash := inferInstance

abbrev TopoHeight := Nat

abbrev Nonce := Nat

abbrev TimestampMillis := Nat

abbrev IVec := List UInt8

def XELIS_ASSET : Hash := Hash.zero

/-- The set of current tips, in insertion order. -/
abbrev Tips := List Hash

end Xelis
