import Mathlib.Algebra.Group.Basic
import Xelis.Common.Types

namespace Xelis

/-- A commitment, handle or key as its 32 encoded bytes. -/
abbrev CompressedPoint := BitVec 256

/-- The curve group with its encoding and the basepoint that carries amounts. -/
class RistrettoPoint (P : Type) extends AddCommGroup P where
  basepoint : P
  decompress : CompressedPoint → Option P

/-- A Pedersen commitment with the decrypt handle of one key. -/
@[ext]
structure Ciphertext (P : Type) where
  commitment : P
  handle : P
  deriving DecidableEq

namespace Ciphertext

variable {P : Type} [RistrettoPoint P]

def zero : Ciphertext P := ⟨0, 0⟩

def add (a b : Ciphertext P) : Ciphertext P := ⟨a.commitment + b.commitment, a.handle + b.handle⟩

def sub (a b : Ciphertext P) : Ciphertext P := ⟨a.commitment - b.commitment, a.handle - b.handle⟩

/-- Adding a plain amount moves the commitment along the basepoint. -/
def addScalar (a : Ciphertext P) (amount : Nat) : Ciphertext P :=
  ⟨a.commitment + amount • RistrettoPoint.basepoint, a.handle⟩

/-- A plain amount, as the ciphertext that adding it adds. -/
def ofScalar (amount : Nat) : Ciphertext P := ⟨amount • RistrettoPoint.basepoint, 0⟩

def neg (a : Ciphertext P) : Ciphertext P := ⟨-a.commitment, -a.handle⟩

instance : Zero (Ciphertext P) := ⟨zero⟩

instance : Add (Ciphertext P) := ⟨add⟩

instance : Neg (Ciphertext P) := ⟨neg⟩

instance : Sub (Ciphertext P) := ⟨sub⟩

/-- The homomorphic operations are those of a group. -/
instance : AddCommGroup (Ciphertext P) where
  nsmul := nsmulRec
  zsmul := zsmulRec
  add_assoc a b c := Ciphertext.ext (add_assoc _ _ _) (add_assoc _ _ _)
  zero_add a := Ciphertext.ext (zero_add _) (zero_add _)
  add_zero a := Ciphertext.ext (add_zero _) (add_zero _)
  add_comm a b := Ciphertext.ext (add_comm _ _) (add_comm _ _)
  sub_eq_add_neg a b := Ciphertext.ext (sub_eq_add_neg _ _) (sub_eq_add_neg _ _)
  neg_add_cancel a := Ciphertext.ext (neg_add_cancel _) (neg_add_cancel _)

theorem add_eq (a b : Ciphertext P) : a.add b = a + b := rfl

theorem sub_eq (a b : Ciphertext P) : a.sub b = a - b := rfl

theorem addScalar_eq (a : Ciphertext P) (amount : Nat) : a.addScalar amount = a + ofScalar amount :=
  Ciphertext.ext rfl (add_zero a.handle).symm

theorem ofScalar_zero : (ofScalar 0 : Ciphertext P) = 0 := Ciphertext.ext (zero_nsmul _) rfl

end Ciphertext

end Xelis
