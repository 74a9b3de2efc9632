import Xelis.Wire.IntegratedData

/-! Value cells and the context of their reader. A transaction puts its version there; cells that are read from
storage or from text have none. -/

namespace Xelis.Wire

open Lib (Codec Parses)
open Lib.Codec (KeyOrder)

variable {S R : Type}

section Address

variable (order : KeyOrder DataValue)

def AddressType.merged : AddressType → AddressType
  | normal => normal
  | data element => data (element.merged order)

def AddressType.Raw : AddressType → Prop
  | normal => True
  | data element => element.Raw ∧ element.write.length ≤ EXTRA_DATA_LIMIT_SIZE

theorem AddressType.parses : Parses (AddressType.read order false) write (merged order) Raw := by
  refine Parses.tagged (fun a => by cases a <;> exact writeU8_append_ne_nil _ _) fun t => ?_
  match t with
  | 0 => exact Parses.pure (x := normal) rfl rfl fun a => by cases a <;> simp [write, Raw]
  | 1 =>
    refine ((DataElement.parses order).limited _ _).map (c := data) (fun _ => rfl) (fun _ => rfl) fun a => ?_
    cases a <;> simp [write, Raw]
  | t + 2 => exact Parses.throw fun a => by cases a <;> simp [write]

def Address.merged (address : Address) : Address := { address with addrType := address.addrType.merged order }

def Address.Raw (address : Address) : Prop := address.addrType.Raw

theorem Address.parses : Parses (Address.read order false) write (merged order) Raw := by
  refine bool_codec.parses.bind (p := mainnet) (fun _ _ => trivial) fun mainnet _ => ?_
  refine hash_codec.parses.bind (p := key) (fun _ _ => trivial) fun key _ => ?_
  have hrest : Parses (do return ({ mainnet, key, addrType := ← AddressType.read order false } : Address))
      (fun a => [a.addrType.write].flatten) (merged order) (fun a => a.key = key ∧ a.mainnet = mainnet ∧ a.Raw) := by
    refine (AddressType.parses order).map (fun _ => List.append_nil _) (fun _ => rfl) fun a => ⟨?_, ?_⟩
    · rintro ⟨rfl, rfl, hraw⟩
      exact ⟨a.addrType, hraw, rfl⟩
    · rintro ⟨addrType, hraw, rfl⟩
      exact ⟨rfl, rfl, hraw⟩
  exact hrest

/-- No map of the integrated data names a key twice. -/
def Address.Distinct (address : Address) : Prop :=
  match address.addrType with
  | .normal => True
  | .data element => element.Distinct

variable {address : Address}

theorem Address.Valid.raw (h : address.Valid order) : address.Raw := by
  unfold Raw
  unfold Valid at h
  cases haddr : address.addrType with
  | normal => trivial
  | data element =>
    rw [haddr] at h
    exact ⟨(DataElement.Valid.within order h.1).raw, h.2⟩

theorem Address.Valid.merged_eq (h : address.Valid order) : address.merged order = address := by
  obtain ⟨mainnet, key, addrType⟩ := address
  cases addrType with
  | normal => rfl
  | data element =>
    simp only [Address.merged, AddressType.merged, DataElement.Valid.merged_eq order h.1]

theorem Address.length_write_merged (address : Address) : (address.merged order).write.length ≤ address.write.length := by
  obtain ⟨mainnet, key, addrType⟩ := address
  cases addrType with
  | normal => exact Nat.le_refl _
  | data element =>
    have hle := element.length_write_merged order
    simp only [Address.merged, AddressType.merged, Address.write, AddressType.write, List.flatten_cons, List.flatten_nil,
      List.length_append]
    omega

theorem Address.Distinct.length_write_merged (h : address.Distinct) :
    (address.merged order).write.length = address.write.length := by
  obtain ⟨mainnet, key, addrType⟩ := address
  cases addrType with
  | normal => rfl
  | data element =>
    simp only [Address.merged, AddressType.merged, Address.write, AddressType.write, List.flatten_cons, List.flatten_nil,
      List.length_append, DataElement.Distinct.length_write_merged order h]

end Address

variable [CurveScalar S] [RangeProof R]

/-- The version is asked of the context. -/
def CiphertextValidityProof.readIn : Option TxVersion → Reader (CiphertextValidityProof S)
  | some version => read version
  | none => throw .any

def CiphertextValidityProof.Fits (context : Option TxVersion) (proof : CiphertextValidityProof S) : Prop :=
  ∃ version, context = some version ∧ proof.Valid version

theorem CiphertextValidityProof.codecIn (context : Option TxVersion) :
    Codec (fun _ => readIn (S := S) context) write (Fits context) := by
  cases context with
  | none =>
    refine Codec.throw fun proof h => ?_
    obtain ⟨version, hnone, -⟩ := h
    cases hnone
  | some version => exact (codec version).congr fun proof => by simp [Fits]

variable {p : Primitive S R}

section Wrapper

variable (context : Option TxVersion) (order : KeyOrder DataValue)

namespace OpaqueWrapper

def readIn : Reader (OpaqueWrapper S R) := readWith (Address.read order false) (CiphertextValidityProof.readIn context)

def merged : OpaqueWrapper S R → OpaqueWrapper S R
  | address a => address (a.merged order)
  | o => o

def RawIn : OpaqueWrapper S R → Prop
  | address a => a.Raw
  | ciphertextValidityProof proof => proof.Fits context
  | rangeProof proof => RangeProofValid proof
  | _ => True

theorem parses : Parses (readIn (S := S) (R := R) context order) write (merged order) (RawIn context) := by
  refine Parses.tagged (fun o => by cases o <;> exact writeU8_append_ne_nil _ _) fun t => ?_
  match t with
  | 0 => exact hash_codec.parses.map (c := hash) (fun _ => tail_writeU8 _ _) (fun _ => rfl) fun o => by cases o <;> simp [write, RawIn]
  | 1 =>
    refine (Address.parses order).map (c := address) (fun _ => tail_writeU8 _ _) (fun _ => rfl) fun o => ?_
    cases o <;> simp [write, RawIn]
  | 2 =>
    refine Signature.codec.parses.map (c := signature) (fun _ => tail_writeU8 _ _) (fun _ => rfl) fun o => ?_
    cases o <;> simp [write, RawIn]
  | 3 =>
    refine ciphertext_codec.parses.map (c := fun c => ciphertext c.1 c.2) (fun _ => ?_) (fun _ => ?_) fun o => ?_
    · exact tail_writeU8 _ _
    · rfl
    · cases o <;> simp [write, RawIn]
  | 4 =>
    refine (CiphertextValidityProof.codecIn context).parses.map (c := ciphertextValidityProof) (fun _ => tail_writeU8 _ _)
      (fun _ => rfl) fun o => ?_
    cases o <;> simp [write, RawIn]
  | 5 =>
    refine rangeProof_codec.parses.map (c := rangeProof) (fun _ => tail_writeU8 _ _) (fun _ => rfl) fun o => ?_
    cases o <;> simp [write, RawIn]
  | t + 6 => exact Parses.throw fun o => by cases o <;> simp [write]

/-- The limits of the format, whatever the reader knows of the version. -/
def Fits : OpaqueWrapper S R → Prop
  | address a => a.Valid order
  | rangeProof proof => RangeProofValid proof
  | _ => True

def InContext : OpaqueWrapper S R → Prop
  | ciphertextValidityProof proof => proof.Fits context
  | _ => True

def Distinct : OpaqueWrapper S R → Prop
  | address a => a.Distinct
  | _ => True

variable {o : OpaqueWrapper S R}

section

omit [CurveScalar S]

theorem Fits.rawIn (h : o.Fits order) (hcontext : o.InContext context) : o.RawIn context := by
  cases o with
  | address a => exact Address.Valid.raw order h
  | rangeProof proof => exact h
  | ciphertextValidityProof proof => exact hcontext
  | hash | signature | ciphertext => trivial

theorem RawIn.inContext (h : o.RawIn context) : (o.merged order).InContext context := by
  cases o with
  | ciphertextValidityProof proof => exact h
  | address | rangeProof | hash | signature | ciphertext => trivial

theorem RawIn.fits (h : o.RawIn context) : (o.merged order).Fits order := by
  cases o with
  | address a => exact ((Address.codec order).sound ((Address.parses order).reads a h [])).1
  | rangeProof proof => exact h
  | ciphertextValidityProof | hash | signature | ciphertext => trivial

theorem Fits.merged_eq (h : o.Fits order) : o.merged order = o := by
  cases o with
  | address a => exact congrArg address (Address.Valid.merged_eq order h)
  | ciphertextValidityProof | rangeProof | hash | signature | ciphertext => rfl

end

theorem length_write_merged (o : OpaqueWrapper S R) : (o.merged order).write.length ≤ o.write.length := by
  cases o with
  | address a =>
    have hle := a.length_write_merged order
    simp only [merged, write, List.length_append]
    omega
  | ciphertextValidityProof | rangeProof | hash | signature | ciphertext => exact Nat.le_refl _

theorem Distinct.length_write_merged (h : o.Distinct) : (o.merged order).write.length = o.write.length := by
  cases o with
  | address a => simp only [merged, write, List.length_append, Address.Distinct.length_write_merged order h]
  | ciphertextValidityProof | rangeProof | hash | signature | ciphertext => rfl

end OpaqueWrapper

namespace Primitive

def readIn : Reader (Primitive S R) := fun bytes => readAt (OpaqueWrapper.readIn context order) bytes.length bytes

def merged : Primitive S R → Primitive S R
  | range left right => range left.merged right.merged
  | opaqueWrapper value => opaqueWrapper (value.merged order)
  | p => p

omit [CurveScalar S] [RangeProof R] in
@[simp] theorem getType_merged (p : Primitive S R) : (p.merged order).getType = p.getType := by
  cases p <;> rfl

theorem range_parses {read : Reader (Primitive S R)} {Raw : Primitive S R → Prop} (h : Parses read write (merged order) Raw) :
    Parses (readRange read) (fun r => r.1.write ++ r.2.write) (Prod.map (merged order) (merged order))
      (fun r => r.1.isNumber = true ∧ r.1.getType = r.2.getType ∧ Raw r.1 ∧ Raw r.2) := by
  refine h.bind (p := Prod.fst) (fun _ hr => hr.2.2.1) fun left hleft => ?_
  refine Parses.guard (fun hnumber => ?_) ?_
  · refine ⟨fun r hr => ?_, fun hread => ?_⟩
    · obtain ⟨rfl, hnumber', htype, -, hright⟩ := hr
      have hpass : ((merged order r.2).isNumber = true) ∧ (merged order r.1).getType = (merged order r.2).getType := by
        rw [isNumber, getType_merged, getType_merged, ← htype]
        exact ⟨hnumber', rfl⟩
      refine (h.reads r.2 hright).bind_pure ?_
      rw [hpass.1, if_neg (by decide), if_neg (not_not.mpr hpass.2)]
      rfl
    · obtain ⟨right, mid, hright, hread'⟩ := Lib.Reader.bind_ok_iff.mp hread
      obtain ⟨w, hw, rfl, rfl⟩ := h.parsed hright
      split at hread'
      · cases hread'
      · split at hread'
        · cases hread'
        · rename_i htype
          cases hread'
          rw [ne_eq, not_not, getType_merged, getType_merged] at htype
          rw [Bool.not_eq_true', Bool.not_eq_false, isNumber, getType_merged] at hnumber
          exact ⟨(left, w), ⟨rfl, hnumber, htype, hleft, hw⟩, rfl, rfl⟩
  · rintro hnot r ⟨rfl, hnumber, -⟩
    rw [Bool.not_eq_true', isNumber, getType_merged] at hnot
    rw [isNumber, hnot] at hnumber
    cases hnumber

theorem parsesAt (depth : Nat) :
    Parses (readAt (S := S) (R := R) (OpaqueWrapper.readIn context order) depth) write (merged order)
      (HoldsAt (OpaqueWrapper.RawIn context) depth) := by
  induction depth with
  | zero => exact Parses.throw fun _ h => h
  | succ depth ih =>
    refine Parses.tagged (fun p => by cases p <;> exact List.cons_ne_nil _ _) fun t => ?_
    match t with
    | 0 => exact Parses.pure (x := null) rfl rfl fun p => by cases p <;> simp [write, HoldsAt]
    | 1 => exact u8_codec.parses.map (c := u8) (fun _ => tail_writeU8 _ _) (fun _ => rfl) fun p => by cases p <;> simp [write, HoldsAt]
    | 2 => exact u16_codec.parses.map (c := u16) (fun _ => tail_writeU8 _ _) (fun _ => rfl) fun p => by cases p <;> simp [write, HoldsAt]
    | 3 => exact u32_codec.parses.map (c := u32) (fun _ => tail_writeU8 _ _) (fun _ => rfl) fun p => by cases p <;> simp [write, HoldsAt]
    | 4 => exact u64_codec.parses.map (c := u64) (fun _ => tail_writeU8 _ _) (fun _ => rfl) fun p => by cases p <;> simp [write, HoldsAt]
    | 5 => exact u128_codec.parses.map (c := u128) (fun _ => tail_writeU8 _ _) (fun _ => rfl) fun p => by cases p <;> simp [write, HoldsAt]
    | 6 => exact hash_codec.parses.map (c := u256) (fun _ => tail_writeU8 _ _) (fun _ => rfl) fun p => by cases p <;> simp [write, HoldsAt]
    | 7 => exact bool_codec.parses.map (c := boolean) (fun _ => tail_writeU8 _ _) (fun _ => rfl) fun p => by cases p <;> simp [write, HoldsAt]
    | 8 => exact text_codec.parses.map (c := string) (fun _ => tail_writeU8 _ _) (fun _ => rfl) fun p => by cases p <;> simp [write, HoldsAt]
    | 9 =>
      refine (range_parses order ih).map (c := fun r => range r.1 r.2) (fun _ => ?_) (fun _ => ?_) fun p => ?_
      · exact tail_writeU8 _ _
      · rfl
      · cases p <;> simp [write, HoldsAt]
    | 10 =>
      refine (OpaqueWrapper.parses context order).map (c := opaqueWrapper) (fun _ => tail_writeU8 _ _) (fun _ => rfl) fun p => ?_
      cases p <;> simp [write, HoldsAt]
    | t + 11 => exact Parses.throw fun p => by cases p <;> simp [write]

theorem parses : Parses (readIn (S := S) (R := R) context order) write (merged order) (Holds (OpaqueWrapper.RawIn context)) :=
  Parses.unbounded (parsesAt context order) HoldsAt.deep_enough

section Holds

variable {O O' : OpaqueWrapper S R → Prop}
variable {depth : Nat}

omit [CurveScalar S] [RangeProof R]

theorem HoldsAt.mono (hO : ∀ o, O o → O' o) (h : p.HoldsAt O depth) : p.HoldsAt O' depth := by
  induction depth generalizing p with
  | zero => exact absurd h id
  | succ depth ih =>
    cases p with
    | range left right => exact ⟨h.1, h.2.1, ih h.2.2.1, ih h.2.2.2⟩
    | opaqueWrapper value => exact hO value h
    | _ => exact h

theorem HoldsAt.and (h : p.HoldsAt O depth) (h' : p.HoldsAt O' depth) : p.HoldsAt (fun o => O o ∧ O' o) depth := by
  induction depth generalizing p with
  | zero => exact absurd h id
  | succ depth ih =>
    cases p with
    | range left right => exact ⟨h.1, h.2.1, ih h.2.2.1 h'.2.2.1, ih h.2.2.2 h'.2.2.2⟩
    | opaqueWrapper value => exact ⟨h, h'⟩
    | _ => exact h

theorem HoldsAt.merged (hO : ∀ o, O o → O' (o.merged order)) (h : p.HoldsAt O depth) :
    (p.merged order).HoldsAt O' depth := by
  induction depth generalizing p with
  | zero => exact absurd h id
  | succ depth ih =>
    cases p with
    | range left right =>
      refine ⟨?_, ?_, ih h.2.2.1, ih h.2.2.2⟩
      · rw [isNumber, getType_merged]
        exact h.1
      · rw [getType_merged, getType_merged]
        exact h.2.1
    | opaqueWrapper value => exact hO value h
    | _ => exact h

theorem HoldsAt.merged_eq (hO : ∀ o, O o → o.merged order = o) (h : p.HoldsAt O depth) : p.merged order = p := by
  induction depth generalizing p with
  | zero => exact absurd h id
  | succ depth ih =>
    cases p with
    | range left right => rw [Primitive.merged, ih h.2.2.1, ih h.2.2.2]
    | opaqueWrapper value => exact congrArg opaqueWrapper (hO value h)
    | _ => rfl

theorem Holds.mono (hO : ∀ o, O o → O' o) (h : p.Holds O) : p.Holds O' := by
  obtain ⟨m, h⟩ := h
  exact ⟨m, h.mono hO⟩

theorem Holds.merged (hO : ∀ o, O o → O' (o.merged order)) (h : p.Holds O) : (p.merged order).Holds O' := by
  obtain ⟨m, h⟩ := h
  exact ⟨m, h.merged order hO⟩

theorem Holds.merged_eq (hO : ∀ o, O o → o.merged order = o) (h : p.Holds O) : p.merged order = p := by
  obtain ⟨m, h⟩ := h
  exact h.merged_eq order hO

end Holds

theorem Holds.and {O O' : OpaqueWrapper S R → Prop} (h : p.Holds O) (h' : p.Holds O') : p.Holds (fun o => O o ∧ O' o) := by
  obtain ⟨m, h⟩ := h
  obtain ⟨n, h'⟩ := h'
  exact ⟨_, (h.deep_enough m p.write.length p (Nat.le_refl _)).and (h'.deep_enough n p.write.length p (Nat.le_refl _))⟩

theorem length_write_merged (p : Primitive S R) : (p.merged order).write.length ≤ p.write.length := by
  induction p with
  | range left right ihl ihr =>
    simp only [merged, write, List.length_append]
    omega
  | opaqueWrapper value =>
    have hle := value.length_write_merged order
    simp only [merged, write, List.length_append]
    omega
  | _ => exact Nat.le_refl _

theorem Distinct.length_write_merged (h : p.Holds OpaqueWrapper.Distinct) :
    (p.merged order).write.length = p.write.length := by
  obtain ⟨depth, h⟩ := h
  induction depth generalizing p with
  | zero => exact absurd h id
  | succ depth ih =>
    cases p with
    | range left right => simp only [merged, write, List.length_append, ih h.2.2.1, ih h.2.2.2]
    | opaqueWrapper value =>
      simp only [merged, write, List.length_append, OpaqueWrapper.Distinct.length_write_merged order (o := value) h]
    | _ => rfl

end Primitive

end Wrapper

end Xelis.Wire
