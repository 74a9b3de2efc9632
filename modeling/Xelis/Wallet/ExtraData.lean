import Xelis.Lib.Exec
import Xelis.Transaction.Outputs
import Xelis.Wallet.Entry
import Xelis.Wire.IntegratedData

/-! The extra data of a transfer: its formats, and how a wallet finds out in which of them it was written. -/

namespace Xelis.Wallet

open Lib (Codec Exec Parses)
open Lib.Codec (KeyOrder)
open Wire

/-- A cipher without a tag, and a handle of its key for each of the two parties. -/
structure ExtraData where
  senderHandle : Hash
  receiverHandle : Hash
  cipher : IVec

inductive ExtraDataType where
  | priv (payload : ExtraData)
  | pub (payload : IVec)
  | proprietary (payload : IVec)

inductive ExtraDataError where
  | reader (e : ReaderError)
  | decompression
  | cipherFormat

namespace ExtraData

def getHandle (e : ExtraData) : Role → Hash
  | .sender => e.senderHandle
  | .receiver => e.receiverHandle

def write (e : ExtraData) : IVec := [writeHash e.senderHandle, writeHash e.receiverHandle, writeVec writeByte e.cipher].flatten

def read : Reader ExtraData := do
  let senderHandle ← readHash
  let receiverHandle ← readHash
  let cipher ← readVec readByte
  return { senderHandle, receiverHandle, cipher }

/-- A reader takes the cipher. -/
def Sized (e : ExtraData) : Prop := e.cipher.length ≤ DEFAULT_MAX_ITEMS

theorem codec : Codec (fun _ => read) write Sized := by
  refine hash_codec.bind (p := senderHandle) (fun _ _ => trivial) fun senderHandle _ => ?_
  refine hash_codec.bind (p := receiverHandle) (fun _ _ => trivial) fun receiverHandle _ => ?_
  refine (vec_codec byte_codec).bind (p := cipher) (fun _ h => ⟨h.2.2, fun _ _ => trivial⟩) fun cipher hcipher => ?_
  refine Codec.pure rfl fun e => ?_
  constructor
  · rintro ⟨rfl, rfl, rfl, -⟩
    rfl
  · rintro rfl
    exact ⟨rfl, rfl, rfl, hcipher.1⟩

end ExtraData

namespace ExtraDataType

def write : ExtraDataType → IVec
  | priv payload => writeU8 0 ++ payload.write
  | pub payload => writeU8 1 ++ writeVec writeByte payload
  | proprietary payload => writeU8 2 ++ writeVec writeByte payload

def read : Reader ExtraDataType := do
  match ← readU8 with
  | 0 => return priv (← ExtraData.read)
  | 1 => return pub (← readVec readByte)
  | 2 => return proprietary (← readVec readByte)
  | _ => throw .invalidValue

def Sized : ExtraDataType → Prop
  | priv payload => payload.Sized
  | pub payload => payload.length ≤ DEFAULT_MAX_ITEMS
  | proprietary payload => payload.length ≤ DEFAULT_MAX_ITEMS

theorem codec : Codec (fun _ => read) write Sized := by
  refine Codec.tagged (fun t _ => by cases t <;> exact writeU8_append_ne_nil _ _) fun t => ?_
  match t with
  | 0 =>
    refine ExtraData.codec.map (c := priv) (fun _ _ => tail_writeU8 _ _) fun t => ?_
    cases t <;> simp [write, Sized]
  | 1 =>
    refine (vec_codec byte_codec).map (c := pub) (fun _ _ => tail_writeU8 _ _) fun t => ?_
    cases t <;> simp [write, Sized]
  | 2 =>
    refine (vec_codec byte_codec).map (c := proprietary) (fun _ _ => tail_writeU8 _ _) fun t => ?_
    cases t <;> simp [write, Sized]
  | t + 3 => exact Codec.throw fun t => by cases t <;> simp [write]

end ExtraDataType

variable {bytes bytes' : IVec}

section Keystream

/-- The stream cipher: the same call encrypts and decrypts. -/
def applyKeystream (stream : Nat → UInt8) (bytes : IVec) : IVec := bytes.mapIdx fun i b => b ^^^ stream i

variable (stream : Nat → UInt8)

@[simp] theorem length_applyKeystream (bytes : IVec) : (applyKeystream stream bytes).length = bytes.length := List.length_mapIdx

@[simp] theorem applyKeystream_self (bytes : IVec) : applyKeystream stream (applyKeystream stream bytes) = bytes := by
  unfold applyKeystream
  rw [List.mapIdx_mapIdx]
  have hsame : (fun i => (fun b : UInt8 => b ^^^ stream i) ∘ fun b : UInt8 => b ^^^ stream i) = fun _ => id := by
    funext i b
    show b ^^^ stream i ^^^ stream i = b
    rw [UInt8.xor_assoc, UInt8.xor_self, UInt8.xor_zero]
  rw [hsame]
  exact List.mapIdx_eq_iff.mpr fun i => by simp

theorem applyKeystream_isPrefix (h : bytes <+: bytes') :
    applyKeystream stream bytes <+: applyKeystream stream bytes' := by
  obtain ⟨rest, rfl⟩ := h
  unfold applyKeystream
  rw [List.mapIdx_append]
  exact List.prefix_append _ _

end Keystream

section Decryption

/-- The curve, the derivation of a shared key from a handle, the stream cipher, and the cipher with a tag of the oldest format. -/
structure ExtraDataCiphers (K H : Type) where
  decompress : Hash → Option H
  deriveSharedKeyFromHandle : K → H → Hash
  keystream : Hash → Nat → UInt8
  decryptAead : Hash → IVec → Option IVec

variable {K H α : Type} (env : ExtraDataCiphers K H) (order : KeyOrder DataValue) (privateKey : K) (role : Role)

/-- Bytes after the value are not looked at. -/
def fromBytes (read : Reader α) (bytes : IVec) : Except ExtraDataError α :=
  match read bytes with
  | .ok (x, _) => .ok x
  | .error e => .error (.reader e)

def orError (e : ExtraDataError) : Option α → Except ExtraDataError α
  | some x => .ok x
  | none => .error e

def decryptExtraData (e : ExtraData) : Except ExtraDataError PlaintextExtraData := do
  let handle ← orError .decompression (env.decompress (e.getHandle role))
  let sharedKey := env.deriveSharedKeyFromHandle privateKey handle
  let data ← fromBytes (DataElement.read order false) (applyKeystream (env.keystream sharedKey) e.cipher)
  return { sharedKey := some sharedKey, data := some data, flag := .priv }

def openTyped : ExtraDataType → Except ExtraDataError PlaintextExtraData
  | .priv payload => decryptExtraData env order privateKey role payload
  | .pub payload => do
    let decoded ← fromBytes (DataElement.read order false) payload
    return { sharedKey := none, data := some decoded, flag := .pub }
  | .proprietary payload => return { sharedKey := none, data := some (.value (.blob payload)), flag := .proprietary }

def decryptTyped (bytes : IVec) : Except ExtraDataError PlaintextExtraData := do
  openTyped env order privateKey role (← fromBytes ExtraDataType.read bytes)

def decryptV2 (bytes : IVec) : Except ExtraDataError PlaintextExtraData := do
  decryptExtraData env order privateKey role (← fromBytes ExtraData.read bytes)

def decryptV1 (handle : H) (bytes : IVec) : Except ExtraDataError DataElement := do
  let plaintext ← orError .cipherFormat (env.decryptAead (env.deriveSharedKeyFromHandle privateKey handle) bytes)
  fromBytes (DataElement.read order false) plaintext

/-- The formats are tried one after the other, the newest first. -/
def decrypt (handle : Option H) (bytes : IVec) : Except ExtraDataError PlaintextExtraData :=
  let res := match decryptTyped env order privateKey role bytes with
    | .error _ => decryptV2 env order privateKey role bytes
    | res => res
  match res, handle with
  | .error _, some handle => do
    let data ← decryptV1 env order privateKey handle bytes
    return { sharedKey := none, data := some data, flag := .priv }
  | res, _ => res

end Decryption

variable {e e' : ExtraData} {x : PlaintextExtraData} {t : ExtraDataType} {d w : DataElement}

section Contents

variable {K H : Type} (env : ExtraDataCiphers K H) (order : KeyOrder DataValue) (privateKey : K) (role : Role)

def ExtraData.Holds (e : ExtraData) (x : PlaintextExtraData) : Prop :=
  ∃ (handle : H) (d : DataElement), env.decompress (e.getHandle role) = some handle ∧ d.Raw ∧
    d.write <+: applyKeystream (env.keystream (env.deriveSharedKeyFromHandle privateKey handle)) e.cipher ∧
    x = { sharedKey := some (env.deriveSharedKeyFromHandle privateKey handle), data := some (d.merged order), flag := .priv }

def ExtraDataType.Holds : ExtraDataType → PlaintextExtraData → Prop
  | priv payload, x => payload.Holds env order privateKey role x
  | pub payload, x =>
    ∃ d : DataElement, d.Raw ∧ d.write <+: payload ∧ x = { sharedKey := none, data := some (d.merged order), flag := .pub }
  | proprietary payload, x => x = { sharedKey := none, data := some (.value (.blob payload)), flag := .proprietary }

/-- What the oldest format holds: it does not name its handle. -/
def HoldsAead (handle : H) (bytes : IVec) (x : PlaintextExtraData) : Prop :=
  ∃ (plaintext : IVec) (d : DataElement), env.decryptAead (env.deriveSharedKeyFromHandle privateKey handle) bytes = some plaintext ∧
    d.Raw ∧ d.write <+: plaintext ∧ x = { sharedKey := none, data := some (d.merged order), flag := .priv }

theorem fromBytes_ok_iff {α : Type} {read : Reader α} {write : α → IVec} {merge : α → α} {Raw : α → Prop}
    (h : Parses read write merge Raw) {x : α} :
    fromBytes read bytes = .ok x ↔ ∃ w, Raw w ∧ write w <+: bytes ∧ x = merge w := by
  unfold fromBytes
  constructor
  · intro hread
    split at hread
    · rename_i y rest hy
      cases hread
      obtain ⟨w, hw, hx, hbytes⟩ := h.parsed hy
      exact ⟨w, hw, ⟨rest, hbytes.symm⟩, hx⟩
    · cases hread
  · rintro ⟨w, hw, ⟨rest, rfl⟩, rfl⟩
    rw [h.reads w hw rest]

theorem decryptExtraData_ok_iff :
    decryptExtraData env order privateKey role e = .ok x ↔ e.Holds env order privateKey role x := by
  unfold decryptExtraData ExtraData.Holds
  cases hhandle : env.decompress (e.getHandle role) with
  | none => exact iff_of_false (fun h => nomatch h) fun ⟨_, _, h, _⟩ => nomatch h
  | some handle =>
    show (fromBytes _ _ >>= fun data => Except.ok _) = _ ↔ _
    rw [Exec.except_bind_ok_iff]
    constructor
    · rintro ⟨data, hdata, hx⟩
      obtain ⟨d, hd, hwrite, rfl⟩ := (fromBytes_ok_iff (DataElement.parses order)).mp hdata
      exact ⟨handle, d, rfl, hd, hwrite, (Except.ok.inj hx).symm⟩
    · rintro ⟨_, d, hsome, hd, hwrite, rfl⟩
      cases hsome
      exact ⟨_, (fromBytes_ok_iff (DataElement.parses order)).mpr ⟨d, hd, hwrite, rfl⟩, rfl⟩

theorem openTyped_ok_iff : openTyped env order privateKey role t = .ok x ↔ t.Holds env order privateKey role x := by
  cases t with
  | priv payload => exact decryptExtraData_ok_iff env order privateKey role
  | pub payload =>
    show (fromBytes _ _ >>= fun data => Except.ok _) = _ ↔ _
    rw [Exec.except_bind_ok_iff]
    constructor
    · rintro ⟨data, hdata, hx⟩
      obtain ⟨d, hd, hwrite, rfl⟩ := (fromBytes_ok_iff (DataElement.parses order)).mp hdata
      exact ⟨d, hd, hwrite, (Except.ok.inj hx).symm⟩
    · rintro ⟨d, hd, hwrite, rfl⟩
      exact ⟨_, (fromBytes_ok_iff (DataElement.parses order)).mpr ⟨d, hd, hwrite, rfl⟩, rfl⟩
  | proprietary payload => exact ⟨fun h => (Except.ok.inj h).symm, fun h => congrArg Except.ok (Eq.symm h)⟩

theorem decryptTyped_ok_iff :
    decryptTyped env order privateKey role bytes = .ok x ↔
      ∃ t : ExtraDataType, t.Sized ∧ t.write <+: bytes ∧ t.Holds env order privateKey role x := by
  unfold decryptTyped
  rw [Exec.except_bind_ok_iff]
  constructor
  · rintro ⟨t, ht, hx⟩
    obtain ⟨_, hsized, hwrite, rfl⟩ := (fromBytes_ok_iff ExtraDataType.codec.parses).mp ht
    exact ⟨t, hsized, hwrite, (openTyped_ok_iff env order privateKey role).mp hx⟩
  · rintro ⟨t, hsized, hwrite, hx⟩
    exact ⟨t, (fromBytes_ok_iff ExtraDataType.codec.parses).mpr ⟨t, hsized, hwrite, rfl⟩, (openTyped_ok_iff env order privateKey role).mpr hx⟩

theorem decryptV2_ok_iff :
    decryptV2 env order privateKey role bytes = .ok x ↔
      ∃ e : ExtraData, e.Sized ∧ e.write <+: bytes ∧ e.Holds env order privateKey role x := by
  unfold decryptV2
  rw [Exec.except_bind_ok_iff]
  constructor
  · rintro ⟨e, he, hx⟩
    obtain ⟨_, hsized, hwrite, rfl⟩ := (fromBytes_ok_iff ExtraData.codec.parses).mp he
    exact ⟨e, hsized, hwrite, (decryptExtraData_ok_iff env order privateKey role).mp hx⟩
  · rintro ⟨e, hsized, hwrite, hx⟩
    exact ⟨e, (fromBytes_ok_iff ExtraData.codec.parses).mpr ⟨e, hsized, hwrite, rfl⟩, (decryptExtraData_ok_iff env order privateKey role).mpr hx⟩

theorem decryptV1_ok_iff {handle : H} :
    decryptV1 env order privateKey handle bytes = .ok d ↔
      HoldsAead env order privateKey handle bytes { sharedKey := none, data := some d, flag := .priv } := by
  unfold decryptV1 HoldsAead
  cases hplain : env.decryptAead (env.deriveSharedKeyFromHandle privateKey handle) bytes with
  | none => exact iff_of_false (fun h => nomatch h) fun ⟨_, _, h, _⟩ => nomatch h
  | some plaintext =>
    show fromBytes _ _ = _ ↔ _
    rw [fromBytes_ok_iff (DataElement.parses order)]
    constructor
    · rintro ⟨w, hw, hwrite, rfl⟩
      exact ⟨plaintext, w, rfl, hw, hwrite, rfl⟩
    · rintro ⟨_, w, hsome, hw, hwrite, hx⟩
      cases hsome
      cases hx
      exact ⟨w, hw, hwrite, rfl⟩

end Contents

theorem writeByte_isPrefix (h : writeVec writeByte bytes <+: writeVec writeByte bytes') : bytes <+: bytes' := by
  unfold writeVec at h
  rw [flatMap_writeByte, flatMap_writeByte] at h
  obtain ⟨rest, h⟩ := h
  rw [List.append_assoc] at h
  exact ⟨rest, (List.append_inj h (by rw [length_writeU16, length_writeU16])).2⟩

/-- Another payload in front has the same handles. -/
theorem ExtraData.of_isPrefix (h : e'.write <+: e.write) :
    e'.senderHandle = e.senderHandle ∧ e'.receiverHandle = e.receiverHandle ∧ e'.cipher <+: e.cipher := by
  have hwrite (e : ExtraData) : e.write = writeHash e.senderHandle ++ (writeHash e.receiverHandle ++ writeVec writeByte e.cipher) := by
    rw [write, List.flatten_cons, List.flatten_cons, List.flatten_cons, List.flatten_nil, List.append_nil]
  obtain ⟨rest, h⟩ := h
  rw [hwrite, hwrite, List.append_assoc, List.append_assoc] at h
  obtain ⟨hsender, h⟩ := List.append_inj h (by rw [length_writeHash, length_writeHash])
  obtain ⟨hreceiver, h⟩ := List.append_inj h (by rw [length_writeHash, length_writeHash])
  exact ⟨writeHash_injective hsender, writeHash_injective hreceiver, writeByte_isPrefix ⟨rest, h⟩⟩

theorem ExtraDataType.tail_isPrefix {n n' : Nat} (h : writeU8 n ++ bytes <+: writeU8 n' ++ bytes') :
    n % 256 = n' % 256 ∧ bytes <+: bytes' := by
  obtain ⟨rest, h⟩ := h
  rw [List.append_assoc] at h
  have htag := congrArg Codec.tag h
  rw [tag_writeU8, tag_writeU8] at htag
  exact ⟨Option.some.inj htag, rest, (List.append_inj h (by rw [length_writeU8, length_writeU8])).2⟩

theorem within_of_isPrefix (order : KeyOrder DataValue) (h : d.Typed) (hbytes : bytes <+: d.write)
    (hw : w.Raw) (hwrite : w.write <+: bytes) (hsame : w.merged order = d.merged order) :
    bytes = d.write ∧ d.Within DEFAULT_MAX_ITEMS := by
  have hdistinct : d.Distinct := h.mono (fun _ _ => trivial) (fun _ _ => trivial) (fun _ hkeys => hkeys)
  have hlength : d.write.length ≤ w.write.length := by
    rw [← hdistinct.length_write_merged order, ← hsame]
    exact DataElement.length_write_merged order w
  have hfirst := hwrite.length_le
  have hsecond := hbytes.length_le
  have hall : bytes = d.write := hbytes.eq_of_length (by omega)
  have hboth : w.write = d.write := (hwrite.trans hbytes).eq_of_length (by omega)
  refine ⟨hall, (DataElement.kept_iff order h).mp ⟨?_, DataElement.size_eq d⟩⟩
  rw [← hboth, ← hsame]
  exact (DataElement.parses order).reads w hw

section Formats

/-- The two ways in which extra data was written, without a tag and with one. -/
inductive ExtraDataFormat where
  | untagged (payload : ExtraData)
  | typed (payload : ExtraDataType)

variable {K H : Type} (env : ExtraDataCiphers K H) (order : KeyOrder DataValue) (privateKey : K) (role : Role)

/-- The payload was made of the element, for the holder of the private key. -/
def ExtraData.PutIn (e : ExtraData) (d : DataElement) (x : PlaintextExtraData) : Prop :=
  ∃ handle, env.decompress (e.getHandle role) = some handle ∧
    e.cipher = applyKeystream (env.keystream (env.deriveSharedKeyFromHandle privateKey handle)) d.write ∧
    x = { sharedKey := some (env.deriveSharedKeyFromHandle privateKey handle), data := some (d.merged order), flag := .priv }

namespace ExtraDataFormat

def write : ExtraDataFormat → IVec
  | untagged payload => payload.write
  | typed payload => payload.write

/-- The payload was made of the element, and this is what has to come back. -/
def PutIn : ExtraDataFormat → DataElement → PlaintextExtraData → Prop
  | untagged payload, d, x => payload.PutIn env order privateKey role d x
  | typed (.priv payload), d, x => payload.PutIn env order privateKey role d x
  | typed (.pub payload), d, x => payload = d.write ∧ x = { sharedKey := none, data := some (d.merged order), flag := .pub }
  | typed (.proprietary payload), d, x =>
    d = .value (.blob payload) ∧ x = { sharedKey := none, data := some d, flag := .proprietary }

/-- The bytes behind the length. -/
def payload : ExtraDataFormat → IVec
  | untagged payload => payload.cipher
  | typed (.priv payload) => payload.cipher
  | typed (.pub payload) => payload
  | typed (.proprietary payload) => payload

/-- What was put in comes back under the flag of its format, and only the decoder of its format takes the bytes. -/
structure Disambiguated (handle : Option H) (p : ExtraDataFormat) : Prop where
  returned : ∀ d x, d.Typed → p.PutIn env order privateKey role d x → decrypt env order privateKey role handle p.write = .ok x
  untyped : ∀ e, p = untagged e → ∀ x, decryptTyped env order privateKey role p.write ≠ .ok x
  direct : ∀ t, p = typed t → ∀ x, decrypt env order privateKey role handle p.write = .ok x →
    decryptTyped env order privateKey role p.write = .ok x

/-- Some typed payload that holds something stands in front of the bytes. -/
def LooksTyped (bytes : IVec) : Prop :=
  ∃ (t : ExtraDataType) (x : PlaintextExtraData), t.Sized ∧ t.write <+: bytes ∧ t.Holds env order privateKey role x

def LooksUntagged (bytes : IVec) : Prop :=
  ∃ (e : ExtraData) (x : PlaintextExtraData), e.Sized ∧ e.write <+: bytes ∧ e.Holds env order privateKey role x

/-- The bytes do not look like another format. -/
def Unmistakable (handle : Option H) : ExtraDataFormat → Prop
  | untagged payload => ¬ LooksTyped env order privateKey role payload.write
  | typed payload => LooksTyped env order privateKey role payload.write ∨
      ¬ LooksUntagged env order privateKey role payload.write ∧
        ∀ h ∈ handle, ∀ x, ¬ HoldsAead env order privateKey h payload.write x

variable {env order privateKey role}

theorem looksTyped_iff :
    LooksTyped env order privateKey role bytes ↔ ∃ x, decryptTyped env order privateKey role bytes = .ok x := by
  constructor
  · rintro ⟨t, x, hsized, hwrite, hx⟩
    exact ⟨x, (decryptTyped_ok_iff env order privateKey role).mpr ⟨t, hsized, hwrite, hx⟩⟩
  · rintro ⟨x, hx⟩
    obtain ⟨t, hsized, hwrite, hx⟩ := (decryptTyped_ok_iff env order privateKey role).mp hx
    exact ⟨t, x, hsized, hwrite, hx⟩

theorem looksUntagged_iff :
    LooksUntagged env order privateKey role bytes ↔ ∃ x, decryptV2 env order privateKey role bytes = .ok x := by
  constructor
  · rintro ⟨e, x, hsized, hwrite, hx⟩
    exact ⟨x, (decryptV2_ok_iff env order privateKey role).mpr ⟨e, hsized, hwrite, hx⟩⟩
  · rintro ⟨x, hx⟩
    obtain ⟨e, hsized, hwrite, hx⟩ := (decryptV2_ok_iff env order privateKey role).mp hx
    exact ⟨e, x, hsized, hwrite, hx⟩

variable {handle : Option H}

theorem decrypt_of_typed
    (h : decryptTyped env order privateKey role bytes = .ok x) : decrypt env order privateKey role handle bytes = .ok x := by
  unfold decrypt
  rw [h]

/-- Without a tag the older formats are tried, the one without handles last. -/
theorem decrypt_of_untyped (h : ∀ y, decryptTyped env order privateKey role bytes ≠ .ok y) :
    decrypt env order privateKey role handle bytes = .ok x ↔
      decryptV2 env order privateKey role bytes = .ok x ∨
        (∀ y, decryptV2 env order privateKey role bytes ≠ .ok y) ∧ ∃ k ∈ handle, HoldsAead env order privateKey k bytes x := by
  unfold decrypt
  cases htyped : decryptTyped env order privateKey role bytes with
  | ok y => exact absurd htyped (h y)
  | error _ =>
    dsimp only
    cases hv2 : decryptV2 env order privateKey role bytes with
    | ok y =>
      have hleft : (Except.ok y : Except ExtraDataError PlaintextExtraData) = .ok x ↔
          (Except.ok y : Except ExtraDataError PlaintextExtraData) = .ok x ∨ (∀ z, (Except.ok y : Except ExtraDataError PlaintextExtraData) ≠ .ok z) ∧
            ∃ k ∈ handle, HoldsAead env order privateKey k bytes x :=
        ⟨Or.inl, fun h => h.resolve_right fun hnone => hnone.1 y rfl⟩
      cases handle <;> exact hleft
    | error e =>
      cases handle with
      | none => exact iff_of_false (fun h => nomatch h) fun h => h.elim (fun h => nomatch h) fun ⟨_, k, hk, _⟩ => nomatch hk
      | some k =>
        show (decryptV1 env order privateKey k bytes >>= fun data => Except.ok _) = _ ↔ _
        rw [Exec.except_bind_ok_iff]
        constructor
        · rintro ⟨d, hd, hx⟩
          cases hx
          exact Or.inr ⟨fun _ h => (nomatch h), k, rfl, (decryptV1_ok_iff env order privateKey).mp hd⟩
        · rintro (h | ⟨-, _, hk, hx⟩)
          · cases h
          · cases hk
            obtain ⟨plaintext, d, hplain, hd, hwrite, rfl⟩ := hx
            exact ⟨_, (decryptV1_ok_iff env order privateKey).mpr ⟨plaintext, d, hplain, hd, hwrite, rfl⟩, rfl⟩

/-- An element that was put in comes out of the decoder of its format when both lengths are small enough. -/
theorem putIn_iff (htyped : d.Typed) (h : e.PutIn env order privateKey role d x) :
    (∃ e' : ExtraData, e'.Sized ∧ e'.write <+: e.write ∧ e'.Holds env order privateKey role x) ↔
      e.cipher.length ≤ DEFAULT_MAX_ITEMS ∧ d.Within DEFAULT_MAX_ITEMS := by
  obtain ⟨handle, hhandle, hcipher, rfl⟩ := h
  have hplain : applyKeystream (env.keystream (env.deriveSharedKeyFromHandle privateKey handle)) e.cipher = d.write := by
    rw [hcipher, applyKeystream_self]
  constructor
  · rintro ⟨e', hsized, hwrite, handle', w, hhandle', hw, hread, hsame⟩
    obtain ⟨hsender, hreceiver, hpart⟩ := ExtraData.of_isPrefix hwrite
    have hrole : e'.getHandle role = e.getHandle role := by cases role <;> assumption
    rw [hrole, hhandle] at hhandle'
    cases hhandle'
    have hmerged := Option.some.inj (congrArg PlaintextExtraData.data hsame)
    have hprefix := applyKeystream_isPrefix (env.keystream (env.deriveSharedKeyFromHandle privateKey handle)) hpart
    rw [hplain] at hprefix
    obtain ⟨hall, hwithin⟩ := within_of_isPrefix order htyped hprefix hw hread hmerged.symm
    have hlength := congrArg List.length (hall.trans hplain.symm)
    rw [length_applyKeystream, length_applyKeystream] at hlength
    exact ⟨hlength ▸ hsized, hwithin⟩
  · rintro ⟨hsized, hwithin⟩
    exact ⟨e, hsized, List.prefix_rfl, handle, d, hhandle, hwithin.raw, hplain ▸ List.prefix_rfl, rfl⟩

theorem decryptTyped_putIn_iff (htyped : d.Typed) (h : (typed t).PutIn env order privateKey role d x) :
    decryptTyped env order privateKey role t.write = .ok x ↔
      (typed t).payload.length ≤ DEFAULT_MAX_ITEMS ∧ d.Within DEFAULT_MAX_ITEMS := by
  rw [decryptTyped_ok_iff]
  cases t with
  | priv e =>
    refine Iff.trans ?_ (putIn_iff htyped h)
    constructor
    · rintro ⟨t', hsized, hwrite, hx⟩
      cases t' with
      | priv e' => exact ⟨e', hsized, (ExtraDataType.tail_isPrefix hwrite).2, hx⟩
      | pub payload' => exact absurd (ExtraDataType.tail_isPrefix hwrite).1 (by decide)
      | proprietary payload' => exact absurd (ExtraDataType.tail_isPrefix hwrite).1 (by decide)
    · rintro ⟨e', hsized, hwrite, hx⟩
      exact ⟨.priv e', hsized, (List.prefix_append_right_inj _).mpr hwrite, hx⟩
  | pub payload =>
    obtain ⟨rfl, rfl⟩ := h
    constructor
    · rintro ⟨t', hsized, hwrite, hx⟩
      cases t' with
      | priv e' => exact absurd (ExtraDataType.tail_isPrefix hwrite).1 (by decide)
      | pub payload' =>
        obtain ⟨w, hw, hread, hsame⟩ := hx
        have hmerged := Option.some.inj (congrArg PlaintextExtraData.data hsame)
        have hprefix := writeByte_isPrefix (ExtraDataType.tail_isPrefix hwrite).2
        obtain ⟨hall, hwithin⟩ := within_of_isPrefix order htyped hprefix hw hread hmerged.symm
        exact ⟨hall ▸ hsized, hwithin⟩
      | proprietary payload' => exact absurd (ExtraDataType.tail_isPrefix hwrite).1 (by decide)
    · rintro ⟨hsized, hwithin⟩
      exact ⟨.pub d.write, hsized, List.prefix_rfl, d, hwithin.raw, List.prefix_rfl, rfl⟩
  | proprietary payload =>
    obtain ⟨rfl, rfl⟩ := h
    constructor
    · rintro ⟨t', hsized, hwrite, hx⟩
      cases t' with
      | priv e' => exact absurd (ExtraDataType.tail_isPrefix hwrite).1 (by decide)
      | pub payload' => exact absurd (ExtraDataType.tail_isPrefix hwrite).1 (by decide)
      | proprietary payload' =>
        cases hx
        exact ⟨hsized, 1, trivial, hsized⟩
    · rintro ⟨hsized, -⟩
      exact ⟨.proprietary payload, hsized, List.prefix_rfl, rfl⟩

def Fits (p : ExtraDataFormat) (d : DataElement) : Prop := p.payload.length ≤ DEFAULT_MAX_ITEMS ∧ d.Within DEFAULT_MAX_ITEMS

theorem untagged_disambiguated_iff :
    Disambiguated env order privateKey role handle (untagged e) ↔
      Unmistakable env order privateKey role handle (untagged e) ∧
        ∀ d x, d.Typed → (untagged e).PutIn env order privateKey role d x → (untagged e).Fits d := by
  have hunmistakable : Unmistakable env order privateKey role handle (untagged e) ↔
      ∀ x, decryptTyped env order privateKey role e.write ≠ .ok x := by
    show ¬ LooksTyped env order privateKey role e.write ↔ _
    rw [looksTyped_iff, not_exists]
  rw [hunmistakable]
  constructor
  · intro h
    have huntyped := h.untyped e rfl
    refine ⟨huntyped, fun d x htyped hput => ?_⟩
    rcases (decrypt_of_untyped huntyped).mp (h.returned d x htyped hput) with hv2 | ⟨-, k, -, plaintext, w, -, -, -, hx⟩
    · exact (putIn_iff htyped hput).mp ((decryptV2_ok_iff env order privateKey role).mp hv2)
    · obtain ⟨handle', -, -, rfl⟩ := hput
      cases hx
  · rintro ⟨huntyped, hfits⟩
    refine ⟨fun d x htyped hput => ?_, fun e' he' => ?_, fun t ht => nomatch ht⟩
    · have hv2 := (decryptV2_ok_iff env order privateKey role).mpr ((putIn_iff htyped hput).mpr (hfits d x htyped hput))
      exact (decrypt_of_untyped huntyped).mpr (Or.inl hv2)
    · cases he'
      exact huntyped

theorem typed_disambiguated_iff :
    Disambiguated env order privateKey role handle (typed t) ↔
      Unmistakable env order privateKey role handle (typed t) ∧
        ∀ d x, d.Typed → (typed t).PutIn env order privateKey role d x → (typed t).Fits d := by
  constructor
  · intro h
    refine ⟨?_, fun d x htyped hput => ?_⟩
    · by_cases hlooks : LooksTyped env order privateKey role t.write
      · exact Or.inl hlooks
      · have huntyped : ∀ x, decryptTyped env order privateKey role t.write ≠ .ok x := by
          rwa [looksTyped_iff, not_exists] at hlooks
        have hnone (x : PlaintextExtraData) : decrypt env order privateKey role handle t.write ≠ .ok x :=
          fun hx => huntyped x (h.direct t rfl x hx)
        have hv2 (x : PlaintextExtraData) : decryptV2 env order privateKey role t.write ≠ .ok x :=
          fun hx => hnone x ((decrypt_of_untyped huntyped).mpr (Or.inl hx))
        refine Or.inr ⟨fun huntagged => ?_, fun k hk x hx => ?_⟩
        · obtain ⟨x, hx⟩ := looksUntagged_iff.mp huntagged
          exact hv2 x hx
        · exact hnone x ((decrypt_of_untyped huntyped).mpr (Or.inr ⟨hv2, k, hk, hx⟩))
    · exact (decryptTyped_putIn_iff htyped hput).mp (h.direct t rfl x (h.returned d x htyped hput))
  · rintro ⟨hunmistakable, hfits⟩
    refine ⟨fun d x htyped hput => ?_, fun e he => (nomatch he), fun t' ht' x hx => ?_⟩
    · exact decrypt_of_typed ((decryptTyped_putIn_iff htyped hput).mpr (hfits d x htyped hput))
    · cases ht'
      rcases hunmistakable with hlooks | ⟨huntagged, haead⟩
      · obtain ⟨y, hy⟩ := looksTyped_iff.mp hlooks
        rw [show (typed t).write = t.write from rfl, decrypt_of_typed hy] at hx
        exact hy.trans hx
      · by_contra hother
        have huntyped (y : PlaintextExtraData) : decryptTyped env order privateKey role t.write ≠ .ok y := by
          intro hy
          rw [show (typed t).write = t.write from rfl, decrypt_of_typed hy] at hx
          exact hother (hy.trans hx)
        rcases (decrypt_of_untyped huntyped).mp hx with hv2 | ⟨-, k, hk, hx⟩
        · exact huntagged (looksUntagged_iff.mpr ⟨x, hv2⟩)
        · exact haead k hk x hx

theorem looksTyped_of_handle {n : Nat} (rest : IVec) (h : writeHash e.senderHandle = writeU8 2 ++ (writeU16 n ++ rest))
    (hlimit : n ≤ DEFAULT_MAX_ITEMS) (hfits : n ≤ 63 + e.cipher.length) : LooksTyped env order privateKey role e.write := by
  have hrest : rest.length = 29 := by
    have hlength := congrArg List.length h
    rw [length_writeHash, List.length_append, List.length_append, length_writeU8, length_writeU16] at hlength
    omega
  have hwrite : e.write = writeU8 2 ++ (writeU16 n ++ (rest ++ (writeHash e.receiverHandle ++ writeVec writeByte e.cipher))) := by
    rw [ExtraData.write, List.flatten_cons, List.flatten_cons, List.flatten_cons, List.flatten_nil, List.append_nil, h,
      List.append_assoc, List.append_assoc]
  have hlength : (rest ++ (writeHash e.receiverHandle ++ writeVec writeByte e.cipher)).length = 63 + e.cipher.length := by
    rw [List.length_append, List.length_append, length_writeHash, hrest, writeVec, flatMap_writeByte, List.length_append, length_writeU16]
    omega
  generalize rest ++ (writeHash e.receiverHandle ++ writeVec writeByte e.cipher) = bytes at hwrite hlength
  have htake : (bytes.take n).length = n := List.length_take_of_le (by omega)
  refine ⟨.proprietary (bytes.take n), _, show (bytes.take n).length ≤ DEFAULT_MAX_ITEMS by omega, ?_, rfl⟩
  rw [hwrite, ExtraDataType.write, writeVec, flatMap_writeByte, htake]
  refine (List.prefix_append_right_inj _).mpr ((List.prefix_append_right_inj _).mpr (List.take_prefix n bytes))

/-- The format of extra data is found out when the bytes do not look like another format and the data fits the limits of
the readers. One in some thousands of random handles looks like a proprietary payload. -/
theorem formats_told_apart (handle : Option H) (p : ExtraDataFormat) :
    (Disambiguated env order privateKey role handle p ↔
      Unmistakable env order privateKey role handle p ∧
        ∀ d x, d.Typed → p.PutIn env order privateKey role d x → p.Fits d) ∧
      ∀ e n rest, p = untagged e → writeHash e.senderHandle = writeU8 2 ++ (writeU16 n ++ rest) → n ≤ DEFAULT_MAX_ITEMS →
        n ≤ 63 + e.cipher.length → ¬ Disambiguated env order privateKey role handle p := by
  refine ⟨?_, ?_⟩
  · cases p with
    | untagged e => exact untagged_disambiguated_iff
    | typed t => exact typed_disambiguated_iff
  · rintro e n rest rfl hhandle hlimit hfits h
    exact (untagged_disambiguated_iff.mp h).1 (looksTyped_of_handle _ hhandle hlimit hfits)

def plainCiphers : ExtraDataCiphers Unit Hash where
  decompress := some
  deriveSharedKeyFromHandle _ handle := handle
  keystream _ _ := 0
  decryptAead _ _ := none

/-- A payload whose sender handle begins with the bytes 2, 0 and 0. -/
def evenHandle : ExtraData where
  senderHandle := BitVec.ofNat 256 (2 ^ 249)
  receiverHandle := 0
  cipher := DataElement.write (.value (.u8 7))

theorem evenHandle_looksTyped : LooksTyped plainCiphers anyOrder () .receiver evenHandle.write :=
  looksTyped_of_handle (n := 0) (List.replicate 29 0) (by decide +kernel) (Nat.zero_le _) (Nat.zero_le _)

/-- The receiver finds an empty proprietary payload. -/
theorem evenHandle_mistaken :
    (untagged evenHandle).PutIn plainCiphers anyOrder () .receiver (.value (.u8 7))
        { sharedKey := some 0, data := some (.value (.u8 7)), flag := .priv } ∧
      decrypt plainCiphers anyOrder () .receiver none (untagged evenHandle).write =
        .ok { sharedKey := none, data := some (.value (.blob [])), flag := .proprietary } ∧
      ¬ ∀ p, Disambiguated plainCiphers anyOrder () .receiver none p := by
  refine ⟨⟨0, rfl, by decide +kernel, rfl⟩, ?_, fun h => ?_⟩
  · refine decrypt_of_typed ((decryptTyped_ok_iff _ _ _ _).mpr ⟨.proprietary [], Nat.zero_le _, ?_, rfl⟩)
    exact ⟨List.replicate 29 0 ++ (writeHash 0 ++ writeVec writeByte evenHandle.cipher), by decide +kernel⟩
  · exact (untagged_disambiguated_iff.mp (h (untagged evenHandle))).1 evenHandle_looksTyped

theorem evenHandle_not_told_apart : ¬ Disambiguated plainCiphers anyOrder () .receiver none (untagged evenHandle) :=
  (formats_told_apart none (untagged evenHandle)).2 evenHandle 0 (List.replicate 29 0) rfl (by decide +kernel) (Nat.zero_le _)
    (Nat.zero_le _)

end ExtraDataFormat

end Formats

end Xelis.Wallet
