import Xelis.Common.Error

namespace Xelis.P2p

abbrev EncryptionKey := BitVec 256

/-- A packet starts with its id. Only the key exchange is looked into here. -/
inductive Packet where
  | keyExchange (key : EncryptionKey)
  | other (id : UInt8) (body : IVec)
  deriving DecidableEq, Repr

def Packet.size : Packet → Nat
  | .keyExchange _ => 1 + 32
  | .other _ body => 1 + body.length

/-- What goes over the stream: a plain packet, or a ciphertext kept as what it was made of. -/
inductive Frame where
  | plain (packet : Packet)
  | sealed (key : EncryptionKey) (nonce : Nat) (packet : Packet)
  deriving DecidableEq, Repr

structure CipherState where
  key : EncryptionKey
  nonce : Nat
  deriving DecidableEq, Repr

inductive CipherSide where
  | our
  | peer
  | both
  deriving DecidableEq, Repr

namespace CipherSide

def isOur : CipherSide → Bool
  | .our | .both => true
  | .peer => false

def isPeer : CipherSide → Bool
  | .peer | .both => true
  | .our => false

end CipherSide

inductive EncryptionError where
  | writeNotReady
  | readNotReady
  | decryptError
  | invalidPacket
  deriving DecidableEq, Repr

structure Encryption where
  ourCipher : Option CipherState := none
  peerCipher : Option CipherState := none
  ready : Bool := false
  deriving DecidableEq, Repr

namespace Encryption

def encryptPacket (e : Encryption) (packet : Packet) : Except EncryptionError (Frame × Encryption) :=
  match e.ourCipher with
  | none => .error .writeNotReady
  | some c => .ok (.sealed c.key c.nonce packet, { e with ourCipher := some { c with nonce := (c.nonce + 1) % 2 ^ 64 } })

/-- A ciphertext opens under the key and the nonce it was made with. -/
def decryptPacket (e : Encryption) (frame : Frame) : Except EncryptionError (Packet × Encryption) :=
  match e.peerCipher with
  | none => .error .readNotReady
  | some c =>
    match frame with
    | .plain _ => .error .decryptError
    | .sealed key nonce packet =>
      if key = c.key ∧ nonce = c.nonce then
        .ok (packet, { e with peerCipher := some { c with nonce := (c.nonce + 1) % 2 ^ 64 } })
      else .error .decryptError

/-- A new key starts at nonce zero. -/
def rotateKey (e : Encryption) (newKey : EncryptionKey) (side : CipherSide) : Encryption :=
  let e := if side.isOur then { e with ourCipher := some ⟨newKey, 0⟩ } else e
  if side.isPeer then { e with peerCipher := some ⟨newKey, 0⟩ } else e

end Encryption

def ROTATE_EVERY_N_BYTES : Nat := 1024 * 1024 * 1024

structure Connection where
  encryption : Encryption := {}
  bytesEncrypted : Nat := 0
  closed : Bool := false
  deriving DecidableEq, Repr

namespace Connection

def generateRotateKeyPacket (c : Connection) (newKey : EncryptionKey) : Except EncryptionError (Frame × Connection) := do
  let packet := Packet.keyExchange newKey
  let (frame, encryption) ← if c.encryption.ourCipher.isSome then c.encryption.encryptPacket packet
    else .ok (.plain packet, c.encryption)
  return (frame, { c with encryption := encryption.rotateKey newKey .our, bytesEncrypted := 0 })

def rotatePeerKey (c : Connection) (key : EncryptionKey) : Connection :=
  { c with encryption := c.encryption.rotateKey key .peer }

/-- The frames made for a packet. At most two are written; where time runs out after fewer writes the connection
is closed, and a first frame that was not written is not followed by another one. -/
def sendBytes (c : Connection) (packet : Packet) (newKey : EncryptionKey) (written : Nat) :
    Except EncryptionError (List Frame × Connection) :=
  let closed := decide (written < 2)
  if c.encryption.ready then do
    let (frame, encryption) ← c.encryption.encryptPacket packet
    let c := { c with encryption }
    if written = 0 then return ([frame], { c with closed })
    let sum := c.bytesEncrypted + packet.size
    let c := { c with bytesEncrypted := sum }
    if sum ≥ ROTATE_EVERY_N_BYTES then
      let (rotation, c) ← c.generateRotateKeyPacket newKey
      return ([frame, rotation], { c with closed })
    else return ([frame], { c with closed })
  else .ok ([.plain packet], { c with closed })

/-- Frames are decrypted as soon as there is a key of the peer. -/
def readPacket (c : Connection) (frame : Frame) : Except EncryptionError (Packet × Connection) :=
  if c.encryption.peerCipher.isSome then do
    let (packet, encryption) ← c.encryption.decryptPacket frame
    return (packet, { c with encryption })
  else
    match frame with
    | .plain packet => .ok (packet, c)
    | .sealed _ _ _ => .error .invalidPacket

end Connection

end Xelis.P2p
