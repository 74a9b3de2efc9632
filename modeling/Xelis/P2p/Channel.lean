import Mathlib.Logic.Relation
import Xelis.P2p.Encryption

/-! Two peers over a stream: the key exchange, then packets in both directions with their key rotations. -/

namespace Xelis.P2p

inductive Side where
  | client
  | server
  deriving DecidableEq, Repr

def Side.other : Side → Side
  | .client => .server
  | .server => .client

/-- How far `exchangeKeys` has come. -/
inductive Phase where
  | start
  | dhSent
  | keySent
  | established
  deriving DecidableEq, Repr

structure Party where
  connection : Connection := {}
  phase : Phase := .start
  deriving DecidableEq, Repr

/-- The Diffie-Hellman keys of the two peers, who derive the same secret. -/
structure Exchange where
  dhKey : Side → EncryptionKey
  sharedSecret : Side → EncryptionKey → EncryptionKey
  agree : sharedSecret .client (dhKey .server) = sharedSecret .server (dhKey .client)

def Exchange.secret (x : Exchange) : EncryptionKey := x.sharedSecret .client (x.dhKey .server)

theorem Exchange.sharedSecret_other (x : Exchange) (side : Side) : x.sharedSecret side (x.dhKey side.other) = x.secret := by
  cases side with
  | client => rfl
  | server => exact x.agree.symm

namespace Party

/-- Our Diffie-Hellman key goes out in plain. -/
def sendDhKey (p : Party) (dhKey : EncryptionKey) : Except EncryptionError (List Frame × Party) := do
  let (frames, connection) ← p.connection.sendBytes (.keyExchange dhKey) 0#256 2
  return (frames, { connection, phase := .dhSent })

/-- Both ciphers start from the secret, our new key is encrypted with it and sent, and the encryption is marked ready. -/
def receiveDhKey (p : Party) (sharedSecret : EncryptionKey → EncryptionKey) (newKey : EncryptionKey) (frame : Frame) :
    Except EncryptionError (List Frame × Party) := do
  let (packet, c) ← p.connection.readPacket frame
  match packet with
  | .keyExchange peerDhKey =>
    let c := { c with encryption := c.encryption.rotateKey (sharedSecret peerDhKey) .both }
    let (rotation, c) ← c.generateRotateKeyPacket newKey
    -- not ready yet: the packet is not encrypted a second time
    return ([rotation], { connection := { c with encryption := { c.encryption with ready := true } }, phase := .keySent })
  | .other _ _ => throw .invalidPacket

def receiveKey (p : Party) (frame : Frame) : Except EncryptionError Party := do
  let (packet, c) ← p.connection.readPacket frame
  match packet with
  | .keyExchange peerKey => return { connection := c.rotatePeerKey peerKey, phase := .established }
  | .other _ _ => throw .invalidPacket

def send (p : Party) (packet : Packet) (newKey : EncryptionKey) (written : Nat) : Except EncryptionError (List Frame × Party) := do
  let (frames, connection) ← p.connection.sendBytes packet newKey written
  return (frames, { p with connection })

/-- Packets are handled one after the other, a key exchange by rotating the key of the peer. -/
def receive (p : Party) (frame : Frame) : Except EncryptionError (Packet × Party) := do
  let (packet, c) ← p.connection.readPacket frame
  match packet with
  | .keyExchange key => return (packet, { p with connection := c.rotatePeerKey key })
  | .other _ _ => return (packet, { p with connection := c })

end Party

/-- One use of a key and a nonce. -/
structure Encrypted where
  key : EncryptionKey
  nonce : Nat
  packet : Packet
  deriving DecidableEq, Repr

def Frame.encrypted : Frame → Option Encrypted
  | .plain _ => none
  | .sealed key nonce packet => some { key, nonce, packet }

def Frame.newKey : Frame → Option EncryptionKey
  | .sealed _ _ (.keyExchange key) => some key
  | _ => none

/-- Both peers, the frames each one has written that are not read yet, and what was done so far:
the keys generated and every encryption. -/
structure Channel where
  party : Side → Party := fun _ => {}
  wire : Side → List Frame := fun _ => []
  generated : List EncryptionKey := []
  log : List Encrypted := []

namespace Channel

/-- One side moves on, after reading the wire of the other one down to `rest`, and writes frames of those it made. -/
def move (s : Channel) (side : Side) (p : Party) (rest made written : List Frame) : Channel where
  party := Function.update s.party side p
  wire := Function.update (Function.update s.wire side.other rest) side (s.wire side ++ written)
  generated := s.generated ++ made.filterMap Frame.newKey
  log := s.log ++ made.filterMap Frame.encrypted

/-- A generated key is different from all others, and from the secret. -/
def Fresh (x : Exchange) (s : Channel) (key : EncryptionKey) : Prop := key ∉ s.generated ∧ key ≠ x.secret

def Incoming (s : Channel) (side : Side) (frame : Frame) (rest : List Frame) : Prop := s.wire side.other = frame :: rest

inductive Step (x : Exchange) (s : Channel) : Channel → Prop
  | sendDhKey (side : Side) {frames : List Frame} {p : Party} (hphase : (s.party side).phase = .start)
      (hsend : (s.party side).sendDhKey (x.dhKey side) = .ok (frames, p)) :
      Step x s (s.move side p (s.wire side.other) frames frames)
  | receiveDhKey (side : Side) {frame : Frame} {rest frames : List Frame} {p : Party} (newKey : EncryptionKey)
      (hphase : (s.party side).phase = .dhSent) (hfresh : s.Fresh x newKey) (hwire : s.Incoming side frame rest)
      (hreceive : (s.party side).receiveDhKey (x.sharedSecret side) newKey frame = .ok (frames, p)) :
      Step x s (s.move side p rest frames frames)
  | receiveKey (side : Side) {frame : Frame} {rest : List Frame} {p : Party} (hphase : (s.party side).phase = .keySent)
      (hwire : s.Incoming side frame rest) (hreceive : (s.party side).receiveKey frame = .ok p) :
      Step x s (s.move side p rest [] [])
  | send (side : Side) (id : UInt8) (body : IVec) (newKey : EncryptionKey) (written : Nat) {frames : List Frame} {p : Party}
      (hphase : (s.party side).phase = .established) (hopen : (s.party side).connection.closed = false)
      (hsend : (s.party side).send (.other id body) newKey written = .ok (frames, p))
      (hfresh : ∀ key ∈ frames.filterMap Frame.newKey, s.Fresh x key) :
      Step x s (s.move side p (s.wire side.other) frames (frames.take written))
  | receive (side : Side) {frame : Frame} {rest : List Frame} {packet : Packet} {p : Party}
      (hphase : (s.party side).phase = .established) (hwire : s.Incoming side frame rest)
      (hreceive : (s.party side).receive frame = .ok (packet, p)) :
      Step x s (s.move side p rest [] [])

/-- Any interleaving of the steps of the two peers. -/
def Reachable (x : Exchange) (s : Channel) : Prop := Relation.ReflTransGen (Step x) {} s

/-- A side has encrypted its own key with the secret. -/
def SentKey (s : Channel) (side : Side) : Prop := (s.party side).phase = .keySent ∨ (s.party side).phase = .established

/-- One key and one nonce were used for two different packets. -/
def Reused (s : Channel) : Prop :=
  ∃ e₁ ∈ s.log, ∃ e₂ ∈ s.log, e₁.key = e₂.key ∧ e₁.nonce = e₂.nonce ∧ e₁.packet ≠ e₂.packet

/-- The next frame is read with what it was encrypted with, and is a key where one is expected. -/
structure Understands (p : Party) (frame : Frame) : Prop where
  opens : ∀ key nonce packet, frame = .sealed key nonce packet →
    p.connection.encryption.peerCipher = some ⟨key, nonce⟩ ∧
      ∃ c, p.connection.readPacket frame = .ok (packet, c)
  plain : ∀ packet, frame = .plain packet → p.connection.encryption.peerCipher = none
  expected : p.phase ≠ .established → ∃ key c, p.connection.readPacket frame = .ok (.keyExchange key, c)

/-- No peer that reads will meet a frame that it does not understand. -/
def InSync (s : Channel) : Prop :=
  ∀ side frame rest, s.Incoming side frame rest → (s.party side).phase ≠ .start → Understands (s.party side) frame

section Moves

variable {s : Channel} {side : Side} {p : Party} {rest made written : List Frame}

@[simp] theorem move_party_self : (s.move side p rest made written).party side = p := by simp [move]

@[simp] theorem move_party_other : (s.move side p rest made written).party side.other = s.party side.other := by
  cases side <;> rfl

@[simp] theorem move_wire_self : (s.move side p rest made written).wire side = s.wire side ++ written := by simp [move]

@[simp] theorem move_wire_other : (s.move side p rest made written).wire side.other = rest := by
  cases side <;> rfl

end Moves

end Channel

theorem Side.other_other (side : Side) : side.other.other = side := by cases side <;> rfl

theorem Side.eq_or_other (side side' : Side) : side' = side ∨ side' = side.other := by
  cases side <;> cases side' <;> decide

def CipherState.next (c : CipherState) : CipherState := ⟨c.key, (c.nonce + 1) % 2 ^ 64⟩

/-- Reading the frames one after the other takes the cipher of the reader from the first state to the last. -/
inductive Follows (dhKey secret : EncryptionKey) : Option CipherState → List Frame → Option CipherState → Prop
  | nil (c : Option CipherState) : Follows dhKey secret c [] c
  | dhKey {rest : List Frame} {c : Option CipherState} (h : Follows dhKey secret (some ⟨secret, 0⟩) rest c) :
      Follows dhKey secret none (.plain (.keyExchange dhKey) :: rest) c
  | newKey (d : CipherState) (newKey : EncryptionKey) (hne : newKey ≠ secret) {rest : List Frame}
      {c : Option CipherState} (h : Follows dhKey secret (some ⟨newKey, 0⟩) rest c) :
      Follows dhKey secret (some d) (.sealed d.key d.nonce (.keyExchange newKey) :: rest) c
  | other (d : CipherState) (id : UInt8) (body : IVec) (hne : d.key ≠ secret) {rest : List Frame}
      {c : Option CipherState} (h : Follows dhKey secret (some d.next) rest c) :
      Follows dhKey secret (some d) (.sealed d.key d.nonce (.other id body) :: rest) c

section Follows

variable {dhKey secret : EncryptionKey} {c d e : Option CipherState} {frame : Frame} {frames rest : List Frame}

theorem Follows.append (h : Follows dhKey secret c frames d) (h' : Follows dhKey secret d rest e) :
    Follows dhKey secret c (frames ++ rest) e := by
  induction h with
  | nil c => exact h'
  | dhKey _ ih => exact .dhKey (ih h')
  | newKey d newKey hne _ ih => exact .newKey d newKey hne (ih h')
  | other d id body hne _ ih => exact .other d id body hne (ih h')

theorem Follows.uncons_none (h : Follows dhKey secret none (frame :: rest) c) :
    frame = .plain (.keyExchange dhKey) ∧ Follows dhKey secret (some ⟨secret, 0⟩) rest c := by
  cases h with
  | dhKey h => exact ⟨rfl, h⟩

theorem Follows.uncons_some {d : CipherState} (h : Follows dhKey secret (some d) (frame :: rest) c) :
    (∃ newKey, newKey ≠ secret ∧ frame = .sealed d.key d.nonce (.keyExchange newKey) ∧
      Follows dhKey secret (some ⟨newKey, 0⟩) rest c) ∨
    (∃ id body, d.key ≠ secret ∧ frame = .sealed d.key d.nonce (.other id body) ∧
      Follows dhKey secret (some d.next) rest c) := by
  cases h with
  | newKey d newKey hne h => exact Or.inl ⟨newKey, hne, rfl, h⟩
  | other d id body hne h => exact Or.inr ⟨id, body, hne, rfl, h⟩

end Follows

variable {packet : Packet}

namespace Party

/-- A party whose own cipher has moved on. -/
def sent (p : Party) (c : CipherState) (bytes : Nat) (closed : Bool) : Party :=
  { p with connection :=
    { encryption := { p.connection.encryption with ourCipher := some c }, bytesEncrypted := bytes, closed } }

def heard (p : Party) (c : CipherState) (phase : Phase) : Party :=
  { connection := { p.connection with encryption := { p.connection.encryption with peerCipher := some c } }, phase }

variable {p p' : Party} {frames : List Frame} {frame : Frame}

theorem sendDhKey_ok {dhKey : EncryptionKey} (hready : p.connection.encryption.ready = false)
    (h : p.sendDhKey dhKey = .ok (frames, p')) :
    frames = [.plain (.keyExchange dhKey)] ∧ p' = { connection := { p.connection with closed := false }, phase := .dhSent } := by
  rw [sendDhKey, Connection.sendBytes, hready] at h
  obtain ⟨hframes, hp⟩ := Prod.mk.inj (Except.ok.inj h)
  exact ⟨hframes.symm, hp.symm⟩

variable {d : CipherState}

theorem send_ok {newKey : EncryptionKey} {written : Nat} {c : CipherState}
    (hready : p.connection.encryption.ready = true) (hcipher : p.connection.encryption.ourCipher = some c)
    (h : p.send packet newKey written = .ok (frames, p')) :
    (written = 0 ∧ frames = [.sealed c.key c.nonce packet] ∧ p' = p.sent c.next p.connection.bytesEncrypted true) ∨
    (written ≠ 0 ∧ p.connection.bytesEncrypted + packet.size < ROTATE_EVERY_N_BYTES ∧
      frames = [.sealed c.key c.nonce packet] ∧
      p' = p.sent c.next (p.connection.bytesEncrypted + packet.size) (decide (written < 2))) ∨
    (written ≠ 0 ∧
      frames = [.sealed c.key c.nonce packet, .sealed c.key c.next.nonce (.keyExchange newKey)] ∧
      p' = p.sent ⟨newKey, 0⟩ 0 (decide (written < 2))) := by
  rw [send, Connection.sendBytes, hready, Encryption.encryptPacket, hcipher] at h
  by_cases hwritten : written = 0
  · subst hwritten
    obtain ⟨hframes, hp⟩ := Prod.mk.inj (Except.ok.inj h)
    exact Or.inl ⟨rfl, hframes.symm, hp.symm⟩
  · rw [if_pos rfl] at h
    simp only [bind, Except.bind, if_neg hwritten] at h
    by_cases hsum : p.connection.bytesEncrypted + packet.size ≥ ROTATE_EVERY_N_BYTES
    · simp only [pure, Except.pure, if_pos hsum, Connection.generateRotateKeyPacket, Encryption.encryptPacket] at h
      obtain ⟨hframes, hp⟩ := Prod.mk.inj (Except.ok.inj h)
      exact Or.inr (Or.inr ⟨hwritten, hframes.symm, hp.symm⟩)
    · simp only [pure, Except.pure, if_neg hsum] at h
      obtain ⟨hframes, hp⟩ := Prod.mk.inj (Except.ok.inj h)
      exact Or.inr (Or.inl ⟨hwritten, Nat.lt_of_not_le hsum, hframes.symm, hp.symm⟩)

theorem readPacket_plain {c : Connection} (h : c.encryption.peerCipher = none) (packet : Packet) :
    c.readPacket (.plain packet) = .ok (packet, c) := by
  rw [Connection.readPacket, h]
  rfl

theorem readPacket_sealed {c : Connection} (h : c.encryption.peerCipher = some d) (packet : Packet) :
    c.readPacket (.sealed d.key d.nonce packet) =
      .ok (packet, { c with encryption := { c.encryption with peerCipher := some d.next } }) := by
  rw [Connection.readPacket, h, Encryption.decryptPacket, h]
  simp only [and_self, if_true]
  rfl

theorem receiveDhKey_eq (hpeer : p.connection.encryption.peerCipher = none) (sharedSecret : EncryptionKey → EncryptionKey)
    (newKey dhKey : EncryptionKey) :
    p.receiveDhKey sharedSecret newKey (.plain (.keyExchange dhKey)) =
      .ok ([.sealed (sharedSecret dhKey) 0 (.keyExchange newKey)],
        { connection :=
            { encryption := { ourCipher := some ⟨newKey, 0⟩, peerCipher := some ⟨sharedSecret dhKey, 0⟩, ready := true }
              bytesEncrypted := 0
              closed := p.connection.closed }
          phase := .keySent }) := by
  rw [receiveDhKey, readPacket_plain hpeer]
  rfl

theorem receiveKey_eq (hpeer : p.connection.encryption.peerCipher = some d) (newKey : EncryptionKey) :
    p.receiveKey (.sealed d.key d.nonce (.keyExchange newKey)) = .ok (p.heard ⟨newKey, 0⟩ .established) := by
  rw [receiveKey, readPacket_sealed hpeer]
  rfl

theorem receiveKey_phase (h : p.receiveKey frame = .ok p') : p'.phase = .established := by
  unfold receiveKey at h
  cases hread : p.connection.readPacket frame with
  | error e =>
    rw [hread] at h
    cases h
  | ok r =>
    obtain ⟨packet, c⟩ := r
    rw [hread] at h
    cases packet with
    | keyExchange key =>
      cases h
      rfl
    | other id body => cases h

theorem receive_phase (h : p.receive frame = .ok (packet, p')) : p'.phase = p.phase := by
  unfold receive at h
  cases hread : p.connection.readPacket frame with
  | error e =>
    rw [hread] at h
    cases h
  | ok r =>
    obtain ⟨packet', c⟩ := r
    rw [hread] at h
    cases packet' with
    | keyExchange key =>
      cases h
      rfl
    | other id body =>
      cases h
      rfl

theorem receive_newKey_eq (hpeer : p.connection.encryption.peerCipher = some d) (newKey : EncryptionKey) :
    p.receive (.sealed d.key d.nonce (.keyExchange newKey)) = .ok (.keyExchange newKey, p.heard ⟨newKey, 0⟩ p.phase) := by
  rw [receive, readPacket_sealed hpeer]
  rfl

theorem receive_other_eq (hpeer : p.connection.encryption.peerCipher = some d) (id : UInt8) (body : IVec) :
    p.receive (.sealed d.key d.nonce (.other id body)) = .ok (.other id body, p.heard d.next p.phase) := by
  rw [receive, readPacket_sealed hpeer]
  rfl

end Party

/-- The cipher that a party encrypts with: its key was generated, and the log has only smaller nonces for it. -/
structure SendsWith (generated : List EncryptionKey) (log : List Encrypted) (c : Connection) (d : CipherState) : Prop where
  cipher : c.encryption.ourCipher = some d
  ready : c.encryption.ready = true
  generated : d.key ∈ generated
  fresh : ∀ e ∈ log, e.key = d.key → e.nonce < d.nonce
  counted : c.closed = false → d.nonce ≤ c.bytesEncrypted ∧ c.bytesEncrypted < ROTATE_EVERY_N_BYTES

/-- The ciphers of a party, by how far it is. -/
def Prepared (x : Exchange) (generated : List EncryptionKey) (log : List Encrypted) (p : Party) : Prop :=
  match p.phase with
  | .start | .dhSent =>
    p.connection.encryption.ourCipher = none ∧ p.connection.encryption.peerCipher = none ∧
      p.connection.encryption.ready = false ∧ p.connection.closed = false
  | .keySent => (∃ d, SendsWith generated log p.connection d) ∧ p.connection.encryption.peerCipher = some ⟨x.secret, 0⟩
  | .established => (∃ d, SendsWith generated log p.connection d) ∧
      ∃ d, p.connection.encryption.peerCipher = some d ∧ d.key ≠ x.secret

/-- The cipher that the other party will hold when it has read all that was written. -/
def ahead (x : Exchange) (p : Party) : Option CipherState :=
  match p.phase with
  | .start => none
  | .dhSent => some ⟨x.secret, 0⟩
  | .keySent | .established => p.connection.encryption.ourCipher

variable {generated keys : List EncryptionKey} {log added : List Encrypted}

theorem SendsWith.next_nonce {c : Connection} {d : CipherState}
    (h : SendsWith generated log c d) (hopen : c.closed = false) : d.next.nonce = d.nonce + 1 := by
  obtain ⟨hle, hlt⟩ := h.counted hopen
  refine Nat.mod_eq_of_lt (Nat.lt_of_le_of_lt (Nat.succ_le_succ (Nat.le_trans hle (Nat.le_of_lt hlt))) ?_)
  decide

variable {x : Exchange} {p : Party}

theorem Prepared.of_established
    (hphase : p.phase = .established) {d e : CipherState} (hsends : SendsWith generated log p.connection d)
    (hpeer : p.connection.encryption.peerCipher = some e) (hne : e.key ≠ x.secret) : Prepared x generated log p := by
  unfold Prepared
  rw [hphase]
  exact ⟨⟨d, hsends⟩, e, hpeer, hne⟩

theorem ahead_established (hphase : p.phase = .established) : ahead x p = p.connection.encryption.ourCipher := by
  unfold ahead
  rw [hphase]

theorem ahead_sent (hphase : p.phase = .established) (c : CipherState) (bytes : Nat) (closed : Bool) :
    ahead x (p.sent c bytes closed) = some c :=
  ahead_established hphase

/-- The ciphers of a party hold on while the other one moves. -/
theorem Prepared.grow (h : Prepared x generated log p)
    (hadded : ∀ e ∈ added, ∀ d, p.connection.encryption.ourCipher = some d → e.key ≠ d.key) :
    Prepared x (generated ++ keys) (log ++ added) p := by
  have hgrow : ∀ d, SendsWith generated log p.connection d → SendsWith (generated ++ keys) (log ++ added) p.connection d := by
    intro d hd
    refine { hd with generated := List.mem_append_left _ hd.generated, fresh := fun e he hkey => ?_ }
    rcases List.mem_append.mp he with he | he
    · exact hd.fresh e he hkey
    · exact absurd hkey (hadded e he d hd.cipher)
  unfold Prepared at h ⊢
  cases hphase : p.phase with
  | start | dhSent =>
    rw [hphase] at h
    exact h
  | keySent | established =>
    rw [hphase] at h
    obtain ⟨⟨d, hd⟩, hpeer⟩ := h
    exact ⟨⟨d, hgrow d hd⟩, hpeer⟩

namespace Channel

/-- The ciphers of the two parties and the frames between them fit together. -/
structure Wired (x : Exchange) (s : Channel) : Prop where
  prepared : ∀ side, Prepared x s.generated s.log (s.party side)
  follows : ∀ side, ∃ c, Follows (x.dhKey side) x.secret (s.party side.other).connection.encryption.peerCipher (s.wire side) c ∧
    ((s.party side).connection.closed = false → c = ahead x (s.party side))
  apart : ∀ side c d, (s.party side).connection.encryption.ourCipher = some c →
    (s.party side.other).connection.encryption.ourCipher = some d → c.key ≠ d.key
  generated_ne : ∀ key ∈ s.generated, key ≠ x.secret
  logged : ∀ e ∈ s.log, e.key = x.secret ∨ e.key ∈ s.generated

/-- Each pair of key and nonce belongs to one packet, the secret apart, which each party uses once. -/
structure Logged (x : Exchange) (s : Channel) : Prop where
  distinct : ∀ e₁ ∈ s.log, ∀ e₂ ∈ s.log, e₁.key = e₂.key → e₁.nonce = e₂.nonce → e₁.key ≠ x.secret → e₁ = e₂
  sent : ∀ side, s.SentKey side → ∃ key ∈ s.generated, ⟨x.secret, 0, .keyExchange key⟩ ∈ s.log
  unsent : (∀ side, ¬s.SentKey side) → ∀ e ∈ s.log, e.key ≠ x.secret
  once : ∀ side, ¬s.SentKey side → ∀ e₁ ∈ s.log, ∀ e₂ ∈ s.log, e₁.key = x.secret → e₂.key = x.secret → e₁ = e₂
  twice : (∀ side, s.SentKey side) → s.Reused

variable {x : Exchange} {s s' : Channel}

theorem Wired.cipher_generated (h : s.Wired x) (side : Side) (d : CipherState)
    (hd : (s.party side).connection.encryption.ourCipher = some d) : d.key ∈ s.generated := by
  have hprep := h.prepared side
  unfold Prepared at hprep
  cases hphase : (s.party side).phase with
  | start | dhSent =>
    rw [hphase] at hprep
    rw [hprep.1] at hd
    cases hd
  | keySent | established =>
    rw [hphase] at hprep
    obtain ⟨⟨d', hd'⟩, -⟩ := hprep
    rw [hd'.cipher] at hd
    cases hd
    exact hd'.generated

variable {side : Side} {p : Party} {rest made written frames : List Frame}

theorem Wired.move (h : s.Wired x)
    (hprepared : Prepared x (s.generated ++ made.filterMap Frame.newKey) (s.log ++ made.filterMap Frame.encrypted) p)
    (hin : ∃ c, Follows (x.dhKey side.other) x.secret p.connection.encryption.peerCipher rest c ∧
      ((s.party side.other).connection.closed = false → c = ahead x (s.party side.other)))
    (hout : ∃ c, Follows (x.dhKey side) x.secret (s.party side.other).connection.encryption.peerCipher (s.wire side ++ written) c ∧
      (p.connection.closed = false → c = ahead x p)) (hcipher : ∀ c, p.connection.encryption.ourCipher = some c →
      (s.party side).connection.encryption.ourCipher.map CipherState.key = some c.key ∨ c.key ∈ made.filterMap Frame.newKey)
    (hfresh : ∀ key ∈ made.filterMap Frame.newKey, s.Fresh x key)
    (hmade : ∀ e ∈ made.filterMap Frame.encrypted, e.key = x.secret ∨
      (s.party side).connection.encryption.ourCipher.map CipherState.key = some e.key) :
    (s.move side p rest made written).Wired x := by
  have hother := h.cipher_generated side.other
  have hapart : ∀ key d, (s.party side).connection.encryption.ourCipher.map CipherState.key = some key →
      (s.party side.other).connection.encryption.ourCipher = some d → key ≠ d.key := by
    intro key d hkey hd
    obtain ⟨c, hc, rfl⟩ := Option.map_eq_some_iff.mp hkey
    exact h.apart side c d hc hd
  have hnew : ∀ c d, p.connection.encryption.ourCipher = some c →
      (s.party side.other).connection.encryption.ourCipher = some d → c.key ≠ d.key := by
    intro c d hc hd
    rcases hcipher c hc with hold | hmem
    · exact hapart _ d hold hd
    · exact fun heq => (hfresh _ hmem).1 (heq ▸ hother d hd)
  refine ⟨fun side' => ?_, fun side' => ?_, fun side' c d => ?_, fun key hkey => ?_, fun e he => ?_⟩
  · rcases side.eq_or_other side' with rfl | rfl
    · rw [move_party_self]
      exact hprepared
    · rw [move_party_other]
      refine Prepared.grow (h.prepared side.other) fun e he d hd => ?_
      rcases hmade e he with hsecret | hold
      · exact fun heq => h.generated_ne _ (hother d hd) (heq.symm.trans hsecret)
      · exact hapart _ d hold hd
  · rcases side.eq_or_other side' with rfl | rfl
    · rw [move_party_self, move_party_other, move_wire_self]
      exact hout
    · rw [Side.other_other, move_party_self, move_party_other, move_wire_other]
      exact hin
  · rcases side.eq_or_other side' with rfl | rfl
    · rw [move_party_self, move_party_other]
      exact hnew c d
    · rw [Side.other_other, move_party_self, move_party_other]
      exact fun hc hd heq => hnew d c hd hc heq.symm
  · rcases List.mem_append.mp hkey with hkey | hkey
    · exact h.generated_ne key hkey
    · exact (hfresh key hkey).2
  · rcases List.mem_append.mp he with he | he
    · exact (h.logged e he).imp_right (List.mem_append_left _)
    · refine (hmade e he).imp_right fun hold => ?_
      obtain ⟨c, hc, hkey⟩ := Option.map_eq_some_iff.mp hold
      exact hkey ▸ List.mem_append_left _ (h.cipher_generated side c hc)

variable {frame : Frame}

theorem Wired.read (h : s.Wired x) (hwire : s.Incoming side frame rest) :
    ∃ c, Follows (x.dhKey side.other) x.secret (s.party side).connection.encryption.peerCipher (frame :: rest) c ∧
      ((s.party side.other).connection.closed = false → c = ahead x (s.party side.other)) := by
  obtain ⟨c, hfollows, hahead⟩ := h.follows side.other
  rw [Side.other_other, show s.wire side.other = _ from hwire] at hfollows
  exact ⟨c, hfollows, hahead⟩

theorem Wired.prepared_of_phase (h : s.Wired x) {phase : Phase} (hphase : (s.party side).phase = phase) :
    Prepared x s.generated s.log { s.party side with phase } := by
  subst hphase
  exact h.prepared side

theorem Wired.sendDhKey (h : s.Wired x) (hphase : (s.party side).phase = .start)
    (hsend : (s.party side).sendDhKey (x.dhKey side) = .ok (frames, p)) :
    (s.move side p (s.wire side.other) frames frames).Wired x := by
  obtain ⟨hour, hpeer, hready, hopen⟩ := h.prepared_of_phase hphase
  obtain ⟨rfl, rfl⟩ := Party.sendDhKey_ok hready hsend
  obtain ⟨c, hfollows, hahead⟩ := h.follows side
  obtain rfl : c = none := by rw [hahead hopen, ahead, hphase]
  have hin := h.follows side.other
  rw [Side.other_other] at hin
  refine h.move ⟨hour, hpeer, hready, rfl⟩ hin ⟨some ⟨x.secret, 0⟩, hfollows.append (.dhKey (.nil _)), fun _ => rfl⟩ ?_ nofun nofun
  intro c hc
  rw [show (s.party side).connection.encryption.ourCipher = some c from hc]
  exact Or.inl rfl

/-- The first key that is read is the one of the other party, so both derive the secret. -/
theorem Wired.receiveDhKey_ok (h : s.Wired x)
    {newKey : EncryptionKey} (hphase : (s.party side).phase = .dhSent) (hwire : s.Incoming side frame rest)
    (hreceive : (s.party side).receiveDhKey (x.sharedSecret side) newKey frame = .ok (frames, p)) :
    frames = [.sealed x.secret 0 (.keyExchange newKey)] ∧
    p = { connection :=
            { encryption := { ourCipher := some ⟨newKey, 0⟩, peerCipher := some ⟨x.secret, 0⟩, ready := true }
              bytesEncrypted := 0
              closed := (s.party side).connection.closed }
          phase := .keySent } ∧
    ∃ c, Follows (x.dhKey side.other) x.secret (some ⟨x.secret, 0⟩) rest c ∧
      ((s.party side.other).connection.closed = false → c = ahead x (s.party side.other)) := by
  obtain ⟨-, hpeer, -⟩ := h.prepared_of_phase hphase
  have hpeer : (s.party side).connection.encryption.peerCipher = none := hpeer
  obtain ⟨c, hread, hahead⟩ := h.read hwire
  rw [hpeer] at hread
  obtain ⟨rfl, hrest⟩ := hread.uncons_none
  rw [Party.receiveDhKey_eq hpeer, x.sharedSecret_other] at hreceive
  obtain ⟨hframes, hp⟩ := Prod.mk.inj (Except.ok.inj hreceive)
  exact ⟨hframes.symm, hp.symm, c, hrest, hahead⟩

theorem Wired.receiveDhKey (h : s.Wired x)
    {newKey : EncryptionKey} (hphase : (s.party side).phase = .dhSent) (hfresh : s.Fresh x newKey)
    (hwire : s.Incoming side frame rest)
    (hreceive : (s.party side).receiveDhKey (x.sharedSecret side) newKey frame = .ok (frames, p)) :
    (s.move side p rest frames frames).Wired x := by
  obtain ⟨-, -, -, hopen⟩ := h.prepared_of_phase hphase
  obtain ⟨rfl, rfl, hin⟩ := h.receiveDhKey_ok hphase hwire hreceive
  obtain ⟨d, hfollows, hahead⟩ := h.follows side
  obtain rfl : d = some ⟨x.secret, 0⟩ := by rw [hahead hopen, ahead, hphase]
  refine h.move ?_ hin
    ⟨some ⟨newKey, 0⟩, hfollows.append (.newKey ⟨x.secret, 0⟩ newKey hfresh.2 (.nil _)), fun _ => rfl⟩ ?_ ?_ ?_
  · refine ⟨⟨⟨newKey, 0⟩, rfl, rfl, List.mem_append_right _ (List.mem_singleton_self _), fun e he hkey => ?_,
      fun _ => ⟨Nat.le_refl 0, show 0 < ROTATE_EVERY_N_BYTES by decide⟩⟩, rfl⟩
    have hkey : e.key = newKey := hkey
    rcases List.mem_append.mp he with he | he
    · rcases h.logged e he with hsecret | hmem
      · exact absurd (hkey.symm.trans hsecret) hfresh.2
      · exact absurd (hkey ▸ hmem) hfresh.1
    · obtain rfl : e = ⟨x.secret, 0, .keyExchange newKey⟩ := List.mem_singleton.mp he
      exact absurd hkey.symm hfresh.2
  · intro c hc
    cases hc
    exact Or.inr (List.mem_singleton_self _)
  · intro key hkey
    obtain rfl : key = newKey := List.mem_singleton.mp hkey
    exact hfresh
  · intro e he
    obtain rfl : e = ⟨x.secret, 0, .keyExchange newKey⟩ := List.mem_singleton.mp he
    exact Or.inl rfl

variable {d : CipherState}

/-- A party that reads a frame of an established key moves its cipher of the peer. -/
theorem Wired.heard (h : s.Wired x) {phase : Phase}
    (hsent : (∃ d, SendsWith s.generated s.log (s.party side).connection d) ∧ ahead x (s.party side) =
      (s.party side).connection.encryption.ourCipher) (hphase : phase = .established) (hne : d.key ≠ x.secret)
    (hrest : ∃ c, Follows (x.dhKey side.other) x.secret (some d) rest c ∧
      ((s.party side.other).connection.closed = false → c = ahead x (s.party side.other))) :
    (s.move side ((s.party side).heard d phase) rest [] []).Wired x := by
  subst hphase
  obtain ⟨⟨c, hc⟩, hahead⟩ := hsent
  obtain ⟨e, hfollows, hout⟩ := h.follows side
  refine h.move ?_ hrest ⟨e, ?_, fun hopen => (hout hopen).trans hahead⟩ ?_ nofun nofun
  · simp only [List.filterMap_nil, List.append_nil]
    exact ⟨⟨c, hc.cipher, hc.ready, hc.generated, hc.fresh, hc.counted⟩, d, rfl, hne⟩
  · rwa [List.append_nil]
  · intro c' hc'
    rw [show (s.party side).connection.encryption.ourCipher = some c' from hc']
    exact Or.inl rfl

theorem Wired.receiveKey (h : s.Wired x) (hphase : (s.party side).phase = .keySent) (hwire : s.Incoming side frame rest)
    (hreceive : (s.party side).receiveKey frame = .ok p) : (s.move side p rest [] []).Wired x := by
  obtain ⟨hsent, hpeer⟩ := h.prepared_of_phase hphase
  have hpeer : (s.party side).connection.encryption.peerCipher = some ⟨x.secret, 0⟩ := hpeer
  obtain ⟨c, hread, hread'⟩ := h.read hwire
  rw [hpeer] at hread
  rcases hread.uncons_some with ⟨newKey, hne, rfl, hrest⟩ | ⟨id, body, hne, -, -⟩
  · rw [Party.receiveKey_eq hpeer] at hreceive
    cases hreceive
    exact h.heard ⟨hsent, by rw [ahead, hphase]⟩ rfl hne ⟨c, hrest, hread'⟩
  · exact absurd rfl hne

theorem Wired.receive (h : s.Wired x)
    (hphase : (s.party side).phase = .established) (hwire : s.Incoming side frame rest)
    (hreceive : (s.party side).receive frame = .ok (packet, p)) : (s.move side p rest [] []).Wired x := by
  obtain ⟨hsent, d, hpeer, hd⟩ := h.prepared_of_phase hphase
  have hpeer : (s.party side).connection.encryption.peerCipher = some d := hpeer
  have hahead : ahead x (s.party side) = (s.party side).connection.encryption.ourCipher := by rw [ahead, hphase]
  obtain ⟨c, hread, hread'⟩ := h.read hwire
  rw [hpeer] at hread
  rcases hread.uncons_some with ⟨newKey, hne, rfl, hrest⟩ | ⟨id, body, hne, rfl, hrest⟩
  · rw [Party.receive_newKey_eq hpeer] at hreceive
    obtain ⟨-, rfl⟩ := Prod.mk.inj (Except.ok.inj hreceive)
    exact h.heard ⟨hsent, hahead⟩ hphase hne ⟨c, hrest, hread'⟩
  · rw [Party.receive_other_eq hpeer] at hreceive
    obtain ⟨-, rfl⟩ := Prod.mk.inj (Except.ok.inj hreceive)
    exact h.heard ⟨hsent, hahead⟩ hphase hne ⟨c, hrest, hread'⟩

variable {id : UInt8} {body : IVec}

/-- One more packet under the key at hand. -/
theorem Wired.sendOne (h : s.Wired x) {bytes written : Nat}
    {closed : Bool} (hphase : (s.party side).phase = .established) (hopen : (s.party side).connection.closed = false)
    (hd : SendsWith s.generated s.log (s.party side).connection d)
    (hclosed : closed = false → written ≠ 0 ∧ bytes = (s.party side).connection.bytesEncrypted + (Packet.other id body).size ∧
      bytes < ROTATE_EVERY_N_BYTES) :
    (s.move side ((s.party side).sent d.next bytes closed) (s.wire side.other) [.sealed d.key d.nonce (.other id body)]
      ([Frame.sealed d.key d.nonce (.other id body)].take written)).Wired x := by
  obtain ⟨-, e, hpeer, hne⟩ := h.prepared_of_phase hphase
  obtain ⟨c, hfollows, hahead⟩ := h.follows side
  obtain rfl : c = some d := by rw [hahead hopen, ahead_established hphase, hd.cipher]
  have hin := h.follows side.other
  rw [Side.other_other] at hin
  have hnext := hd.next_nonce hopen
  have hkey : d.key ≠ x.secret := h.generated_ne _ hd.generated
  refine h.move (Prepared.of_established hphase (d := d.next) ⟨rfl, hd.ready, List.mem_append_left _ hd.generated, ?_, ?_⟩ hpeer hne)
    hin ?_ ?_ nofun ?_
  · intro e he hekey
    rw [hnext]
    rcases List.mem_append.mp he with he | he
    · exact Nat.lt_succ_of_lt (hd.fresh e he hekey)
    · obtain rfl : e = ⟨d.key, d.nonce, .other id body⟩ := List.mem_singleton.mp he
      exact Nat.lt_succ_self _
  · intro hc
    obtain ⟨-, hbytes, hlt⟩ := hclosed hc
    have hcount := (hd.counted hopen).1
    refine ⟨?_, hlt⟩
    show d.next.nonce ≤ bytes
    rw [hnext, hbytes, Packet.size]
    omega
  · cases written with
    | zero => exact ⟨some d, by simpa using hfollows, fun hc => absurd rfl (hclosed hc).1⟩
    | succ n =>
      refine ⟨some d.next, hfollows.append (.other d id body hkey ?_), fun _ => (ahead_sent hphase _ _ _).symm⟩
      rw [List.take_nil]
      exact .nil _
  · intro c hc
    cases hc
    rw [hd.cipher]
    exact Or.inl rfl
  · intro e he
    obtain rfl : e = ⟨d.key, d.nonce, .other id body⟩ := List.mem_singleton.mp he
    rw [hd.cipher]
    exact Or.inr rfl

/-- The last packet under a key, then the key that follows it. -/
theorem Wired.sendRotation (h : s.Wired x) {written : Nat}
    {newKey : EncryptionKey} (hphase : (s.party side).phase = .established) (hopen : (s.party side).connection.closed = false)
    (hd : SendsWith s.generated s.log (s.party side).connection d) (hwritten : written ≠ 0) (hfresh : s.Fresh x newKey) :
    let frames : List Frame := [.sealed d.key d.nonce (.other id body), .sealed d.key d.next.nonce (.keyExchange newKey)]
    (s.move side ((s.party side).sent ⟨newKey, 0⟩ 0 (decide (written < 2))) (s.wire side.other) frames
      (frames.take written)).Wired x := by
  intro frames
  obtain ⟨-, e, hpeer, hne⟩ := h.prepared_of_phase hphase
  obtain ⟨c, hfollows, hahead⟩ := h.follows side
  obtain rfl : c = some d := by rw [hahead hopen, ahead_established hphase, hd.cipher]
  have hin := h.follows side.other
  rw [Side.other_other] at hin
  have hkey : d.key ≠ x.secret := h.generated_ne _ hd.generated
  have hmem : ∀ e ∈ frames.filterMap Frame.encrypted, e.key = d.key := by
    intro e he
    rcases List.mem_cons.mp he with rfl | he
    · rfl
    · obtain rfl : e = ⟨d.key, d.next.nonce, .keyExchange newKey⟩ := List.mem_singleton.mp he
      rfl
  refine h.move (Prepared.of_established hphase (d := ⟨newKey, 0⟩)
      ⟨rfl, hd.ready, List.mem_append_right _ (List.mem_singleton_self _), ?_, fun _ => ⟨Nat.le_refl 0, show 0 < ROTATE_EVERY_N_BYTES by decide⟩⟩
      hpeer hne) hin ?_ ?_ ?_ ?_
  · intro e he hekey
    have hekey : e.key = newKey := hekey
    rcases List.mem_append.mp he with he | he
    · rcases h.logged e he with hsecret | hlogged
      · exact absurd (hekey.symm.trans hsecret) hfresh.2
      · exact absurd (hekey ▸ hlogged) hfresh.1
    · exact absurd (hekey ▸ hmem e he ▸ hd.generated) hfresh.1
  · match written, hwritten with
    | 1, _ => exact ⟨some d.next, hfollows.append (.other d id body hkey (.nil _)), nofun⟩
    | n + 2, _ =>
      refine ⟨some ⟨newKey, 0⟩, hfollows.append (.other d id body hkey (.newKey d.next newKey hfresh.2 ?_)),
        fun _ => (ahead_sent hphase _ _ _).symm⟩
      rw [List.take_nil]
      exact .nil _
  · intro c hc
    cases hc
    exact Or.inr (List.mem_singleton_self _)
  · intro key hk
    obtain rfl : key = newKey := List.mem_singleton.mp hk
    exact hfresh
  · intro e he
    rw [hmem e he, hd.cipher]
    exact Or.inr rfl

theorem Wired.send (h : s.Wired x) {newKey : EncryptionKey} {written : Nat}
    (hphase : (s.party side).phase = .established) (hopen : (s.party side).connection.closed = false)
    (hsend : (s.party side).send (.other id body) newKey written = .ok (frames, p))
    (hfresh : ∀ key ∈ frames.filterMap Frame.newKey, s.Fresh x key) :
    (s.move side p (s.wire side.other) frames (frames.take written)).Wired x := by
  obtain ⟨⟨d, hd⟩, -⟩ := h.prepared_of_phase hphase
  have hd : SendsWith s.generated s.log (s.party side).connection d := hd
  rcases Party.send_ok hd.ready hd.cipher hsend with ⟨rfl, rfl, rfl⟩ | ⟨hwritten, hsum, rfl, rfl⟩ | ⟨hwritten, rfl, rfl⟩
  · exact h.sendOne hphase hopen hd nofun
  · exact h.sendOne hphase hopen hd fun _ => ⟨hwritten, rfl, hsum⟩
  · exact h.sendRotation hphase hopen hd hwritten (hfresh newKey (List.mem_singleton_self _))

theorem Wired.step (h : s.Wired x) (hstep : Step x s s') : s'.Wired x := by
  cases hstep with
  | sendDhKey side hphase hsend => exact h.sendDhKey hphase hsend
  | receiveDhKey side newKey hphase hfresh hwire hreceive => exact h.receiveDhKey hphase hfresh hwire hreceive
  | receiveKey side hphase hwire hreceive => exact h.receiveKey hphase hwire hreceive
  | send side id body newKey written hphase hopen hsend hfresh => exact h.send hphase hopen hsend hfresh
  | receive side hphase hwire hreceive => exact h.receive hphase hwire hreceive

theorem Wired.initial : Wired x {} where
  prepared _ := ⟨rfl, rfl, rfl, rfl⟩
  follows _ := ⟨none, .nil none, fun _ => rfl⟩
  apart _ _ _ hc := nomatch hc
  generated_ne _ hkey := nomatch hkey
  logged _ he := nomatch he

/-- Whatever a party can read next, it understands. -/
theorem Wired.inSync (h : s.Wired x) : s.InSync := by
  intro side frame rest hwire hphase
  obtain ⟨c, hread, -⟩ := h.read hwire
  -- a party without a cipher of its peer waits for a plain key, and any other one for a frame of that cipher
  have hplain : (s.party side).connection.encryption.peerCipher = none → Understands (s.party side) frame := by
    intro hpeer
    rw [hpeer] at hread
    obtain ⟨rfl, -⟩ := hread.uncons_none
    exact ⟨nofun, fun _ _ => hpeer, fun _ => ⟨_, _, Party.readPacket_plain hpeer _⟩⟩
  have hsealed : ∀ d, (s.party side).connection.encryption.peerCipher = some d →
      ((s.party side).phase ≠ .established → d.key = x.secret) → Understands (s.party side) frame := by
    intro d hpeer hsecret
    rw [hpeer] at hread
    rcases hread.uncons_some with ⟨newKey, -, rfl, -⟩ | ⟨id, body, hne, rfl, -⟩
    · refine ⟨fun key nonce packet heq => ?_, nofun, fun _ => ⟨_, _, Party.readPacket_sealed hpeer _⟩⟩
      cases heq
      exact ⟨hpeer, _, Party.readPacket_sealed hpeer _⟩
    · refine ⟨fun key nonce packet heq => ?_, nofun, fun hphase => absurd (hsecret hphase) hne⟩
      cases heq
      exact ⟨hpeer, _, Party.readPacket_sealed hpeer _⟩
  have hprepared := h.prepared side
  unfold Prepared at hprepared
  cases hcase : (s.party side).phase with
  | start => exact absurd hcase hphase
  | dhSent =>
    rw [hcase] at hprepared
    exact hplain hprepared.2.1
  | keySent =>
    rw [hcase] at hprepared
    exact hsealed _ hprepared.2 fun _ => rfl
  | established =>
    rw [hcase] at hprepared
    obtain ⟨-, d, hpeer, -⟩ := hprepared
    exact hsealed d hpeer fun hne => absurd hcase hne

theorem move_sentKey_self : (s.move side p rest made written).SentKey side ↔ p.phase = .keySent ∨ p.phase = .established := by
  rw [SentKey, move_party_self]

theorem move_sentKey_other : (s.move side p rest made written).SentKey side.other ↔ s.SentKey side.other := by
  rw [SentKey, SentKey, move_party_other]

theorem Logged.move (h : s.Logged x) (hphase : p.phase = .keySent ∨ p.phase = .established ↔ s.SentKey side)
    (hsecret : ∀ e ∈ made.filterMap Frame.encrypted, e.key ≠ x.secret)
    (hnew : ∀ e₁ ∈ made.filterMap Frame.encrypted, ∀ e₂ ∈ s.log, e₁.key = e₂.key → e₁.nonce ≠ e₂.nonce)
    (hdistinct : ∀ e₁ ∈ made.filterMap Frame.encrypted, ∀ e₂ ∈ made.filterMap Frame.encrypted,
      e₁.key = e₂.key → e₁.nonce = e₂.nonce → e₁ = e₂) : (s.move side p rest made written).Logged x := by
  have hsent : ∀ side', (s.move side p rest made written).SentKey side' ↔ s.SentKey side' := by
    intro side'
    rcases side.eq_or_other side' with rfl | rfl
    · rw [move_sentKey_self, hphase]
    · exact move_sentKey_other
  have hold : ∀ e ∈ (s.move side p rest made written).log, e.key = x.secret → e ∈ s.log := by
    intro e he hkey
    exact (List.mem_append.mp he).resolve_right fun hmade => hsecret e hmade hkey
  refine ⟨fun e₁ he₁ e₂ he₂ hkey hnonce hne => ?_, fun side' hside => ?_, fun hside e he hkey => ?_,
    fun side' hside e₁ he₁ e₂ he₂ hkey₁ hkey₂ => ?_, fun hside => ?_⟩
  · rcases List.mem_append.mp he₁ with he₁ | he₁
    · rcases List.mem_append.mp he₂ with he₂ | he₂
      · exact h.distinct e₁ he₁ e₂ he₂ hkey hnonce hne
      · exact absurd hnonce.symm (hnew e₂ he₂ e₁ he₁ hkey.symm)
    · rcases List.mem_append.mp he₂ with he₂ | he₂
      · exact absurd hnonce (hnew e₁ he₁ e₂ he₂ hkey)
      · exact hdistinct e₁ he₁ e₂ he₂ hkey hnonce
  · obtain ⟨key, hkey, hlog⟩ := h.sent side' ((hsent side').mp hside)
    exact ⟨key, List.mem_append_left _ hkey, List.mem_append_left _ hlog⟩
  · exact h.unsent (fun side' hside' => hside side' ((hsent side').mpr hside')) e (hold e he hkey) hkey
  · exact h.once side' (fun hside' => hside ((hsent side').mpr hside')) e₁ (hold e₁ he₁ hkey₁) e₂ (hold e₂ he₂ hkey₂) hkey₁ hkey₂
  · obtain ⟨e₁, he₁, e₂, he₂, hsame⟩ := h.twice fun side' => (hsent side').mp (hside side')
    exact ⟨e₁, List.mem_append_left _ he₁, e₂, List.mem_append_left _ he₂, hsame⟩

/-- The second party to use the secret uses the same nonce for another key. -/
theorem Logged.receiveDhKey (h : s.Logged x) {newKey : EncryptionKey}
    (hbefore : ¬s.SentKey side) (hafter : p.phase = .keySent) (hfresh : s.Fresh x newKey) :
    (s.move side p rest [.sealed x.secret 0 (.keyExchange newKey)] written).Logged x := by
  have hself : (s.move side p rest [.sealed x.secret 0 (.keyExchange newKey)] written).SentKey side :=
    move_sentKey_self.mpr (Or.inl hafter)
  refine ⟨fun e₁ he₁ e₂ he₂ hkey hnonce hne => ?_, fun side' hside => ?_, fun hside => absurd hself (hside side),
    fun side' hside e₁ he₁ e₂ he₂ hkey₁ hkey₂ => ?_, fun hside => ?_⟩
  · have hold : ∀ e ∈ s.log ++ [⟨x.secret, 0, .keyExchange newKey⟩], e.key ≠ x.secret → e ∈ s.log := by
      intro e he hne
      refine (List.mem_append.mp he).resolve_right fun hmem => hne ?_
      rw [List.mem_singleton.mp hmem]
    exact h.distinct e₁ (hold e₁ he₁ hne) e₂ (hold e₂ he₂ (hkey ▸ hne)) hkey hnonce hne
  · rcases side.eq_or_other side' with rfl | rfl
    · exact ⟨newKey, List.mem_append_right _ (List.mem_singleton_self _), List.mem_append_right _ (List.mem_singleton_self _)⟩
    · obtain ⟨key, hkey, hlog⟩ := h.sent side.other (move_sentKey_other.mp hside)
      exact ⟨key, List.mem_append_left _ hkey, List.mem_append_left _ hlog⟩
  · -- the other side has not used the secret yet, so this is its only use
    have hnone : ∀ side', ¬s.SentKey side' := by
      intro other
      rcases side.eq_or_other side' with rfl | rfl
      · exact absurd hself hside
      · rcases side.eq_or_other other with rfl | rfl
        · exact hbefore
        · exact fun hother => hside (move_sentKey_other.mpr hother)
    have honly : ∀ e ∈ s.log ++ [⟨x.secret, 0, .keyExchange newKey⟩], e.key = x.secret → e = ⟨x.secret, 0, .keyExchange newKey⟩ := by
      intro e he hkey
      rcases List.mem_append.mp he with he | he
      · exact absurd hkey (h.unsent hnone e he)
      · exact List.mem_singleton.mp he
    exact (honly e₁ he₁ hkey₁).trans (honly e₂ he₂ hkey₂).symm
  · obtain ⟨key, hkey, hlog⟩ := h.sent side.other (move_sentKey_other.mp (hside side.other))
    refine ⟨_, List.mem_append_left _ hlog, _, List.mem_append_right _ (List.mem_singleton_self _), rfl, rfl, fun heq => ?_⟩
    exact hfresh.1 (Packet.keyExchange.inj heq ▸ hkey)

theorem Logged.send (h : s.Logged x) (hwired : s.Wired x) {newKey : EncryptionKey}
    {written : Nat} (hphase : (s.party side).phase = .established) (hopen : (s.party side).connection.closed = false)
    (hsend : (s.party side).send (.other id body) newKey written = .ok (frames, p)) :
    (s.move side p (s.wire side.other) frames (frames.take written)).Logged x := by
  obtain ⟨⟨d, hd⟩, -⟩ := hwired.prepared_of_phase hphase
  have hd : SendsWith s.generated s.log (s.party side).connection d := hd
  have hsecret : d.key ≠ x.secret := hwired.generated_ne _ hd.generated
  have hnext := hd.next_nonce hopen
  have hsent : s.SentKey side := Or.inr hphase
  have hnew : ∀ nonce, d.nonce ≤ nonce → ∀ e ∈ s.log, d.key = e.key → nonce ≠ e.nonce := by
    intro nonce hle e he hkey
    have hlt := hd.fresh e he hkey.symm
    omega
  rcases Party.send_ok hd.ready hd.cipher hsend with ⟨rfl, rfl, rfl⟩ | ⟨-, -, rfl, rfl⟩ | ⟨-, rfl, rfl⟩
  all_goals refine h.move ⟨fun _ => hsent, fun _ => Or.inr hphase⟩ ?_ ?_ ?_
  all_goals simp only [List.filterMap_cons, List.filterMap_nil, Frame.encrypted, List.forall_mem_cons, List.not_mem_nil,
    false_implies, implies_true, and_true]
  · exact hsecret
  · exact hnew _ (Nat.le_refl _)
  · exact hsecret
  · exact hnew _ (Nat.le_refl _)
  · exact ⟨hsecret, hsecret⟩
  · exact ⟨hnew _ (Nat.le_refl _), hnew _ (by omega)⟩
  · exact ⟨⟨trivial, fun _ hnonce => absurd hnonce (by omega)⟩, fun _ hnonce => absurd hnonce (by omega)⟩

theorem Logged.step (h : s.Logged x) (hwired : s.Wired x) (hstep : Step x s s') : s'.Logged x := by
  cases hstep with
  | sendDhKey side hphase hsend =>
    obtain ⟨-, -, hready, -⟩ := hwired.prepared_of_phase hphase
    obtain ⟨rfl, rfl⟩ := Party.sendDhKey_ok hready hsend
    refine h.move ?_ nofun nofun nofun
    rw [SentKey, hphase]
    exact ⟨nofun, nofun⟩
  | receiveDhKey side newKey hphase hfresh hwire hreceive =>
    obtain ⟨rfl, rfl, -⟩ := hwired.receiveDhKey_ok hphase hwire hreceive
    refine h.receiveDhKey ?_ rfl hfresh
    rw [SentKey, hphase]
    exact nofun
  | receiveKey side hphase hwire hreceive =>
    exact h.move ⟨fun _ => Or.inl hphase, fun _ => Or.inr (Party.receiveKey_phase hreceive)⟩ nofun nofun nofun
  | send side id body newKey written hphase hopen hsend hfresh => exact h.send hwired hphase hopen hsend
  | receive side hphase hwire hreceive =>
    refine h.move ?_ nofun nofun nofun
    rw [SentKey, Party.receive_phase hreceive]

theorem Logged.initial : Logged x {} where
  distinct _ he := nomatch he
  sent _ hside := nomatch hside
  unsent _ _ he := nomatch he
  once _ _ _ he := nomatch he
  twice hside := nomatch hside .client

theorem Reachable.invariants (h : s.Reachable x) : s.Wired x ∧ s.Logged x := by
  induction h with
  | refl => exact ⟨Wired.initial, Logged.initial⟩
  | tail _ hstep ih => exact ⟨ih.1.step hstep, ih.2.step ih.1 hstep⟩

/-- In any interleaving every frame is decrypted with what it was encrypted with, and a key and nonce are used for two
packets exactly when both parties have encrypted their own key with the shared secret. -/
theorem channel_discipline (x : Exchange) (s : Channel) (h : s.Reachable x) :
    s.InSync ∧ (¬s.Reused ↔ ∃ side, ¬s.SentKey side) := by
  obtain ⟨hwired, hlogged⟩ := h.invariants
  refine ⟨hwired.inSync, fun hnot => ?_, fun ⟨side, hside⟩ ⟨e₁, he₁, e₂, he₂, hkey, hnonce, hpacket⟩ => ?_⟩
  · by_contra hall
    exact hnot (hlogged.twice fun side => by_contra fun hside => hall ⟨side, hside⟩)
  · by_cases hsecret : e₁.key = x.secret
    · exact hpacket (congrArg Encrypted.packet (hlogged.once side hside e₁ he₁ e₂ he₂ hsecret (hkey ▸ hsecret)))
    · exact hpacket (congrArg Encrypted.packet (hlogged.distinct e₁ he₁ e₂ he₂ hkey hnonce hsecret))

end Channel

/-- A toy exchange: the secret is the exclusive or of the two keys. -/
def sampleExchange : Exchange where
  dhKey
    | .client => 1#256
    | .server => 2#256
  sharedSecret
    | .client => fun key => key ^^^ 1#256
    | .server => fun key => key ^^^ 2#256
  agree := by decide

def sampleKeyFrame (key : EncryptionKey) : Frame := .sealed 3#256 0 (.keyExchange key)

def sampleKeySent (key : EncryptionKey) : Party where
  connection := { encryption := { ourCipher := some ⟨key, 0⟩, peerCipher := some ⟨3#256, 0⟩, ready := true } }
  phase := .keySent

/-- Both parties have sent their Diffie-Hellman keys. -/
def sampleStart : Channel :=
  let s : Channel := {}
  let s := s.move .client { phase := .dhSent } [] [.plain (.keyExchange 1#256)] [.plain (.keyExchange 1#256)]
  s.move .server { phase := .dhSent } (s.wire .client) [.plain (.keyExchange 2#256)] [.plain (.keyExchange 2#256)]

/-- Then the client sends its generated key under the secret. -/
def sampleClient : Channel := sampleStart.move .client (sampleKeySent 5#256) [] [sampleKeyFrame 5#256] [sampleKeyFrame 5#256]

/-- The server answers with another one. -/
def sampleChannel : Channel :=
  sampleClient.move .server (sampleKeySent 6#256) [sampleKeyFrame 5#256] [sampleKeyFrame 6#256] [sampleKeyFrame 6#256]

theorem sampleStart_reachable : sampleStart.Reachable sampleExchange := by
  refine Relation.ReflTransGen.tail (Relation.ReflTransGen.single (Channel.Step.sendDhKey .client ?_ ?_))
    (Channel.Step.sendDhKey .server ?_ ?_)
  all_goals rfl

theorem sampleClient_reachable : sampleClient.Reachable sampleExchange := by
  have hclient : sampleStart.Incoming .client (.plain (.keyExchange 2#256)) [] := rfl
  exact Relation.ReflTransGen.tail sampleStart_reachable (Channel.Step.receiveDhKey .client 5#256 rfl ⟨nofun, by decide⟩ hclient rfl)

theorem sampleChannel_reachable : sampleChannel.Reachable sampleExchange := by
  have hserver : sampleClient.Incoming .server (.plain (.keyExchange 1#256)) [sampleKeyFrame 5#256] := rfl
  exact Relation.ReflTransGen.tail sampleClient_reachable
    (Channel.Step.receiveDhKey .server 6#256 rfl ⟨by decide, by decide⟩ hserver rfl)

/-- After four steps the secret and nonce zero have encrypted two different packets. -/
theorem channel_discipline_fails : sampleChannel.Reachable sampleExchange ∧ sampleChannel.Reused := by
  refine ⟨sampleChannel_reachable, ⟨3#256, 0, .keyExchange 5#256⟩, by decide, ⟨3#256, 0, .keyExchange 6#256⟩, by decide, rfl, rfl, ?_⟩
  decide

/-- With the packet of the client alone no pair has been used twice. -/
theorem channel_discipline_client : sampleClient.InSync ∧ ¬sampleClient.Reused := by
  obtain ⟨hsync, hiff⟩ := Channel.channel_discipline sampleExchange sampleClient sampleClient_reachable
  exact ⟨hsync, hiff.mpr ⟨.server, nofun⟩⟩

end Xelis.P2p
