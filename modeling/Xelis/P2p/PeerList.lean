import Xelis.Common.Serializer
import Xelis.Lib.Exec

namespace Xelis.P2p

open Lib (FiniteMap Exec Codec)

def PEER_FAIL_TO_CONNECT_LIMIT : Nat := 3

def PEER_TEMP_BAN_TIME_ON_CONNECT : Nat := 60

def P2P_PEERLIST_RETRY_AFTER : Nat := 60 * 15

/-- The maximum of a fail count. -/
def U8_MAX : Nat := 255

inductive IpAddr where
  | v4 (octets : BitVec 32)
  | v6 (segments : BitVec 128)
  deriving DecidableEq

structure SocketAddr where
  ip : IpAddr
  port : Nat
  deriving DecidableEq

namespace IpAddr

def write : IpAddr → IVec
  | v4 octets => writeU8 0 ++ writeU32 octets.toNat
  | v6 segments => writeU8 1 ++ writeU128 segments.toNat

def readOctets : Reader (BitVec 32) := do return BitVec.ofNat 32 (← readU32)

def readSegments : Reader (BitVec 128) := do return BitVec.ofNat 128 (← readU128)

def read : Reader IpAddr := do
  match ← readU8 with
  | 0 => return v4 (← readOctets)
  | 1 => return v6 (← readSegments)
  | _ => throw .invalidValue

theorem octets_codec : Codec (fun _ => readOctets) (fun octets => writeU32 octets.toNat) (fun _ => True) := by
  refine u32_codec.map (fun n hn => ?_) fun octets => iff_of_true trivial ⟨octets.toNat, octets.isLt, ?_⟩
  · rw [BitVec.toNat_ofNat, Nat.mod_eq_of_lt hn]
  · rw [BitVec.ofNat_toNat, BitVec.setWidth_eq]

theorem segments_codec : Codec (fun _ => readSegments) (fun segments => writeU128 segments.toNat) (fun _ => True) := by
  refine u128_codec.map (fun n hn => ?_) fun segments => iff_of_true trivial ⟨segments.toNat, segments.isLt, ?_⟩
  · rw [BitVec.toNat_ofNat, Nat.mod_eq_of_lt hn]
  · rw [BitVec.ofNat_toNat, BitVec.setWidth_eq]

theorem codec : Codec (fun _ => read) write (fun _ => True) := by
  refine Codec.tagged (fun ip _ => by cases ip <;> exact writeU8_append_ne_nil _ _) fun t => ?_
  match t with
  | 0 => exact octets_codec.map (c := v4) (fun _ _ => tail_writeU8 _ _) fun ip => by cases ip <;> simp [write]
  | 1 => exact segments_codec.map (c := v6) (fun _ _ => tail_writeU8 _ _) fun ip => by cases ip <;> simp [write]
  | t + 2 => exact Codec.throw fun ip => by cases ip <;> simp [write]

end IpAddr

inductive PeerListEntryState where
  | whitelist
  | graylist
  | blacklist
  deriving DecidableEq

structure PeerListEntry where
  firstSeen : Option Nat := none
  lastSeen : Option Nat := none
  lastConnectionTry : Option Nat := none
  failCount : Nat := 0
  localPort : Option Nat
  tempBanUntil : Option Nat := none
  state : PeerListEntryState
  publicKey : Option (BitVec 256) := none
  deriving DecidableEq

/-- A number that is never zero, or none. Zero stands for none in the bytes. -/
def readOptionalNonZero (read : Reader Nat) : Reader (Option Nat) := do
  let value ← read
  return if value = 0 then none else some value

def writeOptionalNonZero (write : Nat → IVec) (value : Option Nat) : IVec := write (value.getD 0)

theorem optionalNonZero_codec {read : Reader Nat} {write : Nat → IVec} {bound : Nat} (hpos : 0 < bound)
    (h : Codec (fun _ => read) write (fun n => n < bound)) :
    Codec (fun _ => readOptionalNonZero read) (writeOptionalNonZero write) (fun o => ∀ n ∈ o, n ≠ 0 ∧ n < bound) := by
  refine h.map (c := fun n => if n = 0 then none else some n) (fun n _ => ?_) fun o => ?_
  · by_cases hn : n = 0 <;> simp [writeOptionalNonZero, hn]
  · constructor
    · intro ho
      refine ⟨o.getD 0, ?_, ?_⟩
      · cases o with
        | none => exact hpos
        | some n => exact (ho n rfl).2
      · cases o with
        | none => rfl
        | some n => exact (if_neg (ho n rfl).1).symm
    · rintro ⟨n, hn, rfl⟩ m hm
      by_cases hzero : n = 0
      · simp [hzero] at hm
      · simp only [hzero, if_false, Option.mem_def, Option.some.injEq] at hm
        exact hm ▸ ⟨hzero, hn⟩

namespace PeerListEntryState

def write : PeerListEntryState → IVec
  | whitelist => writeU8 0
  | graylist => writeU8 1
  | blacklist => writeU8 2

def read : Reader PeerListEntryState := do
  match ← readU8 with
  | 0 => return whitelist
  | 1 => return graylist
  | 2 => return blacklist
  | _ => throw .invalidValue

theorem codec : Codec (fun _ => read) write (fun _ => True) := by
  refine Codec.tagged (fun s _ => by cases s <;> exact List.cons_ne_nil _ _) fun t => ?_
  match t with
  | 0 => exact Codec.pure rfl fun s => by cases s <;> simp [write]
  | 1 => exact Codec.pure rfl fun s => by cases s <;> simp [write]
  | 2 => exact Codec.pure rfl fun s => by cases s <;> simp [write]
  | t + 3 => exact Codec.throw fun s => by cases s <;> simp [write]

end PeerListEntryState

namespace PeerListEntry

def new (localPort : Option Nat) (state : PeerListEntryState) : PeerListEntry := { localPort, state }

def write (entry : PeerListEntry) : IVec :=
  [writeOptionalNonZero writeU64 entry.firstSeen, writeOptionalNonZero writeU64 entry.lastSeen,
    writeOptionalNonZero writeU64 entry.lastConnectionTry, writeU8 entry.failCount,
    writeOptionalNonZero writeU16 entry.localPort, writeOption writeU64 entry.tempBanUntil, entry.state.write,
    writeOption writeHash entry.publicKey].flatten

def read : Reader PeerListEntry := do
  let firstSeen ← readOptionalNonZero readU64
  let lastSeen ← readOptionalNonZero readU64
  let lastConnectionTry ← readOptionalNonZero readU64
  let failCount ← readU8
  let localPort ← readOptionalNonZero readU16
  let tempBanUntil ← readOption readU64
  let state ← PeerListEntryState.read
  let publicKey ← readOption readHash
  return { firstSeen, lastSeen, lastConnectionTry, failCount, localPort, tempBanUntil, state, publicKey }

/-- The numbers fit their width. -/
structure Fits (entry : PeerListEntry) : Prop where
  firstSeen : ∀ n ∈ entry.firstSeen, n < U64_RANGE
  lastSeen : ∀ n ∈ entry.lastSeen, n < U64_RANGE
  lastConnectionTry : ∀ n ∈ entry.lastConnectionTry, n < U64_RANGE
  failCount : entry.failCount < 2 ^ 8
  localPort : ∀ n ∈ entry.localPort, n < 2 ^ 16
  tempBanUntil : ∀ n ∈ entry.tempBanUntil, n < U64_RANGE

/-- None of the numbers that zero stands for is zero. -/
structure NonZero (entry : PeerListEntry) : Prop where
  firstSeen : ∀ n ∈ entry.firstSeen, n ≠ 0
  lastSeen : ∀ n ∈ entry.lastSeen, n ≠ 0
  lastConnectionTry : ∀ n ∈ entry.lastConnectionTry, n ≠ 0
  localPort : ∀ n ∈ entry.localPort, n ≠ 0

theorem codec : Codec (fun _ => read) write (fun entry => entry.Fits ∧ entry.NonZero) := by
  have htime := optionalNonZero_codec (by decide) u64_codec
  refine htime.bind (p := firstSeen) (fun e h n hn => ⟨h.2.firstSeen n hn, h.1.firstSeen n hn⟩) fun firstSeen hfirst => ?_
  refine htime.bind (p := lastSeen) (fun e h n hn => ⟨h.2.2.lastSeen n hn, h.2.1.lastSeen n hn⟩) fun lastSeen hlast => ?_
  refine htime.bind (p := lastConnectionTry)
    (fun e h n hn => ⟨h.2.2.2.lastConnectionTry n hn, h.2.2.1.lastConnectionTry n hn⟩) fun lastConnectionTry htry => ?_
  refine u8_codec.bind (p := failCount) (fun e h => h.2.2.2.1.failCount) fun failCount hfail => ?_
  refine (optionalNonZero_codec (by decide) u16_codec).bind (p := localPort)
    (fun e h n hn => ⟨h.2.2.2.2.2.localPort n hn, h.2.2.2.2.1.localPort n hn⟩) fun localPort hport => ?_
  refine (option_codec u64_codec).bind (p := tempBanUntil) (fun e h => h.2.2.2.2.2.1.tempBanUntil) fun tempBanUntil hban => ?_
  refine PeerListEntryState.codec.bind (p := state) (fun _ _ => trivial) fun state _ => ?_
  refine (option_codec hash_codec).bind (p := publicKey) (fun _ _ _ _ => trivial) fun publicKey _ => ?_
  refine Codec.pure rfl fun entry => ?_
  constructor
  · rintro ⟨rfl, rfl, rfl, rfl, rfl, rfl, rfl, rfl, -⟩
    rfl
  · rintro rfl
    refine ⟨rfl, rfl, rfl, rfl, rfl, rfl, rfl, rfl, ⟨?_, ?_, ?_, hfail, ?_, hban⟩, ⟨?_, ?_, ?_, ?_⟩⟩
    · exact fun n hn => (hfirst n hn).2
    · exact fun n hn => (hlast n hn).2
    · exact fun n hn => (htry n hn).2
    · exact fun n hn => (hport n hn).2
    · exact fun n hn => (hfirst n hn).1
    · exact fun n hn => (hlast n hn).1
    · exact fun n hn => (htry n hn).1
    · exact fun n hn => (hport n hn).1

/-- What is left of an entry in its bytes. -/
def stored (entry : PeerListEntry) : PeerListEntry :=
  { entry with
    firstSeen := entry.firstSeen.filter (· ≠ 0)
    lastSeen := entry.lastSeen.filter (· ≠ 0)
    lastConnectionTry := entry.lastConnectionTry.filter (· ≠ 0)
    localPort := entry.localPort.filter (· ≠ 0) }

theorem writeOptionalNonZero_filter (write : Nat → IVec) (value : Option Nat) :
    writeOptionalNonZero write (value.filter (· ≠ 0)) = writeOptionalNonZero write value := by
  cases value with
  | none => rfl
  | some n => cases n <;> rfl

theorem write_stored (entry : PeerListEntry) : entry.stored.write = entry.write := by
  simp only [write, stored, writeOptionalNonZero_filter]

theorem Fits.stored {entry : PeerListEntry} (h : entry.Fits) : entry.stored.Fits where
  firstSeen n hn := h.firstSeen n (Option.mem_filter_iff.mp hn).1
  lastSeen n hn := h.lastSeen n (Option.mem_filter_iff.mp hn).1
  lastConnectionTry n hn := h.lastConnectionTry n (Option.mem_filter_iff.mp hn).1
  failCount := h.failCount
  localPort n hn := h.localPort n (Option.mem_filter_iff.mp hn).1
  tempBanUntil := h.tempBanUntil

theorem stored_nonZero (entry : PeerListEntry) : entry.stored.NonZero where
  firstSeen _ hn := of_decide_eq_true (Option.mem_filter_iff.mp hn).2
  lastSeen _ hn := of_decide_eq_true (Option.mem_filter_iff.mp hn).2
  lastConnectionTry _ hn := of_decide_eq_true (Option.mem_filter_iff.mp hn).2
  localPort _ hn := of_decide_eq_true (Option.mem_filter_iff.mp hn).2

end PeerListEntry

inductive PeerListError where
  | reader (e : ReaderError)
  | notFound
  /-- A peer could not be told to leave. -/
  | signalExit
  /-- An addition or subtraction of 64 bit numbers that leaves their range. -/
  | arithmeticOverflow
  deriving DecidableEq

def fromBytes {α : Type} (read : Reader α) (bytes : IVec) : Except PeerListError α :=
  match read bytes with
  | .ok (value, _) => .ok value
  | .error e => .error (.reader e)

/-- The tree on disk: entries by address. -/
abbrev DiskCache := FiniteMap IVec IVec

namespace DiskCache

def hasPeerlistEntry (cache : DiskCache) (peer : IpAddr) : Bool := cache.contains peer.write

def setPeerlistEntry (cache : DiskCache) (peer : IpAddr) (entry : PeerListEntry) : DiskCache := cache.insert peer.write entry.write

def getPeerlistEntry (cache : DiskCache) (peer : IpAddr) : Except PeerListError PeerListEntry :=
  match cache[peer.write]? with
  | some bytes => fromBytes PeerListEntry.read bytes
  | none => .error .notFound

def removePeerlistEntry (cache : DiskCache) (peer : IpAddr) : DiskCache := cache.erase peer.write

def decodeEntry (record : IVec × IVec) : Except PeerListError (IpAddr × PeerListEntry) := do
  let ip ← fromBytes IpAddr.read record.1
  let entry ← fromBytes PeerListEntry.read record.2
  return (ip, entry)

end DiskCache

/-- A peer that is connected: where it is connected from, where it can be reached, and whether it can be told to leave. -/
structure ConnectedPeer where
  address : SocketAddr
  outgoingAddress : SocketAddr
  exits : Bool
  deriving DecidableEq

structure PeerList where
  peers : List ConnectedPeer := []
  cache : DiskCache := ∅

abbrev PeerListM := Exec PeerListError PeerList

namespace PeerList

def hasEntry (ip : IpAddr) : PeerListM Bool := return (← get).cache.hasPeerlistEntry ip

def getEntry (ip : IpAddr) : PeerListM PeerListEntry := do Exec.ofExcept ((← get).cache.getPeerlistEntry ip)

def setEntry (ip : IpAddr) (entry : PeerListEntry) : PeerListM PUnit :=
  modify (fun list => { list with cache := list.cache.setPeerlistEntry ip entry })

def removeEntry (ip : IpAddr) : PeerListM PUnit := modify (fun list => { list with cache := list.cache.removePeerlistEntry ip })

def checkedAdd (a b : Nat) : PeerListM Nat := if a + b < U64_RANGE then return a + b else throw .arithmeticOverflow

def signalExit (peer : ConnectedPeer) : PeerListM PUnit := if peer.exits then return else throw .signalExit

/-- Verify that the peer is not blacklisted or temp banned. -/
def isAllowed (now : Nat) (ip : IpAddr) : PeerListM Bool := do
  if !(← hasEntry ip) then return true
  else do
    let entry ← getEntry ip
    return entry.state ≠ .blacklist && (entry.tempBanUntil.map (fun tempBanUntil => decide (tempBanUntil < now))).getD true

def addrHasState (ip : IpAddr) (state : PeerListEntryState) : PeerListM Bool := do
  if ← hasEntry ip then return (← getEntry ip).state = state
  else return false

def isBlacklisted (ip : IpAddr) : PeerListM Bool := addrHasState ip .blacklist

def isWhitelisted (ip : IpAddr) : PeerListM Bool := addrHasState ip .whitelist

def setStateToAddress (ip : IpAddr) (state : PeerListEntryState) : PeerListM PUnit := do
  if ← hasEntry ip then do
    let entry ← getEntry ip
    setEntry ip { entry with state }
  else setEntry ip (.new none state)

/-- An entry without a local port is deleted, and then written again as it was. -/
def setGraylistForPeer (ip : IpAddr) : PeerListM PUnit := do
  if ← hasEntry ip then do
    let entry ← getEntry ip
    if entry.localPort.isNone then do
      removeEntry ip
      setEntry ip entry
    else setEntry ip { entry with state := .graylist }

/-- The first peer that is connected from an address has to leave. -/
def exitPeer (ip : IpAddr) : PeerListM PUnit := do
  match (← get).peers.find? (fun peer => peer.address.ip = ip) with
  | some peer => signalExit peer
  | none => return

def exitPeers (ip : IpAddr) : PeerListM PUnit := do ((← get).peers.filter (fun peer => peer.address.ip = ip)).forM signalExit

def blacklistAddress (ip : IpAddr) : PeerListM PUnit := do
  setStateToAddress ip .blacklist
  exitPeer ip

def whitelistAddress (ip : IpAddr) : PeerListM PUnit := setStateToAddress ip .whitelist

def setTempBan (now : Nat) (ip : IpAddr) (seconds : Nat) : PeerListM PUnit := do
  if ← hasEntry ip then do
    let entry ← getEntry ip
    let tempBanUntil ← checkedAdd now seconds
    setEntry ip { entry with tempBanUntil := some tempBanUntil }
  else setEntry ip (.new none .graylist)

def tempBanAddress (now : Nat) (ip : IpAddr) (seconds : Nat) (closePeer : Bool) : PeerListM PUnit := do
  setTempBan now ip seconds
  if closePeer then exitPeers ip else return

/-- What is found in the stored list: a whitelisted peer ends the search, the first graylisted one is remembered. -/
inductive FoundPeer where
  | whitelisted (ip : IpAddr) (addr : SocketAddr) (entry : PeerListEntry)
  | gray (peer : Option (IpAddr × SocketAddr))

/-- The message about a skipped peer says for how long it is banned. -/
def logSkipped (debug : Bool) (now : Nat) (entry : PeerListEntry) : PeerListM PUnit :=
  match entry.tempBanUntil with
  | some tempBanUntil => if debug && decide (tempBanUntil < now) then throw .arithmeticOverflow else return
  | none => return

/-- What becomes of an entry of the list: it is passed over, remembered, or taken at once. -/
inductive Choice where
  | skip
  | remember (addr : SocketAddr)
  | take (addr : SocketAddr)

def considerPeer (debug : Bool) (now : Nat) (peers : List ConnectedPeer) (potentialGrayPeer : Option (IpAddr × SocketAddr))
    (ip : IpAddr) (entry : PeerListEntry) : PeerListM Choice :=
  if entry.state = .blacklist || (entry.tempBanUntil.map (fun tempBanUntil => decide (now < tempBanUntil))).getD false then do
    logSkipped debug now entry
    return .skip
  else match entry.localPort with
    | none => return .skip
    | some localPort => do
      let addr : SocketAddr := ⟨ip, localPort⟩
      let retry ← checkedAdd (entry.lastConnectionTry.getD 0) (entry.failCount * P2P_PEERLIST_RETRY_AFTER)
      if decide (retry ≤ now) && !peers.any (fun peer => peer.address = addr || peer.outgoingAddress = addr) then
        if potentialGrayPeer.isNone && entry.state = .graylist then return .remember addr
        else if entry.state = .whitelist then return .take addr
        else return .skip
      else return .skip

def searchPeers (debug : Bool) (now : Nat) (peers : List ConnectedPeer) :
    List (IVec × IVec) → Option (IpAddr × SocketAddr) → PeerListM FoundPeer
  | [], potentialGrayPeer => return .gray potentialGrayPeer
  | record :: records, potentialGrayPeer => do
    let (ip, entry) ← Exec.ofExcept (DiskCache.decodeEntry record)
    match ← considerPeer debug now peers potentialGrayPeer ip entry with
    | .skip => searchPeers debug now peers records potentialGrayPeer
    | .remember addr => searchPeers debug now peers records (some (ip, addr))
    | .take addr => return .whitelisted ip addr entry

def findPeerToConnect (debug : Bool) (now : Nat) : PeerListM (Option SocketAddr) := do
  let list ← get
  match ← searchPeers debug now list.peers list.cache.toList none with
  | .whitelisted ip addr entry => do
    setEntry ip { entry with lastConnectionTry := some now }
    return some addr
  | .gray (some (ip, addr)) => do
    let entry ← getEntry ip
    setEntry ip { entry with lastConnectionTry := some now }
    return some addr
  | .gray none => return none

def entryOrNew (ip : IpAddr) : PeerListM PeerListEntry := do
  if ← hasEntry ip then getEntry ip else return .new none .graylist

def countFailure (now : Nat) (ip : IpAddr) (tempBan : Bool) (entry : PeerListEntry) : PeerListM PUnit :=
  if entry.state ≠ .whitelist then
    if entry.failCount = U8_MAX then removeEntry ip
    else if tempBan && decide (entry.failCount ≠ 0) && entry.failCount % PEER_FAIL_TO_CONNECT_LIMIT = 0 then do
      let tempBanUntil ← checkedAdd now PEER_TEMP_BAN_TIME_ON_CONNECT
      setEntry ip { entry with tempBanUntil := some tempBanUntil, failCount := entry.failCount + 1 }
    else setEntry ip { entry with failCount := entry.failCount + 1 }
  else return

def increaseFailCountForPeerlistEntry (now : Nat) (ip : IpAddr) (tempBan : Bool) : PeerListM PUnit := do
  countFailure now ip tempBan (← entryOrNew ip)

def storePeerAddress (addr : SocketAddr) : PeerListM Bool := do
  if ← hasEntry addr.ip then return false
  else do
    setEntry addr.ip (.new (some addr.port) .graylist)
    return true

def storeDhKeyForPeer (ip : IpAddr) (publicKey : BitVec 256) : PeerListM PUnit := do
  let entry ← entryOrNew ip
  setEntry ip { entry with publicKey := some publicKey }

/-- A peer that connects or leaves: it is remembered, and its fail count starts again. -/
def updatePeer (now : Nat) (ip : IpAddr) (localPort connectedOn : Nat) : PeerListM PUnit := do
  if ← hasEntry ip then do
    let entry ← getEntry ip
    setEntry ip { entry with
      failCount := 0
      firstSeen := some (entry.firstSeen.getD connectedOn)
      lastSeen := some now
      localPort := some localPort }
  else setEntry ip { PeerListEntry.new (some localPort) .graylist with firstSeen := some connectedOn, lastSeen := some now }

end PeerList

end Xelis.P2p
