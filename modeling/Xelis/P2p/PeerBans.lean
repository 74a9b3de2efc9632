import Xelis.P2p.PeerList

namespace Xelis.P2p

open Lib (FiniteMap Exec)

namespace PeerList

section Known

def known (list : PeerList) (ip : IpAddr) : Option PeerListEntry :=
  list.cache[ip.write]?.bind (fun bytes => (fromBytes PeerListEntry.read bytes).toOption)

/-- The system clock counts seconds in 63 bits. -/
def CLOCK_RANGE : Nat := 2 ^ 63

/-- Every record on disk is an entry that was written for an address, and was last tried in the past. -/
structure Sound (clock : Nat) (list : PeerList) : Prop where
  clock_lt : clock < CLOCK_RANGE
  records : ∀ key bytes, list.cache[key]? = some bytes → ∃ (ip : IpAddr) (entry : PeerListEntry), key = ip.write ∧ bytes = entry.write ∧
    entry.Fits ∧ entry.NonZero ∧ ∀ t ∈ entry.lastConnectionTry, t ≤ clock

theorem write_injective {a b : IpAddr} (h : a.write = b.write) : a = b := by
  have ha := IpAddr.codec.reads true a trivial []
  have hb := IpAddr.codec.reads true b trivial []
  rw [h, hb] at ha
  exact (Prod.mk.inj (Except.ok.inj ha)).1.symm

theorem fromBytes_write {entry : PeerListEntry} (hfits : entry.Fits) (hnonZero : entry.NonZero) :
    fromBytes PeerListEntry.read entry.write = .ok entry := by
  have hread := PeerListEntry.codec.reads true entry ⟨hfits, hnonZero⟩ []
  rw [List.append_nil] at hread
  unfold fromBytes
  rw [hread]

theorem fromBytes_ip (ip : IpAddr) : fromBytes IpAddr.read ip.write = .ok ip := by
  have hread := IpAddr.codec.reads true ip trivial []
  rw [List.append_nil] at hread
  unfold fromBytes
  rw [hread]

variable {clock now : Nat} {list : PeerList} {ip : IpAddr} {entry : PeerListEntry}

theorem Sound.known_eq (h : Sound clock list) (ip : IpAddr) :
    (known list ip = none ∧ list.cache[ip.write]? = none) ∨
      ∃ entry, known list ip = some entry ∧ list.cache[ip.write]? = some entry.write ∧ entry.Fits ∧ entry.NonZero ∧
        ∀ t ∈ entry.lastConnectionTry, t ≤ clock := by
  unfold known
  cases hrecord : list.cache[ip.write]? with
  | none => exact .inl ⟨rfl, rfl⟩
  | some bytes =>
    obtain ⟨-, entry, -, rfl, hfits, hnonZero, htry⟩ := h.records _ _ hrecord
    refine .inr ⟨entry, ?_, rfl, hfits, hnonZero, htry⟩
    rw [Option.bind_some, fromBytes_write hfits hnonZero]
    rfl

theorem Sound.of_known (h : Sound clock list) (hknown : known list ip = some entry) :
    list.cache[ip.write]? = some entry.write ∧ entry.Fits ∧ entry.NonZero ∧ ∀ t ∈ entry.lastConnectionTry, t ≤ clock := by
  rcases h.known_eq ip with ⟨hnone, -⟩ | ⟨entry', hsome, hrest⟩
  · rw [hnone] at hknown
    cases hknown
  · rw [hsome, Option.some.injEq] at hknown
    exact hknown ▸ hrest

theorem Sound.hasEntry (h : Sound clock list) (ip : IpAddr) :
    PeerList.hasEntry ip list = .ok (known list ip).isSome list := by
  have hcontains : list.cache.hasPeerlistEntry ip = (known list ip).isSome := by
    unfold DiskCache.hasPeerlistEntry
    rw [Std.ExtTreeMap.contains_eq_isSome_getElem?]
    rcases h.known_eq ip with ⟨hnone, hrecord⟩ | ⟨entry, hsome, hrecord, -⟩
    · rw [hnone, hrecord]
      rfl
    · rw [hsome, hrecord]
      rfl
  rw [← hcontains]
  rfl

theorem Sound.getEntry (h : Sound clock list) (hknown : known list ip = some entry) : PeerList.getEntry ip list = .ok entry list := by
  obtain ⟨hrecord, hfits, hnonZero, -⟩ := h.of_known hknown
  unfold PeerList.getEntry
  rw [Exec.bind_apply, Exec.get_apply]
  simp only [DiskCache.getPeerlistEntry, hrecord, fromBytes_write hfits hnonZero]
  rfl

def withEntry (list : PeerList) (ip : IpAddr) (entry : PeerListEntry) : PeerList :=
  { list with cache := list.cache.setPeerlistEntry ip entry }

def withoutEntry (list : PeerList) (ip : IpAddr) : PeerList := { list with cache := list.cache.removePeerlistEntry ip }

theorem known_withEntry (list : PeerList) (ip : IpAddr) (hfits : entry.Fits) :
    known (list.withEntry ip entry) = Function.update (known list) ip (some entry.stored) := by
  funext ip'
  unfold known withEntry DiskCache.setPeerlistEntry
  by_cases hip : ip' = ip
  · subst hip
    rw [Function.update_self, FiniteMap.getElem?_insert_self', Option.bind_some, ← entry.write_stored,
      fromBytes_write hfits.stored entry.stored_nonZero]
    rfl
  · rw [Function.update_of_ne hip, FiniteMap.getElem?_insert_of_ne _ _ (fun heq => hip (write_injective heq).symm)]

theorem known_withoutEntry (list : PeerList) (ip : IpAddr) :
    known (list.withoutEntry ip) = Function.update (known list) ip none := by
  funext ip'
  unfold known withoutEntry DiskCache.removePeerlistEntry
  by_cases hip : ip' = ip
  · subst hip
    rw [Function.update_self, FiniteMap.getElem?_erase_self']
    rfl
  · rw [Function.update_of_ne hip, FiniteMap.getElem?_erase_of_ne _ (fun heq => hip (write_injective heq).symm)]

theorem Sound.withEntry (h : Sound clock list) (ip : IpAddr) (hfits : entry.Fits)
    (htry : ∀ t ∈ entry.lastConnectionTry, t ≤ clock) : Sound clock (list.withEntry ip entry) where
  clock_lt := h.clock_lt
  records key bytes hrecord := by
    by_cases hkey : ip.write = key
    · subst hkey
      rw [PeerList.withEntry, DiskCache.setPeerlistEntry, FiniteMap.getElem?_insert_self', Option.some.injEq] at hrecord
      refine ⟨ip, entry.stored, rfl, hrecord.symm.trans entry.write_stored.symm, hfits.stored, entry.stored_nonZero, ?_⟩
      exact fun t ht => htry t (Option.mem_filter_iff.mp ht).1
    · rw [PeerList.withEntry, DiskCache.setPeerlistEntry, FiniteMap.getElem?_insert_of_ne _ _ hkey] at hrecord
      exact h.records key bytes hrecord

theorem Sound.withoutEntry (h : Sound clock list) (ip : IpAddr) : Sound clock (list.withoutEntry ip) where
  clock_lt := h.clock_lt
  records key bytes hrecord := by
    by_cases hkey : ip.write = key
    · subst hkey
      rw [PeerList.withoutEntry, DiskCache.removePeerlistEntry, FiniteMap.getElem?_erase_self'] at hrecord
      cases hrecord
    · rw [PeerList.withoutEntry, DiskCache.removePeerlistEntry, FiniteMap.getElem?_erase_of_ne _ hkey] at hrecord
      exact h.records key bytes hrecord

theorem Sound.later (h : Sound clock list) (hle : clock ≤ now) (hnow : now < CLOCK_RANGE) : Sound now list where
  clock_lt := hnow
  records key bytes hrecord := by
    obtain ⟨ip, entry, hkey, hbytes, hfits, hnonZero, htry⟩ := h.records key bytes hrecord
    exact ⟨ip, entry, hkey, hbytes, hfits, hnonZero, fun t ht => (htry t ht).trans hle⟩

theorem Sound.ifKnown {α : Type} (h : Sound clock list) (ip : IpAddr) (f : PeerListEntry → PeerListM α) (g : PeerListM α) :
    (PeerList.hasEntry ip >>= fun b => if b = true then PeerList.getEntry ip >>= f else g) list =
      match known list ip with
      | some entry => f entry list
      | none => g list := by
  rw [Exec.bind_apply, h.hasEntry ip]
  cases hknown : known list ip with
  | none => rfl
  | some entry =>
    show (PeerList.getEntry ip >>= f) list = f entry list
    rw [Exec.bind_apply, h.getEntry hknown]

theorem Sound.entryOrNew (h : Sound clock list) (ip : IpAddr) :
    PeerList.entryOrNew ip list = .ok ((known list ip).getD (.new none .graylist)) list := by
  unfold PeerList.entryOrNew
  rw [Exec.bind_apply, h.hasEntry ip]
  cases hknown : known list ip with
  | none => rfl
  | some entry => exact h.getEntry hknown

end Known

section Operations

inductive Operation where
  | blacklistAddress (ip : IpAddr)
  | whitelistAddress (ip : IpAddr)
  | tempBanAddress (ip : IpAddr) (seconds : Nat) (closePeer : Bool)
  | setGraylistForPeer (ip : IpAddr)
  | storePeerAddress (addr : SocketAddr)
  | increaseFailCountForPeerlistEntry (ip : IpAddr) (tempBan : Bool)
  | storeDhKeyForPeer (ip : IpAddr) (publicKey : BitVec 256)
  | updatePeer (ip : IpAddr) (localPort connectedOn : Nat)
  | findPeerToConnect (debug : Bool)
  /-- Peers connect and leave. -/
  | connected (peers : List ConnectedPeer)

namespace Operation

def run (now : Nat) : Operation → PeerListM PUnit
  | blacklistAddress ip => PeerList.blacklistAddress ip
  | whitelistAddress ip => PeerList.whitelistAddress ip
  | tempBanAddress ip seconds closePeer => PeerList.tempBanAddress now ip seconds closePeer
  | setGraylistForPeer ip => PeerList.setGraylistForPeer ip
  | storePeerAddress addr => discard (PeerList.storePeerAddress addr)
  | increaseFailCountForPeerlistEntry ip tempBan => PeerList.increaseFailCountForPeerlistEntry now ip tempBan
  | storeDhKeyForPeer ip publicKey => PeerList.storeDhKeyForPeer ip publicKey
  | updatePeer ip localPort connectedOn => PeerList.updatePeer now ip localPort connectedOn
  | findPeerToConnect debug => discard (PeerList.findPeerToConnect debug now)
  | connected peers => modify (fun list => { list with peers })

/-- The numbers an operation is given fit their width. -/
def Fits : Operation → Prop
  | tempBanAddress _ seconds _ => seconds < U64_RANGE
  | storePeerAddress addr => addr.port < 2 ^ 16
  | updatePeer _ localPort connectedOn => localPort < 2 ^ 16 ∧ connectedOn < U64_RANGE
  | _ => True

/-- The address whose ban an operation may change. -/
def target : Operation → Option IpAddr
  | blacklistAddress ip => some ip
  | whitelistAddress ip => some ip
  | tempBanAddress ip _ _ => some ip
  | setGraylistForPeer ip => some ip
  | storePeerAddress addr => some addr.ip
  | increaseFailCountForPeerlistEntry ip _ => some ip
  | storeDhKeyForPeer ip _ => some ip
  | updatePeer ip _ _ => some ip
  | findPeerToConnect _ => none
  | connected _ => none

/-- The state and the end of the ban that an operation leaves for its address. -/
def banAfter (now : Nat) (op : Operation) (entry : Option PeerListEntry) : Option (PeerListEntryState × Option Nat) :=
  let before := entry.map (fun e => (e.state, e.tempBanUntil))
  match op with
  | blacklistAddress _ => some (.blacklist, entry.bind PeerListEntry.tempBanUntil)
  | whitelistAddress _ => some (.whitelist, entry.bind PeerListEntry.tempBanUntil)
  | tempBanAddress _ seconds _ =>
    match entry with
    | some e => if now + seconds < U64_RANGE then some (e.state, some (now + seconds)) else before
    | none => some (.graylist, none)
  | setGraylistForPeer _ => entry.map (fun e => (if e.localPort.isNone then e.state else .graylist, e.tempBanUntil))
  | increaseFailCountForPeerlistEntry _ tempBan =>
    match entry with
    | some e =>
      if e.state = .whitelist then before
      else if e.failCount = U8_MAX then none
      else if tempBan && decide (e.failCount ≠ 0) && e.failCount % PEER_FAIL_TO_CONNECT_LIMIT = 0 then
        some (e.state, some (now + PEER_TEMP_BAN_TIME_ON_CONNECT))
      else before
    | none => some (.graylist, none)
  | _ => some (before.getD (.graylist, none))

end Operation

/-- The ban of an address: its state and the end of a temporary one. -/
def ban (list : PeerList) (ip : IpAddr) : Option (PeerListEntryState × Option Nat) :=
  (known list ip).map (fun e => (e.state, e.tempBanUntil))

variable {clock now : Nat} {list list' : PeerList} {ip : IpAddr} {entry : PeerListEntry}
  {after : Option (PeerListEntryState × Option Nat)}

/-- A step that leaves a sound list and changes the ban of one address at most. -/
structure Effect (now : Nat) (list : PeerList) (ip : IpAddr) (after : Option (PeerListEntryState × Option Nat))
    (list' : PeerList) : Prop where
  sound : Sound now list'
  ban_eq : ban list' = Function.update (ban list) ip after

theorem Effect.withEntry (h : Sound now list) (ip : IpAddr) (hfits : entry.Fits)
    (htry : ∀ t ∈ entry.lastConnectionTry, t ≤ now) (hafter : after = some (entry.state, entry.tempBanUntil)) :
    Effect now list ip after (list.withEntry ip entry) where
  sound := h.withEntry ip hfits htry
  ban_eq := by
    funext ip'
    unfold ban
    rw [known_withEntry list ip hfits, hafter]
    by_cases hip : ip' = ip
    · subst hip
      rw [Function.update_self, Function.update_self]
      rfl
    · rw [Function.update_of_ne hip, Function.update_of_ne hip]

theorem Effect.withoutEntry (h : Sound now list) (ip : IpAddr) : Effect now list ip none (list.withoutEntry ip) where
  sound := h.withoutEntry ip
  ban_eq := by
    funext ip'
    unfold ban
    rw [known_withoutEntry list ip]
    by_cases hip : ip' = ip
    · subst hip
      rw [Function.update_self, Function.update_self]
      rfl
    · rw [Function.update_of_ne hip, Function.update_of_ne hip]

theorem Effect.unchanged (h : Sound now list) (hafter : after = ban list ip) : Effect now list ip after list where
  sound := h
  ban_eq := by rw [hafter, Function.update_eq_self]

theorem new_fits {localPort : Option Nat} (state : PeerListEntryState) (h : ∀ n ∈ localPort, n < 2 ^ 16) :
    (PeerListEntry.new localPort state).Fits :=
  ⟨nofun, nofun, nofun, Nat.two_pow_pos 8, h, nofun⟩

theorem setStateToAddress_effect (h : Sound now list) (ip : IpAddr) (state : PeerListEntryState) :
    ∃ list', setStateToAddress ip state list = .ok ⟨⟩ list' ∧
      Effect now list ip (some (state, (known list ip).bind PeerListEntry.tempBanUntil)) list' := by
  unfold setStateToAddress
  rw [h.ifKnown]
  cases hknown : known list ip with
  | none =>
    exact ⟨_, rfl, Effect.withEntry h ip (new_fits state nofun) nofun rfl⟩
  | some entry =>
    obtain ⟨-, hfits, -, htry⟩ := h.of_known hknown
    exact ⟨_, rfl, Effect.withEntry h ip { hfits with } htry rfl⟩

theorem stateOf_signalExit (peer : ConnectedPeer) (list : PeerList) : Exec.stateOf (signalExit peer list) = list := by
  unfold signalExit
  cases peer.exits <;> rfl

theorem stateOf_exitPeer (ip : IpAddr) (list : PeerList) : Exec.stateOf (exitPeer ip list) = list := by
  unfold exitPeer
  rw [Exec.stateOf_bind_still]
  · rfl
  · intro list' s
    cases list'.peers.find? (fun peer => decide (peer.address.ip = ip)) with
    | some peer => exact stateOf_signalExit peer s
    | none => rfl

theorem stateOf_exitPeers (ip : IpAddr) (list : PeerList) : Exec.stateOf (exitPeers ip list) = list := by
  unfold exitPeers
  rw [Exec.stateOf_bind_still]
  · rfl
  · intro list' s
    generalize list'.peers.filter _ = peers
    induction peers generalizing s with
    | nil => rfl
    | cons peer peers ih => exact (Exec.stateOf_bind_still (signalExit peer) (fun _ s => ih s) s).trans (stateOf_signalExit peer s)

theorem blacklistAddress_effect (h : Sound now list) (ip : IpAddr) :
    Effect now list ip (some (.blacklist, (known list ip).bind PeerListEntry.tempBanUntil))
      (Exec.stateOf (blacklistAddress ip list)) := by
  obtain ⟨list', hset, heffect⟩ := setStateToAddress_effect h ip .blacklist
  unfold blacklistAddress
  rw [Exec.stateOf_bind_still _ (fun _ s => stateOf_exitPeer ip s), hset]
  exact heffect

theorem tempBanAddress_effect (h : Sound now list) (ip : IpAddr) (seconds : Nat) (closePeer : Bool) :
    Effect now list ip ((Operation.tempBanAddress ip seconds closePeer).banAfter now (known list ip))
      (Exec.stateOf (tempBanAddress now ip seconds closePeer list)) := by
  unfold tempBanAddress
  rw [Exec.stateOf_bind_still _ (fun _ s => by cases closePeer <;> first | rfl | exact stateOf_exitPeers ip s)]
  unfold setTempBan
  rw [h.ifKnown]
  cases hknown : known list ip with
  | none => exact Effect.withEntry h ip (new_fits .graylist nofun) nofun rfl
  | some entry =>
    obtain ⟨-, hfits, -, htry⟩ := h.of_known hknown
    by_cases hlt : now + seconds < U64_RANGE
    · simp only [Operation.banAfter, checkedAdd, if_pos hlt]
      exact Effect.withEntry h ip { hfits with tempBanUntil := fun n hn => Option.mem_some.mp hn ▸ hlt } htry rfl
    · simp only [Operation.banAfter, checkedAdd, if_neg hlt]
      exact Effect.unchanged h (by rw [ban, hknown])

theorem setGraylistForPeer_effect (h : Sound now list) (ip : IpAddr) :
    Effect now list ip ((Operation.setGraylistForPeer ip).banAfter now (known list ip))
      (Exec.stateOf (setGraylistForPeer ip list)) := by
  unfold setGraylistForPeer
  rw [h.ifKnown]
  cases hknown : known list ip with
  | none => exact Effect.unchanged h (by rw [ban, hknown]; rfl)
  | some entry =>
    obtain ⟨-, hfits, -, htry⟩ := h.of_known hknown
    have hremoved := Effect.withoutEntry h ip
    have hset := Effect.withEntry hremoved.sound ip hfits htry rfl
    by_cases hport : entry.localPort.isNone
    · have hafter : (Operation.setGraylistForPeer ip).banAfter now (some entry) = some (entry.state, entry.tempBanUntil) := by
        simp only [Operation.banAfter, Option.map_some, if_pos hport]
      simp only [if_pos hport]
      rw [hafter]
      exact ⟨hset.sound, hset.ban_eq.trans (by rw [hremoved.ban_eq, Function.update_idem])⟩
    · simp only [if_neg hport]
      exact Effect.withEntry h ip { hfits with } htry (by simp only [Operation.banAfter, Option.map_some, if_neg hport])

theorem increaseFailCount_effect (h : Sound now list) (ip : IpAddr) (tempBan : Bool) :
    Effect now list ip ((Operation.increaseFailCountForPeerlistEntry ip tempBan).banAfter now (known list ip))
      (Exec.stateOf (increaseFailCountForPeerlistEntry now ip tempBan list)) := by
  have hnow : now + PEER_TEMP_BAN_TIME_ON_CONNECT < U64_RANGE := by
    have := h.clock_lt
    unfold CLOCK_RANGE PEER_TEMP_BAN_TIME_ON_CONNECT U64_RANGE at *
    omega
  unfold increaseFailCountForPeerlistEntry
  rw [Exec.bind_apply, h.entryOrNew]
  cases hknown : known list ip with
  | none =>
    have hfits : { PeerListEntry.new none .graylist with failCount := 1 }.Fits :=
      ⟨nofun, nofun, nofun, by decide, nofun, nofun⟩
    have hcount : countFailure now ip tempBan (.new none .graylist) list =
        .ok ⟨⟩ (list.withEntry ip { PeerListEntry.new none .graylist with failCount := 1 }) := by
      cases tempBan <;> rfl
    show Effect now list ip _ (Exec.stateOf (countFailure now ip tempBan (.new none .graylist) list))
    rw [hcount]
    exact Effect.withEntry h ip hfits nofun rfl
  | some entry =>
    obtain ⟨-, hfits, -, htry⟩ := h.of_known hknown
    have hfits' : entry.failCount ≠ U8_MAX → { entry with failCount := entry.failCount + 1 }.Fits := fun hmax =>
      { hfits with failCount := by have := hfits.failCount; unfold U8_MAX at hmax; show entry.failCount + 1 < 2 ^ 8; omega }
    show Effect now list ip _ (Exec.stateOf (countFailure now ip tempBan entry list))
    unfold countFailure
    simp only [Operation.banAfter]
    by_cases hwhite : entry.state = .whitelist
    · simp only [hwhite, ne_eq, not_true_eq_false, if_false, if_true]
      exact Effect.unchanged h (by rw [ban, hknown])
    · simp only [hwhite, ne_eq, not_false_eq_true, if_true, if_false]
      by_cases hmax : entry.failCount = U8_MAX
      · simp only [if_pos hmax]
        exact Effect.withoutEntry h ip
      · simp only [if_neg hmax]
        by_cases hban : (tempBan && decide (entry.failCount ≠ 0) && decide (entry.failCount % PEER_FAIL_TO_CONNECT_LIMIT = 0)) = true
        · simp only [if_pos hban, checkedAdd, if_pos hnow]
          exact Effect.withEntry h ip { hfits' hmax with tempBanUntil := fun n hn => Option.mem_some.mp hn ▸ hnow } htry rfl
        · simp only [if_neg hban]
          exact Effect.withEntry h ip (hfits' hmax) htry rfl

theorem storePeerAddress_effect (h : Sound now list) (addr : SocketAddr) (hport : addr.port < 2 ^ 16) :
    Effect now list addr.ip ((Operation.storePeerAddress addr).banAfter now (known list addr.ip))
      (Exec.stateOf (storePeerAddress addr list)) := by
  unfold storePeerAddress
  rw [Exec.bind_apply, h.hasEntry]
  cases hknown : known list addr.ip with
  | none => exact Effect.withEntry h addr.ip (new_fits .graylist (fun n hn => Option.mem_some.mp hn ▸ hport)) nofun rfl
  | some entry => exact Effect.unchanged h (by rw [ban, hknown]; rfl)

theorem storeDhKeyForPeer_effect (h : Sound now list) (ip : IpAddr) (publicKey : BitVec 256) :
    Effect now list ip ((Operation.storeDhKeyForPeer ip publicKey).banAfter now (known list ip))
      (Exec.stateOf (storeDhKeyForPeer ip publicKey list)) := by
  unfold storeDhKeyForPeer
  rw [Exec.bind_apply, h.entryOrNew]
  cases hknown : known list ip with
  | none =>
    have hfits : { PeerListEntry.new none .graylist with publicKey := some publicKey }.Fits :=
      ⟨nofun, nofun, nofun, Nat.two_pow_pos 8, nofun, nofun⟩
    exact Effect.withEntry h ip hfits nofun rfl
  | some entry =>
    obtain ⟨-, hfits, -, htry⟩ := h.of_known hknown
    exact Effect.withEntry h ip { hfits with } htry rfl

theorem updatePeer_effect (h : Sound now list) (ip : IpAddr) (localPort connectedOn : Nat)
    (hport : localPort < 2 ^ 16) (hconnected : connectedOn < U64_RANGE) :
    Effect now list ip ((Operation.updatePeer ip localPort connectedOn).banAfter now (known list ip))
      (Exec.stateOf (updatePeer now ip localPort connectedOn list)) := by
  have hnow : now < U64_RANGE := lt_trans h.clock_lt (by decide)
  unfold updatePeer
  rw [h.ifKnown]
  cases hknown : known list ip with
  | none =>
    refine Effect.withEntry h ip ⟨?_, ?_, nofun, Nat.two_pow_pos 8, ?_, nofun⟩ nofun rfl
    · exact fun n hn => Option.mem_some.mp hn ▸ hconnected
    · exact fun n hn => Option.mem_some.mp hn ▸ hnow
    · exact fun n hn => Option.mem_some.mp hn ▸ hport
  | some entry =>
    obtain ⟨-, hfits, -, htry⟩ := h.of_known hknown
    refine Effect.withEntry h ip ⟨?_, ?_, hfits.lastConnectionTry, Nat.two_pow_pos 8, ?_, hfits.tempBanUntil⟩ htry rfl
    · intro n hn
      rw [← Option.mem_some.mp hn]
      cases hfirst : entry.firstSeen with
      | none => exact hconnected
      | some first => exact hfits.firstSeen first hfirst
    · exact fun n hn => Option.mem_some.mp hn ▸ hnow
    · exact fun n hn => Option.mem_some.mp hn ▸ hport

end Operations

section Search

variable {clock now : Nat} {list : PeerList} {ip : IpAddr} {entry : PeerListEntry}

/-- Not blacklisted, and no ban that ends later. -/
def Free (now : Nat) (entry : PeerListEntry) : Prop :=
  entry.state ≠ .blacklist ∧ ∀ tempBanUntil ∈ entry.tempBanUntil, tempBanUntil ≤ now

def ExpiredBlacklist (now : Nat) (list : PeerList) : Prop :=
  ∃ ip entry, known list ip = some entry ∧ entry.state = .blacklist ∧ ∃ tempBanUntil ∈ entry.tempBanUntil, tempBanUntil < now

def GrayFound (now : Nat) (list : PeerList) (gray : Option (IpAddr × SocketAddr)) : Prop :=
  ∀ peer ∈ gray, peer.2.ip = peer.1 ∧ ∃ entry, known list peer.1 = some entry ∧ Free now entry

/-- What a search may find. -/
def FoundPeer.Good (now : Nat) (list : PeerList) : FoundPeer → Prop
  | .whitelisted ip addr entry => addr.ip = ip ∧ known list ip = some entry ∧ Free now entry
  | .gray peer => GrayFound now list peer

theorem Sound.decodeEntry (h : Sound now list) {record : IVec × IVec} (hrecord : record ∈ list.cache.toList) :
    ∃ ip entry, DiskCache.decodeEntry record = .ok (ip, entry) ∧ known list ip = some entry := by
  have hget : list.cache[record.1]? = some record.2 := Std.ExtTreeMap.mem_toList_iff_getElem?_eq_some.mp hrecord
  obtain ⟨ip, entry, hkey, hbytes, hfits, hnonZero, -⟩ := h.records _ _ hget
  refine ⟨ip, entry, ?_, ?_⟩
  · unfold DiskCache.decodeEntry
    rw [hkey, hbytes, fromBytes_ip, fromBytes_write hfits hnonZero]
    rfl
  · unfold known
    rw [← hkey, hget, hbytes, Option.bind_some, fromBytes_write hfits hnonZero]
    rfl

/-- A peer that is chosen is free. Only the message about an expired ban of a blacklisted peer can stop the search. -/
theorem considerPeer_cases (h : Sound now list) (debug : Bool) (peers : List ConnectedPeer)
    (gray : Option (IpAddr × SocketAddr)) (hknown : known list ip = some entry) :
    (∃ choice, considerPeer debug now peers gray ip entry list = .ok choice list ∧
      ∀ addr, choice = .remember addr ∨ choice = .take addr → addr.ip = ip ∧ Free now entry) ∨
      (considerPeer debug now peers gray ip entry list = .error .arithmeticOverflow list ∧ debug = true ∧
        ExpiredBlacklist now list) := by
  obtain ⟨-, hfits, -, htry⟩ := h.of_known hknown
  have hskip : ∀ addr, Choice.skip = .remember addr ∨ Choice.skip = .take addr → addr.ip = ip ∧ Free now entry := by
    rintro addr (h | h) <;> cases h
  unfold considerPeer
  by_cases hbanned : (decide (entry.state = .blacklist) ||
      (entry.tempBanUntil.map (fun tempBanUntil => decide (now < tempBanUntil))).getD false) = true
  · rw [if_pos hbanned, Exec.bind_apply]
    unfold logSkipped
    cases huntil : entry.tempBanUntil with
    | none => exact .inl ⟨.skip, rfl, hskip⟩
    | some tempBanUntil =>
      by_cases hlog : (debug && decide (tempBanUntil < now)) = true
      · simp only [Bool.and_eq_true, decide_eq_true_eq] at hlog
        have hblack : entry.state = .blacklist := by
          simp only [huntil, Option.map_some, Option.getD_some, Bool.or_eq_true, decide_eq_true_eq] at hbanned
          exact hbanned.resolve_right (fun hlt => absurd hlog.2 (Nat.not_lt_of_gt hlt))
        refine .inr ⟨?_, hlog.1, ip, entry, hknown, hblack, tempBanUntil, huntil, hlog.2⟩
        simp only [hlog.1, hlog.2, decide_true, Bool.and_true, if_true]
        rfl
      · simp only [if_neg hlog]
        exact .inl ⟨.skip, rfl, hskip⟩
  · have hfree : Free now entry := by
      simp only [Bool.or_eq_true, decide_eq_true_eq, not_or] at hbanned
      refine ⟨hbanned.1, fun tempBanUntil huntil => ?_⟩
      have hnot := hbanned.2
      rw [Option.mem_def.mp huntil, Option.map_some, Option.getD_some, decide_eq_true_eq] at hnot
      exact Nat.le_of_not_lt hnot
    have hadd : entry.lastConnectionTry.getD 0 + entry.failCount * P2P_PEERLIST_RETRY_AFTER < U64_RANGE := by
      have hlast : entry.lastConnectionTry.getD 0 ≤ now := by
        cases hlast : entry.lastConnectionTry with
        | none => exact Nat.zero_le _
        | some t => exact htry t hlast
      have hclock := h.clock_lt
      have hcount := hfits.failCount
      unfold CLOCK_RANGE at hclock
      unfold P2P_PEERLIST_RETRY_AFTER U64_RANGE
      omega
    rw [if_neg hbanned]
    cases hport : entry.localPort with
    | none => exact .inl ⟨.skip, rfl, hskip⟩
    | some port =>
      refine .inl ?_
      simp only [checkedAdd, if_pos hadd, pure_bind]
      split
      · split
        · refine ⟨_, rfl, fun addr haddr => ?_⟩
          rcases haddr with haddr | haddr <;> cases haddr
          exact ⟨rfl, hfree⟩
        · split
          · refine ⟨_, rfl, fun addr haddr => ?_⟩
            rcases haddr with haddr | haddr <;> cases haddr
            exact ⟨rfl, hfree⟩
          · exact ⟨.skip, rfl, hskip⟩
      · exact ⟨.skip, rfl, hskip⟩

/-- The search of a sound list finds a peer that is free, or it stops in the message about a skipped peer.
The induction is on the records that are left. -/
theorem searchPeers_cases (h : Sound now list) (debug : Bool) (peers : List ConnectedPeer) (records : List (IVec × IVec))
    (hrecords : ∀ record ∈ records, record ∈ list.cache.toList) (gray : Option (IpAddr × SocketAddr))
    (hgray : GrayFound now list gray) :
    (∃ found, searchPeers debug now peers records gray list = .ok found list ∧ FoundPeer.Good now list found) ∨
      (searchPeers debug now peers records gray list = .error .arithmeticOverflow list ∧ debug = true ∧
        ExpiredBlacklist now list) := by
  induction records generalizing gray with
  | nil => exact .inl ⟨.gray gray, rfl, hgray⟩
  | cons record records ih =>
    obtain ⟨ip, entry, hdecode, hknown⟩ := h.decodeEntry (hrecords record List.mem_cons_self)
    have hrest := ih (fun r hr => hrecords r (List.mem_cons_of_mem _ hr))
    rw [searchPeers, Exec.bind_apply, hdecode, Exec.ofExcept_apply]
    dsimp only
    rw [Exec.bind_apply]
    rcases considerPeer_cases h debug peers gray hknown with ⟨choice, hchoice, hgood⟩ | ⟨herror, hdebug, hexpired⟩
    · rw [hchoice]
      cases choice with
      | skip => exact hrest gray hgray
      | remember addr =>
        obtain ⟨hip, hfree⟩ := hgood addr (.inl rfl)
        refine hrest _ (fun peer hpeer => ?_)
        cases hpeer
        exact ⟨hip, entry, hknown, hfree⟩
      | take addr =>
        obtain ⟨hip, hfree⟩ := hgood addr (.inr rfl)
        exact .inl ⟨_, rfl, hip, hknown, hfree⟩
    · rw [herror]
      exact .inr ⟨rfl, hdebug, hexpired⟩

theorem ban_tried (h : Sound now list) (hknown : known list ip = some entry) :
    Sound now (list.withEntry ip { entry with lastConnectionTry := some now }) ∧
      ban (list.withEntry ip { entry with lastConnectionTry := some now }) = ban list := by
  obtain ⟨-, hfits, -, -⟩ := h.of_known hknown
  have hnow : now < U64_RANGE := lt_trans h.clock_lt (by decide)
  have heffect : Effect now list ip (ban list ip) (list.withEntry ip { entry with lastConnectionTry := some now }) := by
    refine Effect.withEntry h ip ?_ ?_ ?_
    · exact { hfits with lastConnectionTry := fun n hn => Option.mem_some.mp hn ▸ hnow }
    · exact fun t ht => (Option.mem_some.mp ht).symm.le
    · rw [ban, hknown, Option.map_some]
  exact ⟨heffect.sound, heffect.ban_eq.trans (Function.update_eq_self _ _)⟩

theorem findPeerToConnect_cases (h : Sound now list) (debug : Bool) :
    (∃ addr list', findPeerToConnect debug now list = .ok addr list' ∧ Sound now list' ∧ ban list' = ban list ∧
      ∀ a ∈ addr, ∃ entry, known list a.ip = some entry ∧ Free now entry) ∨
      (findPeerToConnect debug now list = .error .arithmeticOverflow list ∧ debug = true ∧ ExpiredBlacklist now list) := by
  unfold findPeerToConnect
  rw [Exec.bind_apply, Exec.get_apply]
  simp only []
  rw [Exec.bind_apply]
  rcases searchPeers_cases h debug list.peers list.cache.toList (fun _ hr => hr) none nofun with
    ⟨found, hfound, hgood⟩ | ⟨herror, hdebug, hexpired⟩
  · rw [hfound]
    refine .inl ?_
    match found, hgood with
    | .whitelisted ip addr entry, ⟨hip, hknown, hfree⟩ =>
      obtain ⟨hsound, hban⟩ := ban_tried h hknown
      refine ⟨some addr, _, rfl, hsound, hban, fun a ha => ?_⟩
      rw [← Option.mem_some.mp ha, hip]
      exact ⟨entry, hknown, hfree⟩
    | .gray none, _ => exact ⟨none, list, rfl, h, rfl, nofun⟩
    | .gray (some (ip, addr)), hgray =>
      obtain ⟨hip, entry, hknown, hfree⟩ := hgray _ rfl
      obtain ⟨hsound, hban⟩ := ban_tried h hknown
      refine ⟨some addr, list.withEntry ip { entry with lastConnectionTry := some now }, ?_, hsound, hban, fun a ha => ?_⟩
      · show (getEntry ip >>= _) list = _
        rw [Exec.bind_apply, h.getEntry hknown]
        rfl
      · rw [← Option.mem_some.mp ha, hip]
        exact ⟨entry, hknown, hfree⟩
  · rw [herror]
    exact .inr ⟨rfl, hdebug, hexpired⟩

theorem isAllowed_eq (h : Sound clock list) (now : Nat) (ip : IpAddr) :
    isAllowed now ip list = .ok (match ban list ip with
      | some (state, tempBanUntil) => state ≠ .blacklist && (tempBanUntil.map (fun u => decide (u < now))).getD true
      | none => true) list := by
  unfold isAllowed ban
  rw [Exec.bind_apply, h.hasEntry ip]
  cases hknown : known list ip with
  | none => rfl
  | some entry =>
    show (getEntry ip >>= _) list = _
    rw [Exec.bind_apply, h.getEntry hknown]
    rfl

theorem addrHasState_eq (h : Sound clock list) (ip : IpAddr) (state : PeerListEntryState) :
    addrHasState ip state list = .ok (decide ((ban list ip).map Prod.fst = some state)) list := by
  unfold addrHasState ban
  rw [Exec.bind_apply, h.hasEntry ip]
  cases hknown : known list ip with
  | none => rfl
  | some entry =>
    show (getEntry ip >>= _) list = _
    rw [Exec.bind_apply, h.getEntry hknown]
    simp
    rfl

end Search

section Runs

/-- What an operation leaves, also when it fails. -/
def step (list : PeerList) (s : Nat × Operation) : PeerList := Exec.stateOf (s.2.run s.1 list)

def afterSteps (list : PeerList) (steps : List (Nat × Operation)) : PeerList := steps.foldl step list

/-- The condition under which an operation keeps the bans: a temporary ban is set on a known address and ends no earlier
than the one before, an entry is set to graylist with its local port known, a banned address is not removed or banned for
less by a failed connection, and a search that logs what it skips meets no blacklisted address whose ban is over. -/
def Meets (now : Nat) (list : PeerList) : Operation → Prop
  | .tempBanAddress ip seconds _ => ∃ entry, known list ip = some entry ∧ now + seconds < U64_RANGE ∧
      ∀ tempBanUntil ∈ entry.tempBanUntil, tempBanUntil ≤ now + seconds
  | .setGraylistForPeer ip => ∀ entry, known list ip = some entry → entry.localPort = none → entry.state = .graylist
  | .increaseFailCountForPeerlistEntry ip tempBan => ∀ entry, known list ip = some entry → entry.state ≠ .whitelist →
      if entry.failCount = U8_MAX then Free now entry
      else tempBan = true → entry.failCount ≠ 0 → entry.failCount % PEER_FAIL_TO_CONNECT_LIMIT = 0 →
        ∀ tempBanUntil ∈ entry.tempBanUntil, tempBanUntil ≤ now + PEER_TEMP_BAN_TIME_ON_CONNECT
  | .findPeerToConnect debug => debug = true → ¬ ExpiredBlacklist now list
  | _ => True

/-- Steps at times that do not go back, each of which meets its condition. -/
def Orderly : Nat → PeerList → List (Nat × Operation) → Prop
  | _, _, [] => True
  | clock, list, (now, op) :: steps =>
    clock ≤ now ∧ now < CLOCK_RANGE ∧ op.Fits ∧ Meets now list op ∧ Orderly now (step list (now, op)) steps

/-- The operations that take an address off the blacklist. -/
def Lifts (ip : IpAddr) (op : Operation) : Prop := op = .whitelistAddress ip ∨ op = .setGraylistForPeer ip

def Blacklisted (list : PeerList) (ip : IpAddr) : Prop := (ban list ip).map Prod.fst = some .blacklist

def BannedUntil (list : PeerList) (ip : IpAddr) (banEnd : Nat) : Prop :=
  ∃ tempBanUntil ∈ (ban list ip).bind Prod.snd, banEnd ≤ tempBanUntil

variable {clock now banEnd : Nat} {list : PeerList} {ip : IpAddr} {op : Operation} {steps : List (Nat × Operation)}

theorem step_effect (h : Sound now list) (hfits : op.Fits) (htarget : op.target = some ip) :
    Effect now list ip (op.banAfter now (known list ip)) (step list (now, op)) := by
  have hdiscard : ∀ {α : Type} (x : PeerListM α), Exec.stateOf (discard x list) = Exec.stateOf (x list) := fun x =>
    Exec.stateOf_bind_still x (fun _ _ => rfl) list
  unfold step
  cases op <;> cases htarget
  case blacklistAddress => exact blacklistAddress_effect h ip
  case whitelistAddress =>
    obtain ⟨list', hset, heffect⟩ := setStateToAddress_effect h ip .whitelist
    show Effect now list ip _ (Exec.stateOf (setStateToAddress ip .whitelist list))
    rw [hset]
    exact heffect
  case tempBanAddress seconds closePeer => exact tempBanAddress_effect h ip seconds closePeer
  case setGraylistForPeer => exact setGraylistForPeer_effect h ip
  case storePeerAddress addr =>
    show Effect now list addr.ip _ (Exec.stateOf (discard (PeerList.storePeerAddress addr) list))
    rw [hdiscard]
    exact storePeerAddress_effect h addr hfits
  case increaseFailCountForPeerlistEntry tempBan => exact increaseFailCount_effect h ip tempBan
  case storeDhKeyForPeer publicKey => exact storeDhKeyForPeer_effect h ip publicKey
  case updatePeer localPort connectedOn => exact updatePeer_effect h ip localPort connectedOn hfits.1 hfits.2

/-- The operations without a target of their own keep every ban. -/
theorem step_untargeted (h : Sound now list) (htarget : op.target = none) :
    Sound now (step list (now, op)) ∧ ban (step list (now, op)) = ban list := by
  cases op <;> cases htarget
  case findPeerToConnect debug =>
    have hstate : step list (now, .findPeerToConnect debug) = Exec.stateOf (PeerList.findPeerToConnect debug now list) :=
      Exec.stateOf_bind_still _ (fun _ _ => rfl) list
    rw [hstate]
    rcases findPeerToConnect_cases h debug with ⟨addr, list', hok, hsound, hban, -⟩ | ⟨herror, -⟩
    · rw [hok]
      exact ⟨hsound, hban⟩
    · rw [herror]
      exact ⟨h, rfl⟩
  case connected peers => exact ⟨⟨h.clock_lt, h.records⟩, rfl⟩

theorem step_sound (h : Sound now list) (hfits : op.Fits) : Sound now (step list (now, op)) := by
  cases htarget : op.target with
  | none => exact (step_untargeted h htarget).1
  | some ip => exact (step_effect h hfits htarget).sound

theorem ban_step (h : Sound now list) (hfits : op.Fits) (ip : IpAddr) :
    ban (step list (now, op)) ip = if op.target = some ip then op.banAfter now (known list ip) else ban list ip := by
  cases htarget : op.target with
  | none =>
    rw [(step_untargeted h htarget).2]
    rfl
  | some ip' =>
    rw [(step_effect h hfits htarget).ban_eq]
    by_cases hip : ip = ip'
    · subst hip
      rw [Function.update_self, if_pos rfl]
    · rw [Function.update_of_ne hip, if_neg (fun heq => hip (Option.some.inj heq).symm)]

theorem blacklisted_iff : Blacklisted list ip ↔ ∃ entry, known list ip = some entry ∧ entry.state = .blacklist := by
  unfold Blacklisted ban
  cases known list ip <;> simp

theorem bannedUntil_iff : BannedUntil list ip banEnd ↔
    ∃ entry, known list ip = some entry ∧ ∃ tempBanUntil ∈ entry.tempBanUntil, banEnd ≤ tempBanUntil := by
  unfold BannedUntil ban
  cases known list ip <;> simp

theorem step_blacklisted (h : Sound now list) (hfits : op.Fits) (hmeets : Meets now list op) (hlifts : ¬ Lifts ip op)
    (hban : Blacklisted list ip) : Blacklisted (step list (now, op)) ip := by
  obtain ⟨entry, hknown, hstate⟩ := blacklisted_iff.mp hban
  unfold Blacklisted at hban ⊢
  rw [ban_step h hfits]
  split
  case isFalse => exact hban
  case isTrue htarget =>
    rw [hknown]
    cases op <;> cases htarget
    case blacklistAddress => rfl
    case whitelistAddress => exact absurd (.inl rfl) hlifts
    case setGraylistForPeer => exact absurd (.inr rfl) hlifts
    case tempBanAddress seconds closePeer =>
      obtain ⟨-, -, hlt, -⟩ := hmeets
      simp [Operation.banAfter, hlt, hstate]
    case increaseFailCountForPeerlistEntry tempBan =>
      have hwhite : entry.state ≠ .whitelist := by
        rw [hstate]
        decide
      have hkept := hmeets entry hknown hwhite
      by_cases hmax : entry.failCount = U8_MAX
      · rw [if_pos hmax] at hkept
        exact absurd hstate hkept.1
      · simp only [Operation.banAfter, if_neg hwhite, if_neg hmax]
        split <;> simp [hstate]
    case storePeerAddress addr => simp [Operation.banAfter, hstate]
    case storeDhKeyForPeer publicKey => simp [Operation.banAfter, hstate]
    case updatePeer localPort connectedOn => simp [Operation.banAfter, hstate]

theorem step_bannedUntil (h : Sound now list) (hfits : op.Fits) (hmeets : Meets now list op) (hlt : now < banEnd)
    (hban : BannedUntil list ip banEnd) : BannedUntil (step list (now, op)) ip banEnd := by
  obtain ⟨entry, hknown, tempBanUntil, huntil, hle⟩ := bannedUntil_iff.mp hban
  have huntil' : entry.tempBanUntil = some tempBanUntil := huntil
  unfold BannedUntil at hban ⊢
  rw [ban_step h hfits]
  split
  case isFalse => exact hban
  case isTrue htarget =>
    rw [hknown]
    cases op <;> cases htarget
    case blacklistAddress => exact ⟨tempBanUntil, by simp [Operation.banAfter, huntil'], hle⟩
    case whitelistAddress => exact ⟨tempBanUntil, by simp [Operation.banAfter, huntil'], hle⟩
    case setGraylistForPeer => exact ⟨tempBanUntil, by simp [Operation.banAfter, huntil'], hle⟩
    case tempBanAddress seconds closePeer =>
      obtain ⟨entry', hknown', hrange, hlater⟩ := hmeets
      obtain rfl : entry = entry' := Option.some.inj (hknown.symm.trans hknown')
      exact ⟨now + seconds, by simp [Operation.banAfter, hrange], hle.trans (hlater tempBanUntil huntil)⟩
    case increaseFailCountForPeerlistEntry tempBan =>
      by_cases hwhite : entry.state = .whitelist
      · exact ⟨tempBanUntil, by simp [Operation.banAfter, hwhite, huntil'], hle⟩
      · have hkept := hmeets entry hknown hwhite
        by_cases hmax : entry.failCount = U8_MAX
        · rw [if_pos hmax] at hkept
          exact absurd (hkept.2 tempBanUntil huntil) (by omega)
        · rw [if_neg hmax] at hkept
          simp only [Operation.banAfter, if_neg hwhite, if_neg hmax]
          split
          case isTrue hcount =>
            simp only [Bool.and_eq_true, decide_eq_true_eq] at hcount
            exact ⟨_, rfl, hle.trans (hkept hcount.1.1 hcount.1.2 hcount.2 tempBanUntil huntil)⟩
          case isFalse => exact ⟨tempBanUntil, by simp [huntil'], hle⟩
    case storePeerAddress addr => exact ⟨tempBanUntil, by simp [Operation.banAfter, huntil'], hle⟩
    case storeDhKeyForPeer publicKey => exact ⟨tempBanUntil, by simp [Operation.banAfter, huntil'], hle⟩
    case updatePeer localPort connectedOn => exact ⟨tempBanUntil, by simp [Operation.banAfter, huntil'], hle⟩

theorem Sound.afterSteps (h : Sound clock list) (hrun : Orderly clock list steps) :
    ∃ last, clock ≤ last ∧ Sound last (PeerList.afterSteps list steps) ∧ (last = clock ∨ ∃ s ∈ steps, s.1 = last) := by
  induction steps generalizing clock list with
  | nil => exact ⟨clock, le_rfl, h, .inl rfl⟩
  | cons s steps ih =>
    obtain ⟨now, op⟩ := s
    obtain ⟨hle, hnow, hfits, -, hrest⟩ := hrun
    obtain ⟨last, hlast, hsound, hat⟩ := ih (step_sound (h.later hle hnow) hfits) hrest
    refine ⟨last, hle.trans hlast, hsound, .inr ?_⟩
    rcases hat with rfl | ⟨s, hs, rfl⟩
    · exact ⟨_, List.mem_cons_self, rfl⟩
    · exact ⟨s, List.mem_cons_of_mem _ hs, rfl⟩

theorem afterSteps_keeps {I : PeerList → Prop} (allowed : Nat × Operation → Prop)
    (hstep : ∀ now op list, Sound now list → op.Fits → Meets now list op → allowed (now, op) → I list → I (step list (now, op)))
    (h : Sound clock list) (hrun : Orderly clock list steps) (hallowed : ∀ s ∈ steps, allowed s) (hI : I list) :
    I (afterSteps list steps) := by
  induction steps generalizing clock list with
  | nil => exact hI
  | cons s steps ih =>
    obtain ⟨now, op⟩ := s
    obtain ⟨hle, hnow, hfits, hmeets, hrest⟩ := hrun
    have hsound := h.later hle hnow
    exact ih (step_sound hsound hfits) hrest (fun s hs => hallowed s (List.mem_cons_of_mem _ hs))
      (hstep now op list hsound hfits hmeets (hallowed _ List.mem_cons_self) hI)

theorem Orderly.split {before : List (Nat × Operation)} (h : Sound clock list) (hrun : Orderly clock list (before ++ steps)) :
    ∃ clock', Sound clock' (PeerList.afterSteps list before) ∧ Orderly clock' (PeerList.afterSteps list before) steps := by
  induction before generalizing clock list with
  | nil => exact ⟨clock, h, hrun⟩
  | cons s before ih =>
    obtain ⟨now, op⟩ := s
    obtain ⟨hle, hnow, hfits, -, hrest⟩ := hrun
    exact ih (step_sound (h.later hle hnow) hfits) hrest

/-- An address that is not let in and not connected to. -/
def KeptOut (now : Nat) (list : PeerList) (ip : IpAddr) : Prop :=
  isAllowed now ip list = .ok false list ∧
    ∀ debug addr list', findPeerToConnect debug now list = .ok (some addr) list' → addr.ip ≠ ip

theorem keptOut_of_banned (h : Sound now list) (hban : Blacklisted list ip ∨ BannedUntil list ip banEnd ∧ now < banEnd) :
    KeptOut now list ip := by
  have hbanned : ∃ entry, known list ip = some entry ∧ (entry.state = .blacklist ∨ ∃ u ∈ entry.tempBanUntil, now < u) := by
    rcases hban with hban | ⟨hban, hlt⟩
    · obtain ⟨entry, hknown, hstate⟩ := blacklisted_iff.mp hban
      exact ⟨entry, hknown, .inl hstate⟩
    · obtain ⟨entry, hknown, u, hu, hle⟩ := bannedUntil_iff.mp hban
      exact ⟨entry, hknown, .inr ⟨u, hu, lt_of_lt_of_le hlt hle⟩⟩
  obtain ⟨entry, hknown, hbanned⟩ := hbanned
  constructor
  · have hallowed : (entry.state ≠ .blacklist && (entry.tempBanUntil.map (fun u => decide (u < now))).getD true) = false := by
      rcases hbanned with hstate | ⟨u, hu, hlt⟩
      · simp [hstate]
      · have hu' : entry.tempBanUntil = some u := hu
        simp [hu', Nat.le_of_lt hlt]
    rw [isAllowed_eq h, ban, hknown]
    exact congrArg (EStateM.Result.ok · list) hallowed
  · intro debug addr list' hfind hip
    rcases findPeerToConnect_cases h debug with ⟨addr', list'', hok, -, -, hfree⟩ | ⟨herror, -⟩
    · rw [hok] at hfind
      cases hfind
      obtain ⟨entry', hknown', hfree⟩ := hfree addr rfl
      rw [hip, hknown, Option.some.injEq] at hknown'
      subst hknown'
      rcases hbanned with hstate | ⟨u, hu, hlt⟩
      · exact hfree.1 hstate
      · exact absurd (hfree.2 u hu) (Nat.not_le_of_lt hlt)
    · rw [herror] at hfind
      cases hfind

/-- In a run of the peer list whose steps meet their conditions: a blacklisted address is kept out until it is set to
another list, a temporarily banned one until its time is over, an address that was just set to graylist is on no other
list, and a search for a peer to connect to that meets its condition does not fail. -/
theorem bans_enforced {before after : List (Nat × Operation)} {time : Nat} (h : Sound clock list)
    (hrun : Orderly clock list (before ++ (time, op) :: after)) (hafter : ∀ s ∈ (time, op) :: after, s.1 ≤ now)
    (hnow : now < CLOCK_RANGE) :
    (∀ ip, op = .blacklistAddress ip → (∀ s ∈ after, ¬ Lifts ip s.2) →
      KeptOut now (afterSteps list (before ++ (time, op) :: after)) ip) ∧
    (∀ ip seconds closePeer, op = .tempBanAddress ip seconds closePeer → now < time + seconds →
      KeptOut now (afterSteps list (before ++ (time, op) :: after)) ip) ∧
    (∀ ip, op = .setGraylistForPeer ip → after = [] →
      isBlacklisted ip (afterSteps list (before ++ [(time, op)])) = .ok false (afterSteps list (before ++ [(time, op)])) ∧
      isWhitelisted ip (afterSteps list (before ++ [(time, op)])) = .ok false (afterSteps list (before ++ [(time, op)]))) ∧
    (∀ debug, Meets now (afterSteps list (before ++ (time, op) :: after)) (.findPeerToConnect debug) →
      ∃ addr list', findPeerToConnect debug now (afterSteps list (before ++ (time, op) :: after)) = .ok addr list') := by
  obtain ⟨clock₁, h₁, hrun₁⟩ := Orderly.split h hrun
  have happend : ∀ steps, afterSteps list (before ++ steps) = afterSteps (afterSteps list before) steps := fun steps =>
    List.foldl_append
  simp only [happend]
  generalize afterSteps list before = list₁ at h₁ hrun₁ ⊢
  obtain ⟨hle, htime, hfits, hmeets, hrest⟩ := hrun₁
  have hsound := h₁.later hle htime
  have hsound₂ := step_sound hsound hfits
  obtain ⟨last, -, hlast, hat⟩ := hsound₂.afterSteps hrest
  have hfinal : Sound now (afterSteps list₁ ((time, op) :: after)) := by
    refine Sound.later hlast ?_ hnow
    rcases hat with rfl | ⟨s, hs, rfl⟩
    · exact hafter _ List.mem_cons_self
    · exact hafter s (List.mem_cons_of_mem _ hs)
  refine ⟨?_, ?_, ?_, ?_⟩
  · rintro ip rfl hlifts
    have hstart : Blacklisted (step list₁ (time, .blacklistAddress ip)) ip := by
      unfold Blacklisted
      rw [ban_step hsound hfits, if_pos (show (Operation.blacklistAddress ip).target = some ip from rfl)]
      rfl
    have hkept := afterSteps_keeps (I := (Blacklisted · ip)) (fun s => ¬ Lifts ip s.2)
      (fun now op list h hfits hmeets hlifts hban => step_blacklisted h hfits hmeets hlifts hban) hsound₂ hrest hlifts hstart
    exact keptOut_of_banned hfinal (.inl hkept : _ ∨ BannedUntil _ ip 0 ∧ now < 0)
  · rintro ip seconds closePeer rfl hlt
    obtain ⟨entry, hknown, hrange, -⟩ := hmeets
    have hstart : BannedUntil (step list₁ (time, .tempBanAddress ip seconds closePeer)) ip (time + seconds) := by
      unfold BannedUntil
      rw [ban_step hsound hfits, if_pos (show (Operation.tempBanAddress ip seconds closePeer).target = some ip from rfl), hknown]
      exact ⟨time + seconds, by simp [Operation.banAfter, hrange], le_rfl⟩
    have hkept := afterSteps_keeps (I := (BannedUntil · ip (time + seconds))) (fun s => s.1 ≤ now)
      (fun now' op list h hfits hmeets hle hban => step_bannedUntil h hfits hmeets (lt_of_le_of_lt hle hlt) hban)
      hsound₂ hrest (fun s hs => hafter s (List.mem_cons_of_mem _ hs)) hstart
    exact keptOut_of_banned hfinal (.inr ⟨hkept, hlt⟩)
  · rintro ip rfl -
    have hgray : (ban (step list₁ (time, .setGraylistForPeer ip)) ip).map Prod.fst = none ∨
        (ban (step list₁ (time, .setGraylistForPeer ip)) ip).map Prod.fst = some .graylist := by
      rw [ban_step hsound hfits, if_pos (show (Operation.setGraylistForPeer ip).target = some ip from rfl)]
      cases hknown : known list₁ ip with
      | none => exact .inl rfl
      | some entry =>
        refine .inr ?_
        cases hport : entry.localPort with
        | none => simp [Operation.banAfter, hport, hmeets entry hknown hport]
        | some port => simp [Operation.banAfter, hport]
    have hstate : ∀ state, state ≠ .graylist → addrHasState ip state (step list₁ (time, .setGraylistForPeer ip)) =
        .ok false (step list₁ (time, .setGraylistForPeer ip)) := by
      intro state hne
      rw [addrHasState_eq hsound₂]
      rcases hgray with hgray | hgray
      · rw [hgray]
        rfl
      · rw [hgray]
        refine congrArg (EStateM.Result.ok · _) (decide_eq_false (fun heq => hne (Option.some.inj heq).symm))
    exact ⟨hstate .blacklist (by decide), hstate .whitelist (by decide)⟩
  · intro debug hfind
    rcases findPeerToConnect_cases hfinal debug with ⟨addr, list', hok, -⟩ | ⟨-, hdebug, hexpired⟩
    · exact ⟨addr, list', hok⟩
    · exact absurd hexpired (hfind hdebug)

theorem sound_empty : Sound 0 {} where
  clock_lt := by decide
  records key bytes hrecord := by
    have hempty : ({} : PeerList).cache[key]? = none := Std.ExtTreeMap.getElem?_empty
    rw [hempty] at hrecord
    cases hrecord

theorem bans_enforced_unknown_address :
    KeptOut 7 (afterSteps {} ([] ++ (5, .blacklistAddress (.v4 7)) :: [(6, .storeDhKeyForPeer (.v4 7) 0)])) (.v4 7) := by
  refine (bans_enforced sound_empty ?_ ?_ (by decide)).1 (.v4 7) rfl ?_
  · exact ⟨Nat.zero_le 5, by decide, trivial, trivial, by decide, by decide, trivial, trivial, trivial⟩
  · simp
  · simp [Lifts]

theorem known_empty (ip : IpAddr) : known {} ip = none := by
  have hempty : ({} : PeerList).cache[ip.write]? = none := Std.ExtTreeMap.getElem?_empty
  rw [known, hempty]
  rfl

/-- A temporary ban of an address that was not known leaves the address allowed, and a blacklisted address without a local
port stays blacklisted when it is set to graylist. -/
theorem ban_of_unknown_address :
    isAllowed 6 (.v4 7) (afterSteps {} [(5, .tempBanAddress (.v4 7) 60 false)]) =
        .ok true (afterSteps {} [(5, .tempBanAddress (.v4 7) 60 false)]) ∧
      Blacklisted (afterSteps {} [(5, .blacklistAddress (.v4 7)), (6, .setGraylistForPeer (.v4 7))]) (.v4 7) := by
  constructor
  · have hstart : Sound 5 {} := sound_empty.later (by decide) (by decide)
    have hfits : (Operation.tempBanAddress (.v4 7) 60 false).Fits := by
      show 60 < U64_RANGE
      decide
    have hban := ban_step hstart hfits (.v4 7)
    rw [known_empty] at hban
    unfold afterSteps
    rw [List.foldl_cons, List.foldl_nil, isAllowed_eq (step_sound hstart hfits), hban]
    rfl
  · unfold Blacklisted
    decide +kernel

end Runs

end PeerList

end Xelis.P2p
