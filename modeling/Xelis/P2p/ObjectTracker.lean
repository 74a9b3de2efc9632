import Xelis.Common.Block

namespace Xelis.P2p

open Lib (FiniteMap)

inductive ObjectRequest where
  | block (hash : Hash)
  | blockHeader (hash : Hash)
  | transaction (hash : Hash)
  deriving DecidableEq, Repr

def ObjectRequest.getHash : ObjectRequest → Hash
  | .block hash => hash
  | .blockHeader hash => hash
  | .transaction hash => hash

inductive OwnedObjectResponse where
  | block (block : Block) (hash : Hash)
  | blockHeader (header : BlockHeader) (hash : Hash)
  | transaction (tx : Transaction) (hash : Hash)
  | notFound (request : ObjectRequest)

namespace OwnedObjectResponse

def getHash : OwnedObjectResponse → Hash
  | .block _ hash => hash
  | .blockHeader _ hash => hash
  | .transaction _ hash => hash
  | .notFound request => request.getHash

def getRequest : OwnedObjectResponse → ObjectRequest
  | .block _ hash => .block hash
  | .blockHeader _ hash => .blockHeader hash
  | .transaction _ hash => .transaction hash
  | .notFound request => request

theorem getRequest_getHash (r : OwnedObjectResponse) : r.getRequest.getHash = r.getHash := by cases r <;> rfl

end OwnedObjectResponse

/-- In milliseconds. -/
def TIME_OUT : Nat := 15000

/-- An element of the queue. The callback is the number of its broadcast channel; `sent` records that the packet
went out to the peer. -/
structure Request where
  object : ObjectRequest
  peer : Nat
  requestedAt : Option Nat := none
  groupId : Option Nat
  callback : Nat
  sent : Bool := false
  deriving DecidableEq, Repr

/-- A receiver of a broadcast channel, and the object that its holder asked for. -/
structure Listener where
  id : Nat
  wanted : ObjectRequest
  channel : Nat
  deriving DecidableEq, Repr

/-- The tracker and what surrounds it: the time, the closed connections, and the record of what was handed out
and of the requests that went out and were neither answered nor forgotten. -/
structure ObjectTracker where
  queue : List Request := []
  cache : FiniteMap Hash Nat := ∅
  requestSender : List Hash := []
  nextCallback : Nat := 0
  now : Nat := 0
  closed : List Nat := []
  listeners : List Listener := []
  notified : List (Nat × OwnedObjectResponse) := []
  outstanding : List ObjectRequest := []

variable {hash : Hash} {r req : Request} {t s : ObjectTracker} {channel peer turns : Nat}
  {response : OwnedObjectResponse}

namespace ObjectTracker

def get (s : ObjectTracker) (hash : Hash) : Option Request := s.queue.find? (fun r => r.object.getHash = hash)

def remove (s : ObjectTracker) (hash : Hash) : List Request := s.queue.filter (fun r => r.object.getHash ≠ hash)

/-- A new receiver of a channel. -/
def listen (s : ObjectTracker) (wanted : ObjectRequest) (channel : Nat) : ObjectTracker :=
  { s with listeners := s.listeners ++ [{ id := s.listeners.length, wanted, channel }] }

def requestObjectFromPeerWithOrGetNotified (s : ObjectTracker) (peer : Nat) (request : ObjectRequest) (groupId : Option Nat) :
    ObjectTracker :=
  match s.get request.getHash with
  | some queued => s.listen request queued.callback
  | none =>
    let req : Request := { object := request, peer, groupId, callback := s.nextCallback }
    let s := { s with
      queue := s.queue ++ [req]
      nextCallback := s.nextCallback + 1
      requestSender := s.requestSender ++ [request.getHash] }
    s.listen request req.callback

def notify (s : ObjectTracker) (req : Request) (response : OwnedObjectResponse) : ObjectTracker :=
  let receivers := s.listeners.filter (fun l => l.channel = req.callback)
  { s with notified := s.notified ++ receivers.map (fun l => (l.id, response)) }

def settle (s : ObjectTracker) (hash : Hash) : ObjectTracker :=
  { s with outstanding := s.outstanding.eraseP (fun o => o.getHash = hash) }

def handleObjectResponse (s : ObjectTracker) (response : OwnedObjectResponse) : Bool × ObjectTracker :=
  match s.get response.getHash with
  | some req => (true, { s.notify req response with queue := s.remove response.getHash }.settle response.getHash)
  | none =>
    if s.cache.contains response.getHash then
      (true, { s with cache := s.cache.erase response.getHash }.settle response.getHash)
    else (false, s)

/-- Which requests a clean takes out: those of the group, of the peer, of closed connections, and those timed out. -/
def extracted (s : ObjectTracker) (peerId group : Option Nat) (r : Request) : Bool :=
  (group.isSome && group == r.groupId) || some r.peer == peerId || s.closed.contains r.peer ||
    match r.requestedAt with
    | some requestedAt => decide (s.now - requestedAt > TIME_OUT)
    | none => false

/-- What is taken out is remembered in the expirable cache. -/
def cleanQueue (s : ObjectTracker) (peerId group : Option Nat) : ObjectTracker :=
  { s with
    queue := s.queue.filter (fun r => !s.extracted peerId group r)
    cache := (s.queue.filter (s.extracted peerId group)).foldl (fun cache r => cache.insert r.object.getHash s.now) s.cache }

/-- The request for a hash is marked with the time; `sent` when its packet goes out. -/
def setRequested (s : ObjectTracker) (hash : Hash) (sent : Bool) (r : Request) : Request :=
  if r.object.getHash = hash then { r with requestedAt := some s.now, sent := r.sent || sent } else r

/-- The requester marks a request, and sends it when the connection is open and takes the packet. -/
def requestObjectFromPeerInternal (s : ObjectTracker) (hash : Hash) (taken : Bool) : ObjectTracker :=
  match s.get hash with
  | none => s
  | some req =>
    let sent := !s.closed.contains req.peer && taken
    let marked := { s with queue := s.queue.map (s.setRequested hash sent) }
    if sent then { marked with outstanding := s.outstanding ++ [req.object] }
    else marked.cleanQueue (some req.peer) req.groupId

def requesterStep (s : ObjectTracker) (hash : Hash) (taken : Bool) : ObjectTracker :=
  if hash ∈ s.requestSender then
    { s with requestSender := s.requestSender.erase hash }.requestObjectFromPeerInternal hash taken
  else s

def markGroupAsFail (s : ObjectTracker) (groupId : Nat) : ObjectTracker := s.cleanQueue none (some groupId)

/-- The handler looks at the front of the queue and cleans as long as the first request is timed out. -/
def handlerTick : Nat → ObjectTracker → ObjectTracker
  | 0, s => s
  | turns + 1, s =>
    match s.queue.head? with
    | none => s
    | some first =>
      match first.requestedAt with
      | none => s
      | some requestedAt =>
        if s.now - requestedAt > TIME_OUT then handlerTick turns (s.cleanQueue (some first.peer) first.groupId) else s

def expired (s : ObjectTracker) (hash : Hash) : Bool :=
  match s.cache[hash]? with
  | some since => decide (TIME_OUT ≤ s.now - since)
  | none => false

/-- Entries that were not answered in time are forgotten. -/
def cleanCache (s : ObjectTracker) : ObjectTracker :=
  let forgotten := s.cache.keys.filter s.expired
  forgotten.foldl (fun s hash => { s with cache := s.cache.erase hash }.settle hash) s

/-- Everything that can happen to the tracker, in any order. -/
inductive Event where
  | request (peer : Nat) (object : ObjectRequest) (groupId : Option Nat)
  | requester (hash : Hash) (taken : Bool)
  | response (response : OwnedObjectResponse)
  | handlerTick (turns : Nat)
  | cleanCache
  | markGroupAsFail (groupId : Nat)
  | disconnect (peer : Nat)
  | wait (milliseconds : Nat)

def step (s : ObjectTracker) : Event → ObjectTracker
  | .request peer object groupId => s.requestObjectFromPeerWithOrGetNotified peer object groupId
  | .requester hash taken => s.requesterStep hash taken
  | .response response => (s.handleObjectResponse response).2
  | .handlerTick turns => s.handlerTick turns
  | .cleanCache => s.cleanCache
  | .markGroupAsFail groupId => s.markGroupAsFail groupId
  | .disconnect peer => { s with closed := peer :: s.closed }
  | .wait milliseconds => { s with now := s.now + milliseconds }

def run (s : ObjectTracker) (events : List Event) : ObjectTracker := events.foldl step s

section Sound

variable {s : ObjectTracker}

/-- What holds without any condition: one element for each hash, and a channel that was used is gone. -/
structure Sound (s : ObjectTracker) : Prop where
  hashes : (s.queue.map (fun r => r.object.getHash)).Nodup
  callbacks : (s.queue.map Request.callback).Nodup
  queue_lt : ∀ r ∈ s.queue, r.callback < s.nextCallback
  listeners_lt : ∀ l ∈ s.listeners, l.channel < s.nextCallback
  ids : s.listeners.map Listener.id = List.range s.listeners.length
  once : (s.notified.map Prod.fst).Nodup
  gone : ∀ n ∈ s.notified, ∀ l ∈ s.listeners, l.id = n.1 → ∀ r ∈ s.queue, r.callback ≠ l.channel
  known : ∀ n ∈ s.notified, n.1 < s.listeners.length

theorem get_eq_some_iff (h : s.Sound) : s.get hash = some r ↔ r ∈ s.queue ∧ r.object.getHash = hash := by
  unfold get
  constructor
  · intro hfind
    exact ⟨List.mem_of_find?_eq_some hfind, by simpa using List.find?_some hfind⟩
  · rintro ⟨hmem, rfl⟩
    cases hfind : s.queue.find? (fun q => q.object.getHash = r.object.getHash) with
    | none =>
      have hnone := List.find?_eq_none.mp hfind r hmem
      simp at hnone
    | some q =>
      have hq : q.object.getHash = r.object.getHash := by simpa using List.find?_some hfind
      rw [List.inj_on_of_nodup_map h.hashes (List.mem_of_find?_eq_some hfind) hmem hq]

theorem get_eq_none_iff : s.get hash = none ↔ ∀ r ∈ s.queue, r.object.getHash ≠ hash := by
  unfold get
  rw [List.find?_eq_none]
  simp

/-- A queue that only lost elements, or whose elements kept their object and channel, is as sound. -/
theorem Sound.of_sublist (h : s.Sound) {f : Request → Request}
    (hf : ∀ r, (f r).object = r.object ∧ (f r).callback = r.callback) {kept : List Request} (hkept : kept.Sublist s.queue)
    (hqueue : t.queue = kept.map f) (hnext : t.nextCallback = s.nextCallback) (hlisteners : t.listeners = s.listeners)
    (hnotified : t.notified = s.notified) : t.Sound := by
  have hhash : t.queue.map (fun r => r.object.getHash) = kept.map (fun r => r.object.getHash) := by
    rw [hqueue, List.map_map]
    exact List.map_congr_left fun r _ => congrArg ObjectRequest.getHash (hf r).1
  have hcallback : t.queue.map Request.callback = kept.map Request.callback := by
    rw [hqueue, List.map_map]
    exact List.map_congr_left fun r _ => (hf r).2
  have hmem : ∀ r ∈ t.queue, ∃ q ∈ s.queue, r.callback = q.callback := by
    intro r hr
    rw [hqueue] at hr
    obtain ⟨q, hq, rfl⟩ := List.mem_map.mp hr
    exact ⟨q, hkept.subset hq, (hf q).2⟩
  refine ⟨?_, ?_, fun r hr => ?_, ?_, ?_, ?_, fun n hn l hl hid r hr => ?_, ?_⟩
  · rw [hhash]
    exact h.hashes.sublist (hkept.map _)
  · rw [hcallback]
    exact h.callbacks.sublist (hkept.map _)
  · obtain ⟨q, hq, heq⟩ := hmem r hr
    rw [hnext, heq]
    exact h.queue_lt q hq
  · rw [hnext, hlisteners]
    exact h.listeners_lt
  · rw [hlisteners]
    exact h.ids
  · rw [hnotified]
    exact h.once
  · obtain ⟨q, hq, heq⟩ := hmem r hr
    rw [hnotified] at hn
    rw [hlisteners] at hl
    rw [heq]
    exact h.gone n hn l hl hid q hq
  · rw [hnotified, hlisteners]
    exact h.known

theorem Sound.listen (h : s.Sound) (wanted : ObjectRequest) (hchannel : channel < s.nextCallback) :
    (s.listen wanted channel).Sound := by
  refine { h with listeners_lt := fun l hl => ?_, ids := ?_, gone := fun n hn l hl hid => ?_, known := fun n hn => ?_ }
  · rcases List.mem_append.mp hl with hl | hl
    · exact h.listeners_lt l hl
    · rw [List.mem_singleton.mp hl]
      exact hchannel
  · rw [ObjectTracker.listen, List.map_append, h.ids, List.length_append, List.length_singleton, List.range_succ]
    rfl
  · rcases List.mem_append.mp hl with hl | hl
    · exact h.gone n hn l hl hid
    · rw [List.mem_singleton.mp hl] at hid
      exact absurd (h.known n hn) (hid ▸ Nat.lt_irrefl _)
  · rw [ObjectTracker.listen, List.length_append]
    exact Nat.lt_add_right 1 (h.known n hn)

theorem Sound.push (h : s.Sound) (hnew : s.get req.object.getHash = none)
    (hcallback : req.callback = s.nextCallback) (hashes : List Hash) :
    { s with queue := s.queue ++ [req], nextCallback := s.nextCallback + 1, requestSender := hashes }.Sound := by
  rw [get_eq_none_iff] at hnew
  refine { h with hashes := ?_, callbacks := ?_, queue_lt := fun r hr => ?_, listeners_lt := fun l hl => ?_, gone := fun n hn l hl hid r hr => ?_ }
  · rw [List.map_append]
    refine h.hashes.append (List.nodup_singleton _) fun hash hold hone => ?_
    obtain ⟨r, hr, rfl⟩ := List.mem_map.mp hold
    exact hnew r hr (List.mem_singleton.mp hone)
  · rw [List.map_append]
    refine h.callbacks.append (List.nodup_singleton _) fun callback hold hone => ?_
    obtain ⟨r, hr, rfl⟩ := List.mem_map.mp hold
    exact absurd (h.queue_lt r hr) (by rw [List.mem_singleton.mp hone, hcallback]; exact Nat.lt_irrefl _)
  · rcases List.mem_append.mp hr with hr | hr
    · exact Nat.lt_succ_of_lt (h.queue_lt r hr)
    · rw [List.mem_singleton.mp hr, hcallback]
      exact Nat.lt_succ_self _
  · exact Nat.lt_succ_of_lt (h.listeners_lt l hl)
  · rcases List.mem_append.mp hr with hr | hr
    · exact h.gone n hn l hl hid r hr
    · rw [List.mem_singleton.mp hr, hcallback]
      exact Nat.ne_of_gt (h.listeners_lt l hl)

theorem Sound.request (h : s.Sound) (peer : Nat) (request : ObjectRequest) (groupId : Option Nat) :
    (s.requestObjectFromPeerWithOrGetNotified peer request groupId).Sound := by
  unfold requestObjectFromPeerWithOrGetNotified
  cases hget : s.get request.getHash with
  | some queued => exact h.listen request (h.queue_lt queued ((get_eq_some_iff h).mp hget).1)
  | none =>
    have hnew : s.get (Request.mk request peer none groupId s.nextCallback false).object.getHash = none := hget
    exact (h.push hnew rfl _).listen request (Nat.lt_succ_self _)

/-- The receivers of the channel of a request are told once, and the channel goes with the request. -/
theorem Sound.notify (h : s.Sound) (hreq : req ∈ s.queue) (response : OwnedObjectResponse) :
    { s.notify req response with queue := s.remove req.object.getHash }.Sound := by
  have hids : ∀ l ∈ s.listeners, ∀ l' ∈ s.listeners, l.id = l'.id → l = l' := by
    have hnodup : (s.listeners.map Listener.id).Nodup := by
      rw [h.ids]
      exact List.nodup_range
    exact fun l hl l' hl' => List.inj_on_of_nodup_map hnodup hl hl'
  have hleft : ∀ r ∈ s.remove req.object.getHash, r ∈ s.queue ∧ r.callback ≠ req.callback := by
    intro r hr
    obtain ⟨hr, hne⟩ := List.mem_filter.mp hr
    refine ⟨hr, fun heq => ?_⟩
    rw [List.inj_on_of_nodup_map h.callbacks hr hreq heq] at hne
    simp at hne
  refine ⟨h.hashes.sublist (List.filter_sublist.map _), h.callbacks.sublist (List.filter_sublist.map _),
    fun r hr => h.queue_lt r (hleft r hr).1, h.listeners_lt, h.ids, ?_, fun n hn l hl hid r hr => ?_, fun n hn => ?_⟩
  · show ((s.notified ++ _).map Prod.fst).Nodup
    rw [List.map_append, List.map_map]
    refine h.once.append ?_ fun id hold hnew => ?_
    · have hsub : ((s.listeners.filter (fun l => l.channel = req.callback)).map Listener.id).Sublist (s.listeners.map Listener.id) :=
        List.filter_sublist.map _
      refine List.Nodup.sublist hsub ?_
      rw [h.ids]
      exact List.nodup_range
    · obtain ⟨n, hn, rfl⟩ := List.mem_map.mp hold
      obtain ⟨l, hl, hid⟩ := List.mem_map.mp hnew
      obtain ⟨hl, hchannel⟩ := List.mem_filter.mp hl
      exact h.gone n hn l hl hid req hreq (of_decide_eq_true hchannel).symm
  · rcases List.mem_append.mp hn with hn | hn
    · exact h.gone n hn l hl hid r (hleft r hr).1
    · obtain ⟨l', hl', rfl⟩ := List.mem_map.mp hn
      obtain ⟨hl', hchannel⟩ := List.mem_filter.mp hl'
      obtain rfl := hids l hl l' hl' hid
      rw [of_decide_eq_true hchannel]
      exact (hleft r hr).2
  · rcases List.mem_append.mp hn with hn | hn
    · exact h.known n hn
    · obtain ⟨l, hl, rfl⟩ := List.mem_map.mp hn
      have hid : l.id ∈ List.range s.listeners.length := h.ids ▸ List.mem_map_of_mem (List.mem_filter.mp hl).1
      exact List.mem_range.mp hid

theorem Sound.settle (h : s.Sound) (hash : Hash) : (s.settle hash).Sound := { h with }

theorem Sound.cleanQueue (h : s.Sound) (peerId group : Option Nat) : (s.cleanQueue peerId group).Sound :=
  h.of_sublist (f := id) (fun _ => ⟨rfl, rfl⟩) List.filter_sublist (List.map_id _).symm rfl rfl rfl

theorem setRequested_object (hash : Hash) (sent : Bool) (r : Request) :
    (s.setRequested hash sent r).object = r.object ∧ (s.setRequested hash sent r).callback = r.callback := by
  unfold setRequested
  split
  · exact ⟨rfl, rfl⟩
  · exact ⟨rfl, rfl⟩

theorem Sound.requesterStep (h : s.Sound) (hash : Hash) (taken : Bool) : (s.requesterStep hash taken).Sound := by
  unfold ObjectTracker.requesterStep
  split
  · unfold requestObjectFromPeerInternal
    split
    · exact { h with }
    · have hmarked : ∀ sent outstanding, { s with
          requestSender := s.requestSender.erase hash
          queue := s.queue.map (s.setRequested hash sent)
          outstanding }.Sound := fun sent outstanding =>
        h.of_sublist (setRequested_object hash sent) (List.Sublist.refl _) rfl rfl rfl rfl
      dsimp only
      split
      · exact hmarked _ _
      · exact (hmarked _ _).cleanQueue _ _
  · exact h

theorem Sound.handleObjectResponse (h : s.Sound) (response : OwnedObjectResponse) : (s.handleObjectResponse response).2.Sound := by
  unfold ObjectTracker.handleObjectResponse
  cases hget : s.get response.getHash with
  | some req =>
    obtain ⟨hreq, hhash⟩ := (get_eq_some_iff h).mp hget
    rw [← hhash]
    exact (h.notify hreq response).settle _
  | none =>
    dsimp only
    split
    · exact { h with }
    · exact h

variable {I : ObjectTracker → Prop}

theorem handlerTick_keeps (hclean : ∀ s peerId group, I s → I (s.cleanQueue peerId group))
    (h : I s) (turns : Nat) : I (s.handlerTick turns) := by
  induction turns generalizing s with
  | zero => exact h
  | succ turns ih =>
    unfold ObjectTracker.handlerTick
    split
    · exact h
    · split
      · exact h
      · split
        · exact ih (hclean s _ _ h)
        · exact h

theorem forget_keeps
    (hturn : ∀ s hash, I s → I ({ s with cache := s.cache.erase hash }.settle hash)) (h : I s) (hashes : List Hash) :
    I (hashes.foldl (fun s hash => { s with cache := s.cache.erase hash }.settle hash) s) := by
  induction hashes generalizing s with
  | nil => exact h
  | cons hash hashes ih => exact ih (hturn s hash h)

theorem Sound.step (h : s.Sound) (e : Event) : (s.step e).Sound := by
  cases e with
  | request peer object groupId => exact h.request peer object groupId
  | requester hash taken => exact h.requesterStep hash taken
  | response response => exact h.handleObjectResponse response
  | handlerTick turns => exact handlerTick_keeps (I := Sound) (fun _ peerId group h => h.cleanQueue peerId group) h turns
  | cleanCache => exact forget_keeps (I := Sound) (fun _ _ h => { h with }) h _
  | markGroupAsFail groupId => exact h.cleanQueue none (some groupId)
  | disconnect peer => exact { h with }
  | wait milliseconds => exact { h with }

theorem Sound.initial : Sound {} where
  hashes := List.nodup_nil
  callbacks := List.nodup_nil
  queue_lt _ hr := nomatch hr
  listeners_lt _ hl := nomatch hl
  ids := rfl
  once := List.nodup_nil
  gone _ hn := nomatch hn
  known _ hn := nomatch hn

end Sound

/-- A clean only takes out requests that were sent, and whose hash is not in the cache already. -/
def CleanMeets (s : ObjectTracker) (peerId group : Option Nat) : Prop :=
  ∀ r ∈ s.queue, s.extracted peerId group r = true → r.sent = true ∧ s.cache.contains r.object.getHash = false

/-- Every clean of the handler is such a clean. -/
def TickMeets : Nat → ObjectTracker → Prop
  | 0, _ => True
  | turns + 1, s =>
    match s.queue.head? with
    | none => True
    | some first =>
      match first.requestedAt with
      | none => True
      | some requestedAt =>
        s.now - requestedAt > TIME_OUT →
          s.CleanMeets (some first.peer) first.groupId ∧ TickMeets turns (s.cleanQueue (some first.peer) first.groupId)

/-- A response does not come before its request was sent, nor with the hash of a request of another kind. -/
def ResponseMeets (s : ObjectTracker) (response : OwnedObjectResponse) : Prop :=
  (∀ r ∈ s.queue, r.object.getHash = response.getHash → r.object = response.getRequest ∧ r.sent = true) ∧
    ∀ o ∈ s.outstanding, o.getHash = response.getHash → o = response.getRequest

/-- The condition on the state before each event. -/
def Meets (s : ObjectTracker) : Event → Prop
  | .request _ object _ => ∀ r ∈ s.queue, r.object.getHash = object.getHash → r.object = object
  | .requester hash taken => ∀ r ∈ s.queue, r.object.getHash = hash → s.closed.contains r.peer = false ∧ taken = true
  | .response response => s.ResponseMeets response
  | .handlerTick turns => TickMeets turns s
  | .markGroupAsFail groupId => s.CleanMeets none (some groupId)
  | .cleanCache | .disconnect _ | .wait _ => True

def RunMeets (s : ObjectTracker) : List Event → Prop
  | [] => True
  | e :: events => s.Meets e ∧ RunMeets (s.step e) events

section Matched

variable {s : ObjectTracker}

/-- Receivers wait for the object of their request, and were told what they wanted. -/
structure Matched (s : ObjectTracker) : Prop where
  wanted : ∀ l ∈ s.listeners, ∀ r ∈ s.queue, l.channel = r.callback → l.wanted = r.object
  told : ∀ n ∈ s.notified, ∀ l ∈ s.listeners, l.id = n.1 → n.2.getRequest = l.wanted

theorem Matched.of_subset (h : s.Matched)
    (hqueue : ∀ r ∈ t.queue, ∃ q ∈ s.queue, q.object = r.object ∧ q.callback = r.callback)
    (hlisteners : t.listeners = s.listeners) (hnotified : t.notified = s.notified) : t.Matched := by
  refine ⟨fun l hl r hr hchannel => ?_, ?_⟩
  · obtain ⟨q, hq, hobject, hcallback⟩ := hqueue r hr
    rw [hlisteners] at hl
    rw [← hobject]
    exact h.wanted l hl q hq (hchannel.trans hcallback.symm)
  · rw [hnotified, hlisteners]
    exact h.told

theorem Matched.listen (h : s.Matched) (hsound : s.Sound) {wanted : ObjectRequest}
    (hwanted : ∀ r ∈ s.queue, channel = r.callback → wanted = r.object) : (s.listen wanted channel).Matched := by
  refine ⟨fun l hl r hr hchannel => ?_, fun n hn l hl hid => ?_⟩
  · rcases List.mem_append.mp hl with hl | hl
    · exact h.wanted l hl r hr hchannel
    · rw [List.mem_singleton.mp hl] at hchannel ⊢
      exact hwanted r hr hchannel
  · rcases List.mem_append.mp hl with hl | hl
    · exact h.told n hn l hl hid
    · rw [List.mem_singleton.mp hl] at hid
      exact absurd (hsound.known n hn) (hid ▸ Nat.lt_irrefl _)

theorem Matched.request (h : s.Matched) (hsound : s.Sound) {object : ObjectRequest} {groupId : Option Nat}
    (hmeets : s.Meets (.request peer object groupId)) : (s.requestObjectFromPeerWithOrGetNotified peer object groupId).Matched := by
  unfold requestObjectFromPeerWithOrGetNotified
  cases hget : s.get object.getHash with
  | some queued =>
    obtain ⟨hmem, hhash⟩ := (get_eq_some_iff hsound).mp hget
    refine h.listen hsound fun r hr hchannel => ?_
    rw [← List.inj_on_of_nodup_map hsound.callbacks hmem hr hchannel]
    exact (hmeets queued hmem hhash).symm
  | none =>
    have hnew : s.get (Request.mk object peer none groupId s.nextCallback false).object.getHash = none := hget
    have hpush : Matched { s with
        queue := s.queue ++ [⟨object, peer, none, groupId, s.nextCallback, false⟩]
        nextCallback := s.nextCallback + 1
        requestSender := s.requestSender ++ [object.getHash] } := by
      refine ⟨fun l hl r hr hchannel => ?_, h.told⟩
      rcases List.mem_append.mp hr with hr | hr
      · exact h.wanted l hl r hr hchannel
      · rw [List.mem_singleton.mp hr] at hchannel
        exact absurd (hsound.listeners_lt l hl) (by rw [hchannel]; exact Nat.lt_irrefl _)
    refine hpush.listen (hsound.push hnew rfl _) fun r hr hchannel => ?_
    rcases List.mem_append.mp hr with hr | hr
    · exact absurd (hsound.queue_lt r hr) (hchannel ▸ Nat.lt_irrefl _)
    · rw [List.mem_singleton.mp hr]

theorem Matched.cleanQueue (h : s.Matched) (peerId group : Option Nat) : (s.cleanQueue peerId group).Matched :=
  h.of_subset (fun r hr => ⟨r, List.mem_of_mem_filter hr, rfl, rfl⟩) rfl rfl

theorem Matched.requesterStep (h : s.Matched) (hash : Hash) (taken : Bool) : (s.requesterStep hash taken).Matched := by
  unfold ObjectTracker.requesterStep
  split
  · unfold requestObjectFromPeerInternal
    split
    · exact { h with }
    · have hmarked : ∀ sent outstanding, { s with
          requestSender := s.requestSender.erase hash
          queue := s.queue.map (s.setRequested hash sent)
          outstanding }.Matched := by
        intro sent outstanding
        refine h.of_subset (fun r hr => ?_) rfl rfl
        obtain ⟨q, hq, rfl⟩ := List.mem_map.mp hr
        have hsame := setRequested_object (s := s) hash sent q
        exact ⟨q, hq, hsame.1.symm, hsame.2.symm⟩
      dsimp only
      split
      · exact hmarked _ _
      · exact (hmarked _ _).cleanQueue _ _
  · exact h

theorem Matched.handleObjectResponse (h : s.Matched) (hsound : s.Sound)
    (hmeets : s.ResponseMeets response) : (s.handleObjectResponse response).2.Matched := by
  unfold ObjectTracker.handleObjectResponse
  cases hget : s.get response.getHash with
  | some req =>
    obtain ⟨hreq, hhash⟩ := (get_eq_some_iff hsound).mp hget
    refine ⟨fun l hl r hr hchannel => h.wanted l hl r (List.mem_of_mem_filter hr) hchannel, fun n hn l hl hid => ?_⟩
    rcases List.mem_append.mp hn with hn | hn
    · exact h.told n hn l hl hid
    · obtain ⟨l', hl', rfl⟩ := List.mem_map.mp hn
      obtain ⟨hl', hchannel⟩ := List.mem_filter.mp hl'
      have hids : (s.listeners.map Listener.id).Nodup := by
        rw [hsound.ids]
        exact List.nodup_range
      obtain rfl : l = l' := List.inj_on_of_nodup_map hids hl hl' hid
      rw [h.wanted l hl req hreq (of_decide_eq_true hchannel)]
      exact (hmeets.1 req hreq hhash).1.symm
  | none =>
    dsimp only
    split
    · exact { h with }
    · exact h

theorem Matched.step (h : s.Matched) (hsound : s.Sound) {e : Event} (hmeets : s.Meets e) : (s.step e).Matched := by
  cases e with
  | request peer object groupId => exact h.request hsound hmeets
  | requester hash taken => exact h.requesterStep hash taken
  | response response => exact h.handleObjectResponse hsound hmeets
  | handlerTick turns => exact handlerTick_keeps (I := Matched) (fun _ peerId group h => h.cleanQueue peerId group) h turns
  | cleanCache => exact forget_keeps (I := Matched) (fun _ _ h => { h with }) h _
  | markGroupAsFail groupId => exact h.cleanQueue none (some groupId)
  | disconnect peer => exact { h with }
  | wait milliseconds => exact { h with }

end Matched

section Counted

variable {s : ObjectTracker}

def awaited (s : ObjectTracker) (hash : Hash) : Bool := s.queue.any (fun r => r.object.getHash = hash && r.sent)

/-- The requests that went out and were neither answered nor forgotten are those of the queue and of the cache. -/
structure Counted (s : ObjectTracker) : Prop where
  count : ∀ hash, s.outstanding.countP (fun o => o.getHash = hash) = (s.awaited hash).toNat + (s.cache.contains hash).toNat
  sender_nodup : s.requestSender.Nodup
  sender : ∀ hash ∈ s.requestSender, ∃ r ∈ s.queue, r.object.getHash = hash ∧ r.sent = false

theorem awaited_eq_true_iff : s.awaited hash = true ↔ ∃ r ∈ s.queue, r.object.getHash = hash ∧ r.sent = true := by
  simp [awaited]

theorem awaited_of_get (h : s.Sound) (hget : s.get hash = some r) : s.awaited hash = r.sent := by
  obtain ⟨hmem, hhash⟩ := (get_eq_some_iff h).mp hget
  rw [Bool.eq_iff_iff, awaited_eq_true_iff]
  constructor
  · rintro ⟨q, hq, hqhash, hsent⟩
    rwa [← List.inj_on_of_nodup_map h.hashes hq hmem (hqhash.trans hhash.symm)]
  · intro hsent
    exact ⟨r, hmem, hhash, hsent⟩

theorem awaited_of_get_none (hget : s.get hash = none) : s.awaited hash = false := by
  rw [Bool.eq_false_iff, Ne, awaited_eq_true_iff]
  rintro ⟨r, hr, hhash, -⟩
  exact get_eq_none_iff.mp hget r hr hhash

theorem countP_settle (hash other : Hash) (h : 0 < s.outstanding.countP (fun o => o.getHash = hash)) :
    (s.settle hash).outstanding.countP (fun o => o.getHash = other) + (if hash = other then 1 else 0) =
      s.outstanding.countP (fun o => o.getHash = other) := by
  obtain ⟨o, ho, hhash⟩ := List.countP_pos_iff.mp h
  obtain ⟨o', before, after, hbefore, ho', hsplit, herase⟩ := List.exists_of_eraseP (p := fun o => decide (ObjectRequest.getHash o = hash)) ho hhash
  have ho' : o'.getHash = hash := of_decide_eq_true ho'
  show (s.outstanding.eraseP _).countP _ + _ = _
  rw [herase, hsplit, List.countP_append, List.countP_append, List.countP_cons, ho']
  by_cases heq : hash = other
  · simp [heq, Nat.add_assoc]
  · simp [heq]

theorem Counted.request (h : s.Counted) (peer : Nat) (object : ObjectRequest) (groupId : Option Nat) :
    (s.requestObjectFromPeerWithOrGetNotified peer object groupId).Counted := by
  unfold requestObjectFromPeerWithOrGetNotified
  cases hget : s.get object.getHash with
  | some queued => exact { h with }
  | none =>
    rw [get_eq_none_iff] at hget
    have hfresh : object.getHash ∉ s.requestSender := by
      intro hmem
      obtain ⟨r, hr, hhash, -⟩ := h.sender _ hmem
      exact hget r hr hhash
    refine ⟨fun hash => ?_, ?_, fun hash hmem => ?_⟩
    · have hcount := h.count hash
      simpa [ObjectTracker.listen, awaited] using hcount
    · exact h.sender_nodup.append (List.nodup_singleton _) (by simpa using hfresh)
    · rcases List.mem_append.mp hmem with hmem | hmem
      · obtain ⟨r, hr, hfacts⟩ := h.sender hash hmem
        exact ⟨r, List.mem_append_left _ hr, hfacts⟩
      · exact ⟨_, List.mem_append_right _ (List.mem_singleton_self _), (List.mem_singleton.mp hmem).symm, rfl⟩

theorem setRequested_of_ne {sent : Bool} (h : r.object.getHash ≠ hash) : s.setRequested hash sent r = r := if_neg h

theorem Counted.requesterStep (h : s.Counted) (hsound : s.Sound) {taken : Bool}
    (hmeets : s.Meets (.requester hash taken)) : (s.requesterStep hash taken).Counted := by
  unfold ObjectTracker.requesterStep
  split
  · rename_i hmem
    obtain ⟨req, hreq, hhash, hunsent⟩ := h.sender hash hmem
    obtain ⟨hopen, rfl⟩ := hmeets req hreq hhash
    have hget : s.get hash = some req := (get_eq_some_iff hsound).mpr ⟨hreq, hhash⟩
    unfold requestObjectFromPeerInternal
    simp only [show ({ s with requestSender := s.requestSender.erase hash } : ObjectTracker).get hash = some req from hget,
      hopen, Bool.not_false, Bool.true_and, if_true]
    refine ⟨fun other => ?_, h.sender_nodup.erase hash, fun other hother => ?_⟩
    · have hcount := h.count other
      have hawaited : (s.queue.map (s.setRequested hash true)).any (fun r => r.object.getHash = other && r.sent) =
          (s.awaited other || decide (hash = other)) := by
        rw [Bool.eq_iff_iff, Bool.or_eq_true, awaited_eq_true_iff, decide_eq_true_eq, List.any_map, List.any_eq_true]
        constructor
        · rintro ⟨r, hr, hsent⟩
          by_cases hr' : r.object.getHash = hash
          · simp only [Function.comp, setRequested, hr', if_true, Bool.or_true, Bool.and_true, decide_eq_true_eq] at hsent
            exact Or.inr hsent
          · simp only [Function.comp, setRequested, hr', if_false, Bool.and_eq_true, decide_eq_true_eq] at hsent
            exact Or.inl ⟨r, hr, hsent⟩
        · rintro (⟨r, hr, hr', hsent⟩ | rfl)
          · refine ⟨r, hr, ?_⟩
            unfold Function.comp setRequested
            split
            · simp [hr']
            · simp [hr', hsent]
          · exact ⟨req, hreq, by simp [setRequested, hhash]⟩
      show (s.outstanding ++ [req.object]).countP _ = ((s.queue.map (s.setRequested hash true)).any _).toNat + _
      rw [hawaited, List.countP_append, hcount, List.countP_singleton, hhash]
      by_cases heq : hash = other
      · subst heq
        rw [awaited_of_get hsound hget, hunsent]
        simp [Nat.add_comm]
      · simp [heq]
    · obtain ⟨hne, hold⟩ := (h.sender_nodup.mem_erase_iff).mp hother
      obtain ⟨r, hr, hr', hsent⟩ := h.sender other hold
      refine ⟨r, List.mem_map.mpr ⟨r, hr, setRequested_of_ne fun heq => hne (hr'.symm.trans heq)⟩, hr', hsent⟩
  · exact h

theorem Counted.forget (h : s.Counted) (hcached : s.cache.contains hash = true) :
    ({ s with cache := s.cache.erase hash }.settle hash).Counted := by
  refine ⟨fun other => ?_, h.sender_nodup, h.sender⟩
  have hpos : 0 < s.outstanding.countP (fun o => o.getHash = hash) := by
    rw [h.count, hcached]
    exact Nat.lt_add_left _ Nat.zero_lt_one
  have hcount := h.count other
  have hsettle := countP_settle hash other hpos
  show (s.settle hash).outstanding.countP _ = (s.awaited other).toNat + ((s.cache.erase hash).contains other).toNat
  rw [Std.ExtTreeMap.contains_eq_isSome_getElem?]
  by_cases heq : hash = other
  · subst heq
    rw [hcached, Bool.toNat_true] at hcount
    rw [if_pos rfl] at hsettle
    rw [Lib.FiniteMap.getElem?_erase_self', Option.isSome_none, Bool.toNat_false]
    omega
  · rw [if_neg heq] at hsettle
    rw [Lib.FiniteMap.getElem?_erase_of_ne _ heq, ← Std.ExtTreeMap.contains_eq_isSome_getElem?]
    omega

/-- A response settles the request it answers, in the queue or in the cache. -/
theorem Counted.handleObjectResponse (h : s.Counted) (hsound : s.Sound)
    (hmeets : s.ResponseMeets response) : (s.handleObjectResponse response).2.Counted := by
  unfold ObjectTracker.handleObjectResponse
  cases hget : s.get response.getHash with
  | some req =>
    obtain ⟨hreq, hhash⟩ := (get_eq_some_iff hsound).mp hget
    have hsent := (hmeets.1 req hreq hhash).2
    have hawaited := awaited_of_get hsound hget
    have hpos : 0 < s.outstanding.countP (fun o => o.getHash = response.getHash) := by
      rw [h.count, hawaited, hsent]
      exact Nat.lt_add_right _ Nat.zero_lt_one
    refine ⟨fun other => ?_, h.sender_nodup, fun other hother => ?_⟩
    · have hcount := h.count other
      have hsettle := countP_settle response.getHash other hpos
      have hleft : (s.remove response.getHash).any (fun r => r.object.getHash = other && r.sent) =
          (s.awaited other && !decide (response.getHash = other)) := by
        rw [Bool.eq_iff_iff, Bool.and_eq_true, awaited_eq_true_iff, List.any_eq_true]
        simp only [remove, List.mem_filter, Bool.and_eq_true, decide_eq_true_eq, Bool.not_eq_true', decide_eq_false_iff_not]
        constructor
        · rintro ⟨r, ⟨hr, hne⟩, hr', hrsent⟩
          exact ⟨⟨r, hr, hr', hrsent⟩, fun heq => hne (hr'.trans heq.symm)⟩
        · rintro ⟨⟨r, hr, hr', hrsent⟩, hne⟩
          exact ⟨r, ⟨hr, fun heq => hne (heq.symm.trans hr')⟩, hr', hrsent⟩
      show (s.settle response.getHash).outstanding.countP _ =
        ((s.remove response.getHash).any _).toNat + (s.cache.contains other).toNat
      rw [hleft]
      by_cases heq : response.getHash = other
      · subst heq
        rw [hawaited, hsent] at hcount
        rw [if_pos rfl] at hsettle
        simp only [decide_true, Bool.not_true, Bool.and_false, Bool.toNat_false, Bool.toNat_true] at hcount ⊢
        omega
      · rw [if_neg heq] at hsettle
        simp only [heq, decide_false, Bool.not_false, Bool.and_true]
        omega
    · obtain ⟨r, hr, hr', hunsent⟩ := h.sender other hother
      refine ⟨r, List.mem_filter.mpr ⟨hr, ?_⟩, hr', hunsent⟩
      refine decide_eq_true fun heq => ?_
      rw [List.inj_on_of_nodup_map hsound.hashes hr hreq (heq.trans hhash.symm), hsent] at hunsent
      cases hunsent
  | none =>
    dsimp only
    split
    · rename_i hcached
      exact h.forget hcached
    · exact h

theorem contains_foldl_insert (requests : List Request) (cache : FiniteMap Hash Nat) (now : Nat) (hash : Hash) :
    (requests.foldl (fun cache r => cache.insert r.object.getHash now) cache).contains hash =
      (cache.contains hash || requests.any (fun r => r.object.getHash = hash)) := by
  induction requests generalizing cache with
  | nil => exact (Bool.or_false _).symm
  | cons r requests ih =>
    rw [List.foldl_cons, ih, List.any_cons, ← Bool.or_assoc, Std.ExtTreeMap.contains_eq_isSome_getElem?]
    by_cases heq : r.object.getHash = hash
    · rw [heq, Lib.FiniteMap.getElem?_insert_self']
      simp
    · rw [Lib.FiniteMap.getElem?_insert_of_ne _ _ heq, ← Std.ExtTreeMap.contains_eq_isSome_getElem?]
      simp [heq]

/-- What is taken out was sent, and goes on in the cache. -/
theorem Counted.cleanQueue (h : s.Counted) (hsound : s.Sound) {peerId group : Option Nat} (hmeets : s.CleanMeets peerId group) :
    (s.cleanQueue peerId group).Counted := by
  refine ⟨fun hash => ?_, h.sender_nodup, fun hash hmem => ?_⟩
  · show s.outstanding.countP _ = ((s.queue.filter _).any _).toNat + (Std.ExtTreeMap.contains (List.foldl _ _ _) hash).toNat
    rw [contains_foldl_insert, h.count hash]
    cases hget : s.get hash with
    | none =>
      rw [get_eq_none_iff] at hget
      rw [awaited_of_get_none (get_eq_none_iff.mpr hget)]
      have hleft : (s.queue.filter (fun r => !s.extracted peerId group r)).any (fun r => r.object.getHash = hash && r.sent) = false := by
        rw [List.any_eq_false]
        intro r hr
        simp [hget r (List.mem_of_mem_filter hr)]
      have hout : (s.queue.filter (s.extracted peerId group)).any (fun r => r.object.getHash = hash) = false := by
        rw [List.any_eq_false]
        intro r hr
        simp [hget r (List.mem_of_mem_filter hr)]
      rw [hleft, hout, Bool.or_false]
    | some req =>
      obtain ⟨hreq, hhash⟩ := (get_eq_some_iff hsound).mp hget
      have honly : ∀ r ∈ s.queue, r.object.getHash = hash → r = req := fun r hr hr' =>
        List.inj_on_of_nodup_map hsound.hashes hr hreq (hr'.trans hhash.symm)
      rw [awaited_of_get hsound hget]
      cases hout : s.extracted peerId group req with
      | true =>
        obtain ⟨hsent, hcached⟩ := hmeets req hreq hout
        have hgone : (s.queue.filter (fun r => !s.extracted peerId group r)).any (fun r => r.object.getHash = hash && r.sent) = false := by
          rw [List.any_eq_false]
          intro r hr
          obtain ⟨hr, hkept⟩ := List.mem_filter.mp hr
          simp only [Bool.and_eq_true, decide_eq_true_eq, not_and]
          intro hr'
          rw [honly r hr hr', hout] at hkept
          cases hkept
        have hnow : (s.queue.filter (s.extracted peerId group)).any (fun r => r.object.getHash = hash) = true :=
          List.any_eq_true.mpr ⟨req, List.mem_filter.mpr ⟨hreq, hout⟩, decide_eq_true hhash⟩
        rw [hhash] at hcached
        rw [hgone, hnow, hsent, hcached]
        rfl
      | false =>
        have hstays : (s.queue.filter (fun r => !s.extracted peerId group r)).any (fun r => r.object.getHash = hash && r.sent) =
            req.sent := by
          rw [Bool.eq_iff_iff, List.any_eq_true]
          constructor
          · rintro ⟨r, hr, hsent⟩
            simp only [Bool.and_eq_true, decide_eq_true_eq] at hsent
            rw [← honly r (List.mem_of_mem_filter hr) hsent.1]
            exact hsent.2
          · intro hsent
            exact ⟨req, List.mem_filter.mpr ⟨hreq, by rw [hout]; rfl⟩, by simp [hhash, hsent]⟩
        have hnot : (s.queue.filter (s.extracted peerId group)).any (fun r => r.object.getHash = hash) = false := by
          rw [List.any_eq_false]
          intro r hr
          obtain ⟨hr, htaken⟩ := List.mem_filter.mp hr
          refine fun hr' => ?_
          rw [honly r hr (of_decide_eq_true hr'), hout] at htaken
          cases htaken
        rw [hstays, hnot, Bool.or_false]
  · -- what was not sent yet stays
    obtain ⟨r, hr, hr', hunsent⟩ := h.sender hash hmem
    refine ⟨r, List.mem_filter.mpr ⟨hr, ?_⟩, hr', hunsent⟩
    cases hout : s.extracted peerId group r with
    | false => rfl
    | true =>
      rw [(hmeets r hr hout).1] at hunsent
      cases hunsent

theorem Counted.handlerTick (h : s.Counted) (hsound : s.Sound) (hmeets : TickMeets turns s) :
    (s.handlerTick turns).Counted := by
  induction turns generalizing s with
  | zero => exact h
  | succ turns ih =>
    unfold TickMeets at hmeets
    unfold ObjectTracker.handlerTick
    cases hhead : s.queue.head? with
    | none => exact h
    | some first =>
      cases hrequested : first.requestedAt with
      | none =>
        simp only [hrequested]
        exact h
      | some requestedAt =>
        simp only [hhead, hrequested] at hmeets ⊢
        split
        · rename_i hlate
          obtain ⟨hclean, hrest⟩ := hmeets hlate
          exact ih (h.cleanQueue hsound hclean) (hsound.cleanQueue _ _) hrest
        · exact h

theorem Counted.cleanCache (h : s.Counted) : s.cleanCache.Counted := by
  have hcached : ∀ hash ∈ s.cache.keys.filter s.expired, s.cache.contains hash = true := fun hash hmem =>
    Std.ExtTreeMap.mem_keys.mp (List.mem_of_mem_filter hmem)
  have hnodup : (s.cache.keys.filter s.expired).Nodup := Std.ExtTreeMap.nodup_keys.filter _
  show (List.foldl _ s (s.cache.keys.filter s.expired)).Counted
  revert hcached hnodup
  generalize s.cache.keys.filter s.expired = hashes
  intro hcached hnodup
  induction hashes generalizing s with
  | nil => exact h
  | cons hash hashes ih =>
    obtain ⟨hnew, hnodup⟩ := List.nodup_cons.mp hnodup
    refine ih (h.forget (hcached hash List.mem_cons_self)) (fun other hother => ?_) hnodup
    have hne : hash ≠ other := fun heq => hnew (heq ▸ hother)
    have hold := hcached other (List.mem_cons_of_mem _ hother)
    show (s.cache.erase hash).contains other = true
    rw [Std.ExtTreeMap.contains_eq_isSome_getElem?, Lib.FiniteMap.getElem?_erase_of_ne _ hne,
      ← Std.ExtTreeMap.contains_eq_isSome_getElem?]
    exact hold

theorem Counted.step (h : s.Counted) (hsound : s.Sound) {e : Event} (hmeets : s.Meets e) : (s.step e).Counted := by
  cases e with
  | request peer object groupId => exact h.request peer object groupId
  | requester hash taken => exact h.requesterStep hsound hmeets
  | response response => exact h.handleObjectResponse hsound hmeets
  | handlerTick turns => exact h.handlerTick hsound hmeets
  | cleanCache => exact h.cleanCache
  | markGroupAsFail groupId => exact h.cleanQueue hsound hmeets
  | disconnect peer => exact { h with }
  | wait milliseconds => exact { h with }

theorem Counted.taken_iff (h : s.Counted) (hsound : s.Sound) (hmeets : s.ResponseMeets response) :
    (s.handleObjectResponse response).1 = true ↔ response.getRequest ∈ s.outstanding := by
  have hout : response.getRequest ∈ s.outstanding ↔ 0 < s.outstanding.countP (fun o => o.getHash = response.getHash) := by
    rw [List.countP_pos_iff]
    constructor
    · intro hmem
      exact ⟨_, hmem, decide_eq_true response.getRequest_getHash⟩
    · rintro ⟨o, ho, hhash⟩
      rwa [← hmeets.2 o ho (of_decide_eq_true hhash)]
  rw [hout, h.count]
  unfold ObjectTracker.handleObjectResponse
  cases hget : s.get response.getHash with
  | some req =>
    obtain ⟨hreq, hhash⟩ := (get_eq_some_iff hsound).mp hget
    rw [awaited_of_get hsound hget, (hmeets.1 req hreq hhash).2]
    exact iff_of_true rfl (Nat.lt_add_right _ Nat.zero_lt_one)
  | none =>
    rw [awaited_of_get_none hget]
    dsimp only
    split
    · rename_i hcached
      simp [hcached]
    · rename_i hcached
      simp [hcached]

end Counted

theorem run_keeps (hsound : s.Sound) (hmatched : s.Matched) (hcounted : s.Counted) {events : List Event}
    (hmeets : s.RunMeets events) : (s.run events).Sound ∧ (s.run events).Matched ∧ (s.run events).Counted := by
  induction events generalizing s with
  | nil => exact ⟨hsound, hmatched, hcounted⟩
  | cons e events ih =>
    obtain ⟨hfirst, hrest⟩ := hmeets
    exact ih (hsound.step e) (hmatched.step hsound hfirst) (hcounted.step hsound hfirst) hrest

theorem Matched.initial : Matched {} where
  wanted _ hl := nomatch hl
  told _ hn := nomatch hn

theorem Counted.initial : Counted {} where
  count hash := by
    show 0 = 0 + ((∅ : FiniteMap Hash Nat).contains hash).toNat
    rw [Std.ExtTreeMap.contains_empty]
    rfl
  sender_nodup := List.nodup_nil
  sender _ hmem := nomatch hmem

/-- What the tracker promises: a receiver is told at most once and what it wanted, a response is taken exactly when
its request went out and was neither answered nor forgotten, and an object is in the queue at most once. -/
structure Safe (s : ObjectTracker) : Prop where
  once : (s.notified.map Prod.fst).Nodup
  told : ∀ n ∈ s.notified, ∀ l ∈ s.listeners, l.id = n.1 → n.2.getRequest = l.wanted
  taken : ∀ response, s.ResponseMeets response →
    ((s.handleObjectResponse response).1 = true ↔ response.getRequest ∈ s.outstanding)
  pending : (s.queue.map Request.object).Nodup

theorem objectTracker_safe (events : List Event) (hmeets : RunMeets {} events) : (run {} events).Safe := by
  obtain ⟨hsound, hmatched, hcounted⟩ := run_keeps Sound.initial Matched.initial Counted.initial hmeets
  refine ⟨hsound.once, hmatched.told, fun response => hcounted.taken_iff hsound, ?_⟩
  refine List.Nodup.of_map ObjectRequest.getHash ?_
  rw [List.map_map]
  exact hsound.hashes

/-- A header without transactions. -/
def sampleHeader : BlockHeader :=
  { version := .v2, tips := [], timestamp := 0, height := 0, nonce := 0, extraNonce := [], miner := 0, txsHashes := [] }

def blockRequested : List Event := [.request 1 (.block 7) none, .requester 7 true]

/-- The block is answered, and what is late is cleaned. -/
theorem objectTracker_safe_answered :
    (run {} (blockRequested ++ [.response (.block ⟨sampleHeader, []⟩ 7), .wait 20000, .handlerTick 4, .cleanCache])).Safe := by
  refine objectTracker_safe _ ⟨?_, ?_, ⟨?_, ?_⟩, trivial, trivial, trivial, trivial⟩
  · intro r hr
    cases hr
  · intro r hr _
    obtain rfl := List.mem_singleton.mp hr
    exact ⟨rfl, rfl⟩
  · intro r hr _
    obtain rfl := List.mem_singleton.mp hr
    exact ⟨rfl, rfl⟩
  · intro o ho _
    exact List.mem_singleton.mp ho

/-- The receiver of a block is told a header, and a block is taken that was never requested from a peer. -/
theorem objectTracker_safe_fails :
    (∃ n ∈ (run {} (blockRequested ++ [.response (.blockHeader sampleHeader 7)])).notified,
      ∃ l ∈ (run {} (blockRequested ++ [.response (.blockHeader sampleHeader 7)])).listeners,
        l.id = n.1 ∧ n.2.getRequest ≠ l.wanted) ∧
    ((run {} [.request 1 (.block 7) none, .disconnect 1, .requester 7 true]).handleObjectResponse (.block ⟨sampleHeader, []⟩ 7)).1 = true ∧
      (run {} [.request 1 (.block 7) none, .disconnect 1, .requester 7 true]).outstanding = [] := by
  refine ⟨⟨(0, .blockHeader sampleHeader 7), List.mem_singleton_self _, ⟨0, .block 7, 0⟩, List.mem_singleton_self _, rfl, ?_⟩, ?_, ?_⟩
  · decide
  · decide
  · decide

end ObjectTracker

end Xelis.P2p
