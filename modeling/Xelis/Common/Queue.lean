import Mathlib.Data.List.Induction
import Xelis.Lib.Keyed

namespace Xelis

section Definitions

/-- A shared pointer to a key. Two pointers are the same if they come from the same allocation. -/
structure Arc (K : Type) where
  id : Nat
  key : K
  deriving DecidableEq

/-- The expectation that nobody else holds the pointer fails. -/
structure ArcShared where
  deriving DecidableEq

/-- The keys are a hash map, here in the order of their insertion; `allocated` counts the allocations made so far. -/
structure Queue (K V : Type) where
  keys : List (Arc K × V) := []
  order : List (Arc K) := []
  allocated : Nat := 0
  deriving DecidableEq

variable {K V : Type} [DecidableEq K]

def insertKey (keys : List (Arc K × V)) (arc : Arc K) (value : V) : List (Arc K × V) :=
  if keys.any (fun e => e.1.key = arc.key) then keys.map (fun e => if e.1.key = arc.key then (e.1, value) else e)
  else keys ++ [(arc, value)]

namespace Queue

def has (q : Queue K V) (key : K) : Bool := q.keys.any (fun e => e.1.key = key)

def get (q : Queue K V) (key : K) : Option V := (q.keys.find? (fun e => e.1.key = key)).map Prod.snd

def peek (q : Queue K V) : Option V := q.order.head?.bind (fun arc => q.get arc.key)

def len (q : Queue K V) : Nat := q.order.length

def pushInternal (q : Queue K V) (key : K) (value : V) : Queue K V :=
  let arc : Arc K := ⟨q.allocated, key⟩
  { keys := insertKey q.keys arc value, order := q.order ++ [arc], allocated := q.allocated + 1 }

/-- Pushes a new element to the back of the queue, and returns true if it was added. -/
def push (q : Queue K V) (key : K) (value : V) : Bool × Queue K V :=
  if q.has key then (false, q) else (true, q.pushInternal key value)

/-- `Arc::try_unwrap` with its expectation: nothing in the queue, and none of the entries an iterator still holds, may
point to the same allocation. -/
def tryUnwrap (q : Queue K V) (rest : List (Arc K × V)) (arc : Arc K) : Except ArcShared K :=
  if (q.keys ++ rest).any (fun e => e.1.id = arc.id) || q.order.any (fun other => other.id = arc.id) then .error {} else .ok arc.key

/-- `HashMap::remove`. -/
def removeKey (q : Queue K V) (key : K) : Option V × Queue K V :=
  (q.get key, { q with keys := q.keys.eraseP (fun e => e.1.key = key) })

def removeOrderInternal (q : Queue K V) (key : K) : Option (Arc K) × Queue K V :=
  (q.order.find? (fun arc => arc.key = key), { q with order := q.order.eraseP (fun arc => arc.key = key) })

/-- Removes and returns the first element. -/
def pop (q : Queue K V) : Except ArcShared (Option (K × V) × Queue K V) :=
  match q.order with
  | [] => .ok (none, q)
  | arc :: order =>
    match removeKey { q with order := order } arc.key with
    | (none, q) => .ok (none, q)
    | (some value, q) => (q.tryUnwrap [] arc).map (fun key => (some (key, value), q))

/-- Removes and returns the element for the given key. -/
def removeEntry (q : Queue K V) (key : K) : Except ArcShared (Option (K × V) × Queue K V) :=
  match q.removeKey key with
  | (none, q) => .ok (none, q)
  | (some value, q) =>
    match q.removeOrderInternal key with
    | (none, q) => .ok (none, q)
    | (some arc, q) => (q.tryUnwrap [] arc).map (fun key => (some (key, value), q))

/-- Removes and returns the value for the given key. -/
def remove (q : Queue K V) (key : K) : Option V × Queue K V :=
  match q.removeKey key with
  | (none, q) => (none, q)
  | (some value, q) =>
    match q.removeOrderInternal key with
    | (none, q) => (none, q)
    | (some _, q) => (some value, q)

/-- The value the mutable reference points to, and the queue after the caller wrote through the reference. -/
def getMut (q : Queue K V) (key : K) (update : V → V) : Option V × Queue K V :=
  (q.get key, { q with keys := q.keys.map (fun e => if e.1.key = key then (e.1, update e.2) else e) })

def peekMut (q : Queue K V) (update : V → V) : Option V × Queue K V :=
  match q.order.head? with
  | none => (none, q)
  | some arc => q.getMut arc.key update

def clear (q : Queue K V) : Queue K V := { q with keys := [], order := [] }

/-- An iterator of `extract_if`: the entries it did not visit yet and those it asked the predicate about. -/
structure ExtractIf (K V : Type) where
  queue : Queue K V
  rest : List (Arc K × V)
  asked : List (K × V) := []

/-- The entries behind the pointers. -/
def contentsOf (held : List (Arc K × V)) : List (K × V) := held.map (fun e => (e.1.key, e.2))

/-- The next element the predicate accepts; it may look at all the entries it was asked about before. -/
def next (f : List (K × V) → K × V → Bool) (queue : Queue K V) (asked : List (K × V)) :
    List (Arc K × V) → Except ArcShared (Option (K × V) × ExtractIf K V)
  | [] => .ok (none, { queue, rest := [], asked })
  | (arc, value) :: rest =>
    if f asked (arc.key, value) then
      match queue.removeOrderInternal arc.key with
      | (none, queue) => next f queue (asked ++ [(arc.key, value)]) rest
      | (some _, queue) =>
        (queue.tryUnwrap rest arc).map (fun key => (some (key, value), { queue, rest, asked := asked ++ [(arc.key, value)] }))
    else next f { queue with keys := insertKey queue.keys arc value } (asked ++ [(arc.key, value)]) rest

/-- So many calls of `next`, with the elements they return. -/
def consume (f : List (K × V) → K × V → Bool) : Nat → ExtractIf K V → Except ArcShared (List (K × V) × ExtractIf K V)
  | 0, it => .ok ([], it)
  | calls + 1, it =>
    match next f it.queue it.asked it.rest with
    | .error e => .error e
    | .ok (found, it) => (consume f calls it).map (fun more => (found.toList ++ more.1, more.2))

/-- An order in which a hash map goes through its entries. -/
structure Iteration (K V : Type) where
  entries : List (Arc K × V) → List (Arc K × V)
  perm : ∀ keys, (entries keys).Perm keys

/-- The elements that are returned while the iterator is asked so many times, and the queue after it is dropped. -/
def extractIf (q : Queue K V) (f : List (K × V) → K × V → Bool) (iteration : Iteration K V) (calls : Nat) :
    Except ArcShared (List (K × V) × Queue K V) :=
  (consume f calls { queue := { q with keys := [] }, rest := iteration.entries q.keys }).map (fun end' => (end'.1, end'.2.queue))

/-- The calls of the users of a queue. -/
inductive Call (K V : Type) where
  | push (key : K) (value : V)
  | pop
  | remove (key : K)
  | removeEntry (key : K)
  | getMut (key : K) (update : V → V)
  | peekMut (update : V → V)
  | clear
  | extractIf (f : List (K × V) → K × V → Bool) (iteration : Iteration K V) (calls : Nat)

inductive Answer (K V : Type) where
  | added (added : Bool)
  | entry (entry : Option (K × V))
  | value (value : Option V)
  | entries (entries : List (K × V))
  | done
  deriving DecidableEq

def call (q : Queue K V) : Call K V → Except ArcShared (Answer K V × Queue K V)
  | .push key value => .ok ((q.push key value).map .added id)
  | .pop => q.pop.map (Prod.map .entry id)
  | .remove key => .ok ((q.remove key).map .value id)
  | .removeEntry key => (q.removeEntry key).map (Prod.map .entry id)
  | .getMut key update => .ok ((q.getMut key update).map .value id)
  | .peekMut update => .ok ((q.peekMut update).map .value id)
  | .clear => .ok (.done, q.clear)
  | .extractIf f iteration calls => (q.extractIf f iteration calls).map (Prod.map .entries id)

def run (calls : List (Call K V)) : Except ArcShared (List (Answer K V) × Queue K V) :=
  calls.foldlM (fun s c => (s.2.call c).map (fun r => (s.1 ++ [r.1], r.2))) ([], {})

/-- The entries the predicate accepts until so many are found, and those that are not visited then. -/
def visit (f : List (K × V) → K × V → Bool) : List (K × V) → Nat → List (K × V) → List (K × V) × List (K × V)
  | _, 0, entries => ([], entries)
  | _, _, [] => ([], [])
  | asked, calls + 1, e :: entries =>
    if f asked e then (visit f (asked ++ [e]) calls entries).map (e :: ·) id
    else visit f (asked ++ [e]) (calls + 1) entries

/-- What a call makes of the elements of a queue, in the order of their insertion; `entries` are the same elements in the
order in which they are iterated. -/
def perform (contents entries : List (K × V)) : Call K V → Answer K V × List (K × V)
  | .push key value => if key ∈ contents.map Prod.fst then (.added false, contents) else (.added true, contents ++ [(key, value)])
  | .pop => (.entry contents.head?, contents.tail)
  | .remove key => (.value ((contents.find? (fun e => e.1 = key)).map Prod.snd), contents.filter (fun e => e.1 ≠ key))
  | .removeEntry key => (.entry (contents.find? (fun e => e.1 = key)), contents.filter (fun e => e.1 ≠ key))
  | .getMut key update =>
    (.value ((contents.find? (fun e => e.1 = key)).map Prod.snd), contents.map (fun e => if e.1 = key then (e.1, update e.2) else e))
  | .peekMut update => (.value (contents.head?.map Prod.snd), contents.modifyHead (fun e => (e.1, update e.2)))
  | .clear => (.done, [])
  | .extractIf f _ calls =>
    let returned := (visit f [] calls entries).1
    (.entries returned, contents.filter (fun e => e.1 ∉ returned.map Prod.fst))

/-- The answers and the elements of a queue that loses nothing. -/
inductive Performs : List (Call K V) → List (Answer K V) → List (K × V) → Prop
  | start : Performs [] [] []
  | call {calls : List (Call K V)} {answers : List (Answer K V)} {contents entries : List (K × V)}
      (h : Performs calls answers contents) (c : Call K V) (hentries : entries.Perm contents) :
    Performs (calls ++ [c]) (answers ++ [(perform contents entries c).1]) (perform contents entries c).2

/-- The map and the order hold the same keys, each once, in the order of insertion, and the readers see the elements. -/
structure Consistent (q : Queue K V) (contents : List (K × V)) : Prop where
  order : q.order.map Arc.key = contents.map Prod.fst
  keys : (contentsOf q.keys).Perm contents
  distinct : (contents.map Prod.fst).Nodup
  peek : q.peek = contents.head?.map Prod.snd
  len : q.len = q.keys.length

/-- The calls on a new queue return, their answers are those of a queue that loses nothing, and the queue is consistent. -/
def Faithful (calls : List (Call K V)) : Prop :=
  ∃ answers q contents, run calls = .ok (answers, q) ∧ Performs calls answers contents ∧ q.Consistent contents

/-- An iterator visits all the entries of the map before it is dropped. -/
def Exhausts (q : Queue K V) : Call K V → Prop
  | .extractIf f iteration calls => (visit f [] calls (contentsOf (iteration.entries q.keys))).2 = []
  | _ => True

end Queue

end Definitions

namespace Queue

open Lib

variable {K V : Type} [DecidableEq K] {q : Queue K V} {rest held : List (Arc K × V)}

/-- The entries of the map, together with those an iterator took out of it and did not visit yet, are the elements in the
order of their insertion. -/
structure Holds (q : Queue K V) (rest held : List (Arc K × V)) : Prop where
  order : q.order = held.map Prod.fst
  keys : (q.keys ++ rest).Perm held
  distinct : (held.map (fun e => e.1.key)).Nodup
  ids : (held.map (fun e => e.1.id)).Nodup
  fresh : ∀ e ∈ held, e.1.id < q.allocated

omit [DecidableEq K] in
theorem map_fst_contentsOf (held : List (Arc K × V)) : (contentsOf held).map Prod.fst = held.map (fun e => e.1.key) := by
  rw [contentsOf, List.map_map]
  rfl

theorem find?_contentsOf (held : List (Arc K × V)) (key : K) :
    (contentsOf held).find? (fun e => e.1 = key) = (held.find? (fun e => e.1.key = key)).map (fun e => (e.1.key, e.2)) := by
  rw [contentsOf, List.find?_map]
  rfl

omit [DecidableEq K] in
theorem filter_contentsOf (held : List (Arc K × V)) (p : K → Bool) :
    (contentsOf held).filter (fun e => p e.1) = contentsOf (held.filter (fun e => p e.1.key)) := by
  rw [contentsOf, contentsOf, List.filter_map]
  rfl

theorem contentsOf_update (held : List (Arc K × V)) (key : K) (update : V → V) :
    contentsOf (held.map (fun e => if e.1.key = key then (e.1, update e.2) else e)) =
      (contentsOf held).map (fun e => if e.1 = key then (e.1, update e.2) else e) := by
  rw [contentsOf, contentsOf, List.map_map, List.map_map]
  refine List.map_congr_left fun e _ => ?_
  dsimp only [Function.comp_apply]
  split <;> rfl

/-- Writing to the value of the first key writes to the first element only. -/
theorem update_head {e : Arc K × V} (hdistinct : ((e :: held).map (fun e => e.1.key)).Nodup) (update : V → V) :
    (e :: held).map (fun e' => if e'.1.key = e.1.key then (e'.1, update e'.2) else e') = (e.1, update e.2) :: held := by
  rw [List.map_cons, List.nodup_cons] at hdistinct
  rw [List.map_cons, if_pos rfl]
  congr 1
  refine (List.map_congr_left fun e' he' => ?_).trans (List.map_id' held)
  exact if_neg fun hkey => hdistinct.1 (List.mem_map.mpr ⟨e', he', hkey⟩)

omit [DecidableEq K] in
theorem Holds.perm (h : q.Holds [] held) : q.keys.Perm held := by
  have hkeys := h.keys
  rwa [List.append_nil] at hkeys

omit [DecidableEq K] in
theorem Holds.keys_distinct (h : q.Holds [] held) : (q.keys.map (fun e => e.1.key)).Nodup :=
  (h.perm.map _).nodup_iff.mpr h.distinct

theorem Holds.find? (h : q.Holds [] held) (key : K) :
    q.keys.find? (fun e => e.1.key = key) = held.find? (fun e => e.1.key = key) :=
  Keyed.find?_perm h.distinct h.perm

theorem Holds.get (h : q.Holds [] held) (key : K) : q.get key = (held.find? (fun e => e.1.key = key)).map Prod.snd := by
  rw [Queue.get, h.find?]

theorem Holds.order_eraseP (h : q.Holds rest held) (key : K) :
    q.order.eraseP (fun arc => arc.key = key) = (held.filter (fun e => e.1.key ≠ key)).map Prod.fst := by
  rw [h.order, List.eraseP_map, ← Keyed.eraseP_eq_filter h.distinct]
  rfl

theorem Holds.find?_order (h : q.Holds rest held) (key : K) :
    q.order.find? (fun arc => arc.key = key) = (held.find? (fun e => e.1.key = key)).map Prod.fst := by
  rw [h.order, List.find?_map]
  rfl

theorem Holds.without (h : q.Holds rest held) (key : K) {keys rest' : List (Arc K × V)}
    (hkeys : (keys ++ rest').Perm (held.filter (fun e => e.1.key ≠ key))) :
    Holds { q with keys, order := q.order.eraseP (fun arc => arc.key = key) } rest' (held.filter (fun e => e.1.key ≠ key)) where
  order := h.order_eraseP key
  keys := hkeys
  distinct := h.distinct.sublist (List.filter_sublist.map _)
  ids := h.ids.sublist (List.filter_sublist.map _)
  fresh e he := h.fresh e (List.mem_of_mem_filter he)

omit [DecidableEq K] in
theorem Holds.tryUnwrap (h : q.Holds rest held) {arc : Arc K} (hgone : ∀ e ∈ held, e.1.id ≠ arc.id) :
    q.tryUnwrap rest arc = .ok arc.key := by
  have hkeys : (q.keys ++ rest).any (fun e => e.1.id = arc.id) = false := by
    rw [List.any_eq_false]
    exact fun e he => by simpa using hgone e (h.keys.mem_iff.mp he)
  have horder : q.order.any (fun other => other.id = arc.id) = false := by
    rw [h.order]
    simpa using fun arc' value hmem => hgone (arc', value) hmem
  rw [Queue.tryUnwrap, hkeys, horder]
  rfl

theorem Holds.other_ids (h : q.Holds rest held) {e : Arc K × V} (he : e ∈ held) :
    ∀ other ∈ held.filter (fun e' => e'.1.key ≠ e.1.key), other.1.id ≠ e.1.id := by
  intro other hother heq
  rw [List.mem_filter, decide_eq_true_eq] at hother
  exact hother.2 (by rw [List.inj_on_of_nodup_map h.ids hother.1 he heq])

theorem Holds.removed (h : q.Holds [] held) (key : K) :
    Holds { q with keys := q.keys.eraseP (fun e => e.1.key = key), order := q.order.eraseP (fun arc => arc.key = key) } []
      (held.filter (fun e => e.1.key ≠ key)) := by
  refine h.without key ?_
  rw [List.append_nil, Keyed.eraseP_eq_filter h.keys_distinct]
  exact h.perm.filter _

theorem Holds.removed_none (h : q.Holds [] held) {key : K} (hnone : held.find? (fun e => e.1.key = key) = none) :
    q.removeKey key = (none, q) ∧ held.filter (fun e => e.1.key ≠ key) = held := by
  have hkeys : q.keys.eraseP (fun e => e.1.key = key) = q.keys :=
    List.eraseP_of_forall_not fun e he => by simpa using List.find?_eq_none.mp hnone e (h.perm.mem_iff.mp he)
  refine ⟨?_, List.filter_eq_self.mpr fun e he => by simpa using List.find?_eq_none.mp hnone e he⟩
  rw [removeKey, h.get, hnone, hkeys]
  rfl

theorem Holds.removeKey_some (h : q.Holds [] held) {key : K} {e : Arc K × V} (hfind : held.find? (fun e => e.1.key = key) = some e) :
    q.removeKey key = (some e.2, { q with keys := q.keys.eraseP (fun e => e.1.key = key) }) := by
  rw [removeKey, h.get, hfind]
  rfl

theorem Holds.removeEntry (h : q.Holds [] held) (key : K) : ∃ q',
    q.removeEntry key = .ok ((held.find? (fun e => e.1.key = key)).map (fun e => (e.1.key, e.2)), q') ∧
      q'.Holds [] (held.filter (fun e => e.1.key ≠ key)) := by
  cases hfind : held.find? (fun e => e.1.key = key) with
  | none =>
    obtain ⟨hremove, hheld⟩ := h.removed_none hfind
    exact ⟨q, by rw [Queue.removeEntry, hremove]; rfl, by rw [hheld]; exact h⟩
  | some e =>
    obtain ⟨he, rfl⟩ := (Keyed.find?_eq_some_iff h.distinct).mp hfind
    have hafter := h.removed e.1.key
    refine ⟨_, ?_, hafter⟩
    have horder := h.find?_order e.1.key
    rw [hfind, Option.map_some] at horder
    rw [Queue.removeEntry, h.removeKey_some hfind]
    dsimp only [removeOrderInternal]
    rw [horder]
    dsimp only
    rw [hafter.tryUnwrap (h.other_ids he)]
    rfl

theorem Holds.remove (h : q.Holds [] held) (key : K) : ∃ q',
    q.remove key = ((held.find? (fun e => e.1.key = key)).map Prod.snd, q') ∧ q'.Holds [] (held.filter (fun e => e.1.key ≠ key)) := by
  cases hfind : held.find? (fun e => e.1.key = key) with
  | none =>
    obtain ⟨hremove, hheld⟩ := h.removed_none hfind
    exact ⟨q, by rw [Queue.remove, hremove]; rfl, by rw [hheld]; exact h⟩
  | some e =>
    refine ⟨_, ?_, h.removed key⟩
    have horder := h.find?_order key
    rw [hfind, Option.map_some] at horder
    rw [Queue.remove, h.removeKey_some hfind]
    dsimp only [removeOrderInternal]
    rw [horder]
    rfl

/-- The first element is the oldest one. -/
theorem Holds.pop (h : q.Holds [] held) : ∃ q',
    q.pop = .ok (held.head?.map (fun e => (e.1.key, e.2)), q') ∧ q'.Holds [] held.tail := by
  cases held with
  | nil => exact ⟨q, by rw [Queue.pop, h.order]; rfl, h⟩
  | cons e held =>
    have hfind : (e :: held).find? (fun e' => e'.1.key = e.1.key) = some e :=
      (Keyed.find?_eq_some_iff h.distinct).mpr ⟨List.mem_cons_self, rfl⟩
    have htail : (e :: held).filter (fun e' => e'.1.key ≠ e.1.key) = held := by
      rw [← Keyed.eraseP_eq_filter h.distinct, List.eraseP_cons_of_pos (by simp)]
    have hafter := h.removed e.1.key
    have horder : q.order.eraseP (fun arc => arc.key = e.1.key) = held.map Prod.fst := by rw [h.order_eraseP, htail]
    rw [htail, horder] at hafter
    refine ⟨_, ?_, hafter⟩
    have hothers := h.other_ids (List.mem_cons_self (a := e))
    rw [htail] at hothers
    have hgone := hafter.tryUnwrap hothers
    rw [Queue.pop, h.order, List.map_cons]
    dsimp only
    rw [removeKey, show Queue.get { q with order := held.map Prod.fst } e.1.key = q.get e.1.key from rfl, h.get, hfind]
    dsimp only [Option.map_some]
    rw [hgone]
    rfl

theorem insertKey_new {keys : List (Arc K × V)} {arc : Arc K} (hnew : arc.key ∉ keys.map (fun e => e.1.key)) (value : V) :
    insertKey keys arc value = keys ++ [(arc, value)] := by
  refine if_neg fun hany => hnew ?_
  obtain ⟨e, he, hkey⟩ := List.any_eq_true.mp hany
  exact List.mem_map.mpr ⟨e, he, by simpa using hkey⟩

theorem Holds.has_iff (h : q.Holds [] held) (key : K) : q.has key = true ↔ key ∈ held.map (fun e => e.1.key) := by
  rw [Queue.has, List.any_eq_true, List.mem_map]
  simp only [h.perm.mem_iff, decide_eq_true_eq]

theorem Holds.pushInternal (h : q.Holds [] held) {key : K} (hnew : key ∉ held.map (fun e => e.1.key)) (value : V) :
    (q.pushInternal key value).Holds [] (held ++ [(⟨q.allocated, key⟩, value)]) where
  order := by rw [Queue.pushInternal, h.order, List.map_append]; rfl
  keys := by
    have hkeys : key ∉ q.keys.map (fun e => e.1.key) := fun hmem => hnew ((h.perm.map _).mem_iff.mp hmem)
    rw [Queue.pushInternal, insertKey_new hkeys, List.append_nil]
    exact h.perm.append_right _
  distinct := by
    rw [List.map_append, List.map_singleton, List.nodup_append_comm]
    exact List.nodup_cons.mpr ⟨hnew, h.distinct⟩
  ids := by
    rw [List.map_append, List.map_singleton, List.nodup_append_comm]
    refine List.nodup_cons.mpr ⟨fun hmem => ?_, h.ids⟩
    obtain ⟨e, he, hid⟩ := List.mem_map.mp hmem
    exact absurd (h.fresh e he) (by rw [hid]; exact Nat.lt_irrefl _)
  fresh e he := by
    rcases List.mem_append.mp he with he | he
    · exact Nat.lt_succ_of_lt (h.fresh e he)
    · rw [List.mem_singleton.mp he]
      exact Nat.lt_succ_self _

/-- Writing to values, whichever they are, keeps the pointers and the order. -/
theorem Holds.getMut (h : q.Holds [] held) (key : K) (update : V → V) :
    (q.getMut key update).2.Holds [] (held.map (fun e => if e.1.key = key then (e.1, update e.2) else e)) := by
  have hfst : (fun e : Arc K × V => (if e.1.key = key then (e.1, update e.2) else e).1) = Prod.fst := by
    funext e
    split <;> rfl
  have hmap {β : Type} (g : Arc K → β) :
      (held.map (fun e => if e.1.key = key then (e.1, update e.2) else e)).map (fun e => g e.1) = held.map (fun e => g e.1) := by
    rw [List.map_map]
    exact List.map_congr_left fun e _ => congrArg g (congrFun hfst e)
  constructor
  · show q.order = _
    rw [h.order]
    exact (hmap id).symm
  · rw [List.append_nil]
    exact h.perm.map _
  · rw [hmap Arc.key]
    exact h.distinct
  · rw [hmap Arc.id]
    exact h.ids
  · intro e he
    obtain ⟨e', he', rfl⟩ := List.mem_map.mp he
    rw [congrFun hfst e']
    exact h.fresh e' he'

omit [DecidableEq K] in
theorem Holds.clear : q.clear.Holds [] [] := ⟨rfl, .nil, List.nodup_nil, List.nodup_nil, fun _ he => absurd he List.not_mem_nil⟩

section Extraction

variable {f : List (K × V) → K × V → Bool}

omit [DecidableEq K] in
theorem visit_nil (f : List (K × V) → K × V → Bool) (asked : List (K × V)) (calls : Nat) : visit f asked calls [] = ([], []) := by
  cases calls <;> rfl

/-- An entry the predicate refuses goes back into the map. -/
theorem Holds.refuse {arc : Arc K} {value : V} (h : q.Holds ((arc, value) :: rest) held) :
    Holds { q with keys := insertKey q.keys arc value } rest held := by
  have hdistinct : ((q.keys ++ (arc, value) :: rest).map (fun e => e.1.key)).Nodup := (h.keys.map _).nodup_iff.mpr h.distinct
  have hnew : arc.key ∉ q.keys.map (fun e => e.1.key) := by
    rw [List.map_append, List.map_cons, List.nodup_append'] at hdistinct
    exact fun hmem => hdistinct.2.2 hmem List.mem_cons_self
  refine { h with keys := ?_ }
  rw [insertKey_new hnew, List.append_assoc]
  exact h.keys

theorem Holds.accept {arc : Arc K} {value : V} (h : q.Holds ((arc, value) :: rest) held) :
    q.order.find? (fun other => other.key = arc.key) = some arc ∧
      Holds { q with order := q.order.eraseP (fun other => other.key = arc.key) } rest (held.filter (fun e => e.1.key ≠ arc.key)) ∧
      Queue.tryUnwrap { q with order := q.order.eraseP (fun other => other.key = arc.key) } rest arc = .ok arc.key := by
  have hmem : (arc, value) ∈ held := h.keys.mem_iff.mp (List.mem_append_right _ List.mem_cons_self)
  have hleft : (q.keys ++ rest).Perm (held.filter (fun e => e.1.key ≠ arc.key)) := by
    rw [← Keyed.eraseP_eq_filter h.distinct]
    have hfirst : ((arc, value) :: (q.keys ++ rest)).Perm held := List.perm_middle.symm.trans h.keys
    have hdistinct : (((arc, value) :: (q.keys ++ rest)).map (fun e => e.1.key)).Nodup := (hfirst.map _).nodup_iff.mpr h.distinct
    have herase := hfirst.filter (fun e => e.1.key ≠ arc.key)
    rw [← Keyed.eraseP_eq_filter hdistinct, ← Keyed.eraseP_eq_filter h.distinct, List.eraseP_cons_of_pos (by simp)] at herase
    exact herase
  have hafter := h.without arc.key hleft
  refine ⟨?_, hafter, hafter.tryUnwrap (h.other_ids hmem)⟩
  rw [h.find?_order, (Keyed.find?_eq_some_iff h.distinct).mpr ⟨hmem, rfl⟩]
  rfl

theorem Holds.next (h : q.Holds rest held) (f : List (K × V) → K × V → Bool) (asked : List (K × V)) :
    ∃ found it, next f q asked rest = .ok (found, it) ∧ it.queue.Holds it.rest (held.filter (fun e => e.1.key ∉ found.toList.map Prod.fst)) ∧
      ∀ calls, visit f asked (calls + 1) (contentsOf rest) =
        (found.toList ++ (visit f it.asked calls (contentsOf it.rest)).1, (visit f it.asked calls (contentsOf it.rest)).2) := by
  induction rest generalizing q asked with
  | nil =>
    refine ⟨none, { queue := q, rest := [], asked }, rfl, ?_, fun calls => ?_⟩
    · simpa using h
    · rw [contentsOf, List.map_nil, visit_nil, visit_nil]
      rfl
  | cons e rest ih =>
    obtain ⟨arc, value⟩ := e
    cases hf : f asked (arc.key, value) with
    | false =>
      obtain ⟨found, it, hnext, hholds, hvisit⟩ := ih h.refuse (asked ++ [(arc.key, value)])
      refine ⟨found, it, ?_, hholds, fun calls => ?_⟩
      · rw [Queue.next, hf]
        exact hnext
      · rw [contentsOf, List.map_cons, visit, hf]
        exact hvisit calls
    | true =>
      obtain ⟨hfind, hafter, hunwrap⟩ := h.accept
      refine ⟨some (arc.key, value), { queue := { q with order := q.order.eraseP (fun other => other.key = arc.key) }, rest, asked := asked ++ [(arc.key, value)] },
        ?_, ?_, fun calls => ?_⟩
      · rw [Queue.next, hf, if_pos rfl]
        dsimp only [removeOrderInternal]
        rw [hfind]
        dsimp only
        rw [hunwrap]
        rfl
      · simpa using hafter
      · rw [contentsOf, List.map_cons, visit, hf]
        rfl

/-- Whatever is returned is all that left; the entries that were not visited are in the order, but not in the map. -/
theorem Holds.consume (f : List (K × V) → K × V → Bool) (calls : Nat) {it : ExtractIf K V} (h : it.queue.Holds it.rest held) :
    ∃ it', consume f calls it = .ok ((visit f it.asked calls (contentsOf it.rest)).1, it') ∧
      it'.queue.Holds it'.rest (held.filter (fun e => e.1.key ∉ (visit f it.asked calls (contentsOf it.rest)).1.map Prod.fst)) ∧
      contentsOf it'.rest = (visit f it.asked calls (contentsOf it.rest)).2 := by
  induction calls generalizing it held with
  | zero =>
    have hvisit : visit f it.asked 0 (contentsOf it.rest) = ([], contentsOf it.rest) := by rw [visit]
    rw [hvisit]
    exact ⟨it, rfl, by simpa using h, rfl⟩
  | succ calls ih =>
    obtain ⟨found, it', hnext, hholds, hvisit⟩ := h.next f it.asked
    obtain ⟨it'', hconsume, hholds', hrest⟩ := ih hholds
    rw [hvisit]
    refine ⟨it'', ?_, ?_, hrest⟩
    · rw [Queue.consume, hnext]
      dsimp only
      rw [hconsume]
      rfl
    · rw [List.filter_filter] at hholds'
      convert hholds' using 2
      funext e
      rw [List.map_append, ← Bool.decide_and]
      exact decide_eq_decide.mpr (by rw [List.mem_append, not_or, and_comm])

/-- The elements the iterator returns are those that leave; what it did not visit is in the order, but not in the map. -/
theorem Holds.extractIf (h : q.Holds [] held) (f : List (K × V) → K × V → Bool) (iteration : Iteration K V) (calls : Nat) :
    ∃ q' rest', q.extractIf f iteration calls = .ok ((visit f [] calls (contentsOf (iteration.entries q.keys))).1, q') ∧
      q'.Holds rest' (held.filter (fun e => e.1.key ∉ (visit f [] calls (contentsOf (iteration.entries q.keys))).1.map Prod.fst)) ∧
      contentsOf rest' = (visit f [] calls (contentsOf (iteration.entries q.keys))).2 := by
  have hstart : Holds { q with keys := [] } (iteration.entries q.keys) held :=
    { h with keys := (iteration.perm q.keys).trans h.perm }
  let start : ExtractIf K V := { queue := { q with keys := [] }, rest := iteration.entries q.keys }
  obtain ⟨it, hconsume, hholds, hrest⟩ := Holds.consume f calls (show start.queue.Holds start.rest held from hstart)
  exact ⟨it.queue, it.rest, by rw [Queue.extractIf, hconsume]; rfl, hholds, hrest⟩

end Extraction

theorem Holds.consistent (h : q.Holds [] held) : q.Consistent (contentsOf held) where
  order := by
    rw [h.order, map_fst_contentsOf, List.map_map]
    rfl
  keys := h.perm.map _
  distinct := by
    rw [map_fst_contentsOf]
    exact h.distinct
  peek := by
    rw [Queue.peek, h.order]
    cases held with
    | nil => rfl
    | cons e held =>
      rw [List.map_cons, List.head?_cons, Option.bind_some, h.get, (Keyed.find?_eq_some_iff h.distinct).mpr ⟨List.mem_cons_self, rfl⟩]
      rfl
  len := by rw [Queue.len, h.order, List.length_map, h.perm.length_eq]

/-- Entries that were not visited leave a queue that no elements explain. -/
theorem Holds.not_consistent (h : q.Holds rest held) (hrest : rest ≠ []) (contents : List (K × V)) : ¬ q.Consistent contents := by
  intro hconsistent
  have hlen := hconsistent.len
  rw [Queue.len, h.order, List.length_map, ← h.keys.length_eq, List.length_append] at hlen
  exact hrest (List.eq_nil_of_length_eq_zero (by omega))

/-- A call on a consistent queue, but for an iterator that is dropped early, does what its users expect. -/
theorem Holds.call (h : q.Holds [] held) {c : Call K V} (hexhausts : q.Exhausts c) :
    ∃ entries held' q', entries.Perm (contentsOf held) ∧ q.call c = .ok ((perform (contentsOf held) entries c).1, q') ∧
      q'.Holds [] held' ∧ contentsOf held' = (perform (contentsOf held) entries c).2 := by
  cases c with
  | push key value =>
    refine ⟨contentsOf held, ?_⟩
    rw [Queue.call, Queue.push, perform, map_fst_contentsOf]
    by_cases hknown : key ∈ held.map (fun e => e.1.key)
    · rw [if_pos ((h.has_iff key).mpr hknown), if_pos hknown]
      exact ⟨held, q, .refl _, rfl, h, rfl⟩
    · rw [if_neg (fun hhas => hknown ((h.has_iff key).mp hhas)), if_neg hknown]
      exact ⟨_, _, .refl _, rfl, h.pushInternal hknown value, by rw [contentsOf, List.map_append]; rfl⟩
  | pop =>
    obtain ⟨q', hpop, hafter⟩ := h.pop
    refine ⟨contentsOf held, held.tail, q', .refl _, ?_, hafter, ?_⟩
    · rw [Queue.call, hpop, perform, contentsOf, List.head?_map]
      rfl
    · rw [perform, contentsOf, contentsOf, List.map_tail]
  | remove key =>
    obtain ⟨q', hremove, hafter⟩ := h.remove key
    refine ⟨contentsOf held, _, q', .refl _, ?_, hafter, ?_⟩
    · rw [Queue.call, hremove, perform, find?_contentsOf, Option.map_map]
      rfl
    · rw [perform, ← filter_contentsOf held (fun k => decide (k ≠ key))]
  | removeEntry key =>
    obtain ⟨q', hremove, hafter⟩ := h.removeEntry key
    refine ⟨contentsOf held, _, q', .refl _, ?_, hafter, ?_⟩
    · rw [Queue.call, hremove, perform, find?_contentsOf]
      rfl
    · rw [perform, ← filter_contentsOf held (fun k => decide (k ≠ key))]
  | getMut key update =>
    refine ⟨contentsOf held, _, _, .refl _, ?_, h.getMut key update, ?_⟩
    · rw [Queue.call, Queue.getMut, h.get, perform, find?_contentsOf, Option.map_map]
      rfl
    · rw [perform, contentsOf_update]
  | peekMut update =>
    rw [Queue.call, Queue.peekMut, h.order]
    cases held with
    | nil => exact ⟨[], [], q, .refl _, rfl, h, rfl⟩
    | cons e held =>
      refine ⟨contentsOf (e :: held), _, _, .refl _, ?_, h.getMut e.1.key update, ?_⟩
      · rw [List.map_cons, List.head?_cons]
        dsimp only
        rw [Queue.getMut, h.get, (Keyed.find?_eq_some_iff h.distinct).mpr ⟨List.mem_cons_self, rfl⟩]
        rfl
      · rw [update_head h.distinct, perform]
        rfl
  | clear => exact ⟨contentsOf held, [], q.clear, .refl _, rfl, Holds.clear, rfl⟩
  | extractIf f iteration calls =>
    obtain ⟨q', rest', hextract, hafter, hrest⟩ := h.extractIf f iteration calls
    rw [List.map_eq_nil_iff.mp (hrest.trans hexhausts)] at hafter
    refine ⟨contentsOf (iteration.entries q.keys), _, q', (iteration.perm q.keys).trans h.perm |>.map _, ?_, hafter, ?_⟩
    · rw [Queue.call, hextract, perform]
      rfl
    · rw [perform, ← filter_contentsOf held (fun k => decide (k ∉ _))]

theorem run_append (calls : List (Call K V)) (c : Call K V) : run (calls ++ [c]) =
    (run calls).bind (fun s => (s.2.call c).map (fun r => (s.1 ++ [r.1], r.2))) := by
  rw [run, List.foldlM_append]
  refine congrArg (Except.bind _) (funext fun s => ?_)
  rw [List.foldlM_cons]
  cases s.2.call c <;> rfl

/-- As long as every iterator visits all the entries, the queue holds the elements it should. -/
theorem run_holds {calls : List (Call K V)} (hexhausts : ∀ before c after, calls = before ++ c :: after →
      ∀ answers q, run before = .ok (answers, q) → q.Exhausts c) :
    ∃ answers q held, run calls = .ok (answers, q) ∧ Performs calls answers (contentsOf held) ∧ q.Holds [] held := by
  induction calls using List.reverseRecOn with
  | nil => exact ⟨[], {}, [], rfl, .start, Holds.clear (q := {})⟩
  | append_singleton calls c ih =>
    obtain ⟨answers, q, held, hrun, hperforms, hholds⟩ := ih fun before c' after heq =>
      hexhausts before c' (after ++ [c]) (by rw [heq, List.append_assoc, List.cons_append])
    obtain ⟨entries, held', q', hentries, hcall, hafter, hcontents⟩ := hholds.call (hexhausts calls c [] rfl answers q hrun)
    refine ⟨_, q', held', ?_, hcontents ▸ hperforms.call c hentries, hafter⟩
    rw [run_append, hrun]
    show (q.call c).map _ = _
    rw [hcall]
    rfl

/-- An iterator that is dropped early leaves a queue that is not consistent, whatever its elements should be. -/
theorem Holds.exhausts (h : q.Holds [] held) {c : Call K V} {answer : Answer K V} {q' : Queue K V} {contents : List (K × V)}
    (hcall : q.call c = .ok (answer, q')) (hconsistent : q'.Consistent contents) : q.Exhausts c := by
  cases c with
  | extractIf f iteration calls =>
    obtain ⟨q'', rest', hextract, hafter, hrest⟩ := h.extractIf f iteration calls
    rw [Queue.call, hextract] at hcall
    cases hcall
    by_contra hleft
    exact hafter.not_consistent (fun hnil => hleft (hrest.symm.trans (by rw [hnil]; rfl))) contents hconsistent
  | _ => trivial

/-- A queue loses nothing in a run, its map and its order stay in step and no expectation fails, exactly when every iterator
of `extract_if` visits all the entries before it is dropped. -/
theorem queue_faithful_iff (calls : List (Call K V)) : (∀ before after, calls = before ++ after → Faithful before) ↔
    ∀ before c after, calls = before ++ c :: after → ∀ answers q, run before = .ok (answers, q) → q.Exhausts c := by
  constructor
  · intro hfaithful
    induction calls using List.reverseRecOn with
    | nil =>
      intro before c after heq
      cases before <;> cases heq
    | append_singleton calls last ih =>
      have hbefore := ih fun before after heq => hfaithful before (after ++ [last]) (by rw [heq, List.append_assoc])
      intro before c after heq answers q hrun
      rcases List.eq_nil_or_concat after with rfl | ⟨after, last', rfl⟩
      · obtain ⟨rfl, hlast⟩ := List.append_inj' heq rfl
        cases hlast
        obtain ⟨answers', q', held, hrun', -, hholds⟩ := run_holds hbefore
        cases hrun.symm.trans hrun'
        obtain ⟨answers'', q'', contents, hrun'', -, hconsistent⟩ := hfaithful _ [] (List.append_nil _).symm
        rw [run_append, hrun] at hrun''
        change (q.call last).map _ = _ at hrun''
        cases hcall : q.call last with
        | error e => rw [hcall] at hrun''; cases hrun''
        | ok r =>
          rw [hcall] at hrun''
          cases hrun''
          exact hholds.exhausts hcall hconsistent
      · rw [List.concat_eq_append, ← List.cons_append, ← List.append_assoc] at heq
        exact hbefore before c after (List.append_inj' heq rfl).1 answers q hrun
  · rintro hexhausts before after rfl
    have hbefore : ∀ first c rest, before = first ++ c :: rest → ∀ answers q, run first = .ok (answers, q) → q.Exhausts c :=
      fun first c rest heq => hexhausts first c (rest ++ after) (by rw [heq, List.append_assoc, List.cons_append])
    obtain ⟨answers, q, held, hrun, hperforms, hholds⟩ := run_holds hbefore
    exact ⟨answers, q, _, hrun, hperforms, hholds.consistent⟩

/-- The map goes through its entries in the order of their insertion. -/
def inserted : Iteration Nat Nat := ⟨id, fun _ => .refl _⟩

def twoPushed : List (Call Nat Nat) := [.push 1 10, .push 2 20]

/-- An iterator that is asked once leaves the second key in the order only. One that is not asked at all leaves both, and
when the first key is pushed again its pointer is shared. -/
theorem not_faithful_dropped : ¬ Faithful (twoPushed ++ [.extractIf (fun _ _ => true) inserted 1]) ∧
    run (twoPushed ++ [.extractIf (fun _ _ => true) inserted 0, .push 1 30, .extractIf (fun _ _ => true) inserted 1]) = .error {} := by
  refine ⟨?_, rfl⟩
  rintro ⟨answers, q, contents, hrun, -, hconsistent⟩
  have hdropped : run (twoPushed ++ [.extractIf (fun _ _ => true) inserted 1]) =
      .ok ([.added true, .added true, .entries [(1, 10)]], { keys := [], order := [⟨1, 2⟩], allocated := 2 }) := rfl
  cases hdropped.symm.trans hrun
  exact absurd hconsistent.len (by decide)

end Queue

end Xelis
