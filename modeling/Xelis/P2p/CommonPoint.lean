import Xelis.P2p.Chain
import Xelis.Storage.Blocks

/-! The search for a common point: the list a node sends about its chain, and how its peer goes through it. -/

namespace Xelis.P2p

open Lib.Reader (Reads)

inductive P2pError where
  | invalidBlockIdList
  | blockchain (e : BlockchainError)
  /-- An unchecked `u64` operation leaves its range: a panic or a wrapped value, by build profile. -/
  | arithmeticOverflow
  deriving DecidableEq, Repr

structure CommonPoint where
  hash : Hash
  topoheight : Nat
  deriving DecidableEq, Repr

section Source

variable {P : Type} (s : Storage P)

/-- The loop that walks down from the top: one by one at first, then by doubling the distance.
Without a result when the turns given are not enough. -/
def buildLoop (topoheight pruned : Nat) : Nat → Nat → List BlockId → Except BlockchainError (Option (List BlockId))
  | 0, _, _ => .ok none
  | turns + 1, i, blocks =>
    if i < topoheight ∧ topoheight - i > pruned ∧ blocks.length + 1 < CHAIN_SYNC_REQUEST_MAX_BLOCKS then do
      let current := topoheight - i
      let hash ← s.getHashAtTopoHeight current
      let blocks := BlockId.insert blocks { hash, topoheight := current }
      let next := if blocks.length < CHAIN_SYNC_REQUEST_EXPONENTIAL_INDEX_START then i + 1 else i * 2
      buildLoop topoheight pruned turns next blocks
    else .ok (some blocks)

def buildListOfBlocksId (topoheight turns : Nat) : Except BlockchainError (Option (List BlockId)) := do
  let pruned := s.prunedTopoheight.getD 0
  match ← buildLoop s topoheight pruned turns 0 [] with
  | none => return none
  | some blocks =>
    let genesis ← s.getHashAtTopoHeight 0
    return some (BlockId.insert blocks { hash := genesis, topoheight := 0 })

/-- The loop over the list, with the index and the topoheight it expects. -/
def searchCommonPoint : Nat → Nat → List BlockId → Except P2pError (Option CommonPoint)
  | _, _, [] => .ok none
  | i, expected, id :: rest =>
    if expected = 0 ∨ (i < CHAIN_SYNC_REQUEST_EXPONENTIAL_INDEX_START ∧ expected - 1 ≠ id.topoheight) then
      .error .invalidBlockIdList
    else if s.hasBlockWithHash id.hash && s.isBlockTopologicalOrdered id.hash then
      match s.getTopoHeightForHash id.hash with
      | .error e => .error (.blockchain e)
      | .ok topoheight =>
        if topoheight = id.topoheight then .ok (some { hash := id.hash, topoheight })
        else searchCommonPoint (i + 1) (expected - 1) rest
    else searchCommonPoint (i + 1) (expected - 1) rest

def findCommonPoint (blocks : List BlockId) : Except P2pError (Option CommonPoint) :=
  match blocks.head?, blocks.getLast? with
  | some first, some genesis =>
    if first.topoheight + 1 < U64_RANGE then
      let start := first.topoheight + 1
      match s.getHashAtTopoHeight 0 with
      | .error e => .error (.blockchain e)
      | .ok ours =>
        if genesis.hash ≠ ours ∨ genesis.topoheight > start then .error .invalidBlockIdList
        else searchCommonPoint s 0 start blocks
    else .error .arithmeticOverflow
  | _, _ => .error .invalidBlockIdList

end Source

/-- A node holds the block and orders it at the listed topoheight. -/
def Orders {P : Type} (s : Storage P) (id : BlockId) : Prop :=
  s.hasBlockWithHash id.hash = true ∧ s.topoByHash[id.hash]? = some id.topoheight ∧
    s.hashAtTopo[id.topoheight]? = some id.hash

instance {P : Type} (s : Storage P) (id : BlockId) : Decidable (Orders s id) := by
  unfold Orders
  infer_instance

variable {i expected k t n turns m size : Nat} {id last first other : BlockId} {rest ids blocks : List BlockId}

section Search

variable {P : Type} {s : Storage P}

theorem ordered_here_iff (id : BlockId) :
    ((s.hasBlockWithHash id.hash && s.isBlockTopologicalOrdered id.hash) = true ∧
      s.topoByHash[id.hash]? = some id.topoheight) ↔ Orders s id := by
  unfold Orders Storage.isBlockTopologicalOrdered
  constructor
  · rintro ⟨hordered, htopo⟩
    rw [htopo, Bool.and_eq_true, beq_iff_eq] at hordered
    exact ⟨hordered.1, htopo, hordered.2⟩
  · rintro ⟨hblock, htopo, hhash⟩
    simp only [htopo, hblock, hhash, beq_self_eq_true, Bool.and_self, and_self]

theorem searchCommonPoint_cons (i expected : Nat) (id : BlockId) (rest : List BlockId) :
    searchCommonPoint s i expected (id :: rest) =
      if expected = 0 ∨ (i < CHAIN_SYNC_REQUEST_EXPONENTIAL_INDEX_START ∧ expected - 1 ≠ id.topoheight) then
        .error .invalidBlockIdList
      else if Orders s id then .ok (some { hash := id.hash, topoheight := id.topoheight })
      else searchCommonPoint s (i + 1) (expected - 1) rest := by
  rw [searchCommonPoint]
  split
  · rfl
  · have hiff := ordered_here_iff (s := s) id
    split
    · rename_i hordered
      unfold Storage.getTopoHeightForHash
      cases htopo : s.topoByHash[id.hash]? with
      | none =>
        rw [Storage.isBlockTopologicalOrdered, htopo, Bool.and_false] at hordered
        cases hordered
      | some topoheight =>
        by_cases heq : topoheight = id.topoheight
        · subst heq
          rw [if_pos (hiff.mp ⟨hordered, htopo⟩)]
          simp
        · rw [if_neg fun horders : Orders s id => heq (Option.some.inj (htopo.symm.trans horders.2.1))]
          simp [heq]
    · rename_i hordered
      rw [if_neg fun horders => hordered (hiff.mpr horders).1]

def InOrder (i expected : Nat) : List BlockId → Prop
  | [] => True
  | id :: rest =>
    expected ≠ 0 ∧ (i < CHAIN_SYNC_REQUEST_EXPONENTIAL_INDEX_START → id.topoheight + 1 = expected) ∧
      InOrder (i + 1) (expected - 1) rest

theorem InOrder.not_refused (h : InOrder i expected (id :: rest)) :
    ¬(expected = 0 ∨ (i < CHAIN_SYNC_REQUEST_EXPONENTIAL_INDEX_START ∧ expected - 1 ≠ id.topoheight)) := by
  rintro (hzero | ⟨hi, hne⟩)
  · exact h.1 hzero
  · have hexpected := h.2.1 hi
    omega

theorem searchCommonPoint_append (h : InOrder i expected ids) (rest : List BlockId) :
    searchCommonPoint s i expected (ids ++ rest) =
      match ids.find? (fun id => Orders s id) with
      | some id => .ok (some { hash := id.hash, topoheight := id.topoheight })
      | none => searchCommonPoint s (i + ids.length) (expected - ids.length) rest := by
  induction ids generalizing i expected with
  | nil => rfl
  | cons id ids ih =>
    rw [List.cons_append, searchCommonPoint_cons, if_neg h.not_refused, List.find?_cons]
    by_cases horders : Orders s id
    · simp [horders]
    · rw [List.length_cons, show i + (ids.length + 1) = i + 1 + ids.length by omega,
        show expected - (ids.length + 1) = expected - 1 - ids.length by omega]
      simp [horders, ih h.2.2]

theorem inOrder_concat (h : InOrder i expected ids) (hpos : ids.length < expected)
    (hlast : i + ids.length < CHAIN_SYNC_REQUEST_EXPONENTIAL_INDEX_START → last.topoheight + 1 + ids.length = expected) :
    InOrder i expected (ids ++ [last]) := by
  induction ids generalizing i expected with
  | nil => exact ⟨Nat.ne_of_gt hpos, hlast, trivial⟩
  | cons id ids ih =>
    rw [List.length_cons] at hpos hlast
    exact ⟨h.1, h.2.1, ih h.2.2 (by omega) fun hi => by have heq := hlast (by omega); omega⟩

end Search

/-- A node and its ordered chain: genesis, and every block above the pruned point up to the top. -/
structure Node (P : Type) where
  storage : Storage P
  topoheight : Nat
  genesis : Hash
  representable : topoheight < U64_RANGE
  orders_genesis : Orders storage ⟨genesis, 0⟩
  orders_above : ∀ t : Nat, storage.prunedTopoheight.getD 0 < t → t ≤ topoheight →
    ∃ hash, Orders storage ⟨hash, t⟩

namespace Node

variable {P : Type} (node : Node P)

def pruned : Nat := node.storage.prunedTopoheight.getD 0

def idAt (t : Nat) : BlockId := ⟨node.storage.hashAtTopo[t]?.getD Hash.zero, t⟩

/-- How far below the top the entry at an index is. -/
def offset (k : Nat) : Nat := if k < CHAIN_SYNC_REQUEST_EXPONENTIAL_INDEX_START then k else 29 * 2 ^ (k - 29)

def entries (n : Nat) : List BlockId := (List.range n).map fun k => node.idAt (node.topoheight - offset k)

theorem offset_next (k : Nat) :
    offset (k + 1) = if k + 1 < CHAIN_SYNC_REQUEST_EXPONENTIAL_INDEX_START then offset k + 1 else offset k * 2 := by
  unfold offset CHAIN_SYNC_REQUEST_EXPONENTIAL_INDEX_START
  by_cases hk : k + 1 < 30
  · rw [if_pos hk, if_pos hk, if_pos (by omega)]
  · rw [if_neg hk, if_neg hk]
    by_cases hstart : k < 30
    · have heq : k = 29 := by omega
      subst heq
      rfl
    · rw [if_neg hstart, show k + 1 - 29 = k - 29 + 1 by omega, pow_succ, Nat.mul_assoc]

theorem offset_lt_next (k : Nat) : offset k < offset (k + 1) := by
  rw [offset_next]
  split
  · omega
  · rename_i hk
    have hpos : 0 < offset k := by
      unfold offset CHAIN_SYNC_REQUEST_EXPONENTIAL_INDEX_START
      unfold CHAIN_SYNC_REQUEST_EXPONENTIAL_INDEX_START at hk
      split
      · omega
      · exact Nat.mul_pos (by decide) (Nat.pow_pos (by decide))
    omega

theorem offset_strictMono : StrictMono offset := strictMono_nat_of_lt_succ offset_lt_next

theorem le_offset (k : Nat) : k ≤ offset k := by
  induction k with
  | zero => exact Nat.zero_le _
  | succ k ih => exact Nat.lt_of_le_of_lt ih (offset_lt_next k)

theorem offset_of_lt (h : k < CHAIN_SYNC_REQUEST_EXPONENTIAL_INDEX_START) : offset k = k := if_pos h

theorem idAt_zero : node.idAt 0 = ⟨node.genesis, 0⟩ := by
  rw [idAt, node.orders_genesis.2.2]
  rfl

theorem orders_idAt (hlow : node.pruned < t) (hhigh : t ≤ node.topoheight) : Orders node.storage (node.idAt t) := by
  obtain ⟨hash, horders⟩ := node.orders_above t hlow hhigh
  rwa [idAt, horders.2.2]

theorem getHashAtTopoHeight_eq (hlow : node.pruned < t) (hhigh : t ≤ node.topoheight) :
    node.storage.getHashAtTopoHeight t = .ok (node.idAt t).hash := by
  have horders : node.storage.hashAtTopo[t]? = some (node.idAt t).hash := (node.orders_idAt hlow hhigh).2.2
  rw [Storage.getHashAtTopoHeight, horders]

@[simp] theorem length_entries (n : Nat) : (node.entries n).length = n := by simp [entries]

theorem entries_succ (n : Nat) : node.entries (n + 1) = node.entries n ++ [node.idAt (node.topoheight - offset n)] := by
  simp [entries, List.range_succ]

/-- The entries that the loop may add: those above the pruned point. -/
def Listed (n : Nat) : Prop := ∀ k < n, node.pruned + offset k < node.topoheight

theorem mem_entries (h : node.Listed n) (hid : id ∈ node.entries n) :
    ∃ k < n, id = node.idAt (node.topoheight - offset k) ∧ node.pruned < node.topoheight - offset k := by
  obtain ⟨k, hk, rfl⟩ := List.mem_map.mp hid
  have hlt := List.mem_range.mp hk
  have hlisted := h k hlt
  exact ⟨k, hlt, rfl, by omega⟩

/-- A block that is ordered lower down is not listed yet. -/
theorem not_mem_entries (h : node.Listed n) (hlow : ∀ k < n, t < node.topoheight - offset k)
    (hself : Orders node.storage (node.idAt t)) : (node.idAt t).hash ∉ (node.entries n).map BlockId.hash := by
  intro hmem
  obtain ⟨id, hid, hhash⟩ := List.mem_map.mp hmem
  obtain ⟨k, hk, rfl, hpruned⟩ := node.mem_entries h hid
  have horders := node.orders_idAt hpruned (Nat.sub_le _ _)
  have heq := horders.2.1.symm.trans ((congrArg (node.storage.topoByHash[·]?) hhash).trans hself.2.1)
  have htopo : node.topoheight - offset k = t := Option.some.inj heq
  have hbelow := hlow k hk
  omega

theorem buildLoop_entries (hpos : 0 < turns) (hturns : node.topoheight < turns + offset k)
    (hk : k < CHAIN_SYNC_REQUEST_MAX_BLOCKS) (h : node.Listed k) :
    ∃ n, buildLoop node.storage node.topoheight node.pruned turns (offset k) (node.entries k) = .ok (some (node.entries n)) ∧
      node.Listed n ∧ n < CHAIN_SYNC_REQUEST_MAX_BLOCKS ∧
      (n + 1 = CHAIN_SYNC_REQUEST_MAX_BLOCKS ∨ node.topoheight ≤ node.pruned + offset n) := by
  induction turns generalizing k with
  | zero => exact absurd hpos (Nat.lt_irrefl 0)
  | succ turns ih =>
    rw [buildLoop]
    split
    · rename_i hcond
      have hcurrent : node.pruned + offset k < node.topoheight := by omega
      have hlisted : node.Listed (k + 1) := by
        intro j hj
        rcases Nat.lt_succ_iff_lt_or_eq.mp hj with hj | rfl
        · exact h j hj
        · exact hcurrent
      have hfresh := node.not_mem_entries (t := node.topoheight - offset k) h
        (fun j hj => by have hlt := offset_strictMono hj; have := h j hj; omega)
        (node.orders_idAt (by omega) (Nat.sub_le _ _))
      have hhash := node.getHashAtTopoHeight_eq (t := node.topoheight - offset k) (by omega) (Nat.sub_le _ _)
      have hinsert : BlockId.insert (node.entries k) (node.idAt (node.topoheight - offset k)) = node.entries (k + 1) := by
        rw [BlockId.insert, if_neg hfresh, entries_succ]
      have hroom : k + 1 < CHAIN_SYNC_REQUEST_MAX_BLOCKS := by
        have := hcond.2.2
        rwa [length_entries] at this
      have hlater := offset_lt_next k
      have hnext := ih (k := k + 1) (by omega) (by omega) hroom hlisted
      rw [offset_next] at hnext
      simp only [hhash]
      show ∃ n, buildLoop _ _ _ turns
        (if (BlockId.insert (node.entries k) (node.idAt (node.topoheight - offset k))).length < _ then _ else _)
        (BlockId.insert (node.entries k) (node.idAt (node.topoheight - offset k))) = _ ∧ _
      rw [hinsert, length_entries]
      exact hnext
    · rename_i hcond
      refine ⟨k, rfl, h, hk, ?_⟩
      rw [length_entries] at hcond
      by_cases hroom : k + 1 < CHAIN_SYNC_REQUEST_MAX_BLOCKS
      · right
        omega
      · left
        omega

/-- All the entries that the loop may list, and no more. -/
structure Complete (n : Nat) : Prop where
  listed : node.Listed n
  lt_max : n < CHAIN_SYNC_REQUEST_MAX_BLOCKS
  stop : n + 1 = CHAIN_SYNC_REQUEST_MAX_BLOCKS ∨ node.topoheight ≤ node.pruned + offset n

variable {node}

theorem Complete.le {n m : Nat} (hn : node.Complete n) (hm : node.Complete m) : m ≤ n := by
  rcases hn.stop with hmax | hstop
  · have hlt := hm.lt_max
    omega
  · refine Nat.le_of_not_lt fun hlt => ?_
    have hlisted := hm.listed n hlt
    omega

theorem Complete.unique (hn : node.Complete n) (hm : node.Complete m) : n = m :=
  Nat.le_antisymm (hm.le hn) (hn.le hm)

variable (node)

theorem getHashAtTopoHeight_zero : node.storage.getHashAtTopoHeight 0 = .ok node.genesis := by
  have hgenesis : node.storage.hashAtTopo[0]? = some node.genesis := node.orders_genesis.2.2
  rw [Storage.getHashAtTopoHeight, hgenesis]

theorem genesis_not_mem_entries (h : node.Listed n) : node.genesis ∉ (node.entries n).map BlockId.hash := by
  have hzero := node.idAt_zero
  have hnot := node.not_mem_entries (t := 0) h (fun k hk => by have hlisted := h k hk; omega) (by rw [hzero]; exact node.orders_genesis)
  rwa [hzero] at hnot

/-- The list that the node sends: the entries above the pruned point, then genesis. -/
def list (n : Nat) : List BlockId := node.entries n ++ [⟨node.genesis, 0⟩]

theorem buildListOfBlocksId_eq : ∃ n, node.Complete n ∧ ∀ turns, node.topoheight < turns →
    buildListOfBlocksId node.storage node.topoheight turns = .ok (some (node.list n)) := by
  have hloop : ∀ turns, node.topoheight < turns → ∃ n, node.Complete n ∧
      buildLoop node.storage node.topoheight node.pruned turns 0 [] = .ok (some (node.entries n)) := by
    intro turns hturns
    obtain ⟨n, hbuild, hlisted, hlt, hstop⟩ := node.buildLoop_entries (k := 0) (by omega) (Nat.lt_of_lt_of_le hturns (Nat.le_add_right _ _))
      (by decide) (fun k hk => absurd hk (Nat.not_lt_zero k))
    exact ⟨n, ⟨hlisted, hlt, hstop⟩, hbuild⟩
  obtain ⟨n, hn, -⟩ := hloop (node.topoheight + 1) (Nat.lt_succ_self _)
  refine ⟨n, hn, fun turns hturns => ?_⟩
  obtain ⟨m, hm, hbuild⟩ := hloop turns hturns
  obtain rfl := hn.unique hm
  have hinsert : BlockId.insert (node.entries n) ⟨node.genesis, 0⟩ = node.list n :=
    if_neg (node.genesis_not_mem_entries hn.listed)
  unfold buildListOfBlocksId
  simp only [show node.storage.prunedTopoheight.getD 0 = node.pruned from rfl, hbuild, node.getHashAtTopoHeight_zero]
  show Except.ok (some (BlockId.insert (node.entries n) ⟨node.genesis, 0⟩)) = _
  rw [hinsert]

theorem inOrder_entries (h : node.Listed n) : InOrder 0 (node.topoheight + 1) (node.entries n) := by
  induction n with
  | zero => exact trivial
  | succ n ih =>
    have hprev : node.Listed n := fun k hk => h k (Nat.lt_succ_of_lt hk)
    have hlast := h n (Nat.lt_succ_self n)
    have hle := le_offset n
    rw [entries_succ]
    refine inOrder_concat (ih hprev) (by rw [length_entries]; omega) fun hi => ?_
    rw [length_entries, Nat.zero_add] at hi
    rw [length_entries]
    show node.topoheight - offset n + 1 + n = node.topoheight + 1
    rw [offset_of_lt hi] at hlast ⊢
    omega

theorem pairwise_list (h : node.Listed n) : ((node.list n).map BlockId.topoheight).Pairwise (· > ·) := by
  rw [list, List.map_append, List.pairwise_append]
  refine ⟨?_, List.pairwise_singleton _ _, ?_⟩
  · rw [entries, List.map_map, List.pairwise_map]
    refine List.pairwise_lt_range.imp_of_mem fun {j k} hj hk hlt => ?_
    have hstep := offset_strictMono hlt
    have hlisted := h k (List.mem_range.mp hk)
    show node.topoheight - offset j > node.topoheight - offset k
    omega
  · intro t ht z hz
    obtain ⟨id, hid, rfl⟩ := List.mem_map.mp ht
    obtain ⟨k, hk, rfl, hpruned⟩ := node.mem_entries h hid
    obtain rfl : z = 0 := by simpa using hz
    exact Nat.zero_lt_of_lt hpruned

theorem nodup_list (h : node.Listed n) : ((node.list n).map BlockId.hash).Nodup := by
  rw [list, List.map_append, List.nodup_append]
  refine ⟨?_, List.nodup_singleton _, ?_⟩
  · induction n with
    | zero => exact List.nodup_nil
    | succ n ih =>
      have hprev : node.Listed n := fun k hk => h k (Nat.lt_succ_of_lt hk)
      have hlast := h n (Nat.lt_succ_self n)
      have hfresh := node.not_mem_entries (t := node.topoheight - offset n) hprev
        (fun j hj => by have hlt := offset_strictMono hj; have hlisted := hprev j hj; omega)
        (node.orders_idAt (by omega) (Nat.sub_le _ _))
      rw [entries_succ, List.map_append, List.nodup_append]
      refine ⟨ih hprev, List.nodup_singleton _, fun hash hmem other hother => ?_⟩
      obtain rfl : other = _ := by simpa using hother
      exact fun heq => hfresh (heq ▸ hmem)
  · intro hash hmem other hother
    obtain rfl : other = node.genesis := by simpa using hother
    exact fun heq => node.genesis_not_mem_entries h (heq ▸ hmem)

theorem topoheight_lt_of_mem_list (hid : id ∈ node.list n) : id.topoheight < U64_RANGE := by
  rcases List.mem_append.mp hid with hid | hid
  · obtain ⟨k, hk, rfl⟩ := List.mem_map.mp hid
    have hlt := node.representable
    exact Nat.lt_of_le_of_lt (Nat.sub_le _ _) hlt
  · obtain rfl : id = ⟨node.genesis, 0⟩ := by simpa using hid
    exact Nat.two_pow_pos 64

theorem read_list (h : node.Complete n) (hmin : CHAIN_SYNC_RESPONSE_MIN_BLOCKS ≤ size)
    (hmax : size ≤ CHAIN_SYNC_RESPONSE_MAX_BLOCKS) :
    Reads ChainRequest.read (ChainRequest.write ⟨node.list n, size⟩) ⟨node.list n, size⟩ := by
  have hlen : (node.list n).length = n + 1 := by simp [list]
  have hlt := h.lt_max
  unfold CHAIN_SYNC_REQUEST_MAX_BLOCKS at hlt
  have hids : Reads readBlockIds (writeU8 (node.list n).length ++ (node.list n).flatMap BlockId.write) (node.list n) := by
    refine (readU8_reads (by omega)).bind ?_
    rw [if_neg (by rw [hlen]; unfold CHAIN_SYNC_REQUEST_MAX_BLOCKS; omega)]
    exact Lib.Reader.readDistinct_reads (fun id hid => BlockId.read_reads (node.topoheight_lt_of_mem_list hid)) []
      (node.nodup_list h.listed)
  unfold CHAIN_SYNC_RESPONSE_MAX_BLOCKS at hmax
  have hbounds : ¬(size < CHAIN_SYNC_RESPONSE_MIN_BLOCKS ∨ size > CHAIN_SYNC_RESPONSE_MAX_BLOCKS) := by
    unfold CHAIN_SYNC_RESPONSE_MAX_BLOCKS
    omega
  have hsize := (readU16_reads (n := size) (by omega)).bind (f := fun acceptedResponseSize => do
    if acceptedResponseSize < CHAIN_SYNC_RESPONSE_MIN_BLOCKS ∨ acceptedResponseSize > CHAIN_SYNC_RESPONSE_MAX_BLOCKS then
      throw ReaderError.invalidValue
    Pure.pure (⟨node.list n, acceptedResponseSize⟩ : ChainRequest))
    (show Reads _ [] (⟨node.list n, size⟩ : ChainRequest) by rw [if_neg hbounds]; exact Lib.Reader.Reads.pure _)
  rw [List.append_nil] at hsize
  exact hids.bind hsize

theorem findCommonPoint_eq (hfirst : blocks.head? = some first) (hlast : blocks.getLast? = some ⟨node.genesis, 0⟩) :
    findCommonPoint node.storage blocks =
      if first.topoheight + 1 < U64_RANGE then searchCommonPoint node.storage 0 (first.topoheight + 1) blocks
      else .error .arithmeticOverflow := by
  rw [findCommonPoint, hfirst, hlast]
  simp only [node.getHashAtTopoHeight_zero]
  split
  · rw [if_neg (by simp)]
  · rfl

theorem getLast?_list (n : Nat) : (node.list n).getLast? = some ⟨node.genesis, 0⟩ := by simp [list]

theorem findCommonPoint_genesis : findCommonPoint node.storage (node.list 0) = .ok (some ⟨node.genesis, 0⟩) := by
  have hfirst : (node.list 0).head? = some ⟨node.genesis, 0⟩ := rfl
  rw [node.findCommonPoint_eq hfirst (node.getLast?_list 0), if_pos (show 0 + 1 < U64_RANGE by decide)]
  show searchCommonPoint node.storage 0 1 [⟨node.genesis, 0⟩] = _
  rw [searchCommonPoint_cons, if_neg (by simp), if_pos node.orders_genesis]

end Node

/-- What a search between two nodes should do: the list is built, read and searched, and its best common block is found. -/
def Found {P : Type} (near far : Node P) : Prop :=
  ∃ blocks, (∀ turns, near.topoheight < turns → buildListOfBlocksId near.storage near.topoheight turns = .ok (some blocks)) ∧
    blocks.length ≤ CHAIN_SYNC_REQUEST_MAX_BLOCKS ∧ (blocks.map BlockId.topoheight).Pairwise (· > ·) ∧
    blocks.getLast? = some ⟨near.genesis, 0⟩ ∧
    (∀ size, CHAIN_SYNC_RESPONSE_MIN_BLOCKS ≤ size → size ≤ CHAIN_SYNC_RESPONSE_MAX_BLOCKS →
      Reads ChainRequest.read (ChainRequest.write ⟨blocks, size⟩) ⟨blocks, size⟩) ∧
    ∃ id ∈ blocks, findCommonPoint far.storage blocks = .ok (some ⟨id.hash, id.topoheight⟩) ∧ Orders far.storage id ∧
      ∀ other ∈ blocks, Orders far.storage other → other.topoheight ≤ id.topoheight

/-- The genesis entry does not come early in the list, or the search stops before it. -/
def Searchable {P : Type} (near far : Node P) : Prop :=
  near.topoheight ≤ near.pruned ∨ (near.topoheight + 1 < U64_RANGE ∧
    (near.pruned = 0 ∨ near.pruned + CHAIN_SYNC_REQUEST_EXPONENTIAL_INDEX_START ≤ near.topoheight ∨
      ∃ t, near.pruned < t ∧ t ≤ near.topoheight ∧ Orders far.storage (near.idAt t)))

section Pairs

variable {P : Type} {near far : Node P}

theorem searchCommonPoint_list (h : near.Complete n) (hpos : 0 < n) (hgenesis : near.genesis = far.genesis) :
    findCommonPoint far.storage (near.list n) =
      if near.topoheight + 1 < U64_RANGE then
        match (near.entries n).find? (fun id => Orders far.storage id) with
        | some id => .ok (some ⟨id.hash, id.topoheight⟩)
        | none =>
          if n < CHAIN_SYNC_REQUEST_EXPONENTIAL_INDEX_START ∧ near.topoheight ≠ n then .error .invalidBlockIdList
          else .ok (some ⟨near.genesis, 0⟩)
      else .error .arithmeticOverflow := by
  obtain ⟨m, rfl⟩ : ∃ m, n = m + 1 := ⟨n - 1, by omega⟩
  have hfirst : (near.list (m + 1)).head? = some (near.idAt near.topoheight) := by
    simp [Node.list, Node.entries, List.range_succ_eq_map, Node.offset, CHAIN_SYNC_REQUEST_EXPONENTIAL_INDEX_START]
  have hlast : (near.list (m + 1)).getLast? = some ⟨far.genesis, 0⟩ := hgenesis ▸ near.getLast?_list (m + 1)
  rw [far.findCommonPoint_eq hfirst hlast]
  refine if_congr Iff.rfl ?_ rfl
  show searchCommonPoint far.storage 0 (near.topoheight + 1) (near.entries (m + 1) ++ _) = _
  rw [searchCommonPoint_append (near.inOrder_entries h.listed), near.length_entries]
  cases (near.entries (m + 1)).find? (fun id => Orders far.storage id) with
  | some id => rfl
  | none =>
    have hle := Node.le_offset m
    have hlisted := h.listed m (Nat.lt_succ_self m)
    rw [hgenesis, searchCommonPoint_cons, if_pos far.orders_genesis]
    refine if_congr ?_ rfl rfl
    constructor
    · rintro (hzero | ⟨hi, hne⟩)
      · omega
      · exact ⟨by omega, fun heq => hne (by show _ = 0; omega)⟩
    · rintro ⟨hi, hne⟩
      exact Or.inr ⟨by omega, fun heq => hne (by have : near.topoheight + 1 - (m + 1) - 1 = 0 := heq; omega)⟩

theorem find?_highest (hsorted : (ids.map BlockId.topoheight).Pairwise (· > ·))
    {p : BlockId → Bool} (hfind : ids.find? p = some id) (hother : other ∈ ids) (hp : p other = true) :
    other.topoheight ≤ id.topoheight := by
  obtain ⟨-, before, after, rfl, hbefore⟩ := List.find?_eq_some_iff_append.mp hfind
  rcases List.mem_append.mp hother with hmem | hmem
  · have hnot := hbefore other hmem
    rw [hp] at hnot
    cases hnot
  · rcases List.mem_cons.mp hmem with rfl | hmem
    · exact Nat.le_refl _
    · rw [List.map_append, List.map_cons] at hsorted
      have hafter := (List.pairwise_cons.mp (List.pairwise_append.mp hsorted).2.1).1
      exact Nat.le_of_lt (hafter _ (List.mem_map_of_mem hmem))

/-- The list of a node does all that is asked of it as soon as the search over it returns a point. -/
theorem found_of_findCommonPoint (h : near.Complete n)
    (hbuild : ∀ turns, near.topoheight < turns → buildListOfBlocksId near.storage near.topoheight turns = .ok (some (near.list n)))
    (id : BlockId) (hfind : (near.list n).find? (fun id => Orders far.storage id) = some id)
    (hpoint : findCommonPoint far.storage (near.list n) = .ok (some ⟨id.hash, id.topoheight⟩)) : Found near far := by
  have hlen : (near.list n).length = n + 1 := by simp [Node.list]
  have hsorted := near.pairwise_list h.listed
  have horders : Orders far.storage id := by simpa using List.find?_some hfind
  refine ⟨near.list n, hbuild, by rw [hlen]; exact h.lt_max, hsorted, near.getLast?_list n,
    fun size hmin hmax => near.read_list h hmin hmax, id, List.mem_of_find?_eq_some hfind, hpoint,
    horders, fun other hother horders => ?_⟩
  exact find?_highest hsorted hfind hother (decide_eq_true horders)

/-- Below the doubling part the list goes down to the pruned point. -/
theorem topoheight_le_of_lt (h : near.Complete n) (hn : n < CHAIN_SYNC_REQUEST_EXPONENTIAL_INDEX_START) :
    near.topoheight ≤ near.pruned + n := by
  rcases h.stop with hmax | hstop
  · unfold CHAIN_SYNC_REQUEST_MAX_BLOCKS at hmax
    unfold CHAIN_SYNC_REQUEST_EXPONENTIAL_INDEX_START at hn
    omega
  · rwa [Node.offset_of_lt hn] at hstop

theorem mem_entries_of_lt (h : near.Complete n) (hn : n < CHAIN_SYNC_REQUEST_EXPONENTIAL_INDEX_START)
    (hlow : near.pruned < t) (hhigh : t ≤ near.topoheight) : near.idAt t ∈ near.entries n := by
  have hstop := topoheight_le_of_lt h hn
  refine List.mem_map.mpr ⟨near.topoheight - t, List.mem_range.mpr (by omega), ?_⟩
  rw [Node.offset_of_lt (by omega), show near.topoheight - (near.topoheight - t) = t by omega]

theorem genesis_early_iff (h : near.Complete n) (hpos : 0 < n) :
    n < CHAIN_SYNC_REQUEST_EXPONENTIAL_INDEX_START ∧ near.topoheight ≠ n ↔
      near.pruned ≠ 0 ∧ near.topoheight < near.pruned + CHAIN_SYNC_REQUEST_EXPONENTIAL_INDEX_START := by
  have hprev := h.listed (n - 1) (by omega)
  have hle := Node.le_offset (n - 1)
  constructor
  · rintro ⟨hlt, hne⟩
    have hstop := topoheight_le_of_lt h hlt
    exact ⟨by omega, by omega⟩
  · rintro ⟨hpruned, htop⟩
    have hlt : n < CHAIN_SYNC_REQUEST_EXPONENTIAL_INDEX_START := by
      refine Nat.lt_of_not_le fun hge => ?_
      have hlisted := h.listed 29 (Nat.lt_of_lt_of_le (by decide) hge)
      rw [Node.offset_of_lt (by decide)] at hlisted
      unfold CHAIN_SYNC_REQUEST_EXPONENTIAL_INDEX_START at htop
      omega
    rw [Node.offset_of_lt (by omega)] at hprev
    exact ⟨hlt, by omega⟩

theorem found_iff (hgenesis : near.genesis = far.genesis) : Found near far ↔ Searchable near far := by
  obtain ⟨n, hn, hbuild⟩ := near.buildListOfBlocksId_eq
  rcases Nat.eq_zero_or_pos n with rfl | hpos
  · -- only genesis is listed
    have hlow : near.topoheight ≤ near.pruned := by
      rcases hn.stop with hmax | hstop
      · cases hmax
      · exact hstop
    refine ⟨fun _ => Or.inl hlow, fun _ => ?_⟩
    have hlist : near.list 0 = far.list 0 := by
      rw [Node.list, Node.list, hgenesis]
      rfl
    refine found_of_findCommonPoint hn hbuild ⟨far.genesis, 0⟩ ?_ (by rw [hlist]; exact far.findCommonPoint_genesis)
    rw [hlist]
    simp [Node.list, Node.entries, far.orders_genesis]
  · have hpoint := searchCommonPoint_list hn hpos hgenesis
    simp only [genesis_early_iff hn hpos] at hpoint
    constructor
    · rintro ⟨blocks, hblocks, -, -, -, -, id, -, hfound, -⟩
      have heq := (hbuild _ (Nat.lt_succ_self _)).symm.trans (hblocks _ (Nat.lt_succ_self _))
      obtain rfl : near.list n = blocks := Option.some.inj (Except.ok.inj heq)
      rw [hpoint] at hfound
      split at hfound
      · rename_i hrange
        refine Or.inr ⟨hrange, ?_⟩
        split at hfound
        · rename_i common hcommon
          obtain ⟨k, -, rfl, hpruned⟩ := near.mem_entries hn.listed (List.mem_of_find?_eq_some hcommon)
          exact Or.inr (Or.inr ⟨_, hpruned, Nat.sub_le _ _, by simpa using List.find?_some hcommon⟩)
        · split at hfound
          · cases hfound
          · omega
      · cases hfound
    · rintro (hlow | ⟨hrange, hcond⟩)
      · have hlisted := hn.listed 0 hpos
        omega
      · rw [if_pos hrange] at hpoint
        cases hfind : (near.entries n).find? (fun id => Orders far.storage id) with
        | some id =>
          rw [hfind] at hpoint
          exact found_of_findCommonPoint hn hbuild id (by rw [Node.list, List.find?_append, hfind]; rfl) hpoint
        | none =>
          rw [hfind] at hpoint
          have hlate : ¬(near.pruned ≠ 0 ∧ near.topoheight < near.pruned + CHAIN_SYNC_REQUEST_EXPONENTIAL_INDEX_START) := by
            rintro ⟨hpruned, htop⟩
            obtain ⟨t, hlow, hhigh, horders⟩ : ∃ t, near.pruned < t ∧ t ≤ near.topoheight ∧ Orders far.storage (near.idAt t) := by
              rcases hcond with hzero | hfar | hcommon
              · exact absurd hzero hpruned
              · omega
              · exact hcommon
            have hlt := ((genesis_early_iff hn hpos).mpr ⟨hpruned, htop⟩).1
            exact List.find?_eq_none.mp hfind _ (mem_entries_of_lt hn hlt hlow hhigh) (decide_eq_true horders)
          rw [if_neg hlate] at hpoint
          refine found_of_findCommonPoint hn hbuild ⟨near.genesis, 0⟩ ?_ hpoint
          rw [Node.list, List.find?_append, hfind]
          simp [hgenesis, far.orders_genesis]

/-- The one unchecked operation of the search that can leave its range is the first addition. -/
theorem searchCommonPoint_ne_overflow (s : Storage P) (i expected : Nat) (ids : List BlockId) :
    searchCommonPoint s i expected ids ≠ .error .arithmeticOverflow := by
  induction ids generalizing i expected with
  | nil => exact nofun
  | cons id rest ih =>
    rw [searchCommonPoint_cons]
    split
    · exact nofun
    · split
      · exact nofun
      · exact ih (i + 1) (expected - 1)

theorem findCommonPoint_overflow_iff (s : Storage P) (blocks : List BlockId) :
    findCommonPoint s blocks = .error .arithmeticOverflow ↔ ∃ first, blocks.head? = some first ∧ U64_RANGE ≤ first.topoheight + 1 := by
  unfold findCommonPoint
  cases hhead : blocks.head? with
  | none => simp
  | some first =>
    obtain ⟨last, hlast⟩ : ∃ last, blocks.getLast? = some last := by
      cases blocks with
      | nil => cases hhead
      | cons id rest => exact ⟨_, List.getLast?_eq_some_getLast (List.cons_ne_nil id rest)⟩
    simp only [hlast]
    by_cases hrange : first.topoheight + 1 < U64_RANGE
    · rw [if_pos hrange]
      refine ⟨fun h => ?_, fun ⟨other, hother, hlarge⟩ => ?_⟩
      · split at h
        · cases h
        · split at h
          · cases h
          · exact absurd h (searchCommonPoint_ne_overflow _ _ _ _)
      · cases hother
        omega
    · rw [if_neg hrange]
      exact ⟨fun _ => ⟨first, rfl, by omega⟩, fun _ => rfl⟩

end Pairs

/-- The search works exactly when genesis does not come early in the list or is not reached, and its arithmetic
stays in range exactly when the first id of the list is below the greatest topoheight. -/
theorem findCommonPoint_search {P : Type} :
    (∀ near far : Node P, near.genesis = far.genesis → (Found near far ↔ Searchable near far)) ∧
      ∀ (s : Storage P) (blocks : List BlockId), Readable blocks →
        (findCommonPoint s blocks ≠ .error .arithmeticOverflow ↔
          ∀ first, blocks.head? = some first → first.topoheight + 1 < U64_RANGE) := by
  refine ⟨fun near far hgenesis => found_iff hgenesis, fun s blocks _ => ?_⟩
  rw [Ne, findCommonPoint_overflow_iff, not_exists]
  refine forall_congr' fun first => ?_
  rw [not_and, Nat.not_le]

def orderedStorage (pruned : Option TopoHeight) (ids : List BlockId) : Storage Unit :=
  let header : BlockHeader := ⟨.v0, [], 0, 0, 0, [], 0#256, []⟩
  ids.foldl (fun s id => { s.setTopoHeightForBlock id.hash id.topoheight with blocks := s.blocks.insert id.hash header })
    { prunedTopoheight := pruned }

/-- Two blocks above a chain pruned up to the first. -/
def prunedNode : Node Unit where
  storage := orderedStorage (some 1) [⟨7#256, 0⟩, ⟨9#256, 2⟩]
  topoheight := 2
  genesis := 7#256
  representable := by decide
  orders_genesis := by decide +kernel
  orders_above t hlow hhigh := ⟨9#256, by
    have hlow : 1 < t := hlow
    obtain rfl : t = 2 := by omega
    decide +kernel⟩

def freshNode : Node Unit where
  storage := orderedStorage none [⟨7#256, 0⟩]
  topoheight := 0
  genesis := 7#256
  representable := by decide
  orders_genesis := by decide +kernel
  orders_above t hlow hhigh := absurd hlow (Nat.not_lt_of_le hhigh)

def greatestRequest : ChainRequest := ⟨[⟨7#256, 2 ^ 64 - 1⟩], 512⟩

/-- A pruned node sends a list that is refused, and a list with the greatest topoheight overflows. -/
theorem findCommonPoint_search_fails :
    prunedNode.genesis = freshNode.genesis ∧ ¬Found prunedNode freshNode ∧
      buildListOfBlocksId prunedNode.storage prunedNode.topoheight 3 = .ok (some [⟨9#256, 2⟩, ⟨7#256, 0⟩]) ∧
      findCommonPoint freshNode.storage [⟨9#256, 2⟩, ⟨7#256, 0⟩] = .error .invalidBlockIdList ∧
      Readable greatestRequest.blocks ∧
      findCommonPoint freshNode.storage greatestRequest.blocks = .error .arithmeticOverflow := by
  refine ⟨rfl, ?_, by decide +kernel, by decide +kernel, Or.inl ⟨greatestRequest.write, greatestRequest, [], by decide +kernel, rfl⟩,
    by decide +kernel⟩
  have hiff : Found prunedNode freshNode ↔ Searchable prunedNode freshNode := found_iff rfl
  rw [hiff]
  rintro (hlow | ⟨-, hpruned | hfar | ⟨t, hlow, hhigh, horders⟩⟩)
  · exact absurd hlow (by decide +kernel)
  · exact absurd hpruned (by decide +kernel)
  · exact absurd hfar (by decide +kernel)
  · have hlow : 1 < t := hlow
    have hhigh : t ≤ 2 := hhigh
    obtain rfl : t = 2 := by omega
    exact absurd horders (by decide +kernel)

/-- A node with three blocks, the last of which the pruned one has as well. -/
def chainNode : Node Unit where
  storage := orderedStorage none [⟨7#256, 0⟩, ⟨8#256, 1⟩, ⟨9#256, 2⟩]
  topoheight := 2
  genesis := 7#256
  representable := by decide
  orders_genesis := by decide +kernel
  orders_above t hlow hhigh := by
    have hlow : 0 < t := hlow
    obtain rfl | rfl : t = 1 ∨ t = 2 := by omega
    · exact ⟨8#256, by decide +kernel⟩
    · exact ⟨9#256, by decide +kernel⟩

/-- The pruned node finds its top block there, and a list of three blocks does not overflow. -/
theorem findCommonPoint_search_chain : Found prunedNode chainNode ∧
    findCommonPoint chainNode.storage [⟨10#256, 3⟩, ⟨9#256, 2⟩, ⟨7#256, 0⟩] ≠ .error .arithmeticOverflow := by
  have hsearchable : Searchable prunedNode chainNode :=
    Or.inr ⟨by decide +kernel, Or.inr (Or.inr ⟨2, by decide +kernel, by decide +kernel, by decide +kernel⟩)⟩
  refine ⟨(findCommonPoint_search.1 prunedNode chainNode rfl).mpr hsearchable, ?_⟩
  have hread : Readable [⟨10#256, 3⟩, ⟨9#256, 2⟩, ⟨7#256, 0⟩] :=
    Or.inl ⟨ChainRequest.write ⟨[⟨10#256, 3⟩, ⟨9#256, 2⟩, ⟨7#256, 0⟩], 512⟩, ⟨[⟨10#256, 3⟩, ⟨9#256, 2⟩, ⟨7#256, 0⟩], 512⟩, [], by decide +kernel, rfl⟩
  refine (findCommonPoint_search.2 chainNode.storage _ hread).mpr fun first hfirst => ?_
  obtain rfl : ⟨10#256, 3⟩ = first := Option.some.inj hfirst
  decide

end Xelis.P2p
