import Xelis.Blockchain.Dag
import Xelis.Lib.Loop
import Xelis.Lib.PostOrder

namespace Xelis.Blockchain

open Lib (Exec Halt IndexSet Lru postOrder)

variable {P : Type}

/-- A block that is found becomes the one of the cache that was used last. -/
def fullOrderOf (key : Hash × Hash × Nat) : Exec (Halt BlockchainError) DagCaches (Option (IndexSet Hash)) :=
  modifyGet (fun c => (c.fullOrder.peek key, { c with fullOrder := c.fullOrder.touch key }))

def putFullOrder (key : Hash × Hash × Nat) (order : IndexSet Hash) : Exec (Halt BlockchainError) DagCaches PUnit :=
  modify (fun c => { c with fullOrder := c.fullOrder.put key order })

/-- A block is left out of the order when it is ordered below the base. -/
def isAboveBase (s : Storage P) (baseTopoHeight : TopoHeight) (tip : Hash) : Except BlockchainError Bool :=
  if s.isBlockTopologicalOrdered tip then (s.getTopoHeightForHash tip).map (fun topoheight => decide (baseTopoHeight ≤ topoheight))
  else .ok true

def scoreAboveBase (s : Storage P) (baseTopoHeight : TopoHeight) (tip : Hash) :
    Except BlockchainError (Option (Hash × Nat)) := do
  if ← isAboveBase s baseTopoHeight tip then return some (tip, ← s.getCumulativeDifficultyForBlockHash tip)
  else return none

/-- What the loop keeps. The blocks that were put back on the stack below their parents are the processed ones. -/
structure FullOrderSearch where
  fullOrder : IndexSet Hash := .empty
  stack : List Hash
  processed : IndexSet Hash := .empty

def generateFullOrderTurn (s : Storage P) (base : Hash) (baseHeight : Nat) (baseTopoHeight : TopoHeight)
    (search : FullOrderSearch) : Exec (Halt BlockchainError) DagCaches (FullOrderSearch ⊕ IndexSet Hash) :=
  match search.stack with
  | [] => return .inr search.fullOrder
  | currentHash :: stack =>
    if currentHash ∈ search.processed.elems then
      return .inl { search with stack, fullOrder := search.fullOrder.insert currentHash }
    else do
      let cacheKey := (currentHash, base, baseHeight)
      match ← fullOrderOf cacheKey with
      | some order => return .inl { search with stack, fullOrder := search.fullOrder.extend order.elems }
      | none => do
        let blockTips ← Exec.attempt (s.getPastBlocksForBlockHash currentHash)
        if blockTips.isEmpty || currentHash = base then do
          let order := IndexSet.single currentHash
          putFullOrder cacheKey order
          return .inl { search with stack, fullOrder := search.fullOrder.extend order.elems }
        else do
          let scores ← Exec.attempt (blockTips.mapM (scoreAboveBase s baseTopoHeight))
          let scores := sortAscendingByCumulativeDifficulty scores.reduceOption
          return .inl { search with
            processed := search.processed.insert currentHash
            stack := scores.foldl (fun stack score => score.1 :: stack) (currentHash :: stack) }

def generateFullOrder (turns : Nat) (s : Storage P) (hash base : Hash) (baseHeight : Nat) (baseTopoHeight : TopoHeight) :
    Exec (Halt BlockchainError) DagCaches (IndexSet Hash) := do
  let fullOrder ← Lib.Loop.run (generateFullOrderTurn s base baseHeight baseTopoHeight) turns { stack := [hash] }
  putFullOrder (hash, base, baseHeight) fullOrder
  return fullOrder

section Specification

def aboveBase (s : Storage P) (baseTopoHeight : TopoHeight) (hash : Hash) : Bool :=
  match s.topoByHash[hash]? with
  | some topoheight => !s.isBlockTopologicalOrdered hash || baseTopoHeight ≤ topoheight
  | none => true

def cumulativeDifficultyOf (s : Storage P) (hash : Hash) : Nat := s.cumulativeDifficulty[hash]?.getD 0

def scoresAboveBase (s : Storage P) (baseTopoHeight : TopoHeight) (tips : List Hash) : List (Hash × Nat) :=
  (tips.filter (aboveBase s baseTopoHeight)).map (fun tip => (tip, cumulativeDifficultyOf s tip))

/-- The parents a block is ordered behind, the one of the highest cumulative difficulty first. The base has none. -/
def orderedParents (s : Storage P) (base : Hash) (baseTopoHeight : TopoHeight) (hash : Hash) : List Hash :=
  if hash = base then []
  else (sortDescendingByCumulativeDifficulty (scoresAboveBase s baseTopoHeight (parents s hash))).map Prod.fst

variable {s : Storage P} {base : Hash} {baseTopoHeight : TopoHeight} {hash : Hash}

theorem getCumulativeDifficultyForBlockHash_eq (h : ∃ difficulty, s.cumulativeDifficulty[hash]? = some difficulty) :
    s.getCumulativeDifficultyForBlockHash hash = .ok (cumulativeDifficultyOf s hash) := by
  obtain ⟨difficulty, hdifficulty⟩ := h
  unfold Storage.getCumulativeDifficultyForBlockHash cumulativeDifficultyOf
  rw [hdifficulty]
  rfl

theorem mem_orderedParents_iff (tip : Hash) : tip ∈ orderedParents s base baseTopoHeight hash ↔
    hash ≠ base ∧ tip ∈ parents s hash ∧ aboveBase s baseTopoHeight tip := by
  unfold orderedParents
  split
  · rename_i h
    simp [h]
  · rename_i h
    simp [h, sortDescendingByCumulativeDifficulty, scoresAboveBase, and_assoc]

theorem orderedParents_of_base : orderedParents s base baseTopoHeight base = [] := if_pos rfl

theorem orderedParents_of_isEmpty (h : parents s hash = []) : orderedParents s base baseTopoHeight hash = [] := by
  unfold orderedParents
  rw [h]
  split <;> rfl

theorem orderedParents_wellFounded (h : StoredDag s) (base : Hash) (baseTopoHeight : TopoHeight) :
    WellFounded (fun y x => y ∈ orderedParents s base baseTopoHeight x) :=
  Subrelation.wf (fun hy => ((mem_orderedParents_iff _).mp hy).2.1) h.wellFounded

/-- The order a recursive search gives: every block after its parents, the parents by descending cumulative difficulty. -/
def recursiveOrder (h : StoredDag s) (base : Hash) (baseTopoHeight : TopoHeight) (tip : Hash) : List Hash :=
  postOrder (orderedParents_wellFounded h base baseTopoHeight) tip []

end Specification

variable {tip hash parent : Hash} {order order' : IndexSet Hash}

section Turns

variable {s : Storage P} {base : Hash} {baseHeight : Nat} {baseTopoHeight : TopoHeight}

theorem isAboveBase_eq (tip : Hash) : isAboveBase s baseTopoHeight tip = .ok (aboveBase s baseTopoHeight tip) := by
  unfold isAboveBase aboveBase Storage.getTopoHeightForHash Storage.isBlockTopologicalOrdered
  cases s.topoByHash[tip]? with
  | none => rfl
  | some topoheight =>
    simp only []
    cases s.hashAtTopo[topoheight]? == some tip <;> rfl

theorem scoreAboveBase_eq {difficulty : Nat} (h : s.cumulativeDifficulty[tip]? = some difficulty) :
    scoreAboveBase s baseTopoHeight tip =
      .ok (if aboveBase s baseTopoHeight tip then some (tip, cumulativeDifficultyOf s tip) else none) := by
  unfold scoreAboveBase cumulativeDifficultyOf Storage.getCumulativeDifficultyForBlockHash
  rw [isAboveBase_eq, h]
  cases aboveBase s baseTopoHeight tip <;> rfl

theorem mapM_scoreAboveBase (hdag : RankedDag s) (baseTopoHeight : TopoHeight) (tips : List Hash) (hstored : ∀ tip ∈ tips, s.hasBlockWithHash tip) :
    ∃ scores, tips.mapM (scoreAboveBase s baseTopoHeight) = .ok scores ∧
      scores.reduceOption = scoresAboveBase s baseTopoHeight tips := by
  induction tips with
  | nil => exact ⟨[], rfl, rfl⟩
  | cons tip tips ih =>
    obtain ⟨difficulty, hdifficulty⟩ := hdag.ranked tip (hstored tip List.mem_cons_self)
    obtain ⟨scores, hscores, hreduce⟩ := ih (fun tip htip => hstored tip (List.mem_cons_of_mem _ htip))
    refine ⟨(if aboveBase s baseTopoHeight tip then some (tip, cumulativeDifficultyOf s tip) else none) :: scores, ?_, ?_⟩
    · rw [List.mapM_cons, scoreAboveBase_eq hdifficulty, hscores]
      rfl
    · unfold scoresAboveBase at hreduce ⊢
      split
      · rename_i habove
        rw [List.filter_cons_of_pos habove, List.map_cons, ← hreduce]
        rfl
      · rename_i habove
        rw [List.filter_cons_of_neg habove, ← hreduce]
        rfl

def EndsOrder (s : Storage P) (base hash : Hash) : Prop := parents s hash = [] ∨ hash = base

theorem EndsOrder.orderedParents_eq (h : EndsOrder s base hash) : orderedParents s base baseTopoHeight hash = [] := by
  rcases h with h | rfl
  · exact orderedParents_of_isEmpty h
  · exact orderedParents_of_base

theorem foldl_push_scores (scores : List (Hash × Nat)) (stack : List Hash) :
    scores.foldl (fun stack score => score.1 :: stack) stack = (scores.reverse.map Prod.fst) ++ stack := by
  induction scores generalizing stack with
  | nil => rfl
  | cons score scores ih =>
    rw [List.foldl_cons, ih, List.reverse_cons, List.map_append, List.append_assoc]
    rfl

variable {search : FullOrderSearch} {hash : Hash} {stack : List Hash} {caches : DagCaches}

theorem turn_of_processed (hstack : search.stack = hash :: stack) (hmem : hash ∈ search.processed.elems) :
    generateFullOrderTurn s base baseHeight baseTopoHeight search caches =
      .ok (.inl { search with stack, fullOrder := search.fullOrder.insert hash }) caches := by
  unfold generateFullOrderTurn
  rw [hstack]
  simp only [if_pos hmem]
  rfl

theorem turn_of_cached (hstack : search.stack = hash :: stack) (hmem : hash ∉ search.processed.elems)
    (hpeek : caches.fullOrder.peek (hash, base, baseHeight) = some order) :
    generateFullOrderTurn s base baseHeight baseTopoHeight search caches =
      .ok (.inl { search with stack, fullOrder := search.fullOrder.extend order.elems })
        { caches with fullOrder := caches.fullOrder.touch (hash, base, baseHeight) } := by
  unfold generateFullOrderTurn fullOrderOf
  rw [hstack]
  simp only [if_neg hmem]
  rw [Exec.bind_apply]
  simp only [Exec.modifyGet_apply, hpeek]
  rfl

theorem turn_of_ends (hstack : search.stack = hash :: stack) (hmem : hash ∉ search.processed.elems)
    (hpeek : caches.fullOrder.peek (hash, base, baseHeight) = none) (hstored : s.hasBlockWithHash hash)
    (hends : EndsOrder s base hash) :
    generateFullOrderTurn s base baseHeight baseTopoHeight search caches =
      .ok (.inl { search with stack, fullOrder := search.fullOrder.insert hash })
        { caches with fullOrder := caches.fullOrder.put (hash, base, baseHeight) (.single hash) } := by
  have hcond : ((parents s hash).isEmpty || decide (hash = base)) = true := by
    rcases hends with h | h <;> simp [h]
  unfold generateFullOrderTurn fullOrderOf
  rw [hstack]
  simp only [if_neg hmem]
  rw [Exec.bind_apply]
  simp only [Exec.modifyGet_apply, hpeek, Lru.touch_of_peek_none hpeek,
    getPastBlocksForBlockHash_eq hstored, Exec.attempt_ok, pure_bind, hcond, if_true]
  rfl

/-- Another block is put back below its parents. -/
theorem turn_of_opens (hdag : RankedDag s) (hstack : search.stack = hash :: stack) (hmem : hash ∉ search.processed.elems)
    (hpeek : caches.fullOrder.peek (hash, base, baseHeight) = none) (hstored : s.hasBlockWithHash hash)
    (hends : ¬ EndsOrder s base hash) :
    generateFullOrderTurn s base baseHeight baseTopoHeight search caches =
      .ok (.inl { search with
        processed := search.processed.insert hash
        stack := orderedParents s base baseTopoHeight hash ++ hash :: stack }) caches := by
  obtain ⟨hparents, hbase⟩ := not_or.mp hends
  have hcond : ((parents s hash).isEmpty || decide (hash = base)) = false := by simp [hparents, hbase]
  obtain ⟨scores, hscores, hreduce⟩ := mapM_scoreAboveBase hdag baseTopoHeight (parents s hash) (hdag.tips_stored hash hstored)
  unfold generateFullOrderTurn fullOrderOf
  rw [hstack]
  simp only [if_neg hmem]
  rw [Exec.bind_apply]
  simp only [Exec.modifyGet_apply, hpeek, Lru.touch_of_peek_none hpeek,
    getPastBlocksForBlockHash_eq hstored, Exec.attempt_ok, pure_bind, hcond, hscores, Bool.false_eq_true, if_false]
  rw [hreduce, foldl_push_scores, reverse_sortAscending]
  unfold orderedParents
  rw [if_neg hbase]
  rfl

end Turns

section Search

variable {s : Storage P} {base : Hash} {baseHeight : Nat} {baseTopoHeight : TopoHeight}

/-- What the cache knows for a base is what the recursive search gives. -/
def GoodOrders (hdag : StoredDag s) (base : Hash) (baseHeight : Nat) (baseTopoHeight : TopoHeight) (caches : DagCaches) : Prop :=
  caches.fullOrder.All (fun key order => key.2 = (base, baseHeight) →
    order.elems = recursiveOrder hdag base baseTopoHeight key.1)

/-- What holds between the turns. `opened` are the blocks that wait on the stack for their parents. -/
structure Searching (hdag : StoredDag s) (base : Hash) (baseHeight : Nat) (baseTopoHeight : TopoHeight) (opened : List Hash)
    (search : FullOrderSearch) (caches : DagCaches) : Prop where
  down : Lib.PostOrder.Downward (orderedParents s base baseTopoHeight) search.fullOrder.elems
  processed : ∀ hash ∈ search.processed.elems, hash ∈ search.fullOrder.elems ∨ hash ∈ opened
  good : GoodOrders hdag base baseHeight baseTopoHeight caches

variable {opened stack : List Hash} {search : FullOrderSearch} {caches : DagCaches} {hash : Hash}

theorem recursiveOrder_of_ends (hdag : StoredDag s) (h : EndsOrder s base hash) :
    recursiveOrder hdag base baseTopoHeight hash = [hash] := by
  unfold recursiveOrder
  rw [Lib.PostOrder.postOrder_of_not_mem List.not_mem_nil, h.orderedParents_eq]
  rfl

variable {hdag : StoredDag s}

theorem GoodOrders.touch (h : GoodOrders hdag base baseHeight baseTopoHeight caches) (key : Hash × Hash × Nat) :
    GoodOrders hdag base baseHeight baseTopoHeight { caches with fullOrder := caches.fullOrder.touch key } :=
  Lru.All.touch h key

theorem GoodOrders.put (h : GoodOrders hdag base baseHeight baseTopoHeight caches)
    (horder : order.elems = recursiveOrder hdag base baseTopoHeight hash) :
    GoodOrders hdag base baseHeight baseTopoHeight
      { caches with fullOrder := caches.fullOrder.put (hash, base, baseHeight) order } :=
  Lru.All.put h (fun _ => horder)

/-- The same order, with other blocks on the stack. -/
theorem Searching.next (h : Searching hdag base baseHeight baseTopoHeight opened search caches)
    (hash : Hash) {search' : FullOrderSearch} {caches' : DagCaches} (hprocessed : search'.processed = search.processed)
    (horder : search'.fullOrder.elems =
      postOrder (orderedParents_wellFounded hdag base baseTopoHeight) hash search.fullOrder.elems)
    (hgood : GoodOrders hdag base baseHeight baseTopoHeight caches') :
    Searching hdag base baseHeight baseTopoHeight opened search' caches' where
  down := horder ▸ h.down.postOrder hash
  processed z hz := by
    rw [hprocessed] at hz
    exact (h.processed z hz).imp_left (fun hz => horder ▸ Lib.PostOrder.subset_postOrder hash _ hz)
  good := hgood

/-- A block is listed when all its ordered parents were. -/
theorem elems_insert_foldl (hdag : StoredDag s)
    (hdown : Lib.PostOrder.Downward (orderedParents s base baseTopoHeight) order.elems)
    (horder' : order'.elems = (orderedParents s base baseTopoHeight hash).foldl
      (fun acc y => postOrder (orderedParents_wellFounded hdag base baseTopoHeight) y acc) order.elems) :
    (order'.insert hash).elems = postOrder (orderedParents_wellFounded hdag base baseTopoHeight) hash order.elems := by
  by_cases hmem : hash ∈ order.elems
  · have hsubset : orderedParents s base baseTopoHeight hash ⊆ order.elems := fun y hy => hdown.closed hmem hy
    rw [Lib.PostOrder.foldl_of_subset hsubset] at horder'
    rw [Lib.PostOrder.postOrder_of_mem hmem, IndexSet.insert_of_mem (horder' ▸ hmem), horder']
  · have hnot : hash ∉ order'.elems := by
      rw [horder']
      exact Lib.PostOrder.not_mem_foldl_next hmem
    rw [Lib.PostOrder.postOrder_of_not_mem hmem, IndexSet.elems_insert_of_not_mem hnot, horder']

/-- The search gets from one state to another, and the order is extended as `extended` says. -/
structure Lists (hdag : StoredDag s) (base : Hash) (baseHeight : Nat) (baseTopoHeight : TopoHeight) (opened : List Hash)
    (extended : List Hash → List Hash) (before after : FullOrderSearch × DagCaches) : Prop where
  leads : Lib.Loop.Leads (generateFullOrderTurn s base baseHeight baseTopoHeight) before after
  processed : before.1.processed.elems ⊆ after.1.processed.elems
  order : after.1.fullOrder.elems = extended before.1.fullOrder.elems
  searching : Searching hdag base baseHeight baseTopoHeight opened after.1 after.2

/-- A block on the stack, behind the opened ones, is listed. -/
def Listed (hdag : StoredDag s) (base : Hash) (baseHeight : Nat) (baseTopoHeight : TopoHeight) (hash : Hash) : Prop :=
  ∀ (search : FullOrderSearch) (caches : DagCaches) (opened stack : List Hash), search.stack = hash :: stack →
    (∀ z ∈ opened, Relation.TransGen (fun x y => y ∈ parents s x) z hash) →
    Searching hdag base baseHeight baseTopoHeight opened search caches →
    ∃ after, after.1.stack = stack ∧ Lists hdag base baseHeight baseTopoHeight opened
      (postOrder (orderedParents_wellFounded hdag base baseTopoHeight) hash) (search, caches) after

theorem lists_of_listed (hdag : StoredDag s) {blocks : List Hash}
    (hlisted : ∀ hash ∈ blocks, Listed hdag base baseHeight baseTopoHeight hash)
    (hopened : ∀ z ∈ opened, ∀ hash ∈ blocks, Relation.TransGen (fun x y => y ∈ parents s x) z hash)
    (hstack : search.stack = blocks ++ stack)
    (hsearching : Searching hdag base baseHeight baseTopoHeight opened search caches) :
    ∃ after, after.1.stack = stack ∧ Lists hdag base baseHeight baseTopoHeight opened (fun order =>
      blocks.foldl (fun acc y => postOrder (orderedParents_wellFounded hdag base baseTopoHeight) y acc) order)
      (search, caches) after := by
  induction blocks generalizing search caches with
  | nil => exact ⟨(search, caches), hstack, .refl, List.Subset.refl _, rfl, hsearching⟩
  | cons hash blocks ih =>
    obtain ⟨⟨search₁, caches₁⟩, hstack₁, h₁⟩ := hlisted hash List.mem_cons_self search caches opened (blocks ++ stack) hstack
      (fun z hz => hopened z hz hash List.mem_cons_self) hsearching
    obtain ⟨after, hstack₂, h₂⟩ := ih (fun hash hhash => hlisted hash (List.mem_cons_of_mem _ hhash))
      (fun z hz hash hhash => hopened z hz hash (List.mem_cons_of_mem _ hhash)) hstack₁ h₁.searching
    refine ⟨after, hstack₂, h₁.leads.trans h₂.leads, List.Subset.trans h₁.processed h₂.processed, ?_, h₂.searching⟩
    rw [h₂.order, h₁.order, List.foldl_cons]

theorem listed_of_opens (hdag : RankedDag s) (hstored : s.hasBlockWithHash hash) (hends : ¬ EndsOrder s base hash)
    (hparents : ∀ parent ∈ parents s hash, Listed hdag.toStoredDag base baseHeight baseTopoHeight parent)
    (hstack : search.stack = hash :: stack) (hopened : ∀ z ∈ opened, Relation.TransGen (fun x y => y ∈ parents s x) z hash)
    (hsearching : Searching hdag.toStoredDag base baseHeight baseTopoHeight opened search caches)
    (hmem : hash ∉ search.processed.elems) (hpeek : caches.fullOrder.peek (hash, base, baseHeight) = none) :
    ∃ after, after.1.stack = stack ∧ Lists hdag.toStoredDag base baseHeight baseTopoHeight opened
      (postOrder (orderedParents_wellFounded hdag.toStoredDag base baseTopoHeight) hash) (search, caches) after := by
  let opening : FullOrderSearch :=
    { search with
      processed := search.processed.insert hash
      stack := orderedParents s base baseTopoHeight hash ++ hash :: stack }
  have hopening : Searching hdag.toStoredDag base baseHeight baseTopoHeight (hash :: opened) opening caches :=
    { down := hsearching.down
      processed := fun z hz => by
        rcases IndexSet.mem_insert.mp hz with hz | rfl
        · exact (hsearching.processed z hz).imp_right (List.mem_cons_of_mem _)
        · exact .inr List.mem_cons_self
      good := hsearching.good }
  have hparent : ∀ c ∈ orderedParents s base baseTopoHeight hash, c ∈ parents s hash := fun c hc =>
    ((mem_orderedParents_iff c).mp hc).2.1
  have hopened' : ∀ z ∈ hash :: opened, ∀ c ∈ orderedParents s base baseTopoHeight hash,
      Relation.TransGen (fun x y => y ∈ parents s x) z c := by
    intro z hz c hc
    rcases List.mem_cons.mp hz with rfl | hz
    · exact .single (hparent c hc)
    · exact (hopened z hz).tail (hparent c hc)
  obtain ⟨⟨search₂, caches₂⟩, hstack₂, h₂⟩ :=
    lists_of_listed hdag.toStoredDag (fun c hc => hparents c (hparent c hc)) hopened' rfl hopening
  have hmem₂ : hash ∈ search₂.processed.elems := h₂.processed (IndexSet.mem_insert.mpr (.inr rfl))
  have hfirst : Lib.Loop.Turn (generateFullOrderTurn s base baseHeight baseTopoHeight) (search, caches) (opening, caches) :=
    turn_of_opens hdag hstack hmem hpeek hstored hends
  have hlast : Lib.Loop.Turn (generateFullOrderTurn s base baseHeight baseTopoHeight) (search₂, caches₂)
      ({ search₂ with stack, fullOrder := search₂.fullOrder.insert hash }, caches₂) := turn_of_processed hstack₂ hmem₂
  have horder : (search₂.fullOrder.insert hash).elems =
      postOrder (orderedParents_wellFounded hdag.toStoredDag base baseTopoHeight) hash search.fullOrder.elems :=
    elems_insert_foldl hdag.toStoredDag hsearching.down h₂.order
  refine ⟨_, rfl, (Lib.Loop.Leads.single hfirst).trans (h₂.leads.trans (.single hlast)), ?_, horder, ?_, ?_, h₂.searching.good⟩
  · exact fun z hz => h₂.processed (IndexSet.mem_insert.mpr (.inl hz))
  · exact horder ▸ hsearching.down.postOrder hash
  · intro z hz
    rcases h₂.searching.processed z hz with hz | hz
    · exact .inl (IndexSet.mem_insert.mpr (.inl hz))
    · rcases List.mem_cons.mp hz with rfl | hz
      · exact .inl (IndexSet.mem_insert.mpr (.inr rfl))
      · exact .inr hz

/-- The turns from a block on the stack to what is below it do what the recursive search does with the block.
The induction follows the parents; a block on the way to `hash` is no parent of it again. -/
theorem listed_of_stored (hdag : RankedDag s) (hash : Hash) (hstored : s.hasBlockWithHash hash) :
    Listed hdag.toStoredDag base baseHeight baseTopoHeight hash := by
  induction hash using hdag.toStoredDag.wellFounded.induction with
  | _ hash ih =>
    intro search caches opened stack hstack hopened hsearching
    by_cases hmem : hash ∈ search.processed.elems
    · have hlisted : hash ∈ search.fullOrder.elems :=
        (hsearching.processed hash hmem).resolve_right (fun hopen => hdag.acyclic hash (hopened hash hopen))
      have horder : (search.fullOrder.insert hash).elems =
          postOrder (orderedParents_wellFounded hdag.toStoredDag base baseTopoHeight) hash search.fullOrder.elems := by
        rw [IndexSet.insert_of_mem hlisted, Lib.PostOrder.postOrder_of_mem hlisted]
      exact ⟨(_, caches), rfl, .single (turn_of_processed hstack hmem), List.Subset.refl _, horder,
        hsearching.next hash rfl horder hsearching.good⟩
    cases hpeek : caches.fullOrder.peek (hash, base, baseHeight) with
    | some order =>
      have horder : (search.fullOrder.extend order.elems).elems =
          postOrder (orderedParents_wellFounded hdag.toStoredDag base baseTopoHeight) hash search.fullOrder.elems := by
        rw [IndexSet.elems_extend _ order.nodup, Lib.Lru.All.peek hsearching.good hpeek rfl,
          Lib.PostOrder.postOrder_eq_behind hsearching.down]
        rfl
      exact ⟨(_, _), rfl, .single (turn_of_cached hstack hmem hpeek), List.Subset.refl _, horder,
        hsearching.next hash rfl horder (hsearching.good.touch _)⟩
    | none =>
      by_cases hends : EndsOrder s base hash
      · have horder : (search.fullOrder.insert hash).elems =
            postOrder (orderedParents_wellFounded hdag.toStoredDag base baseTopoHeight) hash search.fullOrder.elems :=
          elems_insert_foldl hdag.toStoredDag hsearching.down (by rw [hends.orderedParents_eq]; rfl)
        exact ⟨(_, _), rfl, .single (turn_of_ends hstack hmem hpeek hstored hends), List.Subset.refl _, horder,
          hsearching.next hash rfl horder (hsearching.good.put (recursiveOrder_of_ends hdag.toStoredDag hends).symm)⟩
      · exact listed_of_opens hdag hstored hends
          (fun parent hparent => ih parent hparent (hdag.tips_stored hash hstored parent hparent)) hstack hopened hsearching
          hmem hpeek

theorem generateFullOrder_returns (hdag : RankedDag s) (tip : Hash) (hstored : s.hasBlockWithHash tip)
    (hgood : GoodOrders hdag.toStoredDag base baseHeight baseTopoHeight caches) :
    ∃ order caches' k, (∀ n, k ≤ n → generateFullOrder n s tip base baseHeight baseTopoHeight caches = .ok order caches') ∧
      order.elems = recursiveOrder hdag.toStoredDag base baseTopoHeight tip ∧
      GoodOrders hdag.toStoredDag base baseHeight baseTopoHeight caches' := by
  have hstart : Searching hdag.toStoredDag base baseHeight baseTopoHeight [] { stack := [tip] } caches :=
    ⟨Lib.PostOrder.downward_nil, fun _ hz => absurd hz List.not_mem_nil, hgood⟩
  obtain ⟨⟨after, caches₁⟩, hstack, hlists⟩ := listed_of_stored hdag tip hstored { stack := [tip] } caches [] [] rfl
    (fun _ hz => absurd hz List.not_mem_nil) hstart
  have hlast : generateFullOrderTurn s base baseHeight baseTopoHeight after caches₁ = .ok (.inr after.fullOrder) caches₁ := by
    unfold generateFullOrderTurn
    rw [show after.stack = [] from hstack]
    rfl
  obtain ⟨k, hk⟩ := hlists.leads.returns hlast
  refine ⟨after.fullOrder, _, k, fun n hn => ?_, hlists.order, hlists.searching.good.put hlists.order⟩
  unfold generateFullOrder
  rw [Exec.bind_apply, hk n hn]
  rfl

end Search

section Correctness

variable {s : Storage P} {base : Hash} {baseTopoHeight : TopoHeight}

def OrderedAt (s : Storage P) (hash : Hash) (topoheight : TopoHeight) : Prop :=
  s.isBlockTopologicalOrdered hash = true ∧ s.topoByHash[hash]? = some topoheight

def FollowsParent (s : Storage P) (base : Hash) (baseTopoHeight : TopoHeight) (hash parent : Hash) : Prop :=
  hash ≠ base ∧ parent ∈ parents s hash ∧ (parent = base ∨ s.isBlockTopologicalOrdered parent = false ∨
    ∃ topoheight, OrderedAt s parent topoheight ∧ baseTopoHeight ≤ topoheight)

theorem aboveBase_iff (hash : Hash) : aboveBase s baseTopoHeight hash ↔ s.isBlockTopologicalOrdered hash = false ∨
    ∃ topoheight, OrderedAt s hash topoheight ∧ baseTopoHeight ≤ topoheight := by
  unfold aboveBase OrderedAt
  cases htopo : s.topoByHash[hash]? with
  | none => simp [Storage.isBlockTopologicalOrdered, htopo]
  | some topoheight => cases s.isBlockTopologicalOrdered hash <;> simp

theorem not_aboveBase_of_ordered_below {topoheight : TopoHeight} (h : OrderedAt s hash topoheight)
    (hlt : topoheight < baseTopoHeight) : ¬ aboveBase s baseTopoHeight hash := by
  rw [aboveBase_iff]
  rintro (hnot | ⟨topoheight', hat, hle⟩)
  · exact absurd (h.1.symm.trans hnot) (by decide)
  · obtain rfl : topoheight = topoheight' := Option.some.inj (h.2.symm.trans hat.2)
    exact absurd hle (Nat.not_le_of_lt hlt)

theorem mem_orderedParents_iff_follows (hbase : OrderedAt s base baseTopoHeight) (hash parent : Hash) :
    parent ∈ orderedParents s base baseTopoHeight hash ↔ FollowsParent s base baseTopoHeight hash parent := by
  rw [mem_orderedParents_iff, aboveBase_iff]
  constructor
  · rintro ⟨hne, hparent, habove⟩
    exact ⟨hne, hparent, .inr habove⟩
  · rintro ⟨hne, hparent, rfl | habove⟩
    · exact ⟨hne, hparent, .inr ⟨baseTopoHeight, hbase, le_rfl⟩⟩
    · exact ⟨hne, hparent, habove⟩

theorem aboveBase_of_listed (hdag : StoredDag s)
    (hhash : hash ∈ recursiveOrder hdag base baseTopoHeight tip) (hparent : parent ∈ parents s hash)
    (hlisted : parent ∈ recursiveOrder hdag base baseTopoHeight tip) : aboveBase s baseTopoHeight parent := by
  have hdown : ∀ {x y : Hash}, Relation.ReflTransGen (fun x y => y ∈ orderedParents s base baseTopoHeight x) x y →
      Relation.ReflTransGen (fun x y => y ∈ parents s x) x y := fun h =>
    Relation.ReflTransGen.mono (fun _ _ hy => ((mem_orderedParents_iff _).mp hy).2.1) _ _ h
  rcases Relation.ReflTransGen.cases_tail ((Lib.PostOrder.mem_postOrder_iff tip parent).mp hlisted) with rfl | ⟨z, -, hz⟩
  · -- the tip itself is no parent of a block behind it
    have hreach := hdown ((Lib.PostOrder.mem_postOrder_iff parent hash).mp hhash)
    exact absurd (Relation.TransGen.tail' hreach hparent) (hdag.acyclic parent)
  · exact ((mem_orderedParents_iff parent).mp hz).2.2

/-- From empty caches the order of a tip ends with it, has every block once and behind its parents, and holds what the
tip leads to without passing the base or a block ordered below it: it is the order of the recursive search.
Behind the base no parent is looked at: it stands behind its own parents when these are ordered below it. -/
theorem generateFullOrder_correct (hdag : RankedDag s) (hbase : OrderedAt s base baseTopoHeight) (baseHeight : Nat) (tip : Hash)
    (hstored : s.hasBlockWithHash tip) :
    ∃ order caches k, (∀ n, k ≤ n → generateFullOrder n s tip base baseHeight baseTopoHeight {} = .ok order caches) ∧
      order.elems.Nodup ∧ order.elems.getLast? = some tip ∧
      (∀ before block after, order.elems = before ++ block :: after →
        (block = base → ∀ parent ∈ parents s base, ∃ topoheight, OrderedAt s parent topoheight ∧ topoheight < baseTopoHeight) →
        ∀ parent ∈ parents s block, parent ∈ order.elems → parent ∈ before) ∧
      (∀ hash, hash ∈ order.elems ↔ Relation.ReflTransGen (FollowsParent s base baseTopoHeight) tip hash) ∧
      order.elems = recursiveOrder hdag.toStoredDag base baseTopoHeight tip := by
  have hgood : GoodOrders hdag.toStoredDag base baseHeight baseTopoHeight {} := fun _ he => absurd he List.not_mem_nil
  obtain ⟨order, caches, k, hreturns, horder, -⟩ := generateFullOrder_returns hdag tip hstored hgood
  refine ⟨order, caches, k, hreturns, order.nodup, ?_, ?_, ?_, horder⟩
  · rw [horder]
    exact Lib.PostOrder.getLast?_postOrder List.not_mem_nil
  · intro before block after heq hblock parent hparent hlisted
    have hmem : block ∈ order.elems := heq ▸ List.mem_append_right _ List.mem_cons_self
    have habove : aboveBase s baseTopoHeight parent :=
      aboveBase_of_listed hdag.toStoredDag (horder ▸ hmem) hparent (horder ▸ hlisted)
    have hdown : Lib.PostOrder.Downward (orderedParents s base baseTopoHeight) order.elems :=
      horder ▸ Lib.PostOrder.downward_nil.postOrder tip
    refine hdown before block after heq parent ((mem_orderedParents_iff parent).mpr ⟨fun hbase => ?_, hparent, habove⟩)
    subst hbase
    obtain ⟨topoheight, hat, hlt⟩ := hblock rfl parent hparent
    exact not_aboveBase_of_ordered_below hat hlt habove
  · intro hash
    rw [horder, recursiveOrder, Lib.PostOrder.mem_postOrder_iff]
    have hsame : (fun x y => y ∈ orderedParents s base baseTopoHeight x) = FollowsParent s base baseTopoHeight :=
      funext₂ (fun x y => propext (mem_orderedParents_iff_follows hbase x y))
    rw [hsame]

/-- Two blocks above the block 1, which is the base, and the block 4 above both. -/
def orderedDiamond : Storage Unit :=
  withOrder (storedBlocks [(0, []), (1, [0]), (2, [1]), (3, [1]), (4, [2, 3])]) [(0, 0), (1, 1)]

/-- The order above the base of a diamond, which ends with the block on top. -/
theorem generateFullOrder_orderedDiamond : ∃ order caches k,
    (∀ n, k ≤ n → generateFullOrder n orderedDiamond 4 1 1 1 {} = .ok order caches) ∧
      order.elems.getLast? = some 4 := by
  have hdag : RankedDag orderedDiamond := (storedBlocks_rankedDag (by decide +kernel)).withOrder _
  have hbase : OrderedAt orderedDiamond 1 1 := ⟨by decide +kernel, by decide +kernel⟩
  obtain ⟨order, caches, k, hreturns, -, hlast, -⟩ := generateFullOrder_correct hdag hbase 1 4 (by decide +kernel)
  exact ⟨order, caches, k, hreturns, hlast⟩

def orderOf : EStateM.Result (Halt BlockchainError) DagCaches (IndexSet Hash) → Option (List Hash)
  | .ok order _ => some order.elems
  | .error _ _ => none

/-- A run with a small budget shows the order of every larger one. -/
theorem orderOf_eq_of_returns {s : Storage P} {baseHeight n k : Nat} {start caches : DagCaches}
    {elems : List Hash} (hrun : orderOf (generateFullOrder n s tip base baseHeight baseTopoHeight start) = some elems)
    (hreturns : ∀ n, k ≤ n → generateFullOrder n s tip base baseHeight baseTopoHeight start = .ok order caches) :
    order.elems = elems := by
  cases hn : generateFullOrder n s tip base baseHeight baseTopoHeight start with
  | error e caches' =>
    rw [hn] at hrun
    cases hrun
  | ok order' caches' =>
    have hmono : generateFullOrder (max n k) s tip base baseHeight baseTopoHeight start = .ok order' caches' := by
      obtain ⟨order₁, caches₁, hloop, hrest⟩ := Exec.bind_ok_iff.mp hn
      exact Exec.bind_ok_iff.mpr ⟨order₁, caches₁, Lib.Loop.run_mono hloop (le_max_left n k), hrest⟩
    rw [hreturns (max n k) (le_max_right n k)] at hmono
    rw [hn] at hrun
    cases hmono
    exact Option.some.inj hrun

/-- The base 3 is ordered although its parent 1 is not, and block 2 leads to the parent as well. -/
def unorderedParent : Storage Unit :=
  withOrder (storedBlocks [(0, []), (1, [0]), (2, [1]), (3, [1]), (4, [2, 3])]) [(0, 0), (3, 1)]

/-- The base comes before its parent 1, which the order holds too. -/
theorem base_before_parent : RankedDag unorderedParent ∧ OrderedAt unorderedParent 3 1 ∧
    unorderedParent.hasBlockWithHash 4 ∧ 1 ∈ parents unorderedParent 3 ∧
    ∃ order caches k, (∀ n, k ≤ n → generateFullOrder n unorderedParent 4 3 1 1 {} = .ok order caches) ∧
      order.elems = [3, 1, 2, 4] := by
  have hdag : RankedDag unorderedParent := (storedBlocks_rankedDag (by decide +kernel)).withOrder _
  have hbase : OrderedAt unorderedParent 3 1 := ⟨by decide +kernel, by decide +kernel⟩
  have hstored : unorderedParent.hasBlockWithHash 4 = true := by decide +kernel
  refine ⟨hdag, hbase, hstored, ?_, ?_⟩
  · rw [show parents unorderedParent 3 = [1] by decide +kernel]
    exact List.mem_singleton_self 1
  · obtain ⟨order, caches, k, hreturns, -⟩ := generateFullOrder_correct hdag hbase 1 4 hstored
    refine ⟨order, caches, k, hreturns, ?_⟩
    exact orderOf_eq_of_returns (n := 20) (by decide +kernel) hreturns

end Correctness

end Xelis.Blockchain
