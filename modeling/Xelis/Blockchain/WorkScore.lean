import Mathlib.Algebra.Order.BigOperators.Group.Finset
import Xelis.Blockchain.Tips
import Xelis.Lib.Marking

/-! The work behind a tip: the blocks between it and the base, each counted once. -/

namespace Xelis.Blockchain

open Lib (Exec FiniteMap Lru)
open Lib.Marking (Grown Marks Turns enter push)

variable {P τ : Type}
variable {parent ancestor tip : Hash}

section Specification

/-- A graph of stored blocks that all have a difficulty, too. -/
structure WeightedDag (s : Storage P) : Prop extends RankedDag s where
  weighed : ∀ hash, s.hasBlockWithHash hash → ∃ difficulty, s.difficulty[hash]? = some difficulty

def difficultyOf (s : Storage P) (hash : Hash) : Nat := s.difficulty[hash]?.getD 0

def LeadsAbove (s : Storage P) (baseTopoheight : TopoHeight) (hash parent : Hash) : Prop :=
  parent ∈ parents s hash ∧ (s.isBlockTopologicalOrdered parent = false ∨
    ∃ topoheight, OrderedAt s parent topoheight ∧ baseTopoheight ≤ topoheight)

/-- The tip, the base, and what the tip leads to above the base. -/
noncomputable def workSet (s : Storage P) (base : Hash) (baseTopoheight : TopoHeight) (hash : Hash) : Finset Hash :=
  (Set.toFinite {y | y = hash ∨ y = base ∨ Relation.TransGen (LeadsAbove s baseTopoheight) hash y}).toFinset

/-- The base stands for all the work behind it, unless it is the tip itself. -/
def workOf (s : Storage P) (base hash y : Hash) : Nat :=
  if y = base ∧ base ≠ hash then cumulativeDifficultyOf s y else difficultyOf s y

noncomputable def tipWorkScore (s : Storage P) (base : Hash) (baseTopoheight : TopoHeight) (hash : Hash) : Finset Hash × Nat :=
  (workSet s base baseTopoheight hash, ∑ y ∈ workSet s base baseTopoheight hash, workOf s base hash y)

variable {s : Storage P} {base hash : Hash} {baseTopoheight : TopoHeight}

theorem mem_workSet (y : Hash) : y ∈ workSet s base baseTopoheight hash ↔
    y = hash ∨ y = base ∨ Relation.TransGen (LeadsAbove s baseTopoheight) hash y := by
  simp [workSet]

theorem LeadsAbove.stored (hdag : StoredDag s) (h : LeadsAbove s baseTopoheight hash parent)
    (hstored : s.hasBlockWithHash hash) : s.hasBlockWithHash parent := hdag.tips_stored hash hstored parent h.1

theorem stored_of_leadsAbove (hdag : StoredDag s) (h : Relation.TransGen (LeadsAbove s baseTopoheight) hash ancestor)
    (hstored : s.hasBlockWithHash hash) : s.hasBlockWithHash ancestor := by
  induction h with
  | single h => exact h.stored hdag hstored
  | tail _ h ih => exact h.stored hdag ih

theorem not_leadsAbove_self (hdag : StoredDag s) (hash : Hash) : ¬ Relation.TransGen (LeadsAbove s baseTopoheight) hash hash :=
  fun h => hdag.acyclic hash (Relation.TransGen.mono (fun _ _ h => h.1) _ _ h)

theorem tipWorkScore_lt (hdag : StoredDag s) (hreach : Relation.TransGen (LeadsAbove s baseTopoheight) hash ancestor)
    (hancestor : ancestor ≠ base) (hhash : hash ≠ base) (hpos : 0 < difficultyOf s hash) :
    (tipWorkScore s base baseTopoheight ancestor).2 < (tipWorkScore s base baseTopoheight hash).2 := by
  have hsubset : workSet s base baseTopoheight ancestor ⊆ workSet s base baseTopoheight hash := by
    intro y hy
    rw [mem_workSet] at hy ⊢
    rcases hy with rfl | rfl | hy
    · exact .inr (.inr hreach)
    · exact .inr (.inl rfl)
    · exact .inr (.inr (hreach.trans hy))
  have hnot : hash ∉ workSet s base baseTopoheight ancestor := by
    rw [mem_workSet]
    rintro (rfl | rfl | hback)
    · exact not_leadsAbove_self hdag _ hreach
    · exact hhash rfl
    · exact not_leadsAbove_self hdag _ (hreach.trans hback)
  have hsame : ∀ y, workOf s base ancestor y = workOf s base hash y := by
    intro y
    unfold workOf
    simp [hancestor.symm, hhash.symm]
  have hown : 0 < workOf s base hash hash := by
    unfold workOf
    rwa [if_neg (fun h => hhash h.1)]
  show ∑ y ∈ _, workOf s base ancestor y < ∑ y ∈ _, workOf s base hash y
  rw [Finset.sum_congr rfl (fun y _ => hsame y)]
  exact Finset.sum_lt_sum_of_subset hsubset ((mem_workSet hash).mpr (.inl rfl)) hnot hown (fun _ _ _ => Nat.zero_le _)

end Specification

variable {starts : List Hash} {map weighed : FiniteMap Hash Nat}

section Search

variable {s : Storage P} {base hash : Hash} {baseTopoheight : TopoHeight}

def parentsAboveBase (s : Storage P) (baseTopoheight : TopoHeight) (hash : Hash) : List Hash :=
  (parents s hash).filter (aboveBase s baseTopoheight)

theorem mem_parentsAboveBase_iff (tip : Hash) : tip ∈ parentsAboveBase s baseTopoheight hash ↔ LeadsAbove s baseTopoheight hash tip := by
  rw [parentsAboveBase, List.mem_filter, aboveBase_iff]
  rfl

theorem parentsAboveBase_wellFounded (hdag : StoredDag s) (baseTopoheight : TopoHeight) :
    WellFounded (fun y x => y ∈ parentsAboveBase s baseTopoheight x) :=
  Subrelation.wf (fun hy => List.mem_of_mem_filter hy) hdag.wellFounded

theorem leadsAbove_iff (y : Hash) : Relation.TransGen (LeadsAbove s baseTopoheight) hash y ↔
    ∃ tip ∈ parentsAboveBase s baseTopoheight hash,
      Relation.ReflTransGen (fun x y => y ∈ parentsAboveBase s baseTopoheight x) tip y := by
  have hsame : (fun x y => y ∈ parentsAboveBase s baseTopoheight x) = LeadsAbove s baseTopoheight :=
    funext₂ (fun x y => propext (mem_parentsAboveBase_iff y))
  rw [hsame, Relation.TransGen.head'_iff]
  exact exists_congr (fun tip => and_congr_left' (mem_parentsAboveBase_iff tip).symm)

theorem getDifficultyForBlockHash_eq (hdag : WeightedDag s) (hstored : s.hasBlockWithHash hash) :
    s.getDifficultyForBlockHash hash = .ok (difficultyOf s hash) := by
  obtain ⟨difficulty, hdifficulty⟩ := hdag.weighed hash hstored
  unfold Storage.getDifficultyForBlockHash difficultyOf
  rw [hdifficulty]
  rfl

theorem pushAboveBase_eq (map : FiniteMap Hash Nat) (tips stack : List Hash) :
    pushAboveBase s baseTopoheight map tips stack =
      .ok (((tips.filter (aboveBase s baseTopoheight)).filter (fun tip => !map.contains tip)).reverse ++ stack) := by
  unfold pushAboveBase
  simp only [isAboveBase_eq]
  induction tips generalizing stack with
  | nil => rfl
  | cons tip tips ih =>
    rw [List.foldlM_cons]
    cases hcontains : map.contains tip with
    | true =>
      refine (ih stack).trans ?_
      cases habove : aboveBase s baseTopoheight tip <;> simp [habove, hcontains]
    | false =>
      cases habove : aboveBase s baseTopoheight tip with
      | true =>
        refine (ih (tip :: stack)).trans ?_
        simp [habove, hcontains]
      | false =>
        refine (ih stack).trans ?_
        simp [habove]

/-- The loop is a search that marks blocks with their difficulty. -/
theorem findTipWorkScoreTurn_turns (hdag : WeightedDag s) (baseTopoheight : TopoHeight) :
    Turns (parentsAboveBase s baseTopoheight) (difficultyOf s) (fun hash => s.hasBlockWithHash hash)
      (findTipWorkScoreTurn (τ := τ) s baseTopoheight) := by
  intro hash hstored map stack t
  have hturn : findTipWorkScoreTurn (τ := τ) s baseTopoheight (map, hash :: stack) =
      pure (.inl (enter (difficultyOf s) map hash, push (parentsAboveBase s baseTopoheight) map hash stack)) := by
    simp only [findTipWorkScoreTurn]
    rw [getPastBlocksForBlockHash_eq hstored, Exec.attempt_ok, pure_bind, pushAboveBase_eq, Exec.attempt_ok, pure_bind,
      getDifficultyForBlockHash_eq hdag hstored, Exec.attempt_ok]
    unfold enter push
    split
    · rfl
    · rfl
  rw [hturn]
  rfl

theorem findTipWorkScoreInternal_returns (hdag : WeightedDag s) (baseTopoheight : TopoHeight) (hstored : s.hasBlockWithHash hash) (map : FiniteMap Hash Nat) (t : τ) :
    ∃ map' k, (∀ n, k ≤ n → findTipWorkScoreInternal n s baseTopoheight map hash t = .ok map' t) ∧
      Grown (parentsAboveBase s baseTopoheight) (difficultyOf s) [hash] map map' := by
  obtain ⟨map', hleads, hgrown⟩ := Lib.Marking.leads_grown (parentsAboveBase_wellFounded hdag.toStoredDag baseTopoheight)
    (fun x hx y hy => hdag.tips_stored x hx y (List.mem_of_mem_filter hy)) (findTipWorkScoreTurn_turns hdag baseTopoheight)
    hash hstored t map []
  have hlast : findTipWorkScoreTurn s baseTopoheight (map', []) t = .ok (.inr map') t := rfl
  obtain ⟨k, hk⟩ := hleads.returns hlast
  exact ⟨map', k, hk, hgrown⟩

/-- A parent of the tip that counts gets its mark, and what it leads to. -/
theorem scoreBehind_returns (hdag : WeightedDag s) (hstored : s.hasBlockWithHash tip) (t : τ)
    (hmarks : Marks (parentsAboveBase s baseTopoheight) (difficultyOf s) starts map) :
    ∃ map' k, (∀ n, k ≤ n → scoreBehind n s baseTopoheight map tip t = .ok map' t) ∧
      Marks (parentsAboveBase s baseTopoheight) (difficultyOf s)
        (if aboveBase s baseTopoheight tip then tip :: starts else starts) map' := by
  unfold scoreBehind
  by_cases hcontains : map.contains tip
  · refine ⟨map, 0, fun n _ => ?_, ?_⟩
    · rw [if_pos hcontains]
      rfl
    · split
      · exact hmarks.cons_of_mem (Std.ExtTreeMap.mem_iff_contains.mpr hcontains)
      · exact hmarks
  simp only [if_neg hcontains, isAboveBase_eq, Exec.attempt_ok, pure_bind]
  by_cases habove : aboveBase s baseTopoheight tip
  · obtain ⟨map', k, hk, hgrown⟩ := findTipWorkScoreInternal_returns hdag baseTopoheight hstored map t
    simp only [if_pos habove]
    exact ⟨map', k, hk, hmarks.grown hgrown⟩
  · simp only [if_neg habove]
    exact ⟨map, 0, fun _ _ => rfl, hmarks⟩

theorem foldlM_scoreBehind (hdag : WeightedDag s) (baseTopoheight : TopoHeight) (tips : List Hash) (hstored : ∀ tip ∈ tips, s.hasBlockWithHash tip) (t : τ)
    (hmarks : Marks (parentsAboveBase s baseTopoheight) (difficultyOf s) starts map) :
    ∃ map' k, (∀ n, k ≤ n → tips.foldlM (scoreBehind n s baseTopoheight) map t = .ok map' t) ∧
      Marks (parentsAboveBase s baseTopoheight) (difficultyOf s)
        ((tips.filter (aboveBase s baseTopoheight)).reverse ++ starts) map' := by
  induction tips generalizing map starts with
  | nil => exact ⟨map, 0, fun _ _ => rfl, hmarks⟩
  | cons tip tips ih =>
    obtain ⟨map₁, k₁, hk₁, hmarks₁⟩ := scoreBehind_returns hdag (hstored tip List.mem_cons_self) t hmarks
    obtain ⟨map', k, hk, hmarks'⟩ := ih (fun tip htip => hstored tip (List.mem_cons_of_mem _ htip)) hmarks₁
    refine ⟨map', max k₁ k, fun n hn => ?_, ?_⟩
    · rw [List.foldlM_cons, Exec.bind_apply, hk₁ n (le_trans (le_max_left _ _) hn)]
      exact hk n (le_trans (le_max_right _ _) hn)
    · by_cases habove : aboveBase s baseTopoheight tip
      · rw [if_pos habove] at hmarks'
        rwa [List.filter_cons_of_pos habove, List.reverse_cons, List.append_assoc]
      · rw [if_neg habove] at hmarks'
        rwa [List.filter_cons_of_neg habove]

end Search

section Score

variable {s : Storage P} {base hash : Hash} {baseTopoheight : TopoHeight} {caches : DagCaches}

/-- What the cache knows of a tip and a base is the work between them. -/
def GoodScores (s : Storage P) (caches : DagCaches) : Prop :=
  caches.tipWorkScore.All (fun key score => ∀ baseTopoheight, s.topoByHash[key.2.1]? = some baseTopoheight →
    score = tipWorkScore s key.2.1 baseTopoheight key.1)

theorem score_of_marks (hmarks : Marks (parentsAboveBase s baseTopoheight) (difficultyOf s) starts map)
    (base : Hash) (hstarts : ∀ tip, tip ∈ starts ↔ tip ∈ parentsAboveBase s baseTopoheight hash)
    (hweighed : weighed = (if base ≠ hash then map.insert base (cumulativeDifficultyOf s base) else map).insert hash
      (difficultyOf s hash)) :
    (weighed.keys.toFinset, (weighed.toList.map Prod.snd).sum) = tipWorkScore s base baseTopoheight hash := by
  have hlookup : ∀ y, weighed[y]? = if y = hash then some (difficultyOf s hash)
      else if y = base then some (cumulativeDifficultyOf s base) else map[y]? := by
    intro y
    rw [hweighed]
    by_cases hy : y = hash
    · rw [if_pos hy, hy, FiniteMap.getElem?_insert_self']
    rw [if_neg hy, FiniteMap.getElem?_insert_of_ne _ _ (Ne.symm hy)]
    by_cases hbase : y = base
    · subst hbase
      rw [if_pos rfl, if_pos hy, FiniteMap.getElem?_insert_self']
    rw [if_neg hbase]
    split
    · rw [FiniteMap.getElem?_insert_of_ne _ _ (Ne.symm hbase)]
    · rfl
  have hmem : ∀ y, y ∈ weighed.keys.toFinset ↔ y ∈ workSet s base baseTopoheight hash := by
    intro y
    rw [List.mem_toFinset, Std.ExtTreeMap.mem_keys, Std.ExtTreeMap.mem_iff_isSome_getElem?, hlookup, mem_workSet, leadsAbove_iff]
    by_cases hy : y = hash
    · simp [hy]
    by_cases hbase : y = base
    · rw [if_neg hy, if_pos hbase]
      simp [hbase]
    rw [if_neg hy, if_neg hbase, ← Std.ExtTreeMap.mem_iff_isSome_getElem?, hmarks.mem_iff]
    simp only [hstarts, hy, hbase, false_or]
  have hset : weighed.keys.toFinset = workSet s base baseTopoheight hash := Finset.ext hmem
  refine Prod.ext hset ?_
  show (weighed.toList.map Prod.snd).sum = ∑ y ∈ workSet s base baseTopoheight hash, workOf s base hash y
  rw [FiniteMap.sum_map_snd, hset]
  refine Finset.sum_congr rfl (fun y hy => ?_)
  rw [← hmem, List.mem_toFinset, Std.ExtTreeMap.mem_keys, Std.ExtTreeMap.mem_iff_isSome_getElem?] at hy
  rw [hlookup] at hy ⊢
  unfold workOf
  by_cases hhash : y = hash
  · subst hhash
    rw [if_pos rfl, if_neg (fun h => h.2 h.1.symm)]
    rfl
  rw [if_neg hhash] at hy ⊢
  by_cases hbase : y = base
  · subst hbase
    rw [if_pos rfl, if_pos ⟨rfl, hhash⟩]
    rfl
  rw [if_neg hbase] at hy ⊢
  rw [if_neg (fun h => hbase h.1)]
  obtain ⟨v, hv⟩ := Option.isSome_iff_exists.mp hy
  rw [hv, ((hmarks y v).mp hv).1]
  rfl

theorem findTipWorkScore_returns (hdag : WeightedDag s) (hstored : s.hasBlockWithHash hash) (hbase : s.hasBlockWithHash base)
    (htopo : s.topoByHash[base]? = some baseTopoheight) (baseHeight : Nat) (hgood : GoodScores s caches) :
    ∃ caches' k, (∀ n, k ≤ n →
        findTipWorkScore n s hash base baseHeight caches = .ok (tipWorkScore s base baseTopoheight hash) caches') ∧
      GoodScores s caches' := by
  cases hpeek : caches.tipWorkScore.peek (hash, base, baseHeight) with
  | some score =>
    refine ⟨{ caches with tipWorkScore := caches.tipWorkScore.touch (hash, base, baseHeight) }, 0, fun n _ => ?_, hgood.touch _⟩
    rw [← Lru.All.peek hgood hpeek baseTopoheight htopo]
    unfold findTipWorkScore tipWorkScoreOf
    rw [Exec.bind_apply]
    simp only [Exec.modifyGet_apply, hpeek]
    rfl
  | none =>
    obtain ⟨map, k, hk, hmarks⟩ := foldlM_scoreBehind hdag baseTopoheight (parents s hash)
      (hdag.tips_stored hash hstored) caches (Marks.empty _ _)
    have hstarts : ∀ tip, tip ∈ ((parents s hash).filter (aboveBase s baseTopoheight)).reverse ++ [] ↔
        tip ∈ parentsAboveBase s baseTopoheight hash := by simp [parentsAboveBase]
    have hscore := score_of_marks hmarks base hstarts rfl
    refine ⟨{ caches with tipWorkScore :=
      caches.tipWorkScore.put (hash, base, baseHeight) (tipWorkScore s base baseTopoheight hash) }, k, fun n hn => ?_, ?_⟩
    · unfold findTipWorkScore tipWorkScoreOf putTipWorkScore
      rw [Exec.bind_apply]
      simp only [Exec.modifyGet_apply, hpeek, Lru.touch_of_peek_none hpeek]
      rw [getPastBlocksForBlockHash_eq hstored, Exec.attempt_ok, pure_bind]
      unfold Storage.getTopoHeightForHash
      rw [htopo, Exec.attempt_ok, pure_bind, Exec.bind_apply, hk n hn, getDifficultyForBlockHash_eq hdag hstored,
        getCumulativeDifficultyForBlockHash_eq (hdag.ranked base hbase)]
      rw [← hscore]
      by_cases hne : base ≠ hash
      · simp only [if_pos hne]
        rfl
      · simp only [if_neg hne]
        rfl
    · refine Lru.All.put hgood ?_
      intro topoheight hat
      obtain rfl : baseTopoheight = topoheight := Option.some.inj (htopo.symm.trans hat)
      rfl

/-- The set of a tip other than the base is the tip, the base and what the tip leads to above the base, each counted
once, and an ancestor above the base has a smaller score. Fewer than 2^64 of them, each below
2^192, are added within 256 bits. -/
theorem findTipWorkScore_exact (hdag : WeightedDag s) (hstored : s.hasBlockWithHash hash) (hbase : s.hasBlockWithHash base)
    (htopo : s.topoByHash[base]? = some baseTopoheight) (hne : hash ≠ base) (baseHeight : Nat) (hgood : GoodScores s caches) :
    ∃ set score caches' k, (∀ n, k ≤ n → findTipWorkScore n s hash base baseHeight caches = .ok (set, score) caches') ∧
      GoodScores s caches' ∧
      (∀ y, y ∈ set ↔ y = hash ∨ y = base ∨ Relation.TransGen (LeadsAbove s baseTopoheight) hash y) ∧
      score = ∑ y ∈ set, (if y = base then cumulativeDifficultyOf s y else difficultyOf s y) ∧
      (set.card < 2 ^ 64 → (∀ y ∈ set, (if y = base then cumulativeDifficultyOf s y else difficultyOf s y) < 2 ^ 192) → score < 2 ^ 256) ∧
      ((∀ y, s.hasBlockWithHash y → 0 < difficultyOf s y) →
        ∀ ancestor, Relation.TransGen (LeadsAbove s baseTopoheight) hash ancestor → ancestor ≠ base →
        ∀ caches₁, GoodScores s caches₁ → ∃ set' score' caches₂ k',
          (∀ n, k' ≤ n → findTipWorkScore n s ancestor base baseHeight caches₁ = .ok (set', score') caches₂) ∧
          score' < score) := by
  obtain ⟨caches', k, hk, hgood'⟩ := findTipWorkScore_returns hdag hstored hbase htopo baseHeight hgood
  have hwork (y : Hash) : workOf s base hash y = if y = base then cumulativeDifficultyOf s y else difficultyOf s y := by
    simp only [workOf, hne.symm, ne_eq, not_false_eq_true, and_true]
  refine ⟨_, _, caches', k, hk, hgood', mem_workSet, Finset.sum_congr rfl fun y _ => hwork y, fun hcard hlt => ?_, ?_⟩
  · refine (Finset.sum_le_card_nsmul _ (workOf s base hash) (2 ^ 192) fun y hy => ?_).trans_lt ?_
    · exact (hwork y).trans_le (hlt y hy).le
    · rw [Nat.nsmul_eq_mul]
      exact (Nat.mul_lt_mul_of_pos_right hcard (by decide)).trans_eq (by norm_num)
  · intro hpos ancestor hreach hancestor caches₁ hgood₁
    have hstored' := stored_of_leadsAbove hdag.toStoredDag hreach hstored
    obtain ⟨caches₂, k', hk', -⟩ := findTipWorkScore_returns hdag hstored' hbase htopo baseHeight hgood₁
    exact ⟨_, _, caches₂, k', hk', tipWorkScore_lt hdag.toStoredDag hreach hancestor hne (hpos hash hstored)⟩

/-- Two blocks above the block 2, which is the base, and the block 5 above both. A block's difficulty is its cumulative one. -/
def weighedDiamond : Storage Unit :=
  let s := withOrder (storedBlocks [(1, []), (2, [1]), (3, [2]), (4, [2]), (5, [3, 4])]) [(1, 0), (2, 1)]
  { s with difficulty := s.cumulativeDifficulty }

theorem weighedDiamond_dag : WeightedDag weighedDiamond where
  toRankedDag := by
    have hdag : RankedDag (storedBlocks [(1, []), (2, [1]), (3, [2]), (4, [2]), (5, [3, 4])]) :=
      storedBlocks_rankedDag (by decide +kernel)
    exact ⟨⟨hdag.tips_stored, hdag.acyclic⟩, hdag.ranked⟩
  weighed hash hhash := ⟨_, cumulativeDifficulty_storedBlocks ((hasBlockWithHash_storedBlocks _ hash).mp hhash)⟩

theorem difficultyOf_weighedDiamond_pos (hash : Hash) (hstored : weighedDiamond.hasBlockWithHash hash) :
    0 < difficultyOf weighedDiamond hash := by
  have hmem := (hasBlockWithHash_storedBlocks _ hash).mp hstored
  have hdifficulty : difficultyOf weighedDiamond hash = hash.toNat := by
    unfold difficultyOf
    exact congrArg (·.getD 0) (cumulativeDifficulty_storedBlocks hmem)
  rw [hdifficulty]
  simp only [List.map_cons, List.map_nil, List.mem_cons, List.not_mem_nil, or_false] at hmem
  rcases hmem with rfl | rfl | rfl | rfl | rfl <;> decide

/-- The block on top of a diamond has more work behind it than a block of its sides. -/
theorem findTipWorkScore_weighedDiamond : ∃ set score caches k,
    (∀ n, k ≤ n → findTipWorkScore n weighedDiamond 5 2 1 {} = .ok (set, score) caches) ∧ 3 ∈ set ∧
      ∃ set' score' caches' k', (∀ n, k' ≤ n → findTipWorkScore n weighedDiamond 3 2 1 caches = .ok (set', score') caches') ∧
        score' < score := by
  have hgood : GoodScores weighedDiamond {} := fun _ he => absurd he List.not_mem_nil
  have hleads : LeadsAbove weighedDiamond 1 5 3 :=
    ⟨by rw [show parents weighedDiamond 5 = [3, 4] by decide +kernel]; exact List.mem_cons_self, .inl (by decide +kernel)⟩
  obtain ⟨set, score, caches, k, hk, hgood', hset, -, -, hancestor⟩ := findTipWorkScore_exact weighedDiamond_dag
    (by decide +kernel : weighedDiamond.hasBlockWithHash 5) (by decide +kernel : weighedDiamond.hasBlockWithHash 2)
    (by decide +kernel : weighedDiamond.topoByHash[(2 : Hash)]? = some 1) (by decide) 1 hgood
  exact ⟨set, score, caches, k, hk, (hset 3).mpr (.inr (.inr (.single hleads))),
    hancestor difficultyOf_weighedDiamond_pos 3 (.single hleads) (by decide) caches hgood'⟩

section BestTip

variable {tips : List Hash}

/-- A tip with the work between it and the base, as it is compared. -/
noncomputable def scored (s : Storage P) (base : Hash) (baseTopoheight : TopoHeight) (tip : Hash) : Hash × Nat :=
  (tip, (tipWorkScore s base baseTopoheight tip).2)

theorem mapM_findTipWorkScore (hdag : WeightedDag s) (hstored : ∀ tip ∈ tips, s.hasBlockWithHash tip) (hbase : s.hasBlockWithHash base)
    (htopo : s.topoByHash[base]? = some baseTopoheight) (baseHeight : Nat) (hgood : GoodScores s caches) :
    ∃ caches' k, (∀ n, k ≤ n →
        (tips.mapM fun hash => do return (hash, (← findTipWorkScore n s hash base baseHeight).2)) caches =
          .ok (tips.map (scored s base baseTopoheight)) caches') ∧
      GoodScores s caches' := by
  induction tips generalizing caches with
  | nil => exact ⟨caches, 0, fun n _ => rfl, hgood⟩
  | cons tip tips ih =>
    obtain ⟨caches₁, k₁, hscore, hgood₁⟩ := findTipWorkScore_returns hdag (hstored tip List.mem_cons_self) hbase htopo baseHeight hgood
    obtain ⟨caches₂, k₂, hscores, hgood₂⟩ := ih (fun other h => hstored other (List.mem_cons_of_mem _ h)) hgood₁
    refine ⟨caches₂, max k₁ k₂, fun n hn => ?_, hgood₂⟩
    rw [List.mapM_cons, Exec.bind_apply, Exec.bind_apply, hscore n (le_of_max_le_left hn)]
    dsimp only [Exec.pure_apply]
    rw [Exec.bind_apply, hscores n (le_of_max_le_right hn)]
    rfl

/-- The tip with the most work above the base is taken, and the one with the greatest hash among equals: neither the order in which
the tips come nor what the caches know makes a difference. -/
theorem findBestTip_exact (hdag : WeightedDag s) (hstored : ∀ tip ∈ tips, s.hasBlockWithHash tip) (hbase : s.hasBlockWithHash base)
    (htopo : s.topoByHash[base]? = some baseTopoheight) (hne : tips ≠ []) (baseHeight : Nat) :
    ∃ best ∈ tips, (∀ tip ∈ tips, ScoreLe (scored s base baseTopoheight tip) (scored s base baseTopoheight best)) ∧
      ∀ order caches, List.Perm order tips → GoodScores s caches →
        ∃ caches' k, (∀ n, k ≤ n → findBestTip n s order base baseHeight caches = .ok best caches') ∧ GoodScores s caches' := by
  have hperm : (sortDescendingByCumulativeDifficulty (tips.map (scored s base baseTopoheight))).Perm _ := List.perm_insertionSort _ _
  have hpairwise := pairwise_sortDescending (tips.map (scored s base baseTopoheight))
  cases hscores : sortDescendingByCumulativeDifficulty (tips.map (scored s base baseTopoheight)) with
  | nil =>
    rw [hscores] at hperm
    exact absurd (List.map_eq_nil_iff.mp hperm.nil_eq.symm) hne
  | cons first rest =>
    rw [hscores] at hperm hpairwise
    obtain ⟨best, hbest, rfl⟩ := List.mem_map.mp (hperm.mem_iff.mp List.mem_cons_self)
    refine ⟨best, hbest, fun tip htip => ?_, fun order caches horder hgood => ?_⟩
    · rcases List.mem_cons.mp (hperm.mem_iff.mpr (List.mem_map_of_mem htip)) with heq | hrest
      · rw [heq]
        exact (scoreLe_total _ _).elim id id
      · exact (List.pairwise_cons.mp hpairwise).1 _ hrest
    · obtain ⟨caches', k, hk, hgood'⟩ := mapM_findTipWorkScore hdag (fun tip htip => hstored tip (horder.mem_iff.mp htip)) hbase htopo
        baseHeight hgood
      refine ⟨caches', k, fun n hn => ?_, hgood'⟩
      unfold findBestTip
      rw [Exec.bind_apply, hk n hn]
      dsimp only
      rw [sortDescending_perm (horder.map _), hscores]
      rfl

theorem findBestTip_weighedDiamond : ∃ best, ∀ order : List Hash, order.Perm [3, 4] →
    ∃ caches k, ∀ n, k ≤ n → findBestTip n weighedDiamond order 2 1 {} = .ok best caches := by
  have hstored : ∀ tip ∈ ([3, 4] : List Hash), weighedDiamond.hasBlockWithHash tip :=
    List.forall_mem_cons.mpr ⟨by decide +kernel, List.forall_mem_singleton.mpr (by decide +kernel)⟩
  obtain ⟨best, hbest⟩ := findBestTip_exact weighedDiamond_dag hstored (by decide +kernel : weighedDiamond.hasBlockWithHash 2)
    (by decide +kernel : weighedDiamond.topoByHash[(2 : Hash)]? = some 1) (List.cons_ne_nil _ _) 1
  refine ⟨best, fun order horder => ?_⟩
  obtain ⟨caches, k, hk, hgood⟩ := hbest.2.2 order {} horder fun _ he => absurd he List.not_mem_nil
  exact ⟨caches, k, hk⟩

end BestTip

end Score

end Xelis.Blockchain
