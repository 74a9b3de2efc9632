import Xelis.Blockchain.FullOrder

namespace Xelis.Blockchain

open Lib (IndexSet)

variable {P : Type}

/-- The highest cumulative difficulty so far, and the tip it was met at first. -/
def selectHighest (s : Storage P) (best : Nat × Option Hash) (hash : Hash) : Except BlockchainError (Nat × Option Hash) := do
  let cumulativeDifficulty ← s.getCumulativeDifficultyForBlockHash hash
  return if best.1 < cumulativeDifficulty then (cumulativeDifficulty, some hash) else best

def findBestTipByCumulativeDifficulty (s : Storage P) (tips : List Hash) : Except BlockchainError Hash :=
  match tips with
  | [] => .error .expectedTips
  | [tip] => .ok tip
  | tips => do
    match (← tips.foldlM (selectHighest s) (0, none)).2 with
    | some tip => return tip
    | none => throw .expectedTips

def sortTips (s : Storage P) (tips : List Hash) : Except BlockchainError (IndexSet Hash) :=
  match tips with
  | [] => .error .expectedTips
  | [tip] => .ok (.single tip)
  | tips => do
    let scores ← tips.mapM (fun hash => do return (hash, ← s.getCumulativeDifficultyForBlockHash hash))
    return IndexSet.empty.extend ((sortDescendingByCumulativeDifficulty scores).map Prod.fst)

variable {tip other a b : Hash}

section Selection

variable {s : Storage P} {tips : List Hash}

def Ranked (s : Storage P) (tips : List Hash) : Prop := ∀ tip ∈ tips, ∃ difficulty, s.cumulativeDifficulty[tip]? = some difficulty

def scoreOf (s : Storage P) (tip : Hash) : Hash × Nat := (tip, cumulativeDifficultyOf s tip)

theorem Ranked.cons {tip : Hash} (h : Ranked s (tip :: tips)) :
    s.getCumulativeDifficultyForBlockHash tip = .ok (cumulativeDifficultyOf s tip) ∧ Ranked s tips :=
  ⟨getCumulativeDifficultyForBlockHash_eq (h tip List.mem_cons_self), fun tip htip => h tip (List.mem_cons_of_mem _ htip)⟩

def keepHighest (s : Storage P) (best : Nat × Option Hash) (tip : Hash) : Nat × Option Hash :=
  if best.1 < cumulativeDifficultyOf s tip then (cumulativeDifficultyOf s tip, some tip) else best

theorem foldlM_selectHighest (hranked : Ranked s tips) (best : Nat × Option Hash) :
    tips.foldlM (selectHighest s) best = .ok (tips.foldl (keepHighest s) best) := by
  induction tips generalizing best with
  | nil => rfl
  | cons tip tips ih =>
    obtain ⟨htip, hrest⟩ := hranked.cons
    rw [List.foldlM_cons, selectHighest, htip]
    exact ih hrest _

theorem mapM_scoreOf (hranked : Ranked s tips) :
    tips.mapM (fun hash => do return (hash, ← s.getCumulativeDifficultyForBlockHash hash)) = .ok (tips.map (scoreOf s)) := by
  induction tips with
  | nil => rfl
  | cons tip tips ih =>
    obtain ⟨htip, hrest⟩ := hranked.cons
    rw [List.mapM_cons, htip, ih hrest]
    rfl

/-- The tip that is kept is one of the tips, and none was met with more work. -/
structure Highest (s : Storage P) (seen : List Hash) (best : Nat × Option Hash) : Prop where
  le : ∀ tip ∈ seen, cumulativeDifficultyOf s tip ≤ best.1
  selected : ∀ tip, best.2 = some tip → tip ∈ seen ∧ cumulativeDifficultyOf s tip = best.1
  nothing : best.2 = none → best.1 = 0

theorem Highest.step {seen : List Hash} {best : Nat × Option Hash} (h : Highest s seen best) (tip : Hash) :
    Highest s (seen ++ [tip]) (keepHighest s best tip) := by
  unfold keepHighest
  split
  · rename_i hlt
    refine ⟨fun other hother => ?_, fun other hother => ?_, nofun⟩
    · rcases List.mem_append.mp hother with hother | hother
      · exact (h.le other hother).trans hlt.le
      · rw [List.mem_singleton.mp hother]
    · obtain rfl : tip = other := Option.some.inj hother
      exact ⟨by simp, rfl⟩
  · rename_i hle
    refine ⟨fun other hother => ?_, fun other hother => ?_, h.nothing⟩
    · rcases List.mem_append.mp hother with hother | hother
      · exact h.le other hother
      · rw [List.mem_singleton.mp hother]
        exact Nat.le_of_not_lt hle
    · exact ⟨List.mem_append_left _ (h.selected other hother).1, (h.selected other hother).2⟩

variable {seen order rest : List Hash}

theorem Highest.foldl {best : Nat × Option Hash} (h : Highest s seen best) (tips : List Hash) :
    Highest s (seen ++ tips) (tips.foldl (keepHighest s) best) := by
  induction tips generalizing seen best with
  | nil => rwa [List.append_nil]
  | cons tip tips ih =>
    rw [List.foldl_cons, ← List.singleton_append, ← List.append_assoc]
    exact ih (h.step tip)

/-- A tip with more work behind it than every other one. -/
def Outweighs (s : Storage P) (tips : List Hash) (best : Hash) : Prop :=
  best ∈ tips ∧ ∀ tip ∈ tips, tip ≠ best → cumulativeDifficultyOf s tip < cumulativeDifficultyOf s best

variable {best : Hash}

theorem Outweighs.perm (h : Outweighs s tips best) (hperm : order.Perm tips) : Outweighs s order best :=
  ⟨hperm.mem_iff.mpr h.1, fun tip htip => h.2 tip (hperm.mem_iff.mp htip)⟩

theorem Outweighs.eq (h : Outweighs s tips best) (htip : tip ∈ tips)
    (hle : cumulativeDifficultyOf s best ≤ cumulativeDifficultyOf s tip) : tip = best := by
  by_contra hne
  exact absurd (h.2 tip htip hne) (Nat.not_lt_of_le hle)

theorem findBestTip_eq (hranked : Ranked s tips) (hlen : 2 ≤ tips.length) :
    findBestTipByCumulativeDifficulty s tips = match (tips.foldl (keepHighest s) (0, none)).2 with
      | some tip => .ok tip
      | none => .error .expectedTips := by
  match tips, hlen with
  | tip :: other :: rest, _ =>
    show (tip :: other :: rest).foldlM (selectHighest s) (0, none) >>= _ = _
    rw [foldlM_selectHighest hranked]
    rfl

theorem findBestTip_of_outweighs (hranked : Ranked s tips) (hnodup : tips.Nodup) (h : Outweighs s tips best) :
    findBestTipByCumulativeDifficulty s tips = .ok best := by
  match tips, hnodup, h with
  | [tip], _, h => rw [List.mem_singleton.mp h.1]; rfl
  | tip :: other :: rest, hnodup, h =>
    have hstart : Highest s [] (0, none) := ⟨fun _ htip => absurd htip List.not_mem_nil, nofun, fun _ => rfl⟩
    have hhighest := hstart.foldl (tip :: other :: rest)
    rw [List.nil_append] at hhighest
    rw [findBestTip_eq hranked (by simp)]
    cases hselected : ((tip :: other :: rest).foldl (keepHighest s) (0, none)).2 with
    | some selected =>
      obtain ⟨hmem, hworth⟩ := hhighest.selected selected hselected
      rw [h.eq hmem (hworth ▸ hhighest.le best h.1)]
    | none =>
      -- some other tip has less work than the best one, whose work is therefore positive
      have hzero : cumulativeDifficultyOf s best = 0 :=
        Nat.eq_zero_of_le_zero (hhighest.nothing hselected ▸ hhighest.le best h.1)
      obtain ⟨lesser, hlesser, hne⟩ : ∃ lesser ∈ tip :: other :: rest, lesser ≠ best := by
        by_cases htip : tip = best
        · exact ⟨other, by simp, fun heq => by simp [htip, heq] at hnodup⟩
        · exact ⟨tip, List.mem_cons_self, htip⟩
      exact absurd (h.2 lesser hlesser hne) (by omega)

theorem findBestTip_of_first (hranked : Ranked s (tip :: other :: rest))
    (hgreatest : ∀ z ∈ other :: rest, cumulativeDifficultyOf s z ≤ cumulativeDifficultyOf s tip)
    (hpos : 0 < cumulativeDifficultyOf s tip) :
    findBestTipByCumulativeDifficulty s (tip :: other :: rest) = .ok tip := by
  have hkept : ∀ zs : List Hash, (∀ z ∈ zs, cumulativeDifficultyOf s z ≤ cumulativeDifficultyOf s tip) →
      zs.foldl (keepHighest s) (cumulativeDifficultyOf s tip, some tip) = (cumulativeDifficultyOf s tip, some tip) := by
    intro zs hzs
    induction zs with
    | nil => rfl
    | cons z zs ih =>
      rw [List.foldl_cons, keepHighest, if_neg (Nat.not_lt_of_le (hzs z List.mem_cons_self))]
      exact ih (fun z hz => hzs z (List.mem_cons_of_mem _ hz))
  rw [findBestTip_eq hranked (by simp), List.foldl_cons, keepHighest, if_pos hpos, hkept _ hgreatest]

/-- Without any work behind them, none of several tips is selected. -/
theorem findBestTip_of_zero (hranked : Ranked s tips) (hlen : 2 ≤ tips.length)
    (hzero : ∀ tip ∈ tips, cumulativeDifficultyOf s tip = 0) :
    findBestTipByCumulativeDifficulty s tips = .error .expectedTips := by
  have hnothing : ∀ zs : List Hash, (∀ z ∈ zs, cumulativeDifficultyOf s z = 0) → zs.foldl (keepHighest s) (0, none) = (0, none) := by
    intro zs hzs
    induction zs with
    | nil => rfl
    | cons z zs ih =>
      rw [List.foldl_cons, keepHighest, if_neg (by rw [hzs z List.mem_cons_self]; exact lt_irrefl 0)]
      exact ih (fun z hz => hzs z (List.mem_cons_of_mem _ hz))
  rw [findBestTip_eq hranked hlen, hnothing tips hzero]

end Selection

section Sorting

variable {s : Storage P} {tips : List Hash} {best : Hash}

theorem head?_sortDescending_of_outweighs (h : Outweighs s tips best) :
    (sortDescendingByCumulativeDifficulty (tips.map (scoreOf s))).head? = some (scoreOf s best) := by
  have hmem : ∀ score, score ∈ sortDescendingByCumulativeDifficulty (tips.map (scoreOf s)) ↔ ∃ tip ∈ tips, scoreOf s tip = score := by
    intro score
    rw [sortDescendingByCumulativeDifficulty, (List.perm_insertionSort _ _).mem_iff, List.mem_map]
  have hpairwise := pairwise_sortDescending (tips.map (scoreOf s))
  cases hsorted : sortDescendingByCumulativeDifficulty (tips.map (scoreOf s)) with
  | nil =>
    have hbest := (hmem (scoreOf s best)).mpr ⟨best, h.1, rfl⟩
    rw [hsorted] at hbest
    exact absurd hbest List.not_mem_nil
  | cons score rest =>
    rw [hsorted] at hmem hpairwise
    obtain ⟨tip, htip, rfl⟩ := (hmem score).mp List.mem_cons_self
    rcases List.mem_cons.mp ((hmem (scoreOf s best)).mpr ⟨best, h.1, rfl⟩) with heq | hbest
    · rw [heq]
      rfl
    · have hle := (List.pairwise_cons.mp hpairwise).1 _ hbest
      rw [scoreLe_iff] at hle
      have hworth : cumulativeDifficultyOf s best ≤ cumulativeDifficultyOf s tip := by
        rcases hle with hlt | ⟨heq, -⟩
        · exact hlt.le
        · exact heq.le
      rw [h.eq htip hworth]
      rfl

theorem sortTips_of_outweighs (hranked : Ranked s tips) (hnodup : tips.Nodup) (h : Outweighs s tips best) :
    ∃ sorted, sortTips s tips = .ok sorted ∧ sorted.elems.head? = some best := by
  match tips, hranked, hnodup, h with
  | [tip], _, _, h => exact ⟨.single tip, rfl, congrArg some (List.mem_singleton.mp h.1).symm⟩
  | tip :: other :: rest, hranked, hnodup, h =>
    let scores := sortDescendingByCumulativeDifficulty ((tip :: other :: rest).map (scoreOf s))
    have hperm : (scores.map Prod.fst).Perm (tip :: other :: rest) := by
      have hsort : scores.Perm ((tip :: other :: rest).map (scoreOf s)) := List.perm_insertionSort _ _
      have hfst : ((tip :: other :: rest).map (scoreOf s)).map Prod.fst = tip :: other :: rest := by
        rw [List.map_map]
        exact List.map_id _
      exact hfst ▸ hsort.map Prod.fst
    refine ⟨IndexSet.empty.extend (scores.map Prod.fst), ?_, ?_⟩
    · show ((tip :: other :: rest).mapM _) >>= _ = _
      rw [mapM_scoreOf hranked]
      rfl
    · rw [IndexSet.elems_extend _ (hperm.nodup_iff.mpr hnodup)]
      have hhead : scores.head? = some (scoreOf s best) := head?_sortDescending_of_outweighs h
      simp [IndexSet.empty, hhead, scoreOf]

/-- In every order in which the tips may come, the selected one and the first one of each sort are the same tip. -/
def AgreedBest (s : Storage P) (tips : List Hash) (best : Hash) : Prop :=
  ∀ order : List Hash, order.Perm tips →
    findBestTipByCumulativeDifficulty s order = .ok best ∧
    (∃ sorted, sortTips s order = .ok sorted ∧ sorted.elems.head? = some best) ∧
    (sortDescendingByCumulativeDifficulty (order.map (scoreOf s))).head? = some (scoreOf s best)

theorem exists_greatest (hne : tips ≠ []) : ∃ tip ∈ tips, ∀ other ∈ tips, cumulativeDifficultyOf s other ≤ cumulativeDifficultyOf s tip := by
  induction tips with
  | nil => exact absurd rfl hne
  | cons tip tips ih =>
    by_cases hnil : tips = []
    · subst hnil
      exact ⟨tip, List.mem_cons_self, by simp⟩
    · obtain ⟨greatest, hmem, hle⟩ := ih hnil
      rcases Nat.le_total (cumulativeDifficultyOf s greatest) (cumulativeDifficultyOf s tip) with h | h
      · refine ⟨tip, List.mem_cons_self, fun other hother => ?_⟩
        rcases List.mem_cons.mp hother with rfl | hother
        · exact le_rfl
        · exact (hle other hother).trans h
      · refine ⟨greatest, List.mem_cons_of_mem _ hmem, fun other hother => ?_⟩
        rcases List.mem_cons.mp hother with rfl | hother
        · exact h
        · exact hle other hother

/-- Two tips with the same greatest work: each of them is selected where it comes first. -/
theorem not_agreedBest_of_tie (hranked : Ranked s tips) (ha : a ∈ tips) (hb : b ∈ tips) (hne : a ≠ b)
    (hgreatest : ∀ tip ∈ tips, cumulativeDifficultyOf s tip ≤ cumulativeDifficultyOf s a)
    (htie : cumulativeDifficultyOf s b = cumulativeDifficultyOf s a) : ¬ AgreedBest s tips best := by
  intro hagreed
  have hb' : b ∈ tips.erase a := (List.mem_erase_of_ne hne.symm).mpr hb
  have hperm : (a :: b :: (tips.erase a).erase b).Perm tips :=
    ((List.perm_cons_erase hb').symm.cons a).trans (List.perm_cons_erase ha).symm
  have hperm' : (b :: a :: (tips.erase a).erase b).Perm tips := (List.Perm.swap a b _).trans hperm
  have hranked' : ∀ order : List Hash, order.Perm tips → Ranked s order := fun order h tip htip => hranked tip (h.mem_iff.mp htip)
  by_cases hpos : 0 < cumulativeDifficultyOf s a
  · have hfirst := findBestTip_of_first (hranked' _ hperm)
      (fun z hz => hgreatest z (hperm.mem_iff.mp (List.mem_cons_of_mem _ hz))) hpos
    have hsecond := findBestTip_of_first (hranked' _ hperm')
      (fun z hz => htie ▸ hgreatest z (hperm'.mem_iff.mp (List.mem_cons_of_mem _ hz))) (htie ▸ hpos)
    have heq : a = best := Except.ok.inj (hfirst.symm.trans (hagreed _ hperm).1)
    have heq' : b = best := Except.ok.inj (hsecond.symm.trans (hagreed _ hperm').1)
    exact hne (heq.trans heq'.symm)
  · have hnone := findBestTip_of_zero (hranked' _ hperm) (by simp)
      (fun z hz => Nat.eq_zero_of_le_zero ((hgreatest z (hperm.mem_iff.mp hz)).trans (Nat.le_of_not_lt hpos)))
    exact nomatch hnone.symm.trans (hagreed _ hperm).1

/-- The three selections agree in every order of the tips exactly when one tip has more work behind it than every other one. -/
theorem findBestTip_agrees_iff (hranked : Ranked s tips) (hnodup : tips.Nodup) (hne : tips ≠ []) :
    (∃ best, AgreedBest s tips best) ↔ ∃ best, Outweighs s tips best := by
  constructor
  · rintro ⟨best, hagreed⟩
    obtain ⟨a, ha, hgreatest⟩ := exists_greatest (s := s) hne
    refine ⟨a, ha, fun b hb hba => ?_⟩
    by_contra hnot
    have htie : cumulativeDifficultyOf s b = cumulativeDifficultyOf s a := le_antisymm (hgreatest b hb) (Nat.le_of_not_lt hnot)
    exact not_agreedBest_of_tie hranked ha hb (Ne.symm hba) hgreatest htie hagreed
  · rintro ⟨best, h⟩
    refine ⟨best, fun order hperm => ?_⟩
    have hranked' : Ranked s order := fun tip htip => hranked tip (hperm.mem_iff.mp htip)
    have hnodup' : order.Nodup := hperm.nodup_iff.mpr hnodup
    have h' := h.perm hperm
    exact ⟨findBestTip_of_outweighs hranked' hnodup' h', sortTips_of_outweighs hranked' hnodup' h',
      head?_sortDescending_of_outweighs h'⟩

/-- Two tips with as much work behind each of them. -/
def evenTips : Storage Unit :=
  let s := storedBlocks [(0, []), (1, [0]), (2, [0])]
  { s with cumulativeDifficulty := ((s.cumulativeDifficulty.insert 0 1).insert 1 2).insert 2 2 }

/-- Each of two tips of the same height and the same parent is selected where it comes first. -/
theorem evenTips_not_agreed : (∀ tip ∈ [(1 : Hash), 2], evenTips.hasBlockWithHash tip) ∧ ¬ ∃ best, AgreedBest evenTips [1, 2] best := by
  refine ⟨List.all_eq_true.mp (by decide +kernel : [(1 : Hash), 2].all evenTips.hasBlockWithHash), ?_⟩
  rintro ⟨best, hagreed⟩
  have hfirst : findBestTipByCumulativeDifficulty evenTips [1, 2] = .ok 1 := by decide +kernel
  have hsecond : findBestTipByCumulativeDifficulty evenTips [2, 1] = .ok 2 := by decide +kernel
  have heq : 1 = best := Except.ok.inj (hfirst.symm.trans (hagreed [1, 2] (.refl _)).1)
  have heq' : 2 = best := Except.ok.inj (hsecond.symm.trans (hagreed [2, 1] (.swap 1 2 [])).1)
  exact absurd (heq.trans heq'.symm) (by decide)

/-- With one tip ahead, the selections agree. -/
theorem findBestTip_agrees_storedBlocks :
    (∃ best, AgreedBest (storedBlocks [(0, []), (1, [0]), (2, [0])]) [1, 2] best) ↔
      ∃ best, Outweighs (storedBlocks [(0, []), (1, [0]), (2, [0])]) [1, 2] best := by
  refine findBestTip_agrees_iff (fun tip htip => ⟨_, cumulativeDifficulty_storedBlocks ?_⟩) (by decide) (by decide)
  rcases List.mem_cons.mp htip with rfl | htip
  · decide
  · rw [List.mem_singleton.mp htip]
    decide

end Sorting

end Xelis.Blockchain
