import Xelis.Blockchain.Tips

namespace Xelis.Blockchain

variable {P : Type} {s : Storage P}

def HasHeight (s : Storage P) (hash : Hash) (height : Nat) : Prop := ∃ header, s.blocks[hash]? = some header ∧ header.height = height

/-- Every height up to that of a stored block has the list of its blocks, and all of these have a cumulative difficulty. -/
structure Leveled (s : Storage P) : Prop where
  listed : ∀ hash height, HasHeight s hash height → ∀ i ≤ height, ∃ hashes, s.blocksAtHeight[i]? = some hashes
  mem_iff : ∀ i hashes, s.blocksAtHeight[i]? = some hashes → ∀ hash, hash ∈ hashes ↔ HasHeight s hash i
  ranked : ∀ hash height, HasHeight s hash height → ∃ difficulty, s.cumulativeDifficulty[hash]? = some difficulty

/-- An ordered block of a height that has no less work behind it. -/
def HeavierAt (s : Storage P) (difficulty i : Nat) : Prop :=
  ∃ other, HasHeight s other i ∧ s.isBlockTopologicalOrdered other ∧ difficulty ≤ cumulativeDifficultyOf s other

/-- Deep enough, ordered, and no other block of the same height is. -/
structure SettledAlone (s : Storage P) (hash : Hash) (blockHeight height : Nat) : Prop where
  deep : blockHeight + STABLE_LIMIT ≤ height
  ordered : s.isBlockTopologicalOrdered hash
  alone : ∀ other, other ≠ hash → HasHeight s other blockHeight → s.isBlockTopologicalOrdered other = false

/-- The definition of a stable block: every ordered block of the heights below it, down to the limit, has less work behind it. -/
def SyncBlock (s : Storage P) (hash : Hash) (blockHeight height : Nat) : Prop :=
  SettledAlone s hash blockHeight height ∧
    ∀ i, max 1 (blockHeight - STABLE_LIMIT) ≤ i → i ≤ blockHeight - 1 → ∀ other, HasHeight s other i →
      s.isBlockTopologicalOrdered other → cumulativeDifficultyOf s other < cumulativeDifficultyOf s hash

variable {hash : Hash} {height i blockHeight : Nat}

theorem getBlocksAtHeight_eq (hleveled : Leveled s) (hheight : HasHeight s hash height) (hi : i ≤ height) :
    ∃ hashes, s.getBlocksAtHeight i = .ok hashes ∧ ∀ other, other ∈ hashes ↔ HasHeight s other i := by
  obtain ⟨hashes, hhashes⟩ := hleveled.listed hash height hheight i hi
  refine ⟨hashes, ?_, hleveled.mem_iff i hashes hhashes⟩
  unfold Storage.getBlocksAtHeight
  rw [hhashes]

theorem preBlocks_eq (hleveled : Leveled s) (hheight : HasHeight s hash height) (stablePoint n : Nat)
    (hn : n ≤ height) : ∃ blocks, preBlocks s stablePoint n = .ok blocks ∧
      ∀ other, other ∈ blocks ↔ ∃ i, stablePoint ≤ i ∧ 1 ≤ i ∧ i ≤ n ∧ HasHeight s other i := by
  induction n with
  | zero =>
    refine ⟨[], rfl, fun other => ⟨fun h => absurd h List.not_mem_nil, ?_⟩⟩
    rintro ⟨i, -, hpos, hle, -⟩
    omega
  | succ n ih =>
    rw [preBlocks]
    split
    · rename_i hpoint
      obtain ⟨hashes, hhashes, hmem⟩ := getBlocksAtHeight_eq hleveled hheight hn
      obtain ⟨blocks, hblocks, hmem'⟩ := ih (by omega)
      refine ⟨hashes ++ blocks, ?_, fun other => ?_⟩
      · rw [hhashes, hblocks]
        rfl
      · rw [List.mem_append, hmem, hmem']
        constructor
        · rintro (h | ⟨i, hi, hpos, hle, h⟩)
          · exact ⟨n + 1, hpoint, by omega, le_rfl, h⟩
          · exact ⟨i, hi, hpos, by omega, h⟩
        · rintro ⟨i, hi, hpos, hle, h⟩
          by_cases heq : i = n + 1
          · exact .inl (heq ▸ h)
          · exact .inr ⟨i, hi, hpos, by omega, h⟩
    · rename_i hpoint
      refine ⟨[], rfl, fun other => ⟨fun h => absurd h List.not_mem_nil, ?_⟩⟩
      rintro ⟨i, hi, -, hle, -⟩
      omega

theorem hasHeavier_eq (difficulty : Nat) (blocks : List Hash)
    (hranked : ∀ hash ∈ blocks, ∃ difficulty, s.cumulativeDifficulty[hash]? = some difficulty) :
    ∃ b, hasHeavier s difficulty blocks = .ok b ∧
      (b = true ↔ ∃ hash ∈ blocks, s.isBlockTopologicalOrdered hash ∧ difficulty ≤ cumulativeDifficultyOf s hash) := by
  induction blocks with
  | nil => exact ⟨false, rfl, by simp⟩
  | cons hash blocks ih =>
    obtain ⟨b, hb, hiff⟩ := ih (fun other hother => hranked other (List.mem_cons_of_mem _ hother))
    unfold hasHeavier at hb ⊢
    rw [List.anyM_cons, hb, getCumulativeDifficultyForBlockHash_eq (hranked hash List.mem_cons_self)]
    by_cases hordered : s.isBlockTopologicalOrdered hash
    · by_cases hle : difficulty ≤ cumulativeDifficultyOf s hash
      · refine ⟨true, by rw [if_pos hordered]; simp [Except.map, hle, bind, Except.bind, pure, Except.pure], ?_⟩
        simp [hordered, hle]
      · refine ⟨b, by rw [if_pos hordered]; simp [Except.map, hle, bind, Except.bind], ?_⟩
        rw [hiff]
        simp [hle]
    · refine ⟨b, by rw [if_neg hordered]; rfl, ?_⟩
      rw [hiff]
      simp [hordered]

/-- The lowest height that is looked at. Below the limit it is no longer a distance below the block. -/
def stablePointOf (blockHeight : Nat) : Nat :=
  if STABLE_LIMIT ≤ blockHeight then blockHeight - STABLE_LIMIT else STABLE_LIMIT - blockHeight

theorem isSyncBlockAtHeight_eq (hleveled : Leveled s) (hunpruned : s.prunedTopoheight = none)
    (hheight : HasHeight s hash blockHeight) (hpos : 1 ≤ blockHeight) (height : Nat) :
    ∃ b, isSyncBlockAtHeight s hash height = .ok b ∧ (b = true ↔ SettledAlone s hash blockHeight height ∧
      ∀ i, stablePointOf blockHeight ≤ i → 1 ≤ i → i ≤ blockHeight - 1 → ¬ HeavierAt s (cumulativeDifficultyOf s hash) i) := by
  have hread : s.getHeightForBlockHash hash = .ok blockHeight := by
    obtain ⟨header, hheader, rfl⟩ := hheight
    unfold Storage.getHeightForBlockHash Storage.getBlockHeaderByHash
    rw [hheader]
    rfl
  have hpruned : isPruned s hash = .ok false := by
    unfold isPruned
    rw [hunpruned]
  obtain ⟨tipsAtHeight, htips, hmem⟩ := getBlocksAtHeight_eq hleveled hheight le_rfl
  obtain ⟨blocks, hblocks, hmem'⟩ :=
    preBlocks_eq hleveled hheight (stablePointOf blockHeight) (blockHeight - 1) (by omega)
  obtain ⟨heavier, hheavier, hiff⟩ := hasHeavier_eq (s := s) (cumulativeDifficultyOf s hash) blocks (fun other hother => by
    obtain ⟨i, -, -, -, hi⟩ := (hmem' other).mp hother
    exact hleveled.ranked other i hi)
  have hsettled : SettledAlone s hash blockHeight height ↔
      ¬ (height < blockHeight + STABLE_LIMIT || !s.isBlockTopologicalOrdered hash) ∧
        ¬ tipsAtHeight.any (fun other => other ≠ hash && s.isBlockTopologicalOrdered other) := by
    simp only [Bool.or_eq_true, decide_eq_true_eq, Bool.not_eq_true', not_or, Nat.not_lt, Bool.not_eq_false, List.any_eq_true,
      Bool.and_eq_true, not_exists, not_and, Bool.not_eq_true]
    constructor
    · intro h
      exact ⟨⟨h.deep, h.ordered⟩, fun other hother hne => h.alone other hne ((hmem other).mp hother)⟩
    · rintro ⟨⟨hdeep, hordered⟩, halone⟩
      exact ⟨hdeep, hordered, fun other hne hother => halone other ((hmem other).mpr hother) hne⟩
  have hscan : heavier = false ↔ ∀ i, stablePointOf blockHeight ≤ i → 1 ≤ i → i ≤ blockHeight - 1 →
      ¬ HeavierAt s (cumulativeDifficultyOf s hash) i := by
    rw [← Bool.not_eq_true, hiff]
    constructor
    · rintro hnone i hi hone hle ⟨other, hother, hordered, hworth⟩
      exact hnone ⟨other, (hmem' other).mpr ⟨i, hi, hone, hle, hother⟩, hordered, hworth⟩
    · rintro hnone ⟨other, hother, hordered, hworth⟩
      obtain ⟨i, hi, hone, hle, hat⟩ := (hmem' other).mp hother
      exact hnone i hi hone hle ⟨other, hat, hordered, hworth⟩
  rw [hsettled, ← hscan]
  have hne : blockHeight ≠ 0 := by omega
  unfold isSyncBlockAtHeight
  simp only [hread, hpruned, htips, getCumulativeDifficultyForBlockHash_eq (hleveled.ranked hash blockHeight hheight), bind,
    Except.bind, pure, Except.pure, if_neg hne, Bool.false_eq_true, if_false]
  split
  · rename_i hshallow
    exact ⟨false, rfl, nofun, fun h => absurd hshallow h.1.1⟩
  rename_i hdeep
  split
  · rename_i hother
    exact ⟨false, rfl, nofun, fun h => absurd hother h.1.2⟩
  rename_i halone
  rw [show preBlocks s (if STABLE_LIMIT ≤ blockHeight then _ else _) (blockHeight - 1) = .ok blocks from hblocks]
  simp only [hheavier]
  refine ⟨!heavier, rfl, ?_⟩
  rw [Bool.not_eq_true']
  exact ⟨fun h => ⟨⟨hdeep, halone⟩, h⟩, fun h => h.2⟩

/-- Wherever an ordered block of a height that is not looked at has no less work behind it, another check refuses the block. -/
def MissedHeightsHarmless (s : Storage P) (hash : Hash) (blockHeight height : Nat) : Prop :=
  (∃ i, 1 ≤ i ∧ i < blockHeight ∧ i + blockHeight < STABLE_LIMIT ∧ HeavierAt s (cumulativeDifficultyOf s hash) i) →
    SettledAlone s hash blockHeight height →
      ∃ i, i < blockHeight ∧ STABLE_LIMIT ≤ i + blockHeight ∧ HeavierAt s (cumulativeDifficultyOf s hash) i

theorem forall_lighter_iff : (∀ other, HasHeight s other i → s.isBlockTopologicalOrdered other →
    cumulativeDifficultyOf s other < cumulativeDifficultyOf s hash) ↔ ¬ HeavierAt s (cumulativeDifficultyOf s hash) i := by
  unfold HeavierAt
  push Not
  rfl

theorem mem_window_of_le (h : STABLE_LIMIT ≤ blockHeight) :
    (max 1 (blockHeight - STABLE_LIMIT) ≤ i ∧ i ≤ blockHeight - 1) ↔
      (stablePointOf blockHeight ≤ i ∧ 1 ≤ i ∧ i ≤ blockHeight - 1) := by
  rw [stablePointOf, if_pos h]
  omega

/-- Below the limit, the heights of the definition are those that are looked at and the missed ones. -/
theorem mem_window_of_lt (h : blockHeight < STABLE_LIMIT) :
    (max 1 (blockHeight - STABLE_LIMIT) ≤ i ∧ i ≤ blockHeight - 1) ↔
      (stablePointOf blockHeight ≤ i ∧ 1 ≤ i ∧ i ≤ blockHeight - 1) ∨ (1 ≤ i ∧ i < blockHeight ∧ i + blockHeight < STABLE_LIMIT) := by
  rw [stablePointOf, if_neg (Nat.not_le_of_lt h)]
  omega

/-- On an unpruned chain the check agrees with the definition exactly when the missed heights do no harm. -/
theorem isSyncBlockAtHeight_exact (hleveled : Leveled s) (hunpruned : s.prunedTopoheight = none) {hash : Hash} {blockHeight : Nat}
    (hheight : HasHeight s hash blockHeight) (hpos : 1 ≤ blockHeight) (height : Nat) :
    (isSyncBlockAtHeight s hash height = .ok true ↔ SyncBlock s hash blockHeight height) ↔
      MissedHeightsHarmless s hash blockHeight height := by
  obtain ⟨b, hb, hiff⟩ := isSyncBlockAtHeight_eq hleveled hunpruned hheight hpos height
  have hok : isSyncBlockAtHeight s hash height = .ok true ↔ b = true := by
    rw [hb]
    exact ⟨fun h => Except.ok.inj h, fun h => congrArg Except.ok h⟩
  rw [hok, hiff]
  unfold SyncBlock MissedHeightsHarmless
  simp only [forall_lighter_iff]
  rcases Nat.lt_or_ge blockHeight STABLE_LIMIT with hlow | hhigh
  · have hpoint : ∀ i, stablePointOf blockHeight ≤ i ↔ STABLE_LIMIT ≤ i + blockHeight := by
      intro i
      rw [stablePointOf, if_neg (Nat.not_le_of_lt hlow)]
      omega
    have hpositive : ∀ i, i < blockHeight → STABLE_LIMIT ≤ i + blockHeight → 1 ≤ i := by omega
    constructor
    · intro hagree hmissed hsettled
      by_contra hnone
      push Not at hnone
      have hsync := hagree.mp ⟨hsettled, fun i hi _ hle => hnone i (by omega) ((hpoint i).mp hi)⟩
      obtain ⟨i, hone, hlt, hshort, hheavier⟩ := hmissed
      have hwindow := (mem_window_of_lt (i := i) hlow).mpr (.inr ⟨hone, hlt, hshort⟩)
      exact hsync.2 i hwindow.1 hwindow.2 hheavier
    · intro hharmless
      refine and_congr_right fun hsettled => ⟨fun hscanned i hi hle hheavier => ?_, fun hall i hi hone hle => ?_⟩
      · rcases (mem_window_of_lt hlow).mp ⟨hi, hle⟩ with ⟨hpt, hone, -⟩ | hmissed
        · exact hscanned i hpt hone hle hheavier
        · obtain ⟨j, hj, hjlimit, hjheavier⟩ := hharmless ⟨i, hmissed.1, hmissed.2.1, hmissed.2.2, hheavier⟩ hsettled
          exact hscanned j ((hpoint j).mpr hjlimit) (hpositive j hj hjlimit) (by omega) hjheavier
      · have hwindow := (mem_window_of_lt hlow).mpr (.inl ⟨hi, hone, hle⟩)
        exact hall i hwindow.1 hwindow.2
  · have hnone : ¬ ∃ i, 1 ≤ i ∧ i < blockHeight ∧ i + blockHeight < STABLE_LIMIT ∧
        HeavierAt s (cumulativeDifficultyOf s hash) i := by
      rintro ⟨i, -, -, hlt, -⟩
      omega
    refine iff_of_true ?_ (fun h => absurd h hnone)
    refine and_congr_right fun _ => ⟨fun hscanned i hi hle => ?_, fun hall i hi hone hle => ?_⟩
    · obtain ⟨hpt, hone, hle⟩ := (mem_window_of_le hhigh).mp ⟨hi, hle⟩
      exact hscanned i hpt hone hle
    · have hwindow := (mem_window_of_le hhigh).mpr ⟨hi, hone, hle⟩
      exact hall i hwindow.1 hwindow.2

/-- A block with its parents, its height and its cumulative difficulty. -/
structure LeveledBlock where
  hash : Hash
  tips : List Hash
  height : Nat
  cumulativeDifficulty : Nat

def storeLeveled (s : Storage Unit) (b : LeveledBlock) : Storage Unit :=
  { s with
    blocks := s.blocks.insert b.hash { headerWithTips b.tips with height := b.height }
    blocksAtHeight := s.blocksAtHeight.insert b.height (b.hash :: s.blocksAtHeight[b.height]?.getD [])
    cumulativeDifficulty := s.cumulativeDifficulty.insert b.hash b.cumulativeDifficulty }

/-- Whether every stored block is listed at its height, with lists of nothing else down to the height 0. -/
def checkLeveled (s : Storage Unit) : Bool :=
  s.blocks.toList.all (fun e => (List.range (e.2.height + 1)).all (fun i => s.blocksAtHeight.contains i) &&
    (s.blocksAtHeight[e.2.height]?.getD []).contains e.1 && s.cumulativeDifficulty.contains e.1) &&
  s.blocksAtHeight.toList.all (fun e => e.2.all (fun hash => (s.blocks[hash]?.map BlockHeader.height) == some e.1))

theorem leveled_of_check {s : Storage Unit} (h : checkLeveled s) : Leveled s := by
  unfold checkLeveled at h
  rw [Bool.and_eq_true, List.all_eq_true, List.all_eq_true] at h
  obtain ⟨hblocks, hlists⟩ := h
  have hblock : ∀ hash header, s.blocks[hash]? = some header → (∀ i ≤ header.height, i ∈ s.blocksAtHeight) ∧
      hash ∈ s.blocksAtHeight[header.height]?.getD [] ∧ hash ∈ s.cumulativeDifficulty := by
    intro hash header hheader
    have hentry := hblocks (hash, header) (Std.ExtTreeMap.mem_toList_iff_getElem?_eq_some.mpr hheader)
    simp only [Bool.and_eq_true, List.all_eq_true, List.mem_range, List.contains_iff_mem] at hentry
    exact ⟨fun i hi => Std.ExtTreeMap.mem_iff_contains.mpr (hentry.1.1 i (by omega)), hentry.1.2,
      Std.ExtTreeMap.mem_iff_contains.mpr hentry.2⟩
  refine ⟨?_, ?_, ?_⟩
  · rintro hash _ ⟨header, hheader, rfl⟩ i hi
    exact ⟨_, Std.ExtTreeMap.getElem?_eq_some_getElem ((hblock hash header hheader).1 i hi)⟩
  · intro i hashes hhashes hash
    constructor
    · intro hmem
      have hentry := hlists (i, hashes) (Std.ExtTreeMap.mem_toList_iff_getElem?_eq_some.mpr hhashes)
      have hheight := beq_iff_eq.mp (List.all_eq_true.mp hentry hash hmem)
      exact Option.map_eq_some_iff.mp hheight
    · rintro ⟨header, hheader, rfl⟩
      have hmem := (hblock hash header hheader).2.1
      rwa [hhashes] at hmem
  · rintro hash _ ⟨header, hheader, rfl⟩
    exact ⟨_, Std.ExtTreeMap.getElem?_eq_some_getElem (hblock hash header hheader).2.2⟩

/-- Three blocks of the height 1 and a block 4 on top of all of them, beside a chain whose block 7 is at the height 4 and has
as much work behind it. Block 8 takes both, and the chain goes on to the height 12. -/
def earlyBranches : Storage Unit :=
  let blocks : List LeveledBlock := [⟨0, [], 0, 1⟩, ⟨1, [0], 1, 2⟩, ⟨2, [0], 1, 2⟩, ⟨3, [0], 1, 2⟩, ⟨4, [3, 2, 1], 2, 5⟩, ⟨5, [1], 2, 3⟩,
    ⟨6, [5], 3, 4⟩, ⟨7, [6], 4, 5⟩, ⟨8, [7, 4], 5, 9⟩, ⟨9, [8], 6, 10⟩, ⟨10, [9], 7, 11⟩, ⟨11, [10], 8, 12⟩, ⟨12, [11], 9, 13⟩, ⟨13, [12], 10, 14⟩,
    ⟨14, [13], 11, 15⟩, ⟨15, [14], 12, 16⟩]
  withOrder (blocks.foldl storeLeveled {}) [(0, 0), (1, 1), (5, 2), (6, 3), (7, 4), (3, 5), (2, 6), (4, 7), (8, 8), (9, 9), (10, 10), (11, 11),
    (12, 12), (13, 13), (14, 14), (15, 15)]

theorem earlyBranches_leveled : Leveled earlyBranches := leveled_of_check (by decide +kernel)

theorem hasHeight_of_check {s : Storage Unit}
    (h : s.blocks[hash]?.map BlockHeader.height = some height) : HasHeight s hash height := Option.map_eq_some_iff.mp h

/-- Block 7 passes at the height 12, although the ordered block 4, two heights below it, has as much work behind it. -/
theorem earlyBranches_passes : Leveled earlyBranches ∧ earlyBranches.prunedTopoheight = none ∧ HasHeight earlyBranches 7 4 ∧
    isSyncBlockAtHeight earlyBranches 7 12 = .ok true ∧ ¬ SyncBlock earlyBranches 7 4 12 := by
  refine ⟨earlyBranches_leveled, rfl, hasHeight_of_check (by decide +kernel), by decide +kernel, ?_⟩
  intro hsync
  have hlt := hsync.2 2 (by decide) (by decide) 4 (hasHeight_of_check (by decide +kernel)) (by decide +kernel)
  exact absurd hlt (by decide +kernel)

/-- The check of block 10, at the height 7: no height is missed. -/
theorem isSyncBlockAtHeight_earlyBranches :
    (isSyncBlockAtHeight earlyBranches 10 15 = .ok true ↔ SyncBlock earlyBranches 10 7 15) ↔
      MissedHeightsHarmless earlyBranches 10 7 15 :=
  isSyncBlockAtHeight_exact earlyBranches_leveled rfl (hasHeight_of_check (by decide +kernel)) (by decide) 15

end Xelis.Blockchain
