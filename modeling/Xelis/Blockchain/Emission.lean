import Mathlib.Data.Finset.Card
import Xelis.Blockchain.SyncBlock
import Xelis.Storage.RewindTop

/-! The reward of a block as a function of the heights of the ordered blocks, and what the storage computes for it. -/

namespace Xelis.Blockchain

section Order

variable (heights : Nat → Nat)

/-- A block is a side block when one of the blocks right before it in the order is not lower. The first place of the order
does not count. -/
def SideAt (t : Nat) : Prop := ∃ i < t, 0 < i ∧ t ≤ i + STABLE_LIMIT ∧ heights t ≤ heights i

instance (t : Nat) : Decidable (SideAt heights t) :=
  inferInstanceAs (Decidable (∃ i < t, 0 < i ∧ t ≤ i + STABLE_LIMIT ∧ heights t ≤ heights i))

def sidesBelow (height t : Nat) : Nat := ((Finset.range t).filter fun q => heights q = height ∧ SideAt heights q).card

def rewardAt (pastSupply t : Nat) : Nat := internalGetBlockReward pastSupply (decide (SideAt heights t)) (sidesBelow heights (heights t) t)

variable {heights}

theorem sidesBelow_succ (height t : Nat) : sidesBelow heights height (t + 1) =
    if heights t = height ∧ SideAt heights t then sidesBelow heights height t + 1 else sidesBelow heights height t := by
  have hfresh : t ∉ (Finset.range t).filter fun q => heights q = height ∧ SideAt heights q := by simp
  unfold sidesBelow
  rw [Finset.range_add_one, Finset.filter_insert]
  split
  · exact Finset.card_insert_of_notMem hfresh
  · rfl

variable {heights' : Nat → Nat} {t : Nat}

theorem sideAt_congr (h : ∀ q ≤ t, heights q = heights' q) : SideAt heights t ↔ SideAt heights' t := by
  unfold SideAt
  refine exists_congr fun i => and_congr_right fun hlt => ?_
  rw [h t le_rfl, h i hlt.le]

theorem sidesBelow_congr (h : ∀ q < t, heights q = heights' q) (height : Nat) :
    sidesBelow heights height t = sidesBelow heights' height t := by
  unfold sidesBelow
  refine congrArg Finset.card (Finset.filter_congr fun q hq => ?_)
  have hlt : q < t := Finset.mem_range.mp hq
  rw [h q hlt, sideAt_congr fun i hi => h i (hi.trans_lt hlt)]

theorem rewardAt_congr (h : ∀ q ≤ t, heights q = heights' q) (pastSupply : Nat) :
    rewardAt heights pastSupply t = rewardAt heights' pastSupply t := by
  unfold rewardAt
  rw [h t le_rfl, sidesBelow_congr fun q hq => h q hq.le, decide_eq_decide.mpr (sideAt_congr h)]

end Order

section Recount

variable {P : Type} {s : Storage P} {t : Nat}

def heightAt (s : Storage P) (t : TopoHeight) : Nat := ((s.hashAtTopo[t]?).bind (s.blocks[·]?)).elim 0 BlockHeader.height

def FilledBelow (s : Storage P) (t : TopoHeight) : Prop := ∀ q < t, ∃ hash header, s.OrderedAt q hash header

variable {hash other : Hash} {header : BlockHeader}

theorem heightAt_eq (h : s.OrderedAt t hash header) : heightAt s t = header.height := by
  unfold heightAt
  rw [h.slot, Option.bind_some, h.block]
  rfl

variable {q i counter height : Nat}

theorem FilledBelow.mono (h : FilledBelow s t) (hle : q ≤ t) : FilledBelow s q := fun i hi => h i (hi.trans_le hle)

theorem searchHigher_eq (height : Nat) (hfilled : FilledBelow s (i + 1)) :
    searchHigher s height counter i = .ok (decide (∃ q < i + 1, 0 < q ∧ i < q + counter ∧ height ≤ heightAt s q)) := by
  induction counter generalizing i with
  | zero =>
    rw [searchHigher, decide_eq_false]
    rintro ⟨q, hq, -, hlt, -⟩
    omega
  | succ counter ih =>
    cases i with
    | zero =>
      rw [searchHigher, decide_eq_false]
      rintro ⟨q, hq, hpos, -⟩
      omega
    | succ i =>
      obtain ⟨hash, header, hordered⟩ := hfilled (i + 1) (Nat.lt_succ_self _)
      have hhash : s.getHashAtTopoHeight (i + 1) = .ok hash := by rw [Storage.getHashAtTopoHeight, hordered.slot]
      have hheight : s.getHeightForBlockHash hash = .ok (heightAt s (i + 1)) := by
        rw [Storage.getHeightForBlockHash, Storage.getBlockHeaderByHash, hordered.block, heightAt_eq hordered]
        rfl
      rw [searchHigher, hhash]
      simp only [bind, Except.bind, hheight]
      split
      · rename_i hle
        refine congrArg Except.ok (decide_eq_true ?_).symm
        exact ⟨i + 1, Nat.lt_succ_self _, Nat.succ_pos _, by omega, hle⟩
      · rename_i hlower
        rw [ih (hfilled.mono (Nat.le_succ _))]
        refine congrArg Except.ok (decide_eq_decide.mpr ?_)
        constructor
        · rintro ⟨q, hq, hpos, hlt, hle⟩
          exact ⟨q, by omega, hpos, by omega, hle⟩
        · rintro ⟨q, hq, hpos, hlt, hle⟩
          have hne : q ≠ i + 1 := fun heq => hlower (heq ▸ hle)
          exact ⟨q, by omega, hpos, by omega, hle⟩

theorem isSideBlock_ordered (hfilled : FilledBelow s q) (hordered : s.OrderedAt q hash header) (hle : q ≤ t) :
    isSideBlockInternal s hash t = .ok (decide (SideAt (heightAt s) q)) := by
  have hplaced : s.isBlockTopologicalOrdered hash = true := by
    simp only [Storage.isBlockTopologicalOrdered, hordered.place, hordered.slot, beq_self_eq_true]
  have htopo : s.getTopoHeightForHash hash = .ok q := by rw [Storage.getTopoHeightForHash, hordered.place]
  have hheight : s.getHeightForBlockHash hash = .ok (heightAt s q) := by
    rw [Storage.getHeightForBlockHash, Storage.getBlockHeaderByHash, hordered.block, heightAt_eq hordered]
    rfl
  unfold isSideBlockInternal
  simp only [hplaced, Bool.not_true, Bool.false_eq_true, if_false, htopo, bind, Except.bind]
  cases q with
  | zero =>
    rw [if_pos (by simp)]
    refine congrArg Except.ok (decide_eq_false ?_).symm
    rintro ⟨i, hi, -⟩
    omega
  | succ q =>
    have hguard : ¬ ((decide (q + 1 = 0) || decide (t < q + 1)) = true) := by
      simp only [Bool.or_eq_true, decide_eq_true_eq]
      omega
    rw [if_neg hguard, hheight]
    dsimp only
    rw [Nat.add_sub_cancel, searchHigher_eq _ hfilled]
    refine congrArg Except.ok (decide_eq_decide.mpr (exists_congr fun i => and_congr_right fun hi => and_congr_right fun hpos => ?_))
    exact and_congr_left fun _ => Nat.lt_iff_add_one_le

theorem isSideBlock_unordered (h : ∀ q ≤ t, s.topoByHash[hash]? = some q → s.hashAtTopo[q]? ≠ some hash) :
    isSideBlockInternal s hash t = .ok false := by
  unfold isSideBlockInternal
  cases hplace : s.topoByHash[hash]? with
  | none =>
    have hplaced : s.isBlockTopologicalOrdered hash = false := by simp only [Storage.isBlockTopologicalOrdered, hplace]
    simp [hplaced]
    rfl
  | some q =>
    have htopo : s.getTopoHeightForHash hash = .ok q := by rw [Storage.getTopoHeightForHash, hplace]
    by_cases hle : q ≤ t
    · have hplaced : s.isBlockTopologicalOrdered hash = false := by
        simp only [Storage.isBlockTopologicalOrdered, hplace, beq_eq_false_iff_ne]
        exact h q hle hplace
      simp [hplaced]
      rfl
    · cases hplaced : s.isBlockTopologicalOrdered hash with
      | false => rfl
      | true =>
        have habove : (decide (q = 0) || decide (t < q)) = true := by
          rw [decide_eq_true (not_le.mp hle), Bool.or_true]
        simp only [Bool.not_true, Bool.false_eq_true, if_false, htopo, bind, Except.bind]
        rw [if_pos habove]
        rfl

/-- Every stored block is in the list of its height, once. -/
structure BlocksListed (s : Storage P) : Prop where
  listed : ∀ hash height, HasHeight s hash height → ∃ hashes, s.blocksAtHeight[height]? = some hashes
  nodup : ∀ (height : Nat) (hashes : List Hash), s.blocksAtHeight[height]? = some hashes → hashes.Nodup
  mem_iff : ∀ height hashes, s.blocksAtHeight[height]? = some hashes → ∀ hash, hash ∈ hashes ↔ HasHeight s hash height

def SideBelow (s : Storage P) (t : Nat) (hash : Hash) : Prop :=
  ∃ q < t, (∃ header, s.OrderedAt q hash header) ∧ SideAt (heightAt s) q

theorem isSideBlock_eq (hfilled : FilledBelow s t) (hordered : s.OrderedAt t hash header)
    (hne : other ≠ hash) (hstored : ∃ header, s.blocks[other]? = some header) [Decidable (SideBelow s t other)] :
    isSideBlockInternal s other t = .ok (decide (SideBelow s t other)) := by
  by_cases hplaced : ∃ q < t, ∃ header, s.OrderedAt q other header
  · obtain ⟨q, hlt, header', hother⟩ := hplaced
    rw [isSideBlock_ordered (hfilled.mono hlt.le) hother hlt.le]
    refine congrArg Except.ok (decide_eq_decide.mpr ⟨fun hside => ⟨q, hlt, ⟨header', hother⟩, hside⟩, ?_⟩)
    rintro ⟨q', -, ⟨header'', hother'⟩, hside⟩
    obtain rfl : q = q' := Option.some.inj (hother.place.symm.trans hother'.place)
    exact hside
  · rw [isSideBlock_unordered, decide_eq_false]
    · rintro ⟨q, hlt, hother, -⟩
      exact hplaced ⟨q, hlt, hother⟩
    · intro q hle hplace hslot
      obtain ⟨header', hheader⟩ := hstored
      rcases Nat.lt_or_eq_of_le hle with hlt | rfl
      · exact hplaced ⟨q, hlt, header', hslot, hplace, hheader⟩
      · exact hne (Option.some.inj (hslot.symm.trans hordered.slot))

variable {hashes : List Hash}

open Classical in
theorem foldlM_sideBlocks
    (hside : ∀ other ∈ hashes, other ≠ hash → isSideBlockInternal s other t = .ok (decide (SideBelow s t other))) (n : Nat) :
    hashes.foldlM (fun count block => do
      if block ≠ hash then
        return if ← isSideBlockInternal s block t then count + 1 else count
      else return count) n = .ok (n + hashes.countP fun other => other ≠ hash ∧ SideBelow s t other) := by
  induction hashes generalizing n with
  | nil => rfl
  | cons other hashes ih =>
    have hrest := ih fun b hb => hside b (List.mem_cons_of_mem _ hb)
    rw [List.foldlM_cons, List.countP_cons]
    by_cases hne : other = hash
    · simp only [hne, ne_eq, not_true_eq_false, if_false, false_and, decide_false, Bool.false_eq_true, Nat.add_zero]
      exact hrest n
    · simp only [ne_eq, hne, not_false_eq_true, if_true, hside other List.mem_cons_self hne, true_and]
      by_cases hbelow : SideBelow s t other
      · simp only [hbelow, decide_true, if_true]
        exact (hrest (n + 1)).trans (congrArg Except.ok (Nat.succ_add_eq_add_succ _ _))
      · simp only [hbelow, decide_false, Bool.false_eq_true, if_false, Nat.add_zero]
        exact hrest n

open Classical in
theorem countP_sideBelow (hlisted : BlocksListed s) (hfilled : FilledBelow s t)
    (hordered : s.OrderedAt t hash header) (hhashes : s.blocksAtHeight[height]? = some hashes) :
    (hashes.countP fun other => other ≠ hash ∧ SideBelow s t other) = sidesBelow (heightAt s) height t := by
  have hmem := hlisted.mem_iff height hashes hhashes
  rw [List.countP_eq_length_filter, ← List.toFinset_card_of_nodup ((hlisted.nodup height hashes hhashes).filter _), sidesBelow]
  symm
  refine Finset.card_bij (fun q _ => (s.hashAtTopo[q]?).getD 0) ?_ ?_ ?_
  · intro q hq
    obtain ⟨hlt, hheight, hside⟩ := Finset.mem_filter.mp hq
    obtain ⟨other, header', hother⟩ := hfilled q (Finset.mem_range.mp hlt)
    have hne : other ≠ hash := by
      rintro rfl
      exact absurd (Option.some.inj (hother.place.symm.trans hordered.place)) (Finset.mem_range.mp hlt).ne
    rw [hother.slot, Option.getD_some, List.mem_toFinset, List.mem_filter]
    refine ⟨(hmem other).mpr ⟨header', hother.block, (heightAt_eq hother).symm.trans hheight⟩, ?_⟩
    exact decide_eq_true ⟨hne, q, Finset.mem_range.mp hlt, ⟨header', hother⟩, hside⟩
  · intro q hq q' hq' hsame
    obtain ⟨other, header', hother⟩ := hfilled q (Finset.mem_range.mp (Finset.mem_filter.mp hq).1)
    obtain ⟨other', header'', hother'⟩ := hfilled q' (Finset.mem_range.mp (Finset.mem_filter.mp hq').1)
    simp only [hother.slot, hother'.slot, Option.getD_some] at hsame
    subst hsame
    exact Option.some.inj (hother.place.symm.trans hother'.place)
  · intro other hmem'
    obtain ⟨hin, hholds⟩ := List.mem_filter.mp (List.mem_toFinset.mp hmem')
    obtain ⟨-, q, hlt, ⟨header', hother⟩, hside⟩ := of_decide_eq_true hholds
    obtain ⟨header'', hheader, hheight⟩ := (hmem other).mp hin
    obtain rfl : header' = header'' := Option.some.inj (hother.block.symm.trans hheader)
    refine ⟨q, Finset.mem_filter.mpr ⟨Finset.mem_range.mpr hlt, (heightAt_eq hother).trans hheight, hside⟩, ?_⟩
    rw [hother.slot, Option.getD_some]

theorem countSideBlocks_eq (hlisted : BlocksListed s) (hfilled : FilledBelow s t)
    (hordered : s.OrderedAt t hash header) :
    countSideBlocks s hash header.height t = .ok (sidesBelow (heightAt s) header.height t) := by
  classical
  obtain ⟨hashes, hhashes⟩ := hlisted.listed hash header.height ⟨header, hordered.block, rfl⟩
  have hside : ∀ other ∈ hashes, other ≠ hash → isSideBlockInternal s other t = .ok (decide (SideBelow s t other)) := by
    intro other hother hne
    obtain ⟨header', hheader, -⟩ := (hlisted.mem_iff header.height hashes hhashes other).mp hother
    exact isSideBlock_eq hfilled hordered hne ⟨header', hheader⟩
  unfold countSideBlocks Storage.getBlocksAtHeight
  rw [hhashes]
  refine (foldlM_sideBlocks hside 0).trans (congrArg Except.ok ?_)
  rw [Nat.zero_add, countP_sideBelow hlisted hfilled hordered hhashes]

end Recount

end Xelis.Blockchain
