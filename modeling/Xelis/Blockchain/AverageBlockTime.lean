import Xelis.Blockchain.HeaderVerification

namespace Xelis.Blockchain

open Lib (Exec Uint.Fault)

inductive AverageError where
  | failed (e : BlockchainError)
  | fault (f : Uint.Fault)

abbrev Averaging := Exec AverageError (List TopoHeight)

section Program

variable {P : Type} (s : Storage P)

def orFault {α : Type} (x : Except Uint.Fault α) : Averaging α := Exec.ofExcept (x.mapError .fault)

def readTimestamp (topoheight : Nat) : Averaging TimestampMillis := do
  modify (· ++ [topoheight])
  let hash ← Exec.ofExcept ((s.getHashAtTopoHeight topoheight).mapError .failed)
  Exec.ofExcept ((s.getTimestampForBlockHash hash).mapError .failed)

/-- A count that leads below the pruned topoheight is replaced. -/
def adjustCount (topoheight count : Nat) : Averaging Nat :=
  match s.prunedTopoheight with
  | some prunedTopoheight => do
    let first ← orFault (Lib.Uint.sub topoheight count)
    if first < prunedTopoheight then return prunedTopoheight else return count
  | none => return count

def averageOver (topoheight count : Nat) : Averaging TimestampMillis := do
  let nowTimestamp ← readTimestamp s topoheight
  let first ← orFault (Lib.Uint.sub topoheight count)
  let countTimestamp ← readTimestamp s first
  let diff ← orFault (Lib.Uint.sub nowTimestamp countTimestamp)
  orFault (Lib.Uint.div diff count)

def getAverageBlockTime (topoheight : Nat) : Averaging TimestampMillis :=
  if 50 < topoheight then adjustCount s topoheight 50 >>= averageOver s topoheight
  else if topoheight ≤ 1 then return BLOCK_TIME_MILLIS
  else adjustCount s topoheight (topoheight - 1) >>= averageOver s topoheight

end Program

section Specification

variable {P : Type} (s : Storage P)

/-- The first topoheight of the pruned chain past genesis. -/
def lowestKept : Nat := max (s.prunedTopoheight.getD 0) 1

/-- The chain is pruned below its top only, and holds every block above the pruned topoheight. -/
structure KeepsBlocks (topoheight : Nat) : Prop where
  pruned_le : ∀ p : Nat, p ∈ s.prunedTopoheight → p ≤ topoheight
  stored : ∀ t : Nat, lowestKept s ≤ t → t ≤ topoheight → ∃ hash header, s.hashAtTopo[t]? = some hash ∧ s.blocks[hash]? = some header

def timestampAt (t : Nat) : TimestampMillis := (s.hashAtTopo[t]?.map (timestampOf s)).getD 0

/-- The average is found from blocks that are kept, and is the time between the two that were read divided by their distance. -/
def Averages (topoheight : Nat) : Prop :=
  ∃ time reads, getAverageBlockTime s topoheight [] = .ok time reads ∧ (∀ t ∈ reads, lowestKept s ≤ t ∧ t ≤ topoheight) ∧
    ∀ first, reads = [topoheight, first] → ∃ elapsed, timestampAt s first + elapsed = timestampAt s topoheight ∧
      time * (topoheight - first) ≤ elapsed ∧ elapsed < time * (topoheight - first) + (topoheight - first)

/-- Where the window of the source begins: 50 blocks back, or past genesis. -/
def windowStart (topoheight : Nat) : Nat := topoheight - min 50 (topoheight - 1)

/-- The window lies above the pruned topoheight, or the pruned topoheight lies below the middle of the chain. -/
def FarFromPruned (topoheight : Nat) : Prop :=
  ∀ p : Nat, p ∈ s.prunedTopoheight → windowStart topoheight < p → 2 * p ≤ topoheight

/-- The block that is looked at is not newer than the top one. -/
def GoesForward (topoheight : Nat) : Prop :=
  ((∀ p : Nat, p ∈ s.prunedTopoheight → p ≤ windowStart topoheight) → timestampAt s (windowStart topoheight) ≤ timestampAt s topoheight) ∧
    ∀ p : Nat, p ∈ s.prunedTopoheight → windowStart topoheight < p → timestampAt s (topoheight - p) ≤ timestampAt s topoheight

variable {s} {topoheight : Nat}

theorem readTimestamp_apply (t : Nat) (reads : List TopoHeight) :
    readTimestamp s t reads = match s.hashAtTopo[t]? with
      | none => .error (.failed (.notFoundOnDisk (.getBlockHashAtTopoHeight t))) (reads ++ [t])
      | some hash => match s.getTimestampForBlockHash hash with
        | .ok time => .ok time (reads ++ [t])
        | .error e => .error (.failed e) (reads ++ [t]) := by
  unfold readTimestamp
  rw [Exec.bind_apply, Exec.modify_apply]
  dsimp only
  rw [Exec.bind_apply, Exec.ofExcept_apply, Storage.getHashAtTopoHeight]
  cases s.hashAtTopo[t]? with
  | none => rfl
  | some hash =>
    show Exec.ofExcept ((s.getTimestampForBlockHash hash).mapError AverageError.failed) _ = _
    rw [Exec.ofExcept_apply]
    dsimp only
    cases s.getTimestampForBlockHash hash <;> rfl

variable {t count p : Nat} {reads reads' : List TopoHeight}

theorem readTimestamp_of_stored (h : ∃ hash header, s.hashAtTopo[t]? = some hash ∧ s.blocks[hash]? = some header) :
    readTimestamp s t reads = .ok (timestampAt s t) (reads ++ [t]) := by
  obtain ⟨hash, header, hhash, hblock⟩ := h
  rw [readTimestamp_apply, hhash]
  dsimp only
  rw [getTimestamp_eq hblock, timestampAt, hhash, Option.map_some, Option.getD_some, timestampOf_eq hblock]

variable {time : TimestampMillis}

theorem readTimestamp_ok
    (h : readTimestamp s t reads = .ok time reads') : reads' = reads ++ [t] ∧ time = timestampAt s t := by
  rw [readTimestamp_apply] at h
  split at h
  · cases h
  · rename_i hash hhash
    split at h
    · rename_i time' htime
      cases h
      obtain ⟨header, hblock, rfl⟩ := getTimestamp_ok htime
      rw [timestampAt, hhash, Option.map_some, Option.getD_some, timestampOf_eq hblock]
      exact ⟨rfl, rfl⟩
    · cases h

theorem orFault_apply {α : Type} (x : Except Uint.Fault α) (reads : List TopoHeight) :
    orFault x reads = match x with
      | .ok a => .ok a reads
      | .error f => .error (.fault f) reads := by
  cases x <;> rfl

/-- The count after the check against the pruned topoheight. -/
def adjusted (s : Storage P) (topoheight count : Nat) : Nat :=
  match s.prunedTopoheight with
  | some prunedTopoheight => if topoheight - count < prunedTopoheight then prunedTopoheight else count
  | none => count

theorem adjustCount_eq (h : count ≤ topoheight) (reads : List TopoHeight) :
    adjustCount s topoheight count reads = .ok (adjusted s topoheight count) reads := by
  unfold adjustCount adjusted
  cases s.prunedTopoheight with
  | none => rfl
  | some prunedTopoheight =>
    dsimp only
    rw [Exec.bind_apply, orFault_apply, Lib.Uint.sub_eq h]
    dsimp only
    split <;> rfl

theorem averageOver_ok (hle : count ≤ topoheight) (h : averageOver s topoheight count [] = .ok time reads) :
    reads = [topoheight, topoheight - count] ∧ timestampAt s (topoheight - count) ≤ timestampAt s topoheight := by
  obtain ⟨now, reads₁, hnow, h⟩ := Exec.bind_ok_iff.mp h
  obtain ⟨rfl, rfl⟩ := readTimestamp_ok hnow
  obtain ⟨first, reads₂, hfirst, h⟩ := Exec.bind_ok_iff.mp h
  rw [orFault_apply, Lib.Uint.sub_eq hle] at hfirst
  cases hfirst
  obtain ⟨start, reads₃, hstart, h⟩ := Exec.bind_ok_iff.mp h
  obtain ⟨rfl, rfl⟩ := readTimestamp_ok hstart
  obtain ⟨diff, reads₄, hdiff, h⟩ := Exec.bind_ok_iff.mp h
  rw [orFault_apply, Lib.Uint.sub] at hdiff
  split at hdiff
  · rename_i d hsub
    cases hdiff
    split at hsub
    · rename_i hforward
      rw [orFault_apply] at h
      split at h
      · cases h
        exact ⟨rfl, hforward⟩
      · cases h
    · cases hsub
  · cases hdiff

theorem averageOver_eq (hpos : 0 < count) (hle : count ≤ topoheight)
    (htop : ∃ hash header, s.hashAtTopo[topoheight]? = some hash ∧ s.blocks[hash]? = some header)
    (hfirst : ∃ hash header, s.hashAtTopo[topoheight - count]? = some hash ∧ s.blocks[hash]? = some header)
    (hforward : timestampAt s (topoheight - count) ≤ timestampAt s topoheight) :
    averageOver s topoheight count [] =
      .ok ((timestampAt s topoheight - timestampAt s (topoheight - count)) / count) [topoheight, topoheight - count] := by
  unfold averageOver
  rw [Exec.bind_apply, readTimestamp_of_stored htop]
  dsimp only
  rw [Exec.bind_apply, orFault_apply, Lib.Uint.sub_eq hle]
  dsimp only
  rw [Exec.bind_apply, readTimestamp_of_stored hfirst]
  dsimp only
  rw [Exec.bind_apply, orFault_apply, Lib.Uint.sub_eq hforward]
  dsimp only
  rw [orFault_apply, Lib.Uint.div_eq hpos]
  rfl

theorem averages_over (hkeeps : KeepsBlocks s topoheight) (hlowest : lowestKept s ≤ topoheight) (hpos : 0 < count)
    (hle : count ≤ topoheight) (hrun : getAverageBlockTime s topoheight [] = averageOver s topoheight count []) :
    Averages s topoheight ↔
      lowestKept s ≤ topoheight - count ∧ timestampAt s (topoheight - count) ≤ timestampAt s topoheight := by
  unfold Averages
  rw [hrun]
  constructor
  · rintro ⟨time, reads, h, hreads, -⟩
    obtain ⟨rfl, hforward⟩ := averageOver_ok hle h
    exact ⟨(hreads (topoheight - count) (List.mem_cons_of_mem _ List.mem_cons_self)).1, hforward⟩
  · rintro ⟨hkept, hforward⟩
    have htop := hkeeps.stored topoheight hlowest (Nat.le_refl _)
    have hfirst := hkeeps.stored (topoheight - count) hkept (Nat.sub_le _ _)
    refine ⟨_, _, averageOver_eq hpos hle htop hfirst hforward, fun t ht => ?_, fun first hsame => ?_⟩
    · rcases List.mem_cons.mp ht with rfl | ht
      · exact ⟨hlowest, Nat.le_refl _⟩
      · rw [List.mem_singleton.mp ht]
        exact ⟨hkept, Nat.sub_le _ _⟩
    · obtain rfl : topoheight - count = first := by
        cases hsame
        rfl
      have hcount : topoheight - (topoheight - count) = count := Nat.sub_sub_self hle
      rw [hcount]
      exact ⟨timestampAt s topoheight - timestampAt s (topoheight - count), Nat.add_sub_of_le hforward, Nat.div_mul_le_self _ _,
        Nat.lt_div_mul_add hpos⟩

theorem lowest_le_iff {topoheight : Nat} (h : 0 < p) : max p 1 ≤ topoheight - p ↔ 2 * p ≤ topoheight := by omega

theorem getAverageBlockTime_eq (h : 1 < topoheight) :
    getAverageBlockTime s topoheight [] = averageOver s topoheight (adjusted s topoheight (min 50 (topoheight - 1))) [] := by
  unfold getAverageBlockTime
  split
  · rename_i hlong
    rw [Nat.min_eq_left (by omega), Exec.bind_apply, adjustCount_eq (Nat.le_of_lt hlong)]
  · rename_i hshort
    rw [if_neg (Nat.not_le_of_lt h), Nat.min_eq_right (by omega), Exec.bind_apply, adjustCount_eq (Nat.sub_le _ _)]

/-- Short chains get the target, others their average if they were pruned low enough and go forward in time. -/
theorem averages_iff (hkeeps : KeepsBlocks s topoheight) :
    Averages s topoheight ↔ topoheight ≤ 1 ∨ FarFromPruned s topoheight ∧ GoesForward s topoheight := by
  by_cases hshort : topoheight ≤ 1
  · refine iff_of_true ⟨BLOCK_TIME_MILLIS, [], ?_, fun t ht => (nomatch ht), fun first h => (nomatch h)⟩ (Or.inl hshort)
    unfold getAverageBlockTime
    rw [if_neg (by omega), if_pos hshort]
    rfl
  · have hlong : 1 < topoheight := Nat.lt_of_not_le hshort
    have hstart : 1 ≤ windowStart topoheight := by
      unfold windowStart
      omega
    have hrun := getAverageBlockTime_eq (s := s) hlong
    rw [or_iff_right hshort]
    unfold FarFromPruned GoesForward
    unfold adjusted at hrun
    cases hpruned : s.prunedTopoheight with
    | none =>
      rw [hpruned] at hrun
      dsimp only at hrun
      have hlowest : lowestKept s = 1 := by rw [lowestKept, hpruned]; rfl
      rw [averages_over hkeeps (by omega) (by omega) (by omega) hrun, hlowest]
      exact ⟨fun h => ⟨fun p hp => (nomatch hp), fun _ => h.2, fun p hp => (nomatch hp)⟩,
        fun h => ⟨hstart, h.2.1 fun p hp => (nomatch hp)⟩⟩
    | some p =>
      have hle := hkeeps.pruned_le p hpruned
      have hlowest : lowestKept s = max p 1 := by rw [lowestKept, hpruned]; rfl
      rw [hpruned] at hrun
      dsimp only at hrun
      by_cases hbelow : windowStart topoheight < p
      · rw [if_pos (show topoheight - min 50 (topoheight - 1) < p from hbelow)] at hrun
        rw [averages_over hkeeps (by omega) (by omega) hle hrun, hlowest]
        rw [lowest_le_iff (Nat.lt_of_le_of_lt (Nat.zero_le _) hbelow)]
        constructor
        · rintro ⟨hhalf, hforward⟩
          refine ⟨fun q hq _ => ?_, fun habove => ?_, fun q hq _ => ?_⟩
          · cases hq
            exact hhalf
          · exact absurd (habove p rfl) (Nat.not_le_of_lt hbelow)
          · cases hq
            exact hforward
        · rintro ⟨hfar, -, hforward⟩
          exact ⟨hfar p rfl hbelow, hforward p rfl hbelow⟩
      · rw [if_neg (show ¬ topoheight - min 50 (topoheight - 1) < p from hbelow)] at hrun
        rw [averages_over hkeeps (by omega) (by omega) (by omega) hrun, hlowest]
        constructor
        · rintro ⟨-, hforward⟩
          refine ⟨fun q hq hlt => ?_, fun _ => hforward, fun q hq hlt => ?_⟩
          · cases hq
            exact absurd hlt hbelow
          · cases hq
            exact absurd hlt hbelow
        · rintro ⟨-, hforward, -⟩
          refine ⟨max_le (Nat.le_of_not_lt hbelow) hstart, hforward fun q hq => ?_⟩
          cases hq
          exact Nat.le_of_not_lt hbelow

def TopDescends (s : Storage P) (topoheight : Nat) : Prop :=
  ∀ (t : Nat) (top hash : Hash), lowestKept s ≤ t → t ≤ topoheight → s.hashAtTopo[topoheight]? = some top → s.hashAtTopo[t]? = some hash →
    Relation.ReflTransGen (fun block parent => parent ∈ parents s block) top hash

theorem TipsFirst.timestampOf_le (h : TipsFirst s) {block ancestor : Hash}
    (hpath : Relation.ReflTransGen (fun block parent => parent ∈ parents s block) block ancestor) :
    timestampOf s ancestor ≤ timestampOf s block := by
  induction hpath with
  | refl => exact Nat.le_refl _
  | @tail child parent _ hparent ih =>
    refine Nat.le_trans ?_ ih
    unfold parents at hparent
    split at hparent
    · rename_i header hblock
      rw [timestampOf_eq hblock]
      exact h child header hblock parent hparent
    · nomatch hparent

theorem TopDescends.timestampAt_le (h : TopDescends s topoheight) (htips : TipsFirst s) (hkeeps : KeepsBlocks s topoheight)
    (hlowest : lowestKept s ≤ t) (hle : t ≤ topoheight) : timestampAt s t ≤ timestampAt s topoheight := by
  obtain ⟨hash, header, hhash, -⟩ := hkeeps.stored t hlowest hle
  obtain ⟨top, header', htop, -⟩ := hkeeps.stored topoheight (Nat.le_trans hlowest hle) (Nat.le_refl _)
  rw [timestampAt, timestampAt, hhash, htop]
  exact htips.timestampOf_le (h t top hash hlowest hle htop hhash)

/-- The average block time is found exactly when the chain is short, or was pruned low enough and goes forward in time.
Time goes forward when no block is older than its parents and the top block has all the others behind it. -/
theorem averageBlockTime_total (hkeeps : KeepsBlocks s topoheight) :
    (Averages s topoheight ↔ topoheight ≤ 1 ∨ FarFromPruned s topoheight ∧ GoesForward s topoheight) ∧
      (TipsFirst s → TopDescends s topoheight → (Averages s topoheight ↔ topoheight ≤ 1 ∨ FarFromPruned s topoheight)) := by
  refine ⟨averages_iff hkeeps, fun htips htop => ?_⟩
  rw [averages_iff hkeeps]
  refine or_congr_right' fun hlong => and_iff_left_of_imp fun hfar => ⟨fun habove => ?_, fun p hp hbelow => ?_⟩
  · refine htop.timestampAt_le htips hkeeps ?_ (Nat.sub_le _ _)
    have hstart : 1 ≤ windowStart topoheight := by
      unfold windowStart
      omega
    unfold lowestKept
    cases hpruned : s.prunedTopoheight with
    | none => exact max_le (Nat.zero_le _) hstart
    | some p => exact max_le (habove p hpruned) hstart
  · refine htop.timestampAt_le htips hkeeps ?_ (Nat.sub_le _ _)
    rw [lowestKept, show s.prunedTopoheight = some p from hp, Option.getD_some]
    exact (lowest_le_iff (Nat.lt_of_le_of_lt (Nat.zero_le _) hbelow)).mpr (hfar p hp hbelow)

end Specification

/-- Three blocks at the topoheights 8, 9 and 10, pruned below the first of them. -/
def youngPruned : Storage Unit :=
  { storedBlocks [(8, [7]), (9, [8]), (10, [9])] with
    hashAtTopo := (((∅ : Lib.FiniteMap TopoHeight Hash).insert 8 8).insert 9 9).insert 10 10
    prunedTopoheight := some 8 }

theorem youngPruned_keepsBlocks : KeepsBlocks youngPruned 10 where
  pruned_le p hp := by
    cases hp
    decide
  stored t hlowest hle := by
    have hlow : 8 ≤ t := hlowest
    obtain rfl | rfl | rfl : t = 8 ∨ t = 9 ∨ t = 10 := by omega
    · exact ⟨8, headerWithTips [7], by decide +kernel, by decide +kernel⟩
    · exact ⟨9, headerWithTips [8], by decide +kernel, by decide +kernel⟩
    · exact ⟨10, headerWithTips [9], by decide +kernel, by decide +kernel⟩

/-- The block at topoheight 2 is asked for. -/
theorem youngPruned_not_averages : KeepsBlocks youngPruned 10 ∧ ¬ Averages youngPruned 10 := by
  refine ⟨youngPruned_keepsBlocks, fun h => ?_⟩
  rcases (averages_iff youngPruned_keepsBlocks).mp h with hshort | ⟨hfar, -⟩
  · exact absurd hshort (by decide)
  · exact absurd (hfar 8 rfl (by decide)) (by decide)

/-- Three blocks as well, but the chain is pruned below its middle. -/
def lowPruned : Storage Unit :=
  { storedBlocks [(2, [1]), (3, [2]), (4, [3])] with
    hashAtTopo := (((∅ : Lib.FiniteMap TopoHeight Hash).insert 2 2).insert 3 3).insert 4 4
    prunedTopoheight := some 2 }

theorem lowPruned_keepsBlocks : KeepsBlocks lowPruned 4 where
  pruned_le p hp := by
    cases hp
    decide
  stored t hlowest hle := by
    have hlow : 2 ≤ t := hlowest
    obtain rfl | rfl | rfl : t = 2 ∨ t = 3 ∨ t = 4 := by omega
    · exact ⟨2, headerWithTips [1], by decide +kernel, by decide +kernel⟩
    · exact ⟨3, headerWithTips [2], by decide +kernel, by decide +kernel⟩
    · exact ⟨4, headerWithTips [3], by decide +kernel, by decide +kernel⟩

theorem lowPruned_total : Averages lowPruned 4 ∧ ¬ Averages youngPruned 10 := by
  refine ⟨(averageBlockTime_total lowPruned_keepsBlocks).1.mpr (Or.inr ⟨fun p hp _ => ?_, fun hlow => ?_, fun p hp _ => ?_⟩),
    mt (averageBlockTime_total youngPruned_keepsBlocks).1.mp ?_⟩
  · cases hp
    decide
  · exact absurd (hlow 2 rfl) (by decide)
  · cases hp
    decide +kernel
  · rintro (hshort | ⟨hfar, -⟩)
    · exact absurd hshort (by decide)
    · exact absurd (hfar 8 rfl (by decide)) (by decide)

end Xelis.Blockchain
