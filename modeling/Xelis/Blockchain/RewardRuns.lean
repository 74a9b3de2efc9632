import Xelis.Blockchain.BlockRewards
import Xelis.Blockchain.Nonces

namespace Xelis.Blockchain

open Lib (Exec FiniteMap Halt)
open Storage (SameOrder)

variable {P : Type}
variable {hash : Hash} {turns first k highestTopo n t : Nat}

section Cleaning

variable {s : Storage P} {full : List Hash} {base t : Nat} {c c' : Cleaning P}

/-- The loop over the old order stands where it did. -/
structure SameProgress (c c' : Cleaning P) : Prop where
  storage : KeepsRewards c.storage c'.storage
  order : c'.order = c.order
  skipped : c'.skipped = c.skipped
  isWritten : c'.isWritten = c.isWritten

theorem SameProgress.refl (c : Cleaning P) : SameProgress c c := ⟨.refl _, rfl, rfl, rfl⟩

theorem SameProgress.trans {a b c : Cleaning P} (hab : SameProgress a b) (hbc : SameProgress b c) : SameProgress a c :=
  ⟨hab.storage.trans hbc.storage, hbc.order.trans hab.order, hbc.skipped.trans hab.skipped, hbc.isWritten.trans hab.isWritten⟩

/-- The first `m` blocks of the new order stand in their places already. -/
def Stay (s : Storage P) (base : Nat) (full : List Hash) (m : Nat) : Prop :=
  ∀ i < m, ∃ hash, full[i]? = some hash ∧ s.hashAtTopo[base + i]? = some hash

/-- Where the loop over the old order stands at `t`. Nothing stays when the order starts with the first block. -/
structure CleanedTo (s : Storage P) (full : List Hash) (base t : Nat) (c : Cleaning P) : Prop where
  keeps : KeepsRewards s c.storage
  order : c.order = full.drop c.skipped
  stay : Stay s base full c.skipped
  place : c.isWritten = false → t = base + c.skipped
  first : base = 0 → c.isWritten = true ∧ c.skipped = 0

theorem CleanedTo.next (h : CleanedTo s full base t c) (hhash : c.storage.getHashAtTopoHeight t = .ok hash)
    (hstays : c.stays hash = true) :
    CleanedTo s full base (t + 1) { c with order := c.order.tail, skipped := c.skipped + 1 } := by
  obtain ⟨hwritten, hfirst⟩ : c.isWritten = false ∧ ∃ rest, c.order = hash :: rest := by
    unfold Cleaning.stays at hstays
    cases hwritten : c.isWritten with
    | true => simp [hwritten] at hstays
    | false =>
      cases horder : c.order with
      | nil => simp [horder] at hstays
      | cons first rest =>
        simp only [hwritten, horder, Bool.not_false, Bool.true_and, Bool.and_eq_true, beq_iff_eq] at hstays
        exact ⟨rfl, rest, by rw [hstays.2]⟩
  obtain ⟨rest, hfirst⟩ := hfirst
  have hplace := h.place hwritten
  have hdrop : full.drop c.skipped = hash :: rest := h.order.symm.trans hfirst
  have hslot : s.hashAtTopo[t]? = some hash := by
    rw [← h.keeps.order.hashAtTopo]
    unfold Storage.getHashAtTopoHeight at hhash
    split at hhash
    · rename_i found hfound
      cases hhash
      exact hfound
    · cases hhash
  refine ⟨h.keeps, ?_, fun i hi => ?_, fun _ => ?_, fun hzero => ?_⟩
  · show c.order.tail = full.drop (c.skipped + 1)
    rw [hfirst, ← List.tail_drop, hdrop]
  · rcases Nat.lt_succ_iff_lt_or_eq.mp hi with hlt | rfl
    · exact h.stay i hlt
    · refine ⟨hash, ?_, hplace ▸ hslot⟩
      have hat := congrArg (·[0]?) hdrop
      simpa only [List.getElem?_drop, Nat.add_zero, List.getElem?_cons_zero] using hat
  · show t + 1 = base + (c.skipped + 1)
    omega
  · rw [(h.first hzero).1] at hwritten
    cases hwritten

theorem CleanedTo.sameProgress (h : CleanedTo s full base t c) (hsame : SameProgress { c with isWritten := true } c') (t' : Nat) :
    CleanedTo s full base t' c' := by
  refine ⟨h.keeps.trans hsame.storage, ?_, ?_, fun hwritten => ?_, fun hzero => ⟨hsame.isWritten, ?_⟩⟩
  · rw [hsame.order, hsame.skipped]
    exact h.order
  · rw [hsame.skipped]
    exact h.stay
  · rw [hsame.isWritten] at hwritten
    cases hwritten
  · rw [hsame.skipped]
    exact (h.first hzero).2

theorem skipOrdered_eq (s : Storage P) (t : Nat) (order : List Hash) :
    ∃ k, skipOrdered s t order = (t + k, order.drop k) ∧ Stay s t order k := by
  induction order generalizing t with
  | nil => exact ⟨0, rfl, fun i hi => absurd hi (Nat.not_lt_zero i)⟩
  | cons hash order ih =>
    rw [skipOrdered]
    split
    · rename_i hplaced
      obtain ⟨k, hskip, hstay⟩ := ih (t + 1)
      refine ⟨k + 1, ?_, fun i hi => ?_⟩
      · rw [hskip, Nat.add_assoc, Nat.add_comm 1 k]
        rfl
      · cases i with
        | zero =>
          rw [Bool.and_eq_true, beq_iff_eq] at hplaced
          refine ⟨hash, rfl, ?_⟩
          have hordered := hplaced.1
          unfold Storage.isBlockTopologicalOrdered at hordered
          rw [hplaced.2] at hordered
          exact beq_iff_eq.mp hordered
        | succ i =>
          obtain ⟨other, hother, hslot⟩ := hstay i (Nat.lt_of_succ_lt_succ hi)
          refine ⟨other, hother, ?_⟩
          rw [← Nat.add_assoc, Nat.add_right_comm]
          exact hslot
    · exact ⟨0, rfl, fun i hi => absurd hi (Nat.not_lt_zero i)⟩

theorem cleanTransactions_sameProgress (hash : Hash) (isOrphaned : Bool) (txsHashes : List Hash) (c : Cleaning P) :
    SameProgress c (txsHashes.foldl (cleanTransaction hash isOrphaned) c) := by
  induction txsHashes generalizing c with
  | nil => exact .refl c
  | cons txHash txsHashes ih =>
    have hone : SameProgress c (cleanTransaction hash isOrphaned c txHash) := by
      unfold cleanTransaction
      split
      · exact ⟨⟨⟨rfl, rfl, rfl⟩, rfl, rfl, rfl⟩, rfl, rfl, rfl⟩
      · exact .refl c
    exact hone.trans (ih _)

theorem cleanBlock_sameProgress (topoheight : TopoHeight) (hash : Hash) : Exec.Moves SameProgress (cleanBlock (P := P) topoheight hash) := by
  intro c
  unfold cleanBlock
  cases c.storage.getBlockHeaderByHash hash with
  | error e => exact .refl c
  | ok header =>
    have htxs := cleanTransactions_sameProgress hash (!c.order.contains hash) header.txsHashes c
    dsimp only
    generalize header.txsHashes.foldl (cleanTransaction hash (!c.order.contains hash)) c = c₁ at htxs ⊢
    have hversioned := Storage.deleteVersionedData_onlyVersioned topoheight c₁.storage
    cases hdelete : Storage.deleteVersionedDataAtTopoheight topoheight c₁.storage with
    | ok _ storage =>
      rw [hdelete] at hversioned
      exact htxs.trans ⟨.of_onlyVersioned hversioned, rfl, rfl, rfl⟩
    | error e storage =>
      rw [hdelete] at hversioned
      exact htxs.trans ⟨.of_onlyVersioned hversioned, rfl, rfl, rfl⟩

theorem CleanedTo.cleanOrder (h : CleanedTo s full base t c) (hrun : cleanOrder turns t c = .ok ⟨⟩ c') :
    ∃ t', CleanedTo s full base t' c' := by
  induction turns generalizing t c with
  | zero =>
    cases hrun
    exact ⟨t, h⟩
  | succ turns ih =>
    obtain ⟨_, _, hget, hrun⟩ := Exec.bind_ok_iff.mp hrun
    cases hget
    obtain ⟨hash, c₁, hhash, hrun⟩ := Exec.bind_ok_iff.mp hrun
    rw [Exec.ofExcept_apply] at hhash
    cases hload : c.storage.getHashAtTopoHeight t with
    | error e => simp [hload] at hhash
    | ok found =>
      simp only [hload, EStateM.Result.ok.injEq] at hhash
      obtain ⟨rfl, rfl⟩ := hhash
      split at hrun
      · rename_i hstays
        obtain ⟨⟨⟩, c₂, hset, hrest⟩ := Exec.bind_ok_iff.mp hrun
        cases hset
        exact ih (h.next hload hstays) hrest
      · obtain ⟨⟨⟩, c₂, hset, hrun⟩ := Exec.bind_ok_iff.mp hrun
        cases hset
        obtain ⟨⟨⟩, c₃, hclean, hrest⟩ := Exec.bind_ok_iff.mp hrun
        have hsame := cleanBlock_sameProgress t found { c with isWritten := true }
        rw [hclean] at hsame
        exact ih (h.sameProgress hsame (t + 1)) hrest

end Cleaning

variable {s' : Storage P}

section Reordering

variable {s : Storage P} {full : List Hash} {base m n : Nat}

/-- The condition on a new order: none of its blocks stands below its base, and no topoheight that holds a block is left
above its end. -/
structure Replaces (s : Storage P) (base : Nat) (full : List Hash) : Prop where
  above : ∀ hash ∈ full, aboveBase s base hash = true
  covers : ∀ (t : Nat) (hash : Hash), s.hashAtTopo[t]? = some hash → t < base + full.length

theorem Replaces.congr (h : Replaces s base full) (hsame : SameOrder s s') : Replaces s' base full := by
  refine ⟨fun hash hmem => ?_, fun t hash hslot => ?_⟩
  · have habove := h.above hash hmem
    unfold aboveBase Storage.isBlockTopologicalOrdered at habove ⊢
    rw [hsame.topoByHash, hsame.hashAtTopo]
    exact habove
  · rw [hsame.hashAtTopo] at hslot
    exact h.covers t hash hslot

theorem Stay.notBelow (hstay : Stay s base full m) (hnodup : full.Nodup) (habove : ∀ hash ∈ full, aboveBase s base hash = true) :
    ∀ hash ∈ full.drop m, NotBelow s (base + m) hash := by
  intro hash hmem q hq header hordered
  by_cases hbelow : q < base
  · have hplaced : s.isBlockTopologicalOrdered hash = true := by
      simp only [Storage.isBlockTopologicalOrdered, hordered.place, hordered.slot, beq_self_eq_true]
    have hnot := habove hash (List.mem_of_mem_drop hmem)
    have hle : base ≤ q := by
      simpa only [aboveBase, hordered.place, hplaced, Bool.not_true, Bool.false_or, decide_eq_true_eq] using hnot
    omega
  · obtain ⟨i, rfl⟩ : ∃ i, q = base + i := ⟨q - base, by omega⟩
    have hi : i < m := by omega
    obtain ⟨other, hother, hslot⟩ := hstay i hi
    obtain rfl : other = hash := Option.some.inj (hslot.symm.trans hordered.slot)
    obtain ⟨j, hj⟩ := List.mem_iff_getElem?.mp hmem
    rw [List.getElem?_drop] at hj
    have hsame : i = m + j :=
      (List.getElem?_inj (List.getElem?_eq_some_iff.mp hother).1 hnodup).mp (hother.trans hj.symm)
    omega

theorem Stay.le_length (hstay : Stay s base full m) : m ≤ full.length := by
  cases m with
  | zero => exact Nat.zero_le _
  | succ m =>
    obtain ⟨hash, hhash, -⟩ := hstay m (Nat.lt_succ_self m)
    exact (List.getElem?_eq_some_iff.mp hhash).1

theorem Stay.le (hstay : Stay s base full m) (hends : OrderEnds s (max n 1)) {hash : Hash} (hbase : s.hashAtTopo[base]? = some hash)
    (hfirst : base = 0 → m = 0) : base + m ≤ n := by
  have hlt := hends.slots base hash hbase
  cases m with
  | zero => omega
  | succ m =>
    have hpos : base ≠ 0 := fun hzero => Nat.succ_ne_zero m (hfirst hzero)
    obtain ⟨other, -, hslot⟩ := hstay m (Nat.lt_succ_self m)
    have hlast := hends.slots (base + m) other hslot
    omega

theorem Stay.append (hstay : Stay s base full m) (hfirst : first = base + m) (hmore : Stay s first (full.drop m) k) :
    Stay s base full (m + k) := by
  intro i hi
  by_cases him : i < m
  · exact hstay i him
  · obtain ⟨hash, hhash, hslot⟩ := hmore (i - m) (by omega)
    refine ⟨hash, ?_, ?_⟩
    · rw [List.getElem?_drop] at hhash
      rwa [show m + (i - m) = i by omega] at hhash
    · rwa [hfirst, show base + m + (i - m) = base + i by omega] at hslot

theorem OrderEnds.congr (h : OrderEnds s n) (hsame : SameOrder s s') : OrderEnds s' n := by
  refine ⟨fun q hash hslot => ?_, fun hash q hplace => ?_⟩
  · rw [hsame.hashAtTopo] at hslot
    exact h.slots q hash hslot
  · rw [hsame.hashAtTopo]
    rw [hsame.topoByHash] at hplace
    exact h.places hash q hplace

theorem startOf_written (tips : List Hash) {order : List Hash} {isWritten : Bool} (horder : order = full.drop m) (hstay : Stay s base full m)
    (hfirst : base = 0 → isWritten = true ∧ m = 0) :
    ∃ k, (if isWritten || tips.isEmpty then (base + m, order) else skipOrdered s (base + m) order) = (base + k, full.drop k) ∧
      Stay s base full k ∧ (base = 0 → k = 0) := by
  subst horder
  split
  · exact ⟨m, rfl, hstay, fun hzero => (hfirst hzero).2⟩
  · rename_i hnot
    obtain ⟨k, hskip, hmore⟩ := skipOrdered_eq s (base + m) (full.drop m)
    refine ⟨m + k, ?_, hstay.append rfl hmore, fun hzero => ?_⟩
    · rw [hskip, List.drop_drop, Nat.add_assoc]
    · rw [(hfirst hzero).1] at hnot
      exact absurd rfl hnot

variable [RistrettoPoint P] {setup : Setup P} {b : NewBlock} {plan : Plan} {c c' : Blockchain P}

theorem orderFrom_rewarded (h : Rewarded s n) (hends : OrderEnds s (max n 1)) (hreplaces : Replaces s base full) (hnodup : full.Nodup)
    (hbase : s.hashAtTopo[base]? = some hash) (hstay : Stay s base full m) (hfirst : base = 0 → m = 0) {node : Node P}
    {version : BlockVersion} {stable : TopoHeight} {o o' : Ordering P} (hstorage : o.storage = s) (hnew : o.sideBlocks = ∅)
    (hrun : orderFrom node version stable (base + m) (full.drop m) o = .ok ⟨⟩ o') :
    Rewarded o'.storage (base + full.length) ∧ OrderEnds o'.storage (base + full.length) := by
  subst hstorage
  have hlen := hstay.le_length
  have hcounted : Counted o (base + m) := by
    refine ⟨h.mono (hstay.le hends hbase hfirst), fun height count hknown => ?_⟩
    rw [hnew, Std.ExtTreeMap.getElem?_empty] at hknown
    cases hknown
  have hends' : OrderEnds o.storage (base + full.length) := ⟨hreplaces.covers, hends.places⟩
  have hend : base + m + (full.drop m).length = base + full.length := by
    rw [List.length_drop]
    omega
  obtain ⟨hrewarded, hended⟩ := hcounted.orderFrom hends' hend.le (hnodup.sublist (List.drop_sublist m full))
    (hstay.notBelow hnodup hreplaces.above) hrun
  rw [hend] at hrewarded
  exact ⟨hrewarded, hended⟩

omit [RistrettoPoint P] in
theorem cleanOldOrder_ok {cleaning : Cleaning P} (hrun : cleanOldOrder plan c = .ok cleaning c') :
    KeepsRewards c.storage c'.storage ∧ c'.topoheight = c.topoheight ∧ cleaning.order = plan.fullOrder.elems.drop cleaning.skipped ∧
      Stay c.storage plan.baseTopoHeight plan.fullOrder.elems cleaning.skipped ∧
      (plan.baseTopoHeight = 0 → cleaning.isWritten = true ∧ cleaning.skipped = 0) := by
  unfold cleanOldOrder at hrun
  dsimp only at hrun
  split at hrun
  · cases hrun
  · rename_i cleaned hclean
    have hstart : CleanedTo c.storage plan.fullOrder.elems plan.baseTopoHeight plan.baseTopoHeight
        { storage := c.storage, order := plan.fullOrder.elems, isWritten := decide (plan.baseTopoHeight = 0) } :=
      ⟨.refl _, rfl, fun i hi => absurd hi (Nat.not_lt_zero i), fun _ => rfl, fun hzero => ⟨decide_eq_true hzero, rfl⟩⟩
    obtain ⟨t', hdone⟩ := hstart.cleanOrder hclean
    obtain ⟨rfl, rfl⟩ := EStateM.Result.ok.inj hrun
    split
    · exact ⟨hdone.keeps.trans ⟨⟨rfl, rfl, rfl⟩, rfl, rfl, rfl⟩, rfl, hdone.order, hdone.stay, hdone.first⟩
    · exact ⟨hdone.keeps, rfl, hdone.order, hdone.stay, hdone.first⟩

theorem reorder_rewarded (h : Rewarded c.storage n) (hends : OrderEnds c.storage (max n 1)) (hplan : plan.baseTopoHeight = base)
    (hfull : plan.fullOrder.elems = full) (hreplaces : Replaces c.storage base full)
    (hbase : c.storage.hashAtTopo[base]? = some hash) (hrun : reorder setup b plan c = .ok highestTopo c') :
    Rewarded c'.storage (base + full.length) ∧ OrderEnds c'.storage (base + full.length) ∧ highestTopo < base + full.length ∧
      c'.topoheight = c.topoheight := by
  obtain ⟨cleaning, c₁, hclean, hwrite⟩ := Exec.bind_ok_iff.mp hrun
  obtain ⟨hkeeps, htopo, horder, hstay, hfirst⟩ := cleanOldOrder_ok hclean
  rw [hplan, hfull] at hstay
  rw [hplan] at hfirst
  rw [hfull] at horder
  have hsame := hkeeps.order
  have hbase₁ : c₁.storage.hashAtTopo[base]? = some hash := by rw [hsame.hashAtTopo, hbase]
  have hstay₁ : Stay c₁.storage base full cleaning.skipped := by
    unfold Stay
    rw [hsame.hashAtTopo]
    exact hstay
  have hhighest : (if cleaning.order.isEmpty then 0 else base + cleaning.skipped + cleaning.order.length - 1) < base + full.length := by
    have hlt := hreplaces.covers base hash hbase
    have hle := hstay.le_length
    split
    · omega
    · rw [horder, List.length_drop]
      omega
  obtain ⟨k, hstart, hmore, hk⟩ := startOf_written b.header.tips horder hstay₁ hfirst
  simp only [writeNewOrder, hplan, hstart] at hwrite
  split at hwrite
  · cases hwrite
  · rename_i o' horderFrom
    obtain ⟨rfl, rfl⟩ := EStateM.Result.ok.inj hwrite
    obtain ⟨hrewarded, hended⟩ := orderFrom_rewarded (hkeeps.rewarded h) (hends.congr hsame) (hreplaces.congr hsame)
      (hfull ▸ plan.fullOrder.nodup) hbase₁ hmore hk rfl rfl horderFrom
    exact ⟨hrewarded, hended, hhighest, htopo⟩

end Reordering

variable {header : BlockHeader}

section Chains

variable {s : Storage P} {n : Nat} {b : NewBlock} {c c' : Blockchain P}

theorem BlocksListed.getD (h : BlocksListed s) (height : Nat) : ((s.blocksAtHeight[height]?).getD []).Nodup ∧
    ∀ hash, hash ∈ (s.blocksAtHeight[height]?).getD [] ↔ HasHeight s hash height := by
  cases hhashes : s.blocksAtHeight[height]? with
  | some hashes => exact ⟨h.nodup height hashes hhashes, h.mem_iff height hashes hhashes⟩
  | none =>
    refine ⟨List.nodup_nil, fun hash => ⟨fun hmem => absurd hmem List.not_mem_nil, fun hheight => ?_⟩⟩
    obtain ⟨hashes, hfound⟩ := h.listed hash height hheight
    rw [hhashes] at hfound
    cases hfound

theorem BlocksListed.insert (h : BlocksListed s) (hnew : s.blocks[hash]? = none)
    (hblocks : s'.blocks = s.blocks.insert hash header)
    (hhashes : s'.blocksAtHeight = s.blocksAtHeight.insert header.height ((s.blocksAtHeight[header.height]?).getD [] ++ [hash])) :
    BlocksListed s' := by
  have hhas : ∀ other height, HasHeight s' other height ↔ HasHeight s other height ∨ other = hash ∧ header.height = height := by
    intro other height
    unfold HasHeight
    rw [hblocks]
    by_cases hsame : hash = other
    · subst hsame
      simp [hnew]
    · rw [FiniteMap.getElem?_insert_of_ne _ _ hsame]
      simp [Ne.symm hsame]
  obtain ⟨hnodup, hmem⟩ := h.getD header.height
  have hfresh : hash ∉ (s.blocksAtHeight[header.height]?).getD [] := by
    rw [hmem]
    rintro ⟨header', hheader', -⟩
    rw [hnew] at hheader'
    cases hheader'
  have hlist : ∀ height hashes, s'.blocksAtHeight[height]? = some hashes → hashes.Nodup ∧
      ∀ other, other ∈ hashes ↔ HasHeight s' other height := by
    intro height hashes hfound
    rw [hhashes] at hfound
    by_cases hlevel : header.height = height
    · subst hlevel
      rw [FiniteMap.getElem?_insert_self', Option.some.injEq] at hfound
      subst hfound
      refine ⟨hnodup.append (List.nodup_singleton hash) (by simpa using hfresh), fun other => ?_⟩
      rw [List.mem_append, hmem, hhas, List.mem_singleton]
      simp
    · rw [FiniteMap.getElem?_insert_of_ne _ _ hlevel] at hfound
      refine ⟨h.nodup height hashes hfound, fun other => ?_⟩
      rw [h.mem_iff height hashes hfound, hhas]
      simp [hlevel]
  refine ⟨fun other height hstored => ?_, fun height hashes hfound => (hlist height hashes hfound).1,
    fun height hashes hfound => (hlist height hashes hfound).2⟩
  rw [hhashes]
  by_cases hlevel : header.height = height
  · subst hlevel
    exact ⟨_, FiniteMap.getElem?_insert_self' _ _ _⟩
  · rw [FiniteMap.getElem?_insert_of_ne _ _ hlevel]
    rcases (hhas other height).mp hstored with hat | ⟨-, hat⟩
    · exact h.listed other height hat
    · exact absurd hat hlevel

theorem Rewarded.saveBlock (h : Rewarded s n) (header : BlockHeader) (txs : List Transaction) (difficulty p : VarUint)
    (hnew : s.blocks[hash]? = none) : Rewarded (s.saveBlock header txs difficulty p hash) n := by
  have hblocks : (s.saveBlock header txs difficulty p hash).blocks = s.blocks.insert hash header := rfl
  have hordered : ∀ {q other header'}, s.OrderedAt q other header' →
      (s.saveBlock header txs difficulty p hash).OrderedAt q other header' := by
    intro q other header' hother
    have hne : hash ≠ other := by
      rintro rfl
      exact Option.some_ne_none _ (hother.block.symm.trans hnew)
    refine ⟨hother.slot, hother.place, ?_⟩
    rw [hblocks, FiniteMap.getElem?_insert_of_ne _ _ hne]
    exact hother.block
  have hlisted : BlocksListed (s.saveBlock header txs difficulty p hash) := by
    refine h.listed.insert hnew hblocks ?_
    have hfresh : ((s.blocksAtHeight[header.height]?).getD []).contains hash = false := by
      rw [Bool.eq_false_iff, Ne, List.contains_iff_mem, (h.listed.getD header.height).2]
      rintro ⟨header', hheader', -⟩
      rw [hnew] at hheader'
      cases hheader'
    show s.blocksAtHeight.insert header.height (if ((s.blocksAtHeight[header.height]?).getD []).contains hash then _ else _) = _
    rw [hfresh]
    rfl
  refine ⟨fun q hq => ?_, hlisted, fun q hq => ?_⟩
  · obtain ⟨other, header', hother⟩ := h.filled q hq
    exact ⟨other, header', hordered hother⟩
  · refine (h.stored q hq).congr (fun i hi => ?_) (fun i _ => rfl) rfl
    obtain ⟨other, header', hother⟩ := h.filled i (hi.trans_lt hq)
    rw [heightAt_eq hother, heightAt_eq (hordered hother)]

variable {setup : Setup P} {plan : Plan}

def SameChain (c c' : Blockchain P) : Prop := c'.storage = c.storage ∧ c'.topoheight = c.topoheight

variable {c₁ c₂ c₃ : Blockchain P}

theorem SameChain.trans (h : SameChain c₁ c₂) (h' : SameChain c₂ c₃) : SameChain c₁ c₃ :=
  ⟨h'.1.trans h.1, h'.2.trans h.2⟩

theorem onCaches_sameChain {α : Type} (x : Exec (Halt BlockchainError) DagCaches α) : Exec.Moves SameChain (Insertion.onCaches (P := P) x) := by
  intro c
  unfold Insertion.onCaches
  cases x c.caches with
  | ok a caches => exact ⟨rfl, rfl⟩
  | error e caches => exact ⟨rfl, rfl⟩

theorem load_sameChain {α : Type} (f : Storage P → Except BlockchainError α) : Exec.Moves SameChain (Insertion.load f) := by
  intro c
  unfold Insertion.load
  rw [Exec.bind_apply, Exec.get_apply]
  dsimp only
  cases f c.storage with
  | ok a => exact ⟨rfl, rfl⟩
  | error e => exact ⟨rfl, rfl⟩

/-- A place is asked for that holds a block. -/
theorem planOrder_ok (h : planOrder setup b c = .ok plan c') :
    SameChain c c' ∧ ∃ hash : Hash, c.storage.topoByHash[hash]? = some plan.baseTopoHeight := by
  obtain ⟨_, _, hget, h⟩ := Exec.bind_ok_iff.mp h
  cases hget
  dsimp only at h
  obtain ⟨⟨base, baseHeight⟩, c₁, hbase, h⟩ := Exec.bind_ok_iff.mp h
  obtain ⟨bestTip, c₂, hbest, h⟩ := Exec.bind_ok_iff.mp h
  obtain ⟨baseTopoHeight, c₃, htopo, h⟩ := Exec.bind_ok_iff.mp h
  obtain ⟨fullOrder, c₄, horder, h⟩ := Exec.bind_ok_iff.mp h
  cases h
  have hsame₂ := (Exec.Moves.of_ok (onCaches_sameChain _) hbase).trans (Exec.Moves.of_ok (onCaches_sameChain _) hbest)
  have hsame := (hsame₂.trans (Exec.Moves.of_ok (load_sameChain _) htopo)).trans (Exec.Moves.of_ok (onCaches_sameChain _) horder)
  refine ⟨hsame, base, ?_⟩
  rw [← hsame₂.1]
  unfold Insertion.load at htopo
  rw [Exec.bind_apply, Exec.get_apply] at htopo
  dsimp only at htopo
  unfold Storage.getTopoHeightForHash at htopo
  cases hplace : c₂.storage.topoByHash[base]? with
  | none =>
    rw [hplace] at htopo
    cases htopo
  | some t =>
    rw [hplace] at htopo
    cases htopo
    rfl

theorem cumulativeDifficulty_sameChain : Exec.Moves SameChain (cumulativeDifficulty setup b) := by
  have htrans : ∀ c₁ c₂ c₃ : Blockchain P, SameChain c₁ c₂ → SameChain c₂ c₃ → SameChain c₁ c₃ := fun _ _ _ => SameChain.trans
  have hget : Exec.Moves SameChain (get : Insertion P (Blockchain P)) := fun c => ⟨rfl, rfl⟩
  unfold cumulativeDifficulty
  split
  · exact fun c => ⟨rfl, rfl⟩
  · exact .bind htrans hget fun c => .bind htrans (onCaches_sameChain _) fun found => .bind htrans (onCaches_sameChain _) fun score c =>
      ⟨rfl, rfl⟩

theorem placeNewBlock_ok {difficulty p : VarUint} (h : placeNewBlock setup b difficulty p c = .ok plan c') :
    KeepsRewards (c.storage.saveBlock b.header b.transactions difficulty p b.blockHash) c'.storage ∧ c'.topoheight = c.topoheight ∧
      ∃ hash : Hash, c.storage.topoByHash[hash]? = some plan.baseTopoHeight := by
  obtain ⟨⟨⟩, c₁, hsave, h⟩ := Exec.bind_ok_iff.mp h
  cases hsave
  obtain ⟨score, c₂, hscore, h⟩ := Exec.bind_ok_iff.mp h
  obtain ⟨⟨⟩, c₃, hset, h⟩ := Exec.bind_ok_iff.mp h
  cases hset
  have hsame := Exec.Moves.of_ok cumulativeDifficulty_sameChain hscore
  obtain ⟨hplanned, hash, hplace⟩ := planOrder_ok h
  have hkeeps : KeepsRewards (c.storage.saveBlock b.header b.transactions difficulty p b.blockHash)
      (c₂.storage.setCumulativeDifficultyForBlockHash b.blockHash score) := by
    rw [hsame.1]
    exact ⟨⟨rfl, rfl, rfl⟩, rfl, rfl, rfl⟩
  have hplaces : (c₂.storage.setCumulativeDifficultyForBlockHash b.blockHash score).topoByHash = c.storage.topoByHash :=
    hkeeps.order.topoByHash
  refine ⟨?_, hplanned.2.trans hsame.2, hash, ?_⟩
  · rw [hplanned.1]
    exact hkeeps
  · rw [← hplaces]
    exact hplace

/-- The order stays as it was written, and the topoheight goes up to its end at most. -/
def Finishes (highestTopo : Nat) (c c' : Blockchain P) : Prop :=
  KeepsRewards c.storage c'.storage ∧ (c'.topoheight = c.topoheight ∨ c'.topoheight = highestTopo)

theorem Finishes.trans (h : Finishes highestTopo c₁ c₂) (h' : Finishes highestTopo c₂ c₃) :
    Finishes highestTopo c₁ c₃ := by
  refine ⟨h.1.trans h'.1, ?_⟩
  rcases h'.2 with heq | heq
  · rw [heq]
    exact h.2
  · exact .inr heq

theorem SameChain.finishes (h : SameChain c c') (highestTopo : Nat) : Finishes highestTopo c c' := ⟨.of_eq h.1, .inl h.2⟩

theorem finishInsertion_finishes (highestTopo : TopoHeight) : Exec.Moves (Finishes highestTopo) (finishInsertion setup b plan highestTopo) := by
  have htrans : ∀ c₁ c₂ c₃ : Blockchain P, Finishes highestTopo c₁ c₂ → Finishes highestTopo c₂ c₃ → Finishes highestTopo c₁ c₃ :=
    fun _ _ _ => Finishes.trans
  have hrefl : ∀ c : Blockchain P, Finishes highestTopo c c := fun c => SameChain.finishes ⟨rfl, rfl⟩ highestTopo
  have hcaches : ∀ {α : Type} (x : Exec (Halt BlockchainError) DagCaches α), Exec.Moves (Finishes highestTopo) (Insertion.onCaches (P := P) x) :=
    fun x c => (onCaches_sameChain x c).finishes highestTopo
  have hload : ∀ {α : Type} (f : Storage P → Except BlockchainError α), Exec.Moves (Finishes highestTopo) (Insertion.load f) :=
    fun f c => (load_sameChain f c).finishes highestTopo
  have hget : Exec.Moves (Finishes highestTopo) (get : Insertion P (Blockchain P)) := fun c => hrefl c
  have htips : Exec.Moves (Finishes highestTopo) (newTips setup plan.tips) := by
    unfold newTips
    refine .bind htrans hget fun c => .bind htrans (.filterM hrefl htrans _ fun _ _ => hcaches _) fun near => ?_
    refine .bind htrans (hload _) fun bestTip => .bind htrans (.filterM hrefl htrans _ fun hash _ => ?_) fun valid c => hrefl c
    split
    · exact fun c => hrefl c
    · exact hload _
  have hextend : Exec.Moves (Finishes highestTopo) (extendTo highestTopo : Insertion P PUnit) := by
    intro c
    unfold extendTo
    rw [Exec.modify_apply]
    show Finishes highestTopo c (if _ then _ else _)
    split
    · exact ⟨⟨⟨rfl, rfl, rfl⟩, rfl, rfl, rfl⟩, .inr rfl⟩
    · exact hrefl c
  have hlink : Exec.Moves (Finishes highestTopo) (linkTransactions b plan : Insertion P PUnit) := by
    intro c
    refine ⟨?_, .inl rfl⟩
    show KeepsRewards c.storage (if _ then _ else _)
    split
    · exact .refl _
    · have hlinked : ∀ (hashes : List Hash) (s : Storage P),
          KeepsRewards s (hashes.foldl (fun s txHash => s.addBlockLinkedToTxIfNotPresent txHash b.blockHash) s) := by
        intro hashes
        induction hashes with
        | nil => exact .refl
        | cons txHash hashes ih => exact fun s => (keepsRewards_linked s txHash b.blockHash).trans (ih _)
      exact hlinked _ _
  have hraise : Exec.Moves (Finishes highestTopo) (raiseTo b.header.height : Insertion P PUnit) := by
    intro c
    unfold raiseTo
    rw [Exec.modify_apply]
    show Finishes highestTopo c (if _ then _ else _)
    split
    · exact ⟨⟨⟨rfl, rfl, rfl⟩, rfl, rfl, rfl⟩, .inl rfl⟩
    · exact hrefl c
  unfold finishInsertion
  refine .bind htrans (hload _) fun _ => .bind htrans htips fun tips => .bind htrans hextend fun _ => .bind htrans hlink fun _ => ?_
  refine .bind htrans (fun c => ⟨⟨⟨rfl, rfl, rfl⟩, rfl, rfl, rfl⟩, .inl rfl⟩) fun _ => .bind htrans hraise fun _ => ?_
  refine .bind htrans (fun c => ⟨⟨⟨rfl, rfl, rfl⟩, rfl, rfl, rfl⟩, .inl rfl⟩) fun _ => .bind htrans (hload _) fun _ c => hrefl c

variable [RistrettoPoint P]

theorem verifyNewBlock_sameChain : Exec.Moves SameChain (verifyNewBlock setup b) := by
  have htrans : ∀ c₁ c₂ c₃ : Blockchain P, SameChain c₁ c₂ → SameChain c₂ c₃ → SameChain c₁ c₃ := fun _ _ _ => SameChain.trans
  have hrefl : ∀ c : Blockchain P, SameChain c c := fun _ => ⟨rfl, rfl⟩
  have hget : Exec.Moves SameChain (get : Insertion P (Blockchain P)) := fun c => hrefl c
  have hattempt : ∀ {α : Type} (x : Except (VerificationError BlockchainError) α),
      Exec.Moves SameChain (Exec.attempt x : Insertion P α) := by
    intro α x c
    cases x with
    | ok a => exact ⟨rfl, rfl⟩
    | error e => exact ⟨rfl, rfl⟩
  have hthrow : ∀ {α : Type} (e : Halt (VerificationError BlockchainError)), Exec.Moves SameChain (throw e : Insertion P α) := fun _ c => hrefl c
  have htxs : Exec.Moves SameChain (verifyBlockTransactions setup b) := by
    unfold verifyBlockTransactions
    dsimp only
    split
    · refine .bind htrans (hthrow _) fun _ => ?_
      split
      · refine .bind htrans (hthrow _) fun _ => .bind htrans hget fun c => ?_
        split
        · exact hthrow _
        · exact hattempt _
      · refine .bind htrans hget fun c => ?_
        split
        · exact hthrow _
        · exact hattempt _
    · split
      · refine .bind htrans (hthrow _) fun _ => .bind htrans hget fun c => ?_
        split
        · exact hthrow _
        · exact hattempt _
      · refine .bind htrans hget fun c => ?_
        split
        · exact hthrow _
        · exact hattempt _
  unfold verifyNewBlock
  refine .bind htrans hget fun c => .bind htrans (onCaches_sameChain _) fun result => .bind htrans htxs fun _ => ?_
  exact fun c => ⟨rfl, rfl⟩

theorem verifyNewBlock_new {r : VarUint × VarUint} (h : verifyNewBlock setup b c = .ok r c') : c.storage.blocks[b.blockHash]? = none := by
  obtain ⟨_, _, hget, h⟩ := Exec.bind_ok_iff.mp h
  cases hget
  obtain ⟨result, c₁, hheader, -⟩ := Exec.bind_ok_iff.mp h
  unfold Insertion.onCaches at hheader
  split at hheader
  · rename_i a caches hverified
    obtain ⟨⟨⟩, t₁, -, hverified⟩ := Exec.bind_ok_iff.mp hverified
    obtain ⟨⟨⟩, t₂, hnew, -⟩ := Exec.bind_ok_iff.mp hverified
    have hnot := refuseIf_ok hnew
    unfold Storage.hasBlockWithHash at hnot
    simpa using hnot
  · cases hheader

/-- The first `n` topoheights of a chain are filled and rewarded, and no other one is, before the genesis block but for its own. -/
structure Standing (c : Blockchain P) (n : Nat) : Prop where
  rewarded : Rewarded c.storage n
  ends : OrderEnds c.storage (max n 1)
  top : c.topoheight < max n 1

/-- The new order covers the topoheights that hold a block, and takes none from below its base. -/
def Covers (setup : Setup P) (c : Blockchain P) (b : NewBlock) : Prop :=
  ∀ result c₁ plan c₂, verifyNewBlock setup b c = .ok result c₁ → placeNewBlock setup b result.1 result.2 c₁ = .ok plan c₂ →
    Replaces c.storage plan.baseTopoHeight plan.fullOrder.elems

theorem Standing.addNewBlock (h : Standing c n) (hcovers : Covers setup c b) (hadd : addNewBlock setup b c = .ok ⟨⟩ c') :
    ∃ n', 0 < n' ∧ Standing c' n' := by
  obtain ⟨⟨difficulty, p⟩, c₁, hverify, hrest⟩ := Exec.bind_ok_iff.mp hadd
  obtain ⟨plan, c₂, hplace, hrest⟩ := Exec.bind_ok_iff.mp hrest
  obtain ⟨highestTopo, c₃, hreorder, hfinish⟩ := Exec.bind_ok_iff.mp hrest
  have hreplaces := hcovers (difficulty, p) c₁ plan c₂ hverify hplace
  have hnew := verifyNewBlock_new hverify
  obtain ⟨hstorage₁, htopo₁⟩ := Exec.Moves.of_ok verifyNewBlock_sameChain hverify
  obtain ⟨hkeeps₂, htopo₂, hash, hbase⟩ := placeNewBlock_ok hplace
  rw [hstorage₁] at hkeeps₂ hbase
  have hslots₂ : c₂.storage.hashAtTopo = c.storage.hashAtTopo := hkeeps₂.order.hashAtTopo
  have hplaces₂ : c₂.storage.topoByHash = c.storage.topoByHash := hkeeps₂.order.topoByHash
  have hrewarded₂ : Rewarded c₂.storage n := hkeeps₂.rewarded (h.rewarded.saveBlock _ _ _ _ hnew)
  have hends₂ : OrderEnds c₂.storage (max n 1) := by
    refine ⟨?_, ?_⟩
    · rw [hslots₂]
      exact h.ends.slots
    · rw [hslots₂, hplaces₂]
      exact h.ends.places
  have hreplaces₂ : Replaces c₂.storage plan.baseTopoHeight plan.fullOrder.elems := by
    refine ⟨fun other hother => ?_, ?_⟩
    · have habove := hreplaces.above other hother
      unfold aboveBase Storage.isBlockTopologicalOrdered at habove ⊢
      rw [hplaces₂, hslots₂]
      exact habove
    · rw [hslots₂]
      exact hreplaces.covers
  obtain ⟨first, hfirst⟩ := h.ends.places hash plan.baseTopoHeight hbase
  have hfirst₂ : c₂.storage.hashAtTopo[plan.baseTopoHeight]? = some first := by rw [hslots₂, hfirst]
  obtain ⟨hrewarded₃, hends₃, hhighest, htopo₃⟩ := reorder_rewarded hrewarded₂ hends₂ rfl rfl hreplaces₂ hfirst₂ hreorder
  obtain ⟨hkeeps, htopo⟩ := Exec.Moves.of_ok (finishInsertion_finishes highestTopo) hfinish
  have hcovered := hreplaces.covers
  have hlt := hcovered plan.baseTopoHeight first hfirst
  generalize plan.baseTopoHeight + plan.fullOrder.elems.length = n' at *
  have hpos : 0 < n' := Nat.pos_of_ne_zero fun hzero => by simp [hzero] at hlt
  -- the order was filled below `n`, and all of this is covered
  have hle : n ≤ n' := by
    cases n with
    | zero => exact Nat.zero_le _
    | succ n =>
      obtain ⟨other, header, hordered⟩ := h.rewarded.filled n (Nat.lt_succ_self n)
      exact hcovered n other hordered.slot
  have hmax : max n' 1 = n' := max_eq_left hpos
  refine ⟨n', hpos, hkeeps.rewarded hrewarded₃, ?_, ?_⟩
  · rw [hmax]
    exact hends₃.congr hkeeps.order
  · rw [hmax]
    rcases htopo with heq | heq
    · rw [heq, htopo₃, htopo₂, htopo₁]
      exact h.top.trans_le (max_le hle hpos)
    · rw [heq]
      exact hhighest

end Chains

section Runs

variable [RistrettoPoint P] {setup : Setup P} {c c' : Blockchain P}

/-- The chains that grow from a genesis block, by insertions that are allowed and by blocks that are refused. -/
inductive Grown (setup : Setup P) (allowed : Blockchain P → NewBlock → Prop) : Blockchain P → Prop
  | genesis {asset : Versioned AssetData} {b : NewBlock} {c : Blockchain P} (hallowed : allowed (createGenesis asset b.blockHash) b)
      (hadd : addNewBlock setup b (createGenesis asset b.blockHash) = .ok ⟨⟩ c) : Grown setup allowed c
  | block {b : NewBlock} {c c' : Blockchain P} (hgrown : Grown setup allowed c) (hallowed : allowed c b)
      (hadd : addNewBlock setup b c = .ok ⟨⟩ c') : Grown setup allowed c'
  | refused {b : NewBlock} {c c' : Blockchain P} {e : Halt (VerificationError BlockchainError)} (hgrown : Grown setup allowed c)
      (hrefused : verifyNewBlock setup b c = .error e c') : Grown setup allowed c'

omit [RistrettoPoint P] in
theorem createGenesis_standing (asset : Versioned AssetData) (hash : Hash) : Standing (createGenesis (P := P) asset hash) 0 := by
  have hslots : (createGenesis (P := P) asset hash).storage.hashAtTopo = (∅ : FiniteMap TopoHeight Hash).insert 0 hash := rfl
  have hplaces : (createGenesis (P := P) asset hash).storage.topoByHash = (∅ : FiniteMap Hash TopoHeight).insert hash 0 := rfl
  have hblocks : (createGenesis (P := P) asset hash).storage.blocks = ∅ := rfl
  have hhashes : (createGenesis (P := P) asset hash).storage.blocksAtHeight = ∅ := rfl
  refine ⟨⟨fun q hq => absurd hq (Nat.not_lt_zero q), ⟨?_, ?_, ?_⟩, fun q hq => absurd hq (Nat.not_lt_zero q)⟩, ⟨?_, ?_⟩, Nat.one_pos⟩
  · rintro other height ⟨header, hheader, -⟩
    rw [hblocks, Std.ExtTreeMap.getElem?_empty] at hheader
    cases hheader
  · intro height hashes hfound
    rw [hhashes, Std.ExtTreeMap.getElem?_empty] at hfound
    cases hfound
  · intro height hashes hfound
    rw [hhashes, Std.ExtTreeMap.getElem?_empty] at hfound
    cases hfound
  · intro q other hslot
    rw [hslots] at hslot
    by_cases hq : 0 = q
    · exact hq ▸ Nat.one_pos
    · rw [FiniteMap.getElem?_insert_of_ne _ _ hq, Std.ExtTreeMap.getElem?_empty] at hslot
      cases hslot
  · intro other q hplace
    rw [hplaces] at hplace
    by_cases hother : hash = other
    · subst hother
      rw [FiniteMap.getElem?_insert_self', Option.some.injEq] at hplace
      subst hplace
      exact ⟨hash, hslots ▸ FiniteMap.getElem?_insert_self' _ _ _⟩
    · rw [FiniteMap.getElem?_insert_of_ne _ _ hother, Std.ExtTreeMap.getElem?_empty] at hplace
      cases hplace

theorem Grown.standing (h : Grown setup (Covers setup) c) : ∃ n, 0 < n ∧ Standing c n := by
  induction h with
  | genesis hallowed hadd => exact (createGenesis_standing _ _).addNewBlock hallowed hadd
  | block _ hallowed hadd ih =>
    obtain ⟨n, -, hstanding⟩ := ih
    exact hstanding.addNewBlock hallowed hadd
  | @refused b c c' e _ hrefused ih =>
    obtain ⟨n, hpos, hstanding⟩ := ih
    have hmoves : SameChain c (Exec.stateOf (verifyNewBlock setup b c)) := verifyNewBlock_sameChain c
    rw [hrefused] at hmoves
    obtain ⟨hstorage, htopo⟩ : c'.storage = c.storage ∧ c'.topoheight = c.topoheight := hmoves
    refine ⟨n, hpos, ?_, ?_, ?_⟩
    · rw [hstorage]
      exact hstanding.rewarded
    · rw [hstorage]
      exact hstanding.ends
    · rw [htopo]
      exact hstanding.top

omit [RistrettoPoint P] in
theorem getBlockReward_eq (h : Rewarded c.storage n) (hlt : t < n) (htop : t ≤ c.topoheight)
    (hordered : c.storage.OrderedAt t hash header) (pastSupply : Nat) :
    c.getBlockReward hash pastSupply t = .ok (rewardAt (heightAt c.storage) pastSupply t) := by
  have hfilled := h.filled.mono hlt.le
  have hheight : c.storage.getHeightForBlockHash hash = .ok header.height := by
    rw [Storage.getHeightForBlockHash, Storage.getBlockHeaderByHash, hordered.block]
    rfl
  have hside : c.isSideBlock hash = .ok (decide (SideAt (heightAt c.storage) t)) := isSideBlock_ordered hfilled hordered htop
  unfold Blockchain.getBlockReward rewardAt
  rw [hside, heightAt_eq hordered]
  by_cases hsideAt : SideAt (heightAt c.storage) t
  · simp only [bind, Except.bind, decide_eq_true hsideAt, if_true, hheight, countSideBlocks_eq h.listed hfilled hordered]
    rfl
  · simp only [bind, Except.bind, decide_eq_false hsideAt, Bool.false_eq_true, if_false]
    rfl

/-- As long as every new order covers the topoheights that hold a block, the reward that is stored at a topoheight is the one of
its block in the order, with the side blocks of its height counted below it, and it is what the node answers for the block. -/
theorem rewards_follow_order (setup : Setup P) (c : Blockchain P) (h : Grown setup (Covers setup) c) (t : Nat) (htop : t ≤ c.topoheight) :
    ∃ hash header pastSupply, c.storage.OrderedAt t hash header ∧ supplyBefore c.storage t = some pastSupply ∧
      c.storage.rewards[t]? = some (rewardAt (heightAt c.storage) pastSupply t) ∧
      c.getBlockReward hash pastSupply t = .ok (rewardAt (heightAt c.storage) pastSupply t) := by
  obtain ⟨n, hpos, hstanding⟩ := h.standing
  have hlt : t < n := by
    have htop' := hstanding.top
    rw [max_eq_left hpos] at htop'
    exact htop.trans_lt htop'
  obtain ⟨hash, header, hordered⟩ := hstanding.rewarded.filled t hlt
  obtain ⟨pastSupply, hpast, hreward, -⟩ := hstanding.rewarded.stored t hlt
  exact ⟨hash, header, pastSupply, hordered, hpast, hreward, getBlockReward_eq hstanding.rewarded hlt htop hordered pastSupply⟩

end Runs

section Samples

/-- The checks of a header with hashes of proof of work that meet every difficulty. -/
def lightRules : HeaderRules where
  network := .mainnet
  simulator := false
  skipPowVerification := false
  xelis := ⟨⟨Unit, (), fun _ pad => (.ok Hash.zero, pad)⟩, ⟨Unit, (), fun _ pad => (.ok Hash.zero, pad)⟩, .ok []⟩
  blake3 _ := Hash.zero

def lightSetup : Setup ℤ := { clearNode with rules := lightRules, threading := oneThread, txHash := fun _ => 0, turns := 100 }

def arrival (hash : Hash) (timestamp height : Nat) (tips : List Hash) : NewBlock where
  header := ⟨.v0, tips, timestamp, height, 0, List.replicate 32 0, 9, []⟩
  transactions := []
  blockHash := hash
  size := 100
  currentTimestamp := 1000000000

/-- The blocks one after the other, as long as they pass a test and are inserted. -/
def insertAll (setup : Setup ℤ) (test : Blockchain ℤ → NewBlock → Bool) : List NewBlock → Blockchain ℤ → Option (Blockchain ℤ)
  | [], c => some c
  | b :: bs, c =>
    if test c b then
      match addNewBlock setup b c with
      | .ok _ c' => insertAll setup test bs c'
      | .error _ _ => none
    else none

def sampleGenesis (hash : Hash) : Blockchain ℤ := createGenesis ⟨none, ⟨8, "XELIS", "XEL", none, none⟩⟩ hash

/-- A chain from its genesis block on. -/
def grow (setup : Setup ℤ) (test : Blockchain ℤ → NewBlock → Bool) (b : NewBlock) (bs : List NewBlock) : Option (Blockchain ℤ) :=
  (insertAll setup test [b] (sampleGenesis b.blockHash)).bind (insertAll setup test bs)

variable {test : Blockchain ℤ → NewBlock → Bool} {bs : List NewBlock}

theorem insertAll_cons {setup : Setup ℤ} {b : NewBlock} {c c' : Blockchain ℤ}
    (h : insertAll setup test (b :: bs) c = some c') :
    test c b = true ∧ ∃ c₁, addNewBlock setup b c = .ok ⟨⟩ c₁ ∧ insertAll setup test bs c₁ = some c' := by
  rw [insertAll] at h
  split at h
  · rename_i htest
    cases hadd : addNewBlock setup b c with
    | ok _ c₁ =>
      rw [hadd] at h
      exact ⟨htest, c₁, rfl, h⟩
    | error e c₁ =>
      rw [hadd] at h
      cases h
  · cases h

theorem grown_of_grow {setup : Setup ℤ} {allowed : Blockchain ℤ → NewBlock → Prop}
    (hsound : ∀ c b, test c b = true → allowed c b) {b : NewBlock} {c : Blockchain ℤ}
    (h : grow setup test b bs = some c) : Grown setup allowed c := by
  obtain ⟨c₀, hgenesis, hrest⟩ := Option.bind_eq_some_iff.mp h
  obtain ⟨htest, c₁, hadd, hdone⟩ := insertAll_cons hgenesis
  cases hdone
  have hgrown : Grown setup allowed c₀ := .genesis (hsound _ _ htest) hadd
  clear h hgenesis htest hadd
  induction bs generalizing c₀ with
  | nil =>
    cases hrest
    exact hgrown
  | cons b bs ih =>
    obtain ⟨htest, c₁, hadd, hrest⟩ := insertAll_cons hrest
    exact ih c₁ hrest (.block hgrown (hsound _ _ htest) hadd)

/-- Whether a new order covers the old one. -/
def covers (setup : Setup ℤ) (c : Blockchain ℤ) (b : NewBlock) : Bool :=
  match verifyNewBlock setup b c with
  | .error _ _ => true
  | .ok result c₁ =>
    match placeNewBlock setup b result.1 result.2 c₁ with
    | .error _ _ => true
    | .ok plan _ => plan.fullOrder.elems.all (aboveBase c.storage plan.baseTopoHeight) &&
        c.storage.hashAtTopo.toList.all fun e => decide (e.1 < plan.baseTopoHeight + plan.fullOrder.elems.length)

theorem covers_sound (setup : Setup ℤ) (c : Blockchain ℤ) (b : NewBlock) (h : covers setup c b = true) : Covers setup c b := by
  intro result c₁ plan c₂ hverify hplace
  simp only [covers, hverify, hplace, Bool.and_eq_true, List.all_eq_true, decide_eq_true_eq] at h
  refine ⟨h.1, fun t hash hslot => ?_⟩
  exact h.2 (t, hash) (Std.ExtTreeMap.mem_toList_iff_getElem?_eq_some.mpr hslot)

/-- Two blocks of one height: the second one in the order is a side block. -/
theorem rewards_follow_order_forked :
    ∃ c : Blockchain ℤ, c.topoheight = 3 ∧ ∃ hash header pastSupply, c.storage.OrderedAt 2 hash header ∧
      supplyBefore c.storage 2 = some pastSupply ∧ c.storage.rewards[2]? = some (rewardAt (heightAt c.storage) pastSupply 2) ∧
      c.getBlockReward hash pastSupply 2 = .ok (rewardAt (heightAt c.storage) pastSupply 2) := by
  have hrun : (match grow lightSetup (covers lightSetup) (arrival 1 1000 0 [])
        [arrival 2 1001 1 [1], arrival 3 1001 1 [1], arrival 4 1002 2 [2, 3]] with
      | some c => c.topoheight == 3
      | none => false) = true := by decide +kernel
  split at hrun
  · rename_i c hgrow
    have htop : c.topoheight = 3 := beq_iff_eq.mp hrun
    have hle : 2 ≤ c.topoheight := by
      rw [htop]
      decide
    exact ⟨c, htop, rewards_follow_order lightSetup c (grown_of_grow (covers_sound lightSetup) hgrow) 2 hle⟩
  · cases hrun

/-- A heavier branch that is shorter takes over: the topoheight of the chain stays, and its last place keeps the reward that
followed from the old order. -/
theorem shorter_order_leaves_reward :
    ¬∀ c, Grown lightSetup (fun _ _ => True) c → ∀ t ≤ c.topoheight, ∃ hash header pastSupply, c.storage.OrderedAt t hash header ∧
      supplyBefore c.storage t = some pastSupply ∧ c.storage.rewards[t]? = some (rewardAt (heightAt c.storage) pastSupply t) ∧
      c.getBlockReward hash pastSupply t = .ok (rewardAt (heightAt c.storage) pastSupply t) := by
  intro hall
  have hrun : (match grow lightSetup (fun _ _ => true) (arrival 1 1000 0 [])
        [arrival 2 1001 1 [1], arrival 3 1002 2 [2], arrival 4 1003 3 [3], arrival 5 1004 4 [4], arrival 6 901005 4 [4],
          arrival 7 1005 5 [5], arrival 8 1006 6 [7], arrival 9 1801005 5 [5, 6], arrival 10 2701005 6 [9], arrival 11 3601005 7 [10],
          arrival 12 1007 7 [8]] with
      | some c => c.topoheight == 8 && (supplyBefore c.storage 8).any fun pastSupply =>
          c.storage.rewards[8]? != some (rewardAt (heightAt c.storage) pastSupply 8)
      | none => false) = true := by decide +kernel
  split at hrun
  · rename_i c hgrow
    obtain ⟨htop, hstale⟩ := Bool.and_eq_true_iff.mp hrun
    have hgrown : Grown lightSetup (fun _ _ => True) c := grown_of_grow (fun _ _ _ => trivial) hgrow
    obtain ⟨hash, header, pastSupply, -, hpast, hreward, -⟩ := hall c hgrown 8 (beq_iff_eq.mp htop).ge
    rw [hpast, Option.any_some, hreward, bne_self_eq_false] at hstale
    cases hstale
  · cases hrun

end Samples

end Xelis.Blockchain
