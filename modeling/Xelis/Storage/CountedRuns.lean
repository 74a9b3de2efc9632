import Xelis.Storage.CountedVersions

namespace Xelis.Storage.SledStorage

open Lib (Exec)

variable {s s' : SledStorage} {ordered : Prop}

section Rewind

abbrev Reads {α : Type} (x : Disk α) : Prop := Exec.Moves (fun s s' => s' = s) x

theorem reads_trans (a b c : SledStorage) (h : b = a) (h' : c = b) : c = a := h'.trans h

theorem loadDisk_reads (T : Type) [Serializer T] (tree key : IVec) (context : DiskContext) :
    Reads (loadDisk T tree key context) := by
  intro s
  rw [loadDisk_apply]
  cases s.loadFromDisk T tree key context <;> rfl

theorem rewrite_count_inStep (h : s.InStep ordered) (counter : Counter) :
    (s.insertIntoDisk EXTRA (Counter.key counter) (Serializer.toBytes (s.counters.get counter))).2.InStep ordered := by
  have hid : mapCounters id s = s := by
    unfold mapCounters
    rcases hs : s.snapshot with _ | snapshot
    · show SledStorage.mk s.db none s.cache = s
      rw [← hs]
    · show SledStorage.mk s.db (some snapshot) s.cache = s
      rw [← hs]
  have hstored := store_inStep (f := id) (.count counter) h (Keeps.refl (fun _ => False) s h.ready) (fun _ => rfl)
    (fun _ _ => rfl) h.now.counts h.now.tips h.now.positions
  rw [hid] at hstored
  exact hstored

/-- How far down the blocks are pruned. -/
def prunedUntil (s : SledStorage) : TopoHeight := (s.cache.prunedTopoheight.map UInt64.toNat).getD 0

variable [Serializer BlockHeader]

theorem searchSyncBlock_reads (prunedTopoheight lowestTopo : TopoHeight) : Reads (searchSyncBlock prunedTopoheight lowestTopo) := by
  induction lowestTopo with
  | zero => exact fun s => rfl
  | succ lowestTopo ih =>
    rw [searchSyncBlock]
    split
    · refine (loadDisk_reads _ _ _ _).bind reads_trans fun hash => (loadDisk_reads _ _ _ _).bind reads_trans fun header =>
        (loadDisk_reads _ _ _ _).bind reads_trans fun blocks => ?_
      split
      · exact fun s => rfl
      · exact ih
    · exact fun s => rfl

theorem lowestTopoheight_reads (prunedTopoheight topoheight : TopoHeight) (count : Nat) (untilTopoHeight : TopoHeight) :
    Reads (lowestTopoheight prunedTopoheight topoheight count untilTopoHeight) := by
  refine (searchSyncBlock_reads _ _).bind reads_trans fun lowestTopo => ?_
  dsimp only
  split <;> exact fun s => rfl

variable [Serializer Transaction] [Serializer VarUint]

/-- The rewind deletes no block: it is refused, has nowhere to go, or stops at the first one. -/
def PopsNothing (s : SledStorage) (topoheight : TopoHeight) (blocksCount : Nat) (untilTopoHeight : TopoHeight) : Prop :=
  topoheight < blocksCount ∨ topoheight ≤ untilTopoHeight ∨ s.KeepsBlock topoheight ∨
    ∀ lowestTopo, lowestTopoheight s.prunedUntil topoheight blocksCount untilTopoHeight s = .ok lowestTopo s →
      topoheight ≤ lowestTopo

variable {prunedTopoheight lowestTopo untilTopoHeight topoheight : TopoHeight}

/-- The loop ends where it starts, or fails at the first block. -/
theorem popLoop_nothing (h : s.InStep ordered) (r : Rewound)
    (hstops : topoheight ≤ lowestTopo ∨ topoheight ≤ untilTopoHeight ∨ s.KeepsBlock topoheight) :
    popLoop prunedTopoheight lowestTopo untilTopoHeight topoheight r s = .ok r s ∨
      ∃ e s', popLoop prunedTopoheight lowestTopo untilTopoHeight topoheight r s = .error e s' ∧ s'.InStep ordered := by
  cases topoheight with
  | zero => exact .inl rfl
  | succ topoheight =>
    rw [popLoop]
    by_cases hstop : topoheight + 1 ≤ lowestTopo ∨ topoheight + 1 ≤ untilTopoHeight
    · rw [if_pos hstop]
      exact .inl rfl
    · have hkeeps : s.KeepsBlock (topoheight + 1) := by
        rcases hstops with hle | hle | hkeeps
        · exact absurd (.inl hle) hstop
        · exact absurd (.inr hle) hstop
        · exact hkeeps
      obtain ⟨e, s', hrun, h'⟩ := deleteBlockAtTopoheight_keeps h hkeeps
      rw [if_neg hstop, Exec.bind_apply, hrun]
      exact .inr ⟨e, s', rfl, h'⟩

theorem popBlocks_inStep (h : s.InStep ordered) (hs : s.snapshot = none) (height : Nat)
    {blocksCount : Nat} (hpops : s.PopsNothing topoheight blocksCount untilTopoHeight) :
    (Exec.stateOf (popBlocks height topoheight blocksCount untilTopoHeight s)).InStep ordered := by
  unfold popBlocks
  by_cases hcount : topoheight < blocksCount
  · rw [if_pos hcount]
    exact h
  rw [if_neg hcount]
  show (Exec.stateOf ((lowestTopoheight s.prunedUntil topoheight blocksCount untilTopoHeight >>= _) s)).InStep ordered
  rw [Exec.bind_apply]
  have hreads := lowestTopoheight_reads s.prunedUntil topoheight blocksCount untilTopoHeight s
  cases hlowest : lowestTopoheight s.prunedUntil topoheight blocksCount untilTopoHeight s with
  | error e s₁ =>
    rw [hlowest] at hreads
    exact (show s₁ = s from hreads) ▸ h
  | ok lowestTopo s₁ =>
    rw [hlowest] at hreads
    rw [show s₁ = s from hreads] at hlowest ⊢
    dsimp only
    have hstops : topoheight ≤ lowestTopo ∨ topoheight ≤ untilTopoHeight ∨ s.KeepsBlock topoheight := by
      rcases hpops with hrefused | hle | hkeeps | hlow
      · exact absurd hrefused hcount
      · exact .inr (.inl hle)
      · exact .inr (.inr hkeeps)
      · exact .inl (hlow lowestTopo hlowest)
    rw [Exec.bind_apply]
    rcases popLoop_nothing h _ hstops with hdone | ⟨e, s', hfailed, h'⟩
    · rw [hdone]
      dsimp only
      refine bind_inStep (clearCaches_inStep h hs) fun _ s₁ hclear h₁ => ?_
      refine bind_inStep (storeTips_inStep h₁ (h.now.tips.filter _)) fun _ s₂ _ h₂ => ?_
      have htop : ∀ slot : Slot, slot.key ≠ TOP_TOPO_HEIGHT := by
        intro slot
        rcases slot with counter | _ | _ | _
        · cases counter <;> decide +kernel
        all_goals decide +kernel
      have hheight : ∀ slot : Slot, slot.key ≠ TOP_HEIGHT := by
        intro slot
        rcases slot with counter | _ | _ | _
        · cases counter <;> decide +kernel
        all_goals decide +kernel
      refine bind_inStep (Silent.inStep (insertDisk_extra_silent htop) h₂) fun _ s₃ _ h₃ => ?_
      refine bind_inStep (Silent.inStep (insertDisk_extra_silent hheight) h₃) fun _ s₄ _ h₄ => ?_
      rw [Exec.bind_apply, count_apply]
      dsimp only
      rw [UInt64.sub_zero]
      exact rewrite_count_inStep h₄ .blocks
    · rw [hfailed]
      exact h'

end Rewind

section Runs

/-- What is done to a storage. Writes to trees that are neither counted nor hold counters stand for themselves. -/
inductive Operation where
  | saveBlock (block : BlockHeader) (txs : List Transaction) (difficulty p : VarUint) (hash : Hash)
  | deleteBlockWithHash (hash : Hash)
  | deleteTransaction (hash : Hash)
  | deleteBlockAtTopoheight (topoheight : TopoHeight)
  | popBlocks (height : Nat) (topoheight : TopoHeight) (blocksCount : Nat) (untilTopoHeight : TopoHeight)
  | addAsset (asset : Hash) (topoheight : TopoHeight) (data : IVec)
  | setLastTopoheightForNonce (key : PublicKey) (topoheight : TopoHeight)
  | deleteLastTopoheightForNonce (key : PublicKey)
  | setLastTopoheightForContract (hash : Hash) (topoheight : TopoHeight)
  | deleteLastTopoheightForContract (hash : Hash)
  | deleteVersionsAt (data : Pointed) (topoheight : UInt64)
  | deleteVersionsAbove (data : Pointed) (topoheight : UInt64)
  | deleteVersionsBelow (data : Pointed) (topoheight : UInt64) (keepLast : Bool)
  | addBlockExecutionToOrder (hash : Hash)
  | swapBlocksExecutionsPositions (left right : Hash)
  | storeTips (tips : { tips : Tips // tips.Nodup })
  | setPrunedTopoheight (topoheight : UInt64)
  | insert (tree : { tree : IVec // Outside tree }) (key value : IVec)
  | remove (tree : { tree : IVec // Outside tree }) (key : IVec)
  | startCommitPoint
  | endCommitPoint (apply : Bool)
  | clearCaches

namespace Operation

def adds : Operation → Bool
  | .addBlockExecutionToOrder _ => true
  | _ => false

variable [Serializer BlockHeader] [Serializer Transaction] [Serializer VarUint]

def apply : Operation → SledStorage → SledStorage
  | .saveBlock block txs difficulty p hash, s => Exec.stateOf (SledStorage.saveBlock block txs difficulty p hash s)
  | .deleteBlockWithHash hash, s => Exec.stateOf (SledStorage.deleteBlockWithHash hash s)
  | .deleteTransaction hash, s => Exec.stateOf (SledStorage.deleteTransaction hash s)
  | .deleteBlockAtTopoheight topoheight, s => Exec.stateOf (SledStorage.deleteBlockAtTopoheight topoheight s)
  | .popBlocks height topoheight blocksCount untilTopoHeight, s =>
    Exec.stateOf (SledStorage.popBlocks height topoheight blocksCount untilTopoHeight s)
  | .addAsset asset topoheight data, s => Exec.stateOf (SledStorage.addAsset asset topoheight data s)
  | .setLastTopoheightForNonce key topoheight, s => Exec.stateOf (SledStorage.setLastTopoheightForNonce key topoheight s)
  | .deleteLastTopoheightForNonce key, s => Exec.stateOf (SledStorage.deleteLastTopoheightForNonce key s)
  | .setLastTopoheightForContract hash topoheight, s => Exec.stateOf (SledStorage.setLastTopoheightForContract hash topoheight s)
  | .deleteLastTopoheightForContract hash, s => Exec.stateOf (SledStorage.deleteLastTopoheightForContract hash s)
  | .deleteVersionsAt data topoheight, s =>
    Exec.stateOf (deleteVersionedTreeAtTopoheight data.pointers data.versions topoheight s)
  | .deleteVersionsAbove data topoheight, s =>
    Exec.stateOf (deleteVersionedTreeAboveTopoheight data.pointers data.versions topoheight data.context s)
  | .deleteVersionsBelow data topoheight keepLast, s =>
    Exec.stateOf (deleteVersionedTreeBelowTopoheight data.pointers data.versions topoheight keepLast data.context s)
  | .addBlockExecutionToOrder hash, s => Exec.stateOf (SledStorage.addBlockExecutionToOrder hash s)
  | .swapBlocksExecutionsPositions left right, s => Exec.stateOf (SledStorage.swapBlocksExecutionsPositions left right s)
  | .storeTips tips, s => Exec.stateOf (SledStorage.storeTips tips.1 s)
  | .setPrunedTopoheight topoheight, s => Exec.stateOf (SledStorage.setPrunedTopoheight topoheight s)
  | .insert tree key value, s => (s.insertIntoDisk tree.1 key value).2
  | .remove tree key, s => (s.removeFromDiskInternal tree.1 key).2
  | .startCommitPoint, s => Exec.stateOf (commitPoint SledStorage.startCommitPoint s)
  | .endCommitPoint apply, s => Exec.stateOf (commitPoint (SledStorage.endCommitPoint · apply) s)
  | .clearCaches, s => Exec.stateOf (SledStorage.clearCaches s)

/-- From which states the operation counts right. -/
def Meets : Operation → SledStorage → Prop
  | .saveBlock _ _ _ _ hash, s => s.Exact BLOCKS (hashToBytes hash)
  | .deleteBlockWithHash hash, s => s.Exact BLOCKS (hashToBytes hash) ∧ s.Readable hash
  | .deleteTransaction hash, s => s.KeepsTransaction hash
  | .deleteBlockAtTopoheight topoheight, s => s.KeepsBlock topoheight
  | .popBlocks _ topoheight blocksCount untilTopoHeight, s =>
    s.snapshot = none ∧ s.PopsNothing topoheight blocksCount untilTopoHeight
  | .addAsset asset _ _, s => s.Exact ASSETS (hashToBytes asset)
  | .setLastTopoheightForNonce key _, s => s.Exact NONCES (hashToBytes key)
  | .deleteLastTopoheightForNonce key, s => s.Exact NONCES (hashToBytes key)
  | .setLastTopoheightForContract hash _, s => s.Exact CONTRACTS (hashToBytes hash)
  | .deleteLastTopoheightForContract hash, s => s.Exact CONTRACTS (hashToBytes hash)
  | .deleteVersionsAt data topoheight, s => s.KeepsPointersAt data topoheight
  | .deleteVersionsAbove data topoheight, s => s.KeepsPointersAbove data topoheight
  | .clearCaches, s => s.snapshot = none
  | _, _ => True

theorem apply_inStep (h : s.InStep ordered) {op : Operation} (hmeets : op.Meets s) :
    (op.apply s).InStep (ordered ∧ op.adds = false) := by
  have hkept (h' : (op.apply s).InStep ordered) (hadds : op.adds = false) : (op.apply s).InStep (ordered ∧ op.adds = false) := by
    rw [hadds, eq_self_iff_true, and_true]
    exact h'
  cases op with
  | saveBlock block txs difficulty p hash => exact hkept (saveBlock_inStep h block txs difficulty p hmeets) rfl
  | deleteBlockWithHash hash => exact hkept (deleteBlockWithHash_inStep h hmeets.1 hmeets.2) rfl
  | deleteTransaction hash => exact hkept (deleteTransaction_inStep h hmeets) rfl
  | deleteBlockAtTopoheight topoheight =>
    obtain ⟨e, s', hrun, h'⟩ := deleteBlockAtTopoheight_keeps h hmeets
    refine hkept ?_ rfl
    show (Exec.stateOf (SledStorage.deleteBlockAtTopoheight topoheight s)).InStep ordered
    rw [hrun]
    exact h'
  | popBlocks height topoheight blocksCount untilTopoHeight =>
    exact hkept (popBlocks_inStep h hmeets.1 height hmeets.2) rfl
  | addAsset asset topoheight data => exact hkept (addAsset_inStep h topoheight data hmeets) rfl
  | setLastTopoheightForNonce key topoheight => exact hkept (insertCounted_inStep _ _ h hmeets) rfl
  | deleteLastTopoheightForNonce key => exact hkept (removeCounted_inStep _ h hmeets) rfl
  | setLastTopoheightForContract hash topoheight => exact hkept (insertCounted_inStep _ _ h hmeets) rfl
  | deleteLastTopoheightForContract hash => exact hkept (removeCounted_inStep _ h hmeets) rfl
  | deleteVersionsAt data topoheight => exact hkept (deleteVersionedTreeAtTopoheight_inStep h hmeets) rfl
  | deleteVersionsAbove data topoheight => exact hkept (deleteVersionedTreeAboveTopoheight_inStep h hmeets) rfl
  | deleteVersionsBelow data topoheight keepLast =>
    exact hkept (Silent.inStep (deleteVersionedTreeBelowTopoheight_silent _ keepLast data.versions_outside) h) rfl
  | addBlockExecutionToOrder hash =>
    have hfalse : (ordered ∧ (Operation.addBlockExecutionToOrder hash).adds = false) = False := by
      simp [adds]
    rw [hfalse]
    exact addBlockExecutionToOrder_inStep h hash
  | swapBlocksExecutionsPositions left right => exact hkept (swapBlocksExecutionsPositions_inStep h left right) rfl
  | storeTips tips => exact hkept (storeTips_inStep h tips.2) rfl
  | setPrunedTopoheight topoheight => exact hkept (setPrunedTopoheight_inStep h topoheight) rfl
  | insert tree key value => exact hkept (h.quiet (insert_quiet tree.2)) rfl
  | remove tree key => exact hkept (h.quiet (remove_quiet tree.2)) rfl
  | startCommitPoint => exact hkept (startCommitPoint_inStep h) rfl
  | endCommitPoint apply => exact hkept (endCommitPoint_inStep h apply) rfl
  | clearCaches => exact hkept (clearCaches_inStep h hmeets) rfl

end Operation

variable [Serializer BlockHeader] [Serializer Transaction] [Serializer VarUint]

def after (s : SledStorage) (ops : List Operation) : SledStorage := ops.foldl (fun s op => op.apply s) s

/-- Every operation of the run starts from a state in which it counts right. -/
def AllMeet : List Operation → SledStorage → Prop
  | [], _ => True
  | op :: ops, s => op.Meets s ∧ AllMeet ops (op.apply s)

theorem after_inStep (ops : List Operation) (h : s.InStep ordered) (hmeets : AllMeet ops s) :
    (s.after ops).InStep (ordered ∧ ∀ op ∈ ops, op.adds = false) := by
  induction ops generalizing s ordered with
  | nil =>
    have hall : (ordered ∧ ∀ op ∈ ([] : List Operation), op.adds = false) = ordered := by simp
    rw [hall]
    exact h
  | cons op ops ih =>
    have hrest := ih (Operation.apply_inStep h hmeets.1) hmeets.2
    have hall : (ordered ∧ ∀ op' ∈ op :: ops, op'.adds = false) =
        ((ordered ∧ op.adds = false) ∧ ∀ op' ∈ ops, op'.adds = false) := by
      simp only [List.mem_cons, forall_eq_or_imp, and_assoc]
    rw [hall]
    exact hrest

theorem AllMeet.of_append {done rest : List Operation} (h : AllMeet (done ++ rest) s) : AllMeet done s := by
  induction done generalizing s with
  | nil => exact trivial
  | cons op done ih => exact ⟨h.1, ih h.2⟩

/-- In a run whose operations all start where they count right, the counts are the numbers of keys in every state, and are
loaded from the disk as they are. As long as no block was put into the order of execution, so is everything else that is
loaded, and the positions stay unique. -/
theorem counters_equal_cardinalities (hs : s.InStep True) (ops done rest : List Operation) (hmeets : AllMeet ops s)
    (hops : ops = done ++ rest) :
    (∀ counter, count counter (s.after done) =
      .ok (UInt64.ofNat ((s.after done).iterKeys (Counter.tree counter)).length) (s.after done)) ∧
    (∀ counter, (s.after done).reload.get counter = (s.after done).counters.get counter) ∧
    ((∀ hash, Operation.addBlockExecutionToOrder hash ∉ done) →
      (s.after done).reload = (s.after done).counters ∧ (s.after done).UniquePositions) := by
  rw [hops] at hmeets
  have h := after_inStep done hs hmeets.of_append
  refine ⟨fun counter => ?_, h.now.reload_get, fun hnone => ?_⟩
  · rw [count_apply, h.now.counts]
    rfl
  · have hadds : True ∧ ∀ op ∈ done, op.adds = false := by
      refine ⟨trivial, fun op hop => ?_⟩
      cases op with
      | addBlockExecutionToOrder hash => exact absurd hop (hnone hash)
      | _ => rfl
    rw [eq_true hadds] at h
    exact ⟨h.now.reload_eq, h.now.positions trivial⟩

end Runs

def fresh : SledStorage := ⟨∅, none, {}⟩

theorem inStep_fresh : fresh.InStep True := by
  have hview (tree key : IVec) : fresh.view tree key = none := by
    simp [fresh, view, Db.tree]
  have hsize (tree : IVec) : fresh.size tree = 0 := by
    simp [fresh, size, iterKeys, Db.tree]
  refine Counted.inStep ⟨fun counter => ?_, fun slot bytes _ hbytes => ?_, List.nodup_nil, fun _ key key' position hkey _ => ?_⟩ rfl
  · rw [hsize]
    cases counter <;> rfl
  · rw [hview] at hbytes
    cases hbytes
  · rw [positionOf_eq, hview] at hkey
    cases hkey

/-- For runs without blocks and transactions. -/
@[reducible] def unused (T : Type) : Serializer T := ⟨fun _ => [], fun _ => .error .invalidSize⟩

def runFresh (ops : List Operation) : SledStorage :=
  @after (unused BlockHeader) (unused Transaction) (unused VarUint) fresh ops

/-- An account is registered, a contract is deployed and the account is dropped under a commit point. -/
def sampleRun : List Operation :=
  [.startCommitPoint, .setLastTopoheightForNonce 7#256 0, .setLastTopoheightForContract 9#256 0,
    .deleteLastTopoheightForNonce 7#256, .endCommitPoint true]

theorem sampleRun_counted :
    (runFresh sampleRun).counters.get .contracts = 1 ∧ (runFresh sampleRun).counters.get .accounts = 0 ∧
      (∀ counter, count counter (runFresh sampleRun) =
        .ok (UInt64.ofNat ((runFresh sampleRun).iterKeys (Counter.tree counter)).length) (runFresh sampleRun)) ∧
      (runFresh sampleRun).reload = (runFresh sampleRun).counters ∧ (runFresh sampleRun).UniquePositions := by
  let _ := unused BlockHeader
  let _ := unused Transaction
  let _ := unused VarUint
  have hmeets : AllMeet sampleRun fresh := by
    refine ⟨trivial, fun _ _ => .inr ?_, fun _ _ => .inr ?_, fun _ _ => .inr ?_, trivial, trivial⟩
    all_goals decide +kernel
  obtain ⟨hcounts, -, hrest⟩ := counters_equal_cardinalities inStep_fresh sampleRun sampleRun [] hmeets rfl
  obtain ⟨hreload, hunique⟩ := hrest (by simp [sampleRun])
  exact ⟨by decide +kernel, by decide +kernel, hcounts, hreload, hunique⟩

def movedPointer : List Operation :=
  [.setLastTopoheightForNonce 7#256 0, .startCommitPoint, .setLastTopoheightForNonce 7#256 1]

/-- One account is counted as two. -/
theorem account_counted_twice :
    ¬∀ counter, count counter (runFresh movedPointer) =
      .ok (UInt64.ofNat ((runFresh movedPointer).iterKeys (Counter.tree counter)).length) (runFresh movedPointer) := by
  intro h
  have htwo : (runFresh movedPointer).counters.get .accounts = 2 := by decide +kernel
  have hone : ((runFresh movedPointer).iterKeys (Counter.tree .accounts)).length = 1 := by decide +kernel
  have hcount := h .accounts
  rw [count_apply] at hcount
  injection hcount with hvalue
  rw [htwo, hone] at hvalue
  exact absurd hvalue (by decide)

end Xelis.Storage.SledStorage
