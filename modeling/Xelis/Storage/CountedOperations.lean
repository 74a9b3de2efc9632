import Mathlib.Logic.Equiv.Basic
import Xelis.Storage.Counters

namespace Xelis.Storage.SledStorage

open Lib (Exec)

variable {s s' : SledStorage} {ordered : Prop}
variable {tree key left right : IVec}

section Sequences

variable {α β : Type}

/-- A sequence keeps the counters in step if its first program does, and the second from where the first ends. -/
theorem bind_inStep {x : Disk α} {f : α → Disk β} (hx : (Exec.stateOf (x s)).InStep ordered)
    (hf : ∀ a s', x s = .ok a s' → s'.InStep ordered → (Exec.stateOf (f a s')).InStep ordered) :
    (Exec.stateOf ((x >>= f) s)).InStep ordered := by
  rw [Exec.bind_apply]
  cases hrun : x s with
  | error e s' =>
    rw [hrun] at hx
    exact hx
  | ok a s' =>
    rw [hrun] at hx
    exact hf a s' hrun hx

theorem count_apply (counter : Counter) (s : SledStorage) : count counter s = .ok (s.counters.get counter) s := rfl

theorem loadDisk_apply (T : Type) [Serializer T] (tree key : IVec) (context : DiskContext) (s : SledStorage) :
    loadDisk T tree key context s =
      match s.loadFromDisk T tree key context with
      | .ok value => .ok value s
      | .error e => .error e s := by
  show (Exec.ofExcept (s.loadFromDisk T tree key context) : Disk T) s = _
  cases s.loadFromDisk T tree key context <;> rfl

theorem removeFromDisk_apply (T : Type) [Serializer T] (hready : s.Ready) (tree key : IVec) :
    removeFromDisk T tree key s =
      match s.view tree key with
      | none => .ok none (s.removeFromDiskInternal tree key).2
      | some bytes =>
        match (Serializer.fromBytes bytes : Except ReaderError T) with
        | .ok value => .ok (some value) (s.removeFromDiskInternal tree key).2
        | .error e => .error (.errorOnReader e) (s.removeFromDiskInternal tree key).2 := by
  have hremoved : (s.removeFromDiskInternal tree key).1 = s.view tree key := remove_previous hready
  unfold removeFromDisk
  rw [← hremoved]
  obtain ⟨previous, s'⟩ := s.removeFromDiskInternal tree key
  cases previous with
  | none => rfl
  | some bytes => dsimp only <;> cases (Serializer.fromBytes bytes : Except ReaderError T) <;> rfl

theorem deleteCacheableData_apply (T : Type) [Serializer T] (hready : s.Ready) (tree key : IVec) :
    deleteCacheableData T tree key s =
      match s.view tree key with
      | none => .error (.notFoundOnDisk .deleteData) (s.removeFromDiskInternal tree key).2
      | some bytes =>
        match (Serializer.fromBytes bytes : Except ReaderError T) with
        | .ok value => .ok value (s.removeFromDiskInternal tree key).2
        | .error e => .error (.errorOnReader e) (s.removeFromDiskInternal tree key).2 := by
  unfold deleteCacheableData
  rw [Exec.bind_apply, removeFromDisk_apply T hready]
  cases s.view tree key with
  | none => rfl
  | some bytes =>
    dsimp only
    cases (Serializer.fromBytes bytes : Except ReaderError T) <;> rfl

theorem stateOf_deleteCacheableData (T : Type) [Serializer T] (hready : s.Ready) (tree key : IVec) :
    Exec.stateOf (deleteCacheableData T tree key s) = (s.removeFromDiskInternal tree key).2 := by
  rw [deleteCacheableData_apply T hready]
  cases s.view tree key with
  | none => rfl
  | some bytes =>
    dsimp only
    cases (Serializer.fromBytes bytes : Except ReaderError T) <;> rfl

theorem deleteCacheableData_ok {T : Type} [Serializer T] (hready : s.Ready) (context : DiskContext) {value : T}
    (hrun : deleteCacheableData T tree key s = .ok value s') :
    s.loadFromDisk T tree key context = .ok value ∧ s' = (s.removeFromDiskInternal tree key).2 := by
  rw [deleteCacheableData_apply T hready] at hrun
  unfold loadFromDisk
  rw [loadOptional_eq_view]
  cases hview : s.view tree key with
  | none =>
    rw [hview] at hrun
    cases hrun
  | some bytes =>
    rw [hview] at hrun
    dsimp only [decode] at hrun ⊢
    cases hbytes : (Serializer.fromBytes bytes : Except ReaderError T) with
    | error e =>
      rw [hbytes] at hrun
      cases hrun
    | ok read =>
      rw [hbytes] at hrun
      cases hrun
      exact ⟨rfl, rfl⟩

theorem remove_absent_inStep (h : s.InStep ordered) (counter : Counter)
    (habsent : s.view (Counter.tree counter) key = none) :
    (s.removeFromDiskInternal (Counter.tree counter) key).2.InStep ordered := by
  have hexact : s.Exact (Counter.tree counter) key := by
    intro snapshot hs
    simp only [view, hs] at habsent
    cases hpending : snapshot.pending (Counter.tree counter) key with
    | some w => exact .inl rfl
    | none =>
      rw [hpending] at habsent
      exact .inr habsent
  have hsize := size_remove s key h.ready hexact
  rw [habsent] at hsize
  exact h.of_size (remove_sameBut s counter key h.ready) (congrArg UInt64.ofNat hsize)

end Sequences

section Exactness

variable {tree tree' key key' value : IVec}

theorem exact_insert_of_ne (hready : s.Ready) (hne : tree ≠ tree') (h : s.Exact tree' key') :
    (s.insertIntoDisk tree key value).2.Exact tree' key' := by
  unfold insertIntoDisk
  rcases hs : s.snapshot with _ | snapshot
  · intro snapshot' heq
    exact absurd heq (by simp)
  · intro snapshot' heq
    cases heq
    have hpending := (Snapshot.insert_spec (hready snapshot hs) tree key value).2 tree' key'
    rw [if_neg fun hboth => hne hboth.1] at hpending
    have hkept := h snapshot hs
    rw [← hpending] at hkept
    exact hkept

theorem exact_mapCounters (f : CounterCache → CounterCache) (h : s.Exact tree key) : (mapCounters f s).Exact tree key := by
  unfold mapCounters
  rcases hs : s.snapshot with _ | snapshot
  · intro snapshot' heq
    exact absurd heq (by simp)
  · intro snapshot' heq
    cases heq
    exact h snapshot hs

theorem exact_storeCount (hready : s.Ready) (hne : EXTRA ≠ tree) (h : s.Exact tree key) (counter : Counter) (n : UInt64) :
    (Exec.stateOf (storeCount counter n s)).Exact tree key :=
  exact_insert_of_ne (ready_mapCounters _ hready) hne (exact_mapCounters _ h)

end Exactness

variable {hash asset : Hash}

section Blocks

theorem setBlocksAtHeight_silent (tips : Tips) (height : Nat) : Silent (setBlocksAtHeight tips height) :=
  (insertDisk_silent (outside_uncounted _ (by simp [uncountedTrees]))).bind fun _ => Silent.pure _

theorem addBlockHashAtHeight_silent (hash : Hash) (height : Nat) : Silent (addBlockHashAtHeight hash height) := by
  refine Silent.get.bind fun s => ?_
  split
  · exact (loadDisk_silent _ _).bind fun tips => setBlocksAtHeight_silent _ _
  · exact (Silent.pure _).bind fun tips => setBlocksAtHeight_silent _ _

theorem removeBlockHashAtHeight_silent (hash : Hash) (height : Nat) : Silent (removeBlockHashAtHeight hash height) := by
  refine (loadDisk_silent _ _).bind fun tips => ?_
  dsimp only
  split
  · exact (removeFromDiskWithoutReading_silent (outside_uncounted _ (by simp [uncountedTrees]))).bind fun _ => Silent.pure _
  · exact setBlocksAtHeight_silent _ _

variable [Serializer Transaction]

theorem saveTransaction_apply (stored : UInt64) (e : Hash × Transaction) (s : SledStorage) :
    saveTransaction stored e s =
      if (s.view TRANSACTIONS (hashToBytes e.1)).isSome then .ok stored s
      else .ok (stored + 1) (s.insertIntoDisk TRANSACTIONS (hashToBytes e.1) (Serializer.toBytes e.2)).2 := by
  rw [← containsData_eq_view]
  unfold saveTransaction
  rw [Exec.bind_apply, Exec.get_apply]
  dsimp only
  split <;> rfl

theorem saveTransactions_apply (txs : List (Hash × Transaction)) (stored : UInt64) (hready : s.Ready) :
    ∃ s' n, txs.foldlM saveTransaction stored s = .ok (stored + UInt64.ofNat n) s' ∧ SameButOne .transactions s s' ∧
      s'.size TRANSACTIONS = s.size TRANSACTIONS + n ∧ ∀ key, s.Exact BLOCKS key → s'.Exact BLOCKS key := by
  induction txs generalizing s stored with
  | nil =>
    refine ⟨s, 0, ?_, Keeps.refl _ s hready, rfl, fun _ => id⟩
    show _ = EStateM.Result.ok (stored + 0) s
    rw [UInt64.add_zero]
    rfl
  | cons e txs ih =>
    rw [List.foldlM_cons, Exec.bind_apply, saveTransaction_apply]
    by_cases hsome : (s.view TRANSACTIONS (hashToBytes e.1)).isSome = true
    · rw [if_pos hsome]
      exact ih stored hready
    · rw [if_neg hsome]
      have hsame := insert_sameBut s .transactions (hashToBytes e.1) (Serializer.toBytes e.2) hready
      have hsize := size_insert s (hashToBytes e.1) (Serializer.toBytes e.2) hready TRANSACTIONS
      rw [if_pos (by simpa using hsome)] at hsize
      obtain ⟨s', n, hrun, hrest, hsizes, hexact⟩ := ih (stored + 1) hsame.ready
      have htotal : s'.size TRANSACTIONS = s.size TRANSACTIONS + (n + 1) := by
        rw [hsizes, Nat.add_comm n 1, ← Nat.add_assoc]
        exact congrArg (· + n) hsize
      refine ⟨s', n + 1, ?_, hsame.trans hrest, htotal, fun key h => ?_⟩
      · dsimp only
        refine hrun.trans ?_
        have hsum : stored + 1 + UInt64.ofNat n = stored + UInt64.ofNat (n + 1) := by
          rw [Nat.add_comm, UInt64.ofNat_add, UInt64.add_assoc]
          rfl
        rw [hsum]
      · exact hexact key (exact_insert_of_ne hready (fun he => nomatch tree_injective (a := .transactions) (b := .blocks) he) h)

variable [Serializer BlockHeader] [Serializer VarUint]

theorem saveBlock_inStep (h : s.InStep ordered) (block : BlockHeader) (txs : List Transaction) (difficulty p : VarUint)
    (hexact : s.Exact BLOCKS (hashToBytes hash)) :
    (Exec.stateOf (saveBlock block txs difficulty p hash s)).InStep ordered := by
  obtain ⟨s₁, n, hrun, hsame, hsize, hkept⟩ := saveTransactions_apply (block.txsHashes.zip txs) 0 h.ready
  rw [UInt64.zero_add] at hrun
  -- The rest of the block, from a storage that is in step again.
  have hblock {s₂ : SledStorage} (h₂ : s₂.InStep ordered) (hexact₂ : s₂.Exact BLOCKS (hashToBytes hash)) :
      (Exec.stateOf ((do
        insertCounted .blocks (hashToBytes hash) (Serializer.toBytes block)
        let _ ← insertDisk DIFFICULTY (hashToBytes hash) (Serializer.toBytes difficulty)
        let _ ← insertDisk DIFFICULTY_COVARIANCE (hashToBytes hash) (Serializer.toBytes p)
        addBlockHashAtHeight hash block.height : Disk PUnit) s₂)).InStep ordered := by
    refine bind_inStep (insertCounted_inStep .blocks _ h₂ hexact₂) fun _ s₃ _ h₃ => ?_
    exact Silent.inStep ((insertDisk_silent (outside_uncounted _ (by simp [uncountedTrees]))).bind fun _ =>
      (insertDisk_silent (outside_uncounted _ (by simp [uncountedTrees]))).bind fun _ => addBlockHashAtHeight_silent _ _) h₃
  unfold saveBlock
  rw [Exec.bind_apply, hrun]
  dsimp only
  by_cases hpos : UInt64.ofNat n > 0
  · rw [if_pos hpos]
    rw [Exec.bind_apply, count_apply]
    dsimp only
    refine bind_inStep (storeCount_inStep h hsame ?_) fun _ s₂ hstore h₂ => hblock h₂ ?_
    · rw [hsame.counters, h.now.counts]
      show UInt64.ofNat (s.size TRANSACTIONS) + _ = UInt64.ofNat (s₁.size TRANSACTIONS)
      rw [hsize, UInt64.ofNat_add]
    · have hstate : Exec.stateOf (storeCount .transactions (s₁.counters.get .transactions + UInt64.ofNat n) s₁) = s₂ :=
        congrArg Exec.stateOf hstore
      rw [← hstate]
      exact exact_storeCount hsame.ready (tree_ne_extra (.counted .blocks)).symm (hkept _ hexact) _ _
  · rw [if_neg hpos]
    refine hblock (h.of_size hsame ?_) (hkept _ hexact)
    have hzero : UInt64.ofNat n = 0 := by
      by_contra hne
      exact hpos (UInt64.pos_iff_ne_zero.mpr hne)
    show UInt64.ofNat (s₁.size TRANSACTIONS) = UInt64.ofNat (s.size TRANSACTIONS)
    rw [hsize, UInt64.ofNat_add, hzero, UInt64.add_zero]

/-- A header that is deleted can be read. -/
def Readable (s : SledStorage) (hash : Hash) : Prop :=
  ∀ bytes, s.view BLOCKS (hashToBytes hash) = some bytes → ∃ header : BlockHeader, Serializer.fromBytes bytes = .ok header

omit [Serializer VarUint] in
theorem deleteBlockWithHash_inStep (h : s.InStep ordered) (hexact : s.Exact BLOCKS (hashToBytes hash))
    (hread : s.Readable hash) : (Exec.stateOf (deleteBlockWithHash hash s)).InStep ordered := by
  have hsame := remove_sameBut s .blocks (hashToBytes hash) h.ready
  have hsize := size_remove s (hashToBytes hash) h.ready hexact
  unfold deleteBlockWithHash
  rw [Exec.bind_apply, deleteCacheableData_apply BlockHeader h.ready]
  cases hview : s.view BLOCKS (hashToBytes hash) with
  | none => exact remove_absent_inStep h .blocks hview
  | some bytes =>
    obtain ⟨header, hheader⟩ := hread bytes hview
    rw [hview, if_pos (by rfl)] at hsize
    dsimp only
    rw [hheader]
    dsimp only
    rw [Exec.bind_apply, count_apply]
    dsimp only
    refine bind_inStep (storeCount_inStep h hsame ?_) fun _ s₁ _ h₁ => ?_
    · refine Eq.trans (congrArg (· - 1) ?_) (UInt64.add_sub_cancel _ 1)
      exact (congrArg (·.get Counter.blocks) counters_remove).trans
        ((h.now.counts .blocks).trans ((congrArg UInt64.ofNat hsize.symm).trans (UInt64.ofNat_add _ _)))
    · refine Silent.inStep ((removeFromDiskWithoutReading_silent (outside_uncounted _ (by simp [uncountedTrees]))).bind fun _ =>
        (removeFromDiskWithoutReading_silent (outside_uncounted _ (by simp [uncountedTrees]))).bind fun _ =>
          (removeBlockHashAtHeight_silent _ _).bind fun _ => ?_) h₁
      exact (Silent.mapM _ fun tx _ => loadDisk_silent _ _).bind fun _ => Silent.pure _

/-- The transaction is not there, or its blocks are not known: the deletion stops before it gets to it. -/
def KeepsTransaction (s : SledStorage) (hash : Hash) : Prop :=
  (∀ tips, s.loadFromDisk Tips TX_BLOCKS (hashToBytes hash) .deleteData ≠ .ok tips) ∨
    s.view TRANSACTIONS (hashToBytes hash) = none

omit [Serializer BlockHeader] [Serializer VarUint] in
theorem deleteTransaction_inStep (h : s.InStep ordered) (hkeeps : s.KeepsTransaction hash) :
    (Exec.stateOf (deleteTransaction hash s)).InStep ordered := by
  unfold deleteTransaction
  refine bind_inStep (Silent.inStep (deleteCacheableData_silent Tips (outside_uncounted _ (by simp [uncountedTrees]))) h) fun tips s₁ hrun h₁ => ?_
  obtain ⟨hloaded, hs₁⟩ := deleteCacheableData_ok h.ready .deleteData hrun
  have habsent := hkeeps.resolve_left fun hno => hno tips hloaded
  rw [stateOf_deleteCacheableData _ h₁.ready]
  refine remove_absent_inStep h₁ .transactions ?_
  have hne : Counter.tree .transactions ≠ TX_BLOCKS :=
    (outside_uncounted TX_BLOCKS (by simp [uncountedTrees])).tree (.counted .transactions)
  rw [hs₁, view_remove_of_ne h.ready fun hboth => hne hboth.1.symm]
  exact habsent

end Blocks

theorem positionOf_eq (s : SledStorage) (key : IVec) : s.positionOf key =
    match s.view BLOCKS_EXECUTION_ORDER key with
    | none => .error (.notFoundOnDisk .searchBlockPositionInOrder)
    | some bytes => (Serializer.fromBytes bytes).mapError .errorOnReader := by
  unfold positionOf loadFromDisk
  rw [loadOptional_eq_view]
  cases s.view BLOCKS_EXECUTION_ORDER key with
  | none => rfl
  | some bytes =>
    dsimp only [decode]
    cases (Serializer.fromBytes bytes : Except ReaderError UInt64) <;> rfl

theorem tree_eq_order {part : Part} (h : part.tree = BLOCKS_EXECUTION_ORDER) : part = .order := by
  cases part with
  | counted counter => exact absurd h (tree_ne_order counter)
  | order => rfl

theorem insert_order (hready : s.Ready) (key value : IVec) :
    SameBut (· = .order) s (s.insertIntoDisk BLOCKS_EXECUTION_ORDER key value).2 :=
  insert_keeps (fun _ => tree_eq_order) (fun heq => absurd heq (tree_ne_extra .order)) hready

theorem remove_order (hready : s.Ready) (key : IVec) :
    SameBut (· = .order) s (s.removeFromDiskInternal BLOCKS_EXECUTION_ORDER key).2 :=
  remove_keeps (fun _ => tree_eq_order) (fun heq => absurd heq (tree_ne_extra .order)) hready

theorem InStep.of_order (h : s.InStep ordered) (hsame : SameBut (· = .order) s s') (hunique : ordered → s'.UniquePositions) :
    s'.InStep ordered :=
  h.of_sizes hsame (fun counter => congrArg UInt64.ofNat (hsame.sizes counter nofun)) hunique

theorem remove_order_inStep (h : s.InStep ordered) (key : IVec) :
    (s.removeFromDiskInternal BLOCKS_EXECUTION_ORDER key).2.InStep ordered := by
  refine h.of_order (remove_order h.ready key) fun hordered => ?_
  -- A position that is left was there before.
  have hleft (key' : IVec) (position : UInt64)
      (hpos : (s.removeFromDiskInternal BLOCKS_EXECUTION_ORDER key).2.positionOf key' = .ok position) :
      s.positionOf key' = .ok position := by
    rw [positionOf_eq] at hpos ⊢
    rcases view_remove_or h.ready BLOCKS_EXECUTION_ORDER key BLOCKS_EXECUTION_ORDER key' with hsame | hnone
    · rw [hsame] at hpos
      exact hpos
    · rw [hnone] at hpos
      cases hpos
  intro a b position ha hb
  exact h.now.positions hordered a b position (hleft a position ha) (hleft b position hb)

theorem positionOf_insert (hready : s.Ready) (key : IVec) (position : UInt64) (key' : IVec) :
    (s.insertIntoDisk BLOCKS_EXECUTION_ORDER key (Serializer.toBytes position)).2.positionOf key' =
      if key = key' then .ok position else s.positionOf key' := by
  rw [positionOf_eq, positionOf_eq, view_insert hready]
  by_cases hkey : key = key'
  · rw [if_pos ⟨rfl, hkey⟩, if_pos hkey]
    dsimp only
    rw [u64_fromBytes_toBytes]
    rfl
  · rw [if_neg fun hboth => hkey hboth.2, if_neg hkey]

theorem positionOf_swapped (hready : s.Ready) {leftPosition rightPosition : UInt64}
    (hleft : s.positionOf left = .ok leftPosition) (hright : s.positionOf right = .ok rightPosition) (key : IVec) :
    ((s.insertIntoDisk BLOCKS_EXECUTION_ORDER left (Serializer.toBytes rightPosition)).2.insertIntoDisk
      BLOCKS_EXECUTION_ORDER right (Serializer.toBytes leftPosition)).2.positionOf key =
        s.positionOf (Equiv.swap left right key) := by
  rw [positionOf_insert (ready_insert hready), positionOf_insert hready]
  by_cases hkey : right = key
  · rw [if_pos hkey, ← hkey, Equiv.swap_apply_right, hleft]
  · rw [if_neg hkey]
    by_cases hkey' : left = key
    · rw [if_pos hkey', ← hkey', Equiv.swap_apply_left, hright]
    · rw [if_neg hkey', Equiv.swap_apply_of_ne_of_ne (Ne.symm hkey') (Ne.symm hkey)]

theorem swapBlocksExecutionsPositions_inStep (h : s.InStep ordered) (left right : Hash) :
    (Exec.stateOf (swapBlocksExecutionsPositions left right s)).InStep ordered := by
  unfold swapBlocksExecutionsPositions
  rw [Exec.bind_apply, loadDisk_apply]
  cases hleft : s.loadFromDisk UInt64 BLOCKS_EXECUTION_ORDER (hashToBytes left) .searchBlockPositionInOrder with
  | error e => exact h
  | ok leftPosition =>
    dsimp only
    rw [Exec.bind_apply, loadDisk_apply]
    cases hright : s.loadFromDisk UInt64 BLOCKS_EXECUTION_ORDER (hashToBytes right) .searchBlockPositionInOrder with
    | error e => exact h
    | ok rightPosition =>
      have hfirst := insert_order h.ready (hashToBytes left) (Serializer.toBytes rightPosition)
      have hsecond := insert_order hfirst.ready (hashToBytes right) (Serializer.toBytes leftPosition)
      show InStep ordered ((s.insertIntoDisk BLOCKS_EXECUTION_ORDER (hashToBytes left)
        (Serializer.toBytes rightPosition)).2.insertIntoDisk BLOCKS_EXECUTION_ORDER (hashToBytes right)
          (Serializer.toBytes leftPosition)).2
      refine h.of_order (hfirst.trans hsecond) fun hordered a b position ha hb => ?_
      rw [positionOf_swapped h.ready hleft hright] at ha hb
      exact (Equiv.swap _ _).injective (h.now.positions hordered _ _ position ha hb)

/-- After this the count on the disk is no longer the one in memory. -/
theorem addBlockExecutionToOrder_inStep (h : s.InStep ordered) (hash : Hash) :
    (Exec.stateOf (addBlockExecutionToOrder hash s)).InStep False := by
  have hsame := insert_order h.ready (hashToBytes hash) (Serializer.toBytes s.counters.blocksExecutionCount)
  have hrun : Exec.stateOf (addBlockExecutionToOrder hash s) =
      ((mapCounters (fun cache => { cache with blocksExecutionCount := cache.blocksExecutionCount + 1 })
        (s.insertIntoDisk BLOCKS_EXECUTION_ORDER (hashToBytes hash) (Serializer.toBytes s.counters.blocksExecutionCount)).2).insertIntoDisk
          EXTRA BLOCKS_EXECUTION_ORDER_COUNT (Serializer.toBytes s.counters.blocksExecutionCount)).2 := by
    rw [mapCounters_insert]
    rfl
  rw [hrun]
  refine store_inStep .executions h.unordered hsame (fun hfalse => (hfalse rfl).elim) (fun other hne => ?_) (fun counter => ?_)
    h.now.tips False.elim
  · cases other with
    | executions => exact absurd rfl hne
    | count counter => cases counter <;> rfl
    | tips => rfl
    | prunedTopoheight => rfl
  · rw [hsame.sizes counter nofun, ← h.now.counts]
    cases counter <;> rfl

section Deletion

theorem loadFromDisk_congr (T : Type) [Serializer T] (context : DiskContext)
    (h : s'.view tree key = s.view tree key) : s'.loadFromDisk T tree key context = s.loadFromDisk T tree key context := by
  unfold loadFromDisk
  rw [loadOptional_eq_view, loadOptional_eq_view, h]

variable [Serializer BlockHeader] [Serializer Transaction] [Serializer VarUint]

/-- The block of the topoheight is not stored, or the deletion stops before it gets to it. -/
def KeepsBlock (s : SledStorage) (topoheight : TopoHeight) : Prop :=
  ∀ hash, s.loadFromDisk Hash HASH_AT_TOPO (heightBytes topoheight) .deleteData = .ok hash →
    (∀ n, s.loadFromDisk UInt64 TOPO_BY_HASH (hashToBytes hash) .deleteData ≠ .ok n) ∨ s.view BLOCKS (hashToBytes hash) = none

theorem deleteBlockAtTopoheight_keeps (h : s.InStep ordered) {topoheight : TopoHeight} (hkeeps : s.KeepsBlock topoheight) :
    ∃ e s', deleteBlockAtTopoheight topoheight s = .error e s' ∧ s'.InStep ordered := by
  have hsilent : Silent (deleteCacheableData Hash HASH_AT_TOPO (heightBytes topoheight)) :=
    deleteCacheableData_silent Hash (outside_uncounted _ (by simp [uncountedTrees]))
  have h₁ := hsilent.inStep h
  unfold deleteBlockAtTopoheight
  rw [Exec.bind_apply]
  cases hhash : deleteCacheableData Hash HASH_AT_TOPO (heightBytes topoheight) s with
  | error e s₁ =>
    rw [hhash] at h₁
    exact ⟨e, s₁, rfl, h₁⟩
  | ok hash s₁ =>
    rw [hhash] at h₁
    change s₁.InStep ordered at h₁
    obtain ⟨hloaded, hs₁⟩ := deleteCacheableData_ok h.ready .deleteData hhash
    dsimp only
    rw [Exec.bind_apply]
    show ∃ e s', (deleteCacheableData UInt64 TOPO_BY_HASH (hashToBytes hash) >>= _)
      (s₁.removeFromDiskInternal BLOCKS_EXECUTION_ORDER (hashToBytes hash)).2 = .error e s' ∧ _
    have h₂ := remove_order_inStep h₁ (hashToBytes hash)
    have hview₂ {tree key : IVec} (hhash : HASH_AT_TOPO ≠ tree) (horder : BLOCKS_EXECUTION_ORDER ≠ tree) :
        (s₁.removeFromDiskInternal BLOCKS_EXECUTION_ORDER (hashToBytes hash)).2.view tree key = s.view tree key := by
      rw [view_remove_of_ne h₁.ready fun hboth => horder hboth.1, hs₁, view_remove_of_ne h.ready fun hboth => hhash hboth.1]
    generalize (s₁.removeFromDiskInternal BLOCKS_EXECUTION_ORDER (hashToBytes hash)).2 = s₂ at h₂ hview₂
    rw [Exec.bind_apply]
    have hsilent' : Silent (deleteCacheableData UInt64 TOPO_BY_HASH (hashToBytes hash)) :=
      deleteCacheableData_silent UInt64 (outside_uncounted _ (by simp [uncountedTrees]))
    have h₃ := hsilent'.inStep h₂
    cases htopo : deleteCacheableData UInt64 TOPO_BY_HASH (hashToBytes hash) s₂ with
    | error e s₃ =>
      rw [htopo] at h₃
      exact ⟨e, s₃, rfl, h₃⟩
    | ok n s₃ =>
      rw [htopo] at h₃
      change s₃.InStep ordered at h₃
      obtain ⟨hfound, hs₃⟩ := deleteCacheableData_ok h₂.ready .deleteData htopo
      have hposition : Outside HASH_AT_TOPO := outside_uncounted _ (by simp [uncountedTrees])
      have htopoheight : Outside TOPO_BY_HASH := outside_uncounted _ (by simp [uncountedTrees])
      rw [loadFromDisk_congr _ _ (hview₂ (by decide +kernel) (htopoheight.tree .order))] at hfound
      have habsent : s₃.view BLOCKS (hashToBytes hash) = none := by
        have hblocks : BLOCKS ≠ TOPO_BY_HASH := htopoheight.tree (.counted .blocks)
        have hblocks' : BLOCKS ≠ HASH_AT_TOPO := hposition.tree (.counted .blocks)
        rw [hs₃, view_remove_of_ne h₂.ready fun hboth => hblocks hboth.1.symm,
          hview₂ hblocks'.symm (tree_ne_order .blocks).symm]
        exact (hkeeps hash hloaded).resolve_left fun hno => hno n hfound
      dsimp only
      rw [Exec.bind_apply, deleteCacheableData_apply BlockHeader h₃.ready, habsent]
      exact ⟨_, _, rfl, remove_absent_inStep h₃ .blocks habsent⟩

end Deletion

theorem addAsset_inStep (h : s.InStep ordered) (topoheight : TopoHeight) (data : IVec)
    (hexact : s.Exact ASSETS (hashToBytes asset)) : (Exec.stateOf (addAsset asset topoheight data s)).InStep ordered := by
  have hfirst := insert_sameBut s .assets (hashToBytes asset) (heightBytes topoheight) h.ready
  have hsize := size_insert s (hashToBytes asset) (heightBytes topoheight) h.ready ASSETS
  have hprevious := insert_previous (heightBytes topoheight) h.ready hexact
  have houtside : Outside VERSIONED_ASSETS := outside_uncounted _ (by simp [uncountedTrees])
  have hsecond : SameBut (fun _ => False) _ ((s.insertIntoDisk ASSETS (hashToBytes asset) (heightBytes topoheight)).2.insertIntoDisk
    VERSIONED_ASSETS (heightBytes topoheight ++ hashToBytes asset) data).2 := insert_quiet houtside hfirst.ready
  unfold addAsset
  show (Exec.stateOf ((if (s.insertIntoDisk ASSETS (hashToBytes asset) (heightBytes topoheight)).1.isNone then
    (count .assets >>= fun n => storeCount .assets (n + 1) : Disk PUnit) else pure ⟨⟩)
      ((s.insertIntoDisk ASSETS (hashToBytes asset) (heightBytes topoheight)).2.insertIntoDisk VERSIONED_ASSETS
        (heightBytes topoheight ++ hashToBytes asset) data).2)).InStep ordered
  have hsame : SameButOne .assets s _ := hfirst.trans (hsecond.mono fun _ => False.elim)
  have htotal := (hsecond.sizes .assets id).trans hsize
  rw [hprevious]
  by_cases hnone : (s.view ASSETS (hashToBytes asset)).isNone = true
  · rw [if_pos hnone, Exec.bind_apply, count_apply]
    rw [if_pos hnone] at htotal
    refine storeCount_inStep h hsame ?_
    rw [htotal, hsame.counters, h.now.counts, UInt64.ofNat_add]
    rfl
  · rw [if_neg hnone]
    rw [if_neg hnone] at htotal
    exact h.of_size hsame (congrArg UInt64.ofNat htotal)

def reload (s : SledStorage) : CounterCache := ({ s with cache := s.counters } : SledStorage).loadCacheFromDisk.cache

theorem loadCacheFromDisk_eq (h : s.snapshot = none) : s.loadCacheFromDisk = { s with cache := s.reload } := by
  have hcounters : s.counters = s.cache := by
    unfold counters
    rw [h]
  unfold reload
  rw [hcounters]
  rfl

theorem loadFromDisk_cache (T : Type) [Serializer T] (cache : CounterCache) (tree key : IVec) (context : DiskContext) :
    ({ s with cache } : SledStorage).loadFromDisk T tree key context = s.loadFromDisk T tree key context := rfl

theorem loaded_eq {T : Type} [Serializer T] {context : DiskContext} {value loaded : T}
    (hround : (Serializer.fromBytes (Serializer.toBytes value) : Except ReaderError T) = .ok value)
    (h : ∀ bytes, s.view EXTRA key = some bytes → Serializer.toBytes value = bytes)
    (hload : s.loadFromDisk T EXTRA key context = .ok loaded) : loaded = value := by
  unfold loadFromDisk at hload
  rw [loadOptional_eq_view] at hload
  cases hview : s.view EXTRA key with
  | none =>
    rw [hview] at hload
    cases hload
  | some bytes =>
    rw [hview, ← h bytes hview] at hload
    simp only [decode, hround, Except.mapError, Except.map] at hload
    exact (Except.ok.inj hload).symm

theorem Counted.reload_get (h : s.Counted ordered) (counter : Counter) : s.reload.get counter = s.counters.get counter := by
  have hstored {context : DiskContext} {n : UInt64} (hload : s.loadFromDisk UInt64 EXTRA (Counter.key counter) context = .ok n) :
      n = s.counters.get counter :=
    loaded_eq (u64_fromBytes_toBytes _)
      (fun bytes hbytes => Option.some.inj (h.persisted (.count counter) bytes nofun hbytes)) hload
  cases counter <;>
  · simp only [CounterCache.get, reload, loadCacheFromDisk, loadFromDisk_cache]
    split
    · rename_i hload
      exact hstored hload
    · rfl

theorem Counted.reload_tips (h : s.Counted ordered) : s.reload.tipsCache = s.counters.tipsCache := by
  simp only [reload, loadCacheFromDisk, loadFromDisk_cache]
  split
  · rename_i tips hload
    exact loaded_eq (tips_fromBytes_toBytes h.tips)
      (fun bytes hbytes => Option.some.inj (h.persisted .tips bytes nofun hbytes)) hload
  · rfl

theorem Counted.reload_executions (h : s.Counted ordered) (hordered : ordered) :
    s.reload.blocksExecutionCount = s.counters.blocksExecutionCount := by
  simp only [reload, loadCacheFromDisk, loadFromDisk_cache]
  split
  · rename_i hload
    exact loaded_eq (u64_fromBytes_toBytes _)
      (fun bytes hbytes => Option.some.inj (h.persisted .executions bytes (fun _ => hordered) hbytes)) hload
  · rfl

theorem Counted.reload_prunedTopoheight (h : s.Counted ordered) :
    s.reload.prunedTopoheight = s.counters.prunedTopoheight := by
  unfold reload loadCacheFromDisk
  dsimp only
  rw [loadFromDisk_cache]
  unfold loadFromDisk
  rw [loadOptional_eq_view]
  cases hview : s.view EXTRA PRUNED_TOPOHEIGHT with
  | none => rfl
  | some bytes =>
    have hbytes := h.persisted .prunedTopoheight bytes nofun hview
    obtain ⟨topoheight, hpruned, rfl⟩ := Option.map_eq_some_iff.mp hbytes
    rw [hpruned]
    simp [decode, u64_fromBytes_toBytes, Except.mapError, Except.map]

theorem Counted.reload_bytes (h : s.Counted ordered) {slot : Slot} (hslot : slot = .executions → ordered) :
    slot.bytes s.reload = slot.bytes s.counters := by
  cases slot with
  | count counter => exact congrArg (fun n => some (Serializer.toBytes n)) (h.reload_get counter)
  | executions => exact congrArg (fun n => some (Serializer.toBytes n)) (h.reload_executions (hslot rfl))
  | tips => exact congrArg (fun tips => some (Serializer.toBytes tips)) h.reload_tips
  | prunedTopoheight => exact congrArg (Option.map Serializer.toBytes) h.reload_prunedTopoheight

theorem Counted.reload_eq (h : s.Counted True) : s.reload = s.counters := by
  have hassets := h.reload_get .assets
  have haccounts := h.reload_get .accounts
  have htransactions := h.reload_get .transactions
  have hblocks := h.reload_get .blocks
  have hcontracts := h.reload_get .contracts
  have hexecutions := h.reload_executions trivial
  have htips := h.reload_tips
  have hpruned := h.reload_prunedTopoheight
  revert hassets haccounts htransactions hblocks hcontracts hexecutions htips hpruned
  cases s.reload
  cases s.counters
  simp only [CounterCache.get]
  rintro rfl rfl rfl rfl rfl rfl rfl rfl
  rfl

theorem loadCacheFromDisk_counted (h : s.Counted ordered) (hs : s.snapshot = none) : s.loadCacheFromDisk.Counted ordered := by
  rw [loadCacheFromDisk_eq hs]
  have hcounters : ({ s with cache := s.reload } : SledStorage).counters = s.reload := by
    unfold counters
    rw [hs]
  refine ⟨fun counter => ?_, fun slot bytes hslot hbytes => ?_, ?_, fun hordered => ?_⟩
  · rw [hcounters, h.reload_get, h.counts]
    rfl
  · rw [hcounters, h.reload_bytes hslot]
    exact h.persisted slot bytes hslot hbytes
  · rw [hcounters, h.reload_tips]
    exact h.tips
  · exact uniquePositions_congr (fun _ => rfl) (h.positions hordered)

theorem Counted.inStep (h : s.Counted ordered) (hs : s.snapshot = none) : s.InStep ordered where
  ready snapshot heq := by
    rw [hs] at heq
    cases heq
  now := h
  before := by
    rw [base_eq hs]
    exact h

theorem clearCaches_inStep (h : s.InStep ordered) (hs : s.snapshot = none) :
    (Exec.stateOf (clearCaches s)).InStep ordered :=
  (loadCacheFromDisk_counted h.now hs).inStep hs

/-- Opening or closing a commit point; a refusal changes nothing. -/
def commitPoint (f : SledStorage → Except BlockchainError SledStorage) : Disk PUnit := fun s =>
  match f s with
  | .ok s' => .ok ⟨⟩ s'
  | .error e => .error e s

theorem startCommitPoint_inStep (h : s.InStep ordered) : (Exec.stateOf (commitPoint startCommitPoint s)).InStep ordered := by
  unfold commitPoint startCommitPoint
  rcases hs : s.snapshot with _ | snapshot
  · have hview (tree key : IVec) : ({ s with snapshot := some (Snapshot.new s.cache) } : SledStorage).view tree key =
        s.view tree key := by
      simp [view, hs, Snapshot.pending_new]
    have hcounters : s.counters = s.cache := by
      unfold counters
      rw [hs]
    refine ⟨?_, h.now.congr hcounters.symm (fun counter => congrArg UInt64.ofNat (size_of_view fun _ => hview _ _))
      (fun _ => hview _ _) fun hordered => uniquePositions_congr (fun _ => hview _ _) (h.now.positions hordered), h.before⟩
    intro snapshot heq
    cases heq
    exact Snapshot.noDrop_new _
  · exact h

theorem endCommitPoint_inStep (h : s.InStep ordered) (apply : Bool) :
    (Exec.stateOf (commitPoint (endCommitPoint · apply) s)).InStep ordered := by
  unfold commitPoint
  rcases hs : s.snapshot with _ | snapshot
  · simp only [endCommitPoint, hs]
    exact h
  · cases apply with
    | false =>
      simp only [endCommitPoint, hs, Bool.false_eq_true, if_false]
      exact (loadCacheFromDisk_counted h.before rfl).inStep rfl
    | true =>
      obtain ⟨s', hend, hclosed, hcache, hdisk⟩ := view_commit hs (h.ready snapshot hs)
      dsimp only
      rw [hend]
      have hview (tree key : IVec) : s'.view tree key = s.view tree key := by
        rw [← hdisk]
        unfold view
        rw [hclosed]
      have hcounters : s'.counters = s.counters := by
        unfold counters
        rw [hclosed, hs, hcache]
      exact (h.now.congr hcounters (fun counter => congrArg UInt64.ofNat (size_of_view fun _ => hview _ _)) (fun _ => hview _ _)
        fun hordered => uniquePositions_congr (fun _ => hview _ _) (h.now.positions hordered)).inStep hclosed

theorem storeTips_inStep (h : s.InStep ordered) {tips : Tips} (htips : tips.Nodup) :
    (Exec.stateOf (storeTips tips s)).InStep ordered := by
  have hrun : Exec.stateOf (storeTips tips s) = ((mapCounters (fun cache => { cache with tipsCache := tips }) s).insertIntoDisk
      EXTRA TIPS (Serializer.toBytes tips)).2 := by
    rw [← mapCounters_insert]
    rfl
  rw [hrun]
  refine store_inStep .tips h (Keeps.refl (fun _ => False) s h.ready) (fun _ => rfl) (fun other hne => ?_) (fun counter => ?_)
    htips h.now.positions
  · cases other with
    | executions => rfl
    | count counter => cases counter <;> rfl
    | tips => exact absurd rfl hne
    | prunedTopoheight => rfl
  · rw [← h.now.counts]
    cases counter <;> rfl

theorem setPrunedTopoheight_inStep (h : s.InStep ordered) (topoheight : UInt64) :
    (Exec.stateOf (setPrunedTopoheight topoheight s)).InStep ordered := by
  have hrun : Exec.stateOf (setPrunedTopoheight topoheight s) =
      ((mapCounters (fun cache => { cache with prunedTopoheight := some topoheight }) s).insertIntoDisk
        EXTRA PRUNED_TOPOHEIGHT (Serializer.toBytes topoheight)).2 := rfl
  rw [hrun]
  refine store_inStep .prunedTopoheight h (Keeps.refl (fun _ => False) s h.ready) (fun _ => rfl) (fun other hne => ?_)
    (fun counter => ?_) h.now.tips h.now.positions
  · cases other with
    | executions => rfl
    | count counter => cases counter <;> rfl
    | tips => rfl
    | prunedTopoheight => exact absurd rfl hne
  · rw [← h.now.counts]
    cases counter <;> rfl

end Xelis.Storage.SledStorage
