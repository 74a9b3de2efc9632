import Xelis.Storage.Rewind

namespace Xelis.Storage

open Lib (FiniteMap Exec)

variable {P : Type} {s s' : Storage P}
variable {topoheight : TopoHeight} {hash : Hash} {block : BlockHeader} {txs : List (Hash × Transaction)}

/-- The blocks, the marks and the outputs are as before. -/
structure SameMarks (s s' : Storage P) : Prop where
  blocks : s'.blocks = s.blocks
  marks : s'.txsExecuted = s.txsExecuted
  outputs : s'.contractsOutputs = s.contractsOutputs

theorem SameMarks.refl (s : Storage P) : SameMarks s s := ⟨rfl, rfl, rfl⟩

theorem unlinkTx_sameMarks (hash : Hash) (s : Storage P) (txHash : Hash) : SameMarks s (unlinkTx hash s txHash).1 := by
  unfold unlinkTx
  cases s.txBlocks[txHash]? <;> exact ⟨rfl, rfl, rfl⟩

theorem marks_unmarkTx (s : Storage P) (txHash tx : Hash) :
    (unmarkTx s txHash).txsExecuted[tx]? = if tx = txHash then none else s.txsExecuted[tx]? := by
  unfold unmarkTx isTxExecutedInABlock
  by_cases hexecuted : s.txsExecuted.contains txHash
  · rw [if_pos hexecuted]
    show (s.txsExecuted.erase txHash)[tx]? = _
    by_cases htx : tx = txHash
    · rw [if_pos htx, htx, FiniteMap.getElem?_erase_self']
    · rw [if_neg htx, FiniteMap.getElem?_erase_of_ne _ (Ne.symm htx)]
  · rw [if_neg hexecuted]
    by_cases htx : tx = txHash
    · rw [if_pos htx, htx]
      rw [Std.ExtTreeMap.contains_eq_isSome_getElem?] at hexecuted
      exact Option.not_isSome_iff_eq_none.mp hexecuted
    · rw [if_neg htx]

theorem outputs_unmarkTx (s : Storage P) (txHash tx : Hash) :
    (unmarkTx s txHash).contractsOutputs[tx]? =
      if tx = txHash ∧ (s.txsExecuted[tx]?).isSome then none else s.contractsOutputs[tx]? := by
  unfold unmarkTx isTxExecutedInABlock
  rw [Std.ExtTreeMap.contains_eq_isSome_getElem?]
  by_cases hexecuted : (s.txsExecuted[txHash]?).isSome
  · rw [if_pos hexecuted]
    show (s.contractsOutputs.erase txHash)[tx]? = _
    by_cases htx : tx = txHash
    · subst htx
      rw [if_pos ⟨rfl, hexecuted⟩, FiniteMap.getElem?_erase_self']
    · rw [if_neg fun h => htx h.1, FiniteMap.getElem?_erase_of_ne _ (Ne.symm htx)]
  · rw [if_neg hexecuted, if_neg]
    rintro ⟨rfl, h⟩
    exact hexecuted h

theorem deleteTxOfBlock_sameMarks (hash : Hash) (acc : Storage P × List (Hash × Transaction)) (txHash : Hash) :
    SameMarks (unmarkTx (unlinkTx hash acc.1 txHash).1 txHash) (deleteTxOfBlock hash acc txHash).1 := by
  unfold deleteTxOfBlock
  dsimp only
  split <;> exact ⟨rfl, rfl, rfl⟩

theorem blocks_unmarkTx (s : Storage P) (txHash : Hash) : (unmarkTx s txHash).blocks = s.blocks := by
  unfold unmarkTx
  split <;> rfl

theorem deleteTxs_marks (hash : Hash) (txs : List Hash) (acc : Storage P × List (Hash × Transaction)) :
    let s' := (txs.foldl (deleteTxOfBlock hash) acc).1
    s'.blocks = acc.1.blocks ∧
      (∀ tx : Hash, s'.txsExecuted[tx]? = if tx ∈ txs then none else acc.1.txsExecuted[tx]?) ∧
      ∀ tx : Hash, s'.contractsOutputs[tx]? =
        if tx ∈ txs ∧ (acc.1.txsExecuted[tx]?).isSome then none else acc.1.contractsOutputs[tx]? := by
  induction txs generalizing acc with
  | nil => simp
  | cons txHash txs ih =>
    obtain ⟨hblocks, hmarks, houtputs⟩ := ih (deleteTxOfBlock hash acc txHash)
    have hdelete := deleteTxOfBlock_sameMarks hash acc txHash
    have hunlink := unlinkTx_sameMarks hash acc.1 txHash
    have hmark : ∀ tx : Hash, (deleteTxOfBlock hash acc txHash).1.txsExecuted[tx]? =
        if tx = txHash then none else acc.1.txsExecuted[tx]? := by
      intro tx
      rw [hdelete.marks, marks_unmarkTx, hunlink.marks]
    have houtput : ∀ tx : Hash, (deleteTxOfBlock hash acc txHash).1.contractsOutputs[tx]? =
        if tx = txHash ∧ (acc.1.txsExecuted[tx]?).isSome then none else acc.1.contractsOutputs[tx]? := by
      intro tx
      rw [hdelete.outputs, outputs_unmarkTx, hunlink.outputs, hunlink.marks]
    refine ⟨?_, fun tx => ?_, fun tx => ?_⟩
    · rw [List.foldl_cons, hblocks, hdelete.blocks, blocks_unmarkTx, hunlink.blocks]
    · rw [List.foldl_cons, hmarks, hmark]
      by_cases htx : tx = txHash
      · simp [htx]
      · simp [htx]
    · rw [List.foldl_cons, houtputs, hmark, houtput]
      by_cases htx : tx = txHash
      · simp [htx]
      · simp [htx]

theorem deleteCacheableData_ok {K V : Type} [Ord K] [Std.TransOrd K] {tree : Storage P → FiniteMap K V}
    {put : FiniteMap K V → Storage P → Storage P} {key : K} {v : V}
    (h : deleteCacheableData tree put key s = .ok v s') : (tree s)[key]? = some v ∧ s' = put ((tree s).erase key) s := by
  unfold deleteCacheableData at h
  cases hv : (tree s)[key]? with
  | none => simp [hv] at h
  | some w =>
    simp only [hv] at h
    cases h
    exact ⟨rfl, rfl⟩

/-- The storage without what is kept of a block outside its transactions. -/
def withoutHeader (s : Storage P) (topoheight : TopoHeight) (hash : Hash) : Storage P :=
  { s with
    hashAtTopo := s.hashAtTopo.erase topoheight
    blocksExecutionOrder := s.blocksExecutionOrder.erase hash
    topoByHash := s.topoByHash.erase hash
    blocks := s.blocks.erase hash
    supply := s.supply.erase topoheight
    burnedSupply := s.burnedSupply.erase topoheight
    rewards := s.rewards.erase topoheight
    difficulty := s.difficulty.erase hash
    cumulativeDifficulty := s.cumulativeDifficulty.erase hash }

theorem deleteHeaderAtTopoheight_ok (h : deleteHeaderAtTopoheight topoheight s = .ok (hash, block) s') :
    s.hashAtTopo[topoheight]? = some hash ∧ s.blocks[hash]? = some block ∧ s' = withoutHeader s topoheight hash := by
  unfold deleteHeaderAtTopoheight at h
  obtain ⟨hash', _, h₁, h⟩ := Exec.bind_ok_iff.mp h
  obtain ⟨hhash, rfl⟩ := deleteCacheableData_ok h₁
  obtain ⟨_, _, h₂, h⟩ := Exec.bind_ok_iff.mp h
  cases h₂
  obtain ⟨_, _, h₃, h⟩ := Exec.bind_ok_iff.mp h
  obtain ⟨-, rfl⟩ := deleteCacheableData_ok h₃
  obtain ⟨block', _, h₄, h⟩ := Exec.bind_ok_iff.mp h
  obtain ⟨hblock, rfl⟩ := deleteCacheableData_ok h₄
  obtain ⟨_, _, h₅, h⟩ := Exec.bind_ok_iff.mp h
  obtain ⟨-, rfl⟩ := deleteCacheableData_ok h₅
  obtain ⟨_, _, h₆, h⟩ := Exec.bind_ok_iff.mp h
  obtain ⟨-, rfl⟩ := deleteCacheableData_ok h₆
  obtain ⟨_, _, h₇, h⟩ := Exec.bind_ok_iff.mp h
  obtain ⟨-, rfl⟩ := deleteCacheableData_ok h₇
  obtain ⟨_, _, h₈, h⟩ := Exec.bind_ok_iff.mp h
  obtain ⟨-, rfl⟩ := deleteCacheableData_ok h₈
  obtain ⟨_, _, h₉, h⟩ := Exec.bind_ok_iff.mp h
  obtain ⟨-, rfl⟩ := deleteCacheableData_ok h₉
  cases h
  exact ⟨hhash, hblock, rfl⟩

theorem deleteBlockAtTopoheight_ok (h : deleteBlockAtTopoheight topoheight s = .ok (hash, block, txs) s') :
    s.hashAtTopo[topoheight]? = some hash ∧ s.blocks[hash]? = some block ∧
      (s' = (block.txsHashes.foldl (deleteTxOfBlock hash) (withoutHeader s topoheight hash, [])).1 ∨
      s' = (block.txsHashes.foldl (deleteTxOfBlock hash) (withoutHeader s topoheight hash, [])).1.removeBlockHashAtHeight
        hash block.height) := by
  unfold deleteBlockAtTopoheight at h
  obtain ⟨⟨hash', block'⟩, s₁, h₁, h⟩ := Exec.bind_ok_iff.mp h
  obtain ⟨hhash, hblock, rfl⟩ := deleteHeaderAtTopoheight_ok h₁
  obtain ⟨s₂, s₃, h₂, h⟩ := Exec.bind_ok_iff.mp h
  cases h₂
  dsimp only at h
  obtain ⟨_, s₄, h₃, h⟩ := Exec.bind_ok_iff.mp h
  cases h₃
  split at h
  · obtain ⟨_, _, h₄, h⟩ := Exec.bind_ok_iff.mp h
    cases h₄
    cases h
    exact ⟨hhash, hblock, .inr rfl⟩
  · cases h
    exact ⟨hhash, hblock, .inl rfl⟩

theorem removeBlockHashAtHeight_sameMarks (s : Storage P) (hash : Hash) (height : Nat) :
    SameMarks s (s.removeBlockHashAtHeight hash height) := by
  unfold removeBlockHashAtHeight
  split
  · exact SameMarks.refl s
  · dsimp only
    split <;> exact ⟨rfl, rfl, rfl⟩

theorem deleteBlockAtTopoheight_marks (h : deleteBlockAtTopoheight topoheight s = .ok (hash, block, txs) s') :
    s.hashAtTopo[topoheight]? = some hash ∧ s.blocks[hash]? = some block ∧ s'.blocks = s.blocks.erase hash ∧
      (∀ tx : Hash, s'.txsExecuted[tx]? = if tx ∈ block.txsHashes then none else s.txsExecuted[tx]?) ∧
      ∀ tx : Hash, s'.contractsOutputs[tx]? =
        if tx ∈ block.txsHashes ∧ (s.txsExecuted[tx]?).isSome then none else s.contractsOutputs[tx]? := by
  obtain ⟨hhash, hblock, hs'⟩ := deleteBlockAtTopoheight_ok h
  obtain ⟨hblocks, hmarks, houtputs⟩ := deleteTxs_marks hash block.txsHashes (withoutHeader s topoheight hash, [])
  rcases hs' with rfl | rfl
  · exact ⟨hhash, hblock, hblocks, hmarks, houtputs⟩
  · have hsame := removeBlockHashAtHeight_sameMarks
      (block.txsHashes.foldl (deleteTxOfBlock hash) (withoutHeader s topoheight hash, [])).1 hash block.height
    refine ⟨hhash, hblock, hsame.blocks.trans hblocks, fun tx => ?_, fun tx => ?_⟩
    · rw [hsame.marks]
      exact hmarks tx
    · rw [hsame.outputs]
      exact houtputs tx

section Runs

/-- Only the marks and the outputs of the transactions that a block executed are removed. -/
structure SparesMarks (hash : Hash) (s s' : Storage P) : Prop where
  marks : ∀ tx : Hash, s.txsExecuted[tx]? ≠ some hash → s'.txsExecuted[tx]? = s.txsExecuted[tx]?
  outputs : ∀ tx : Hash, s.txsExecuted[tx]? ≠ some hash → s'.contractsOutputs[tx]? = s.contractsOutputs[tx]?

def ExecutesOwn (s : Storage P) (topoheight : TopoHeight) : Prop :=
  ∀ hash block, s.hashAtTopo[topoheight]? = some hash → s.blocks[hash]? = some block →
    ∀ tx ∈ block.txsHashes, ∀ executor, s.txsExecuted[tx]? = some executor → executor = hash

theorem sparesMarks_iff (h : deleteBlockAtTopoheight topoheight s = .ok (hash, block, txs) s') :
    SparesMarks hash s s' ↔ s.ExecutesOwn topoheight := by
  obtain ⟨hhash, hblock, -, hmarks, houtputs⟩ := deleteBlockAtTopoheight_marks h
  constructor
  · intro hspares hash' block' hhash' hblock' tx htx executor hexecutor
    rw [hhash, Option.some.injEq] at hhash'
    subst hhash'
    rw [hblock, Option.some.injEq] at hblock'
    subst hblock'
    by_contra hne
    have hkept := hspares.marks tx (by rw [hexecutor, ne_eq, Option.some.injEq]; exact hne)
    rw [hmarks tx, if_pos htx, hexecutor] at hkept
    cases hkept
  · intro hown
    refine ⟨fun tx htx => ?_, fun tx htx => ?_⟩
    · rw [hmarks tx]
      by_cases hmem : tx ∈ block.txsHashes
      · rw [if_pos hmem]
        cases hexecutor : s.txsExecuted[tx]? with
        | none => rfl
        | some executor =>
          rw [hexecutor, hown hash block hhash hblock tx hmem executor hexecutor] at htx
          exact absurd rfl htx
      · rw [if_neg hmem]
    · rw [houtputs tx, if_neg]
      rintro ⟨hmem, hsome⟩
      obtain ⟨executor, hexecutor⟩ := Option.isSome_iff_exists.mp hsome
      rw [hexecutor, hown hash block hhash hblock tx hmem executor hexecutor] at htx
      exact htx rfl

/-- What a rewind or a prune deletes, one topoheight at a time. -/
inductive Deletion where
  | block (topoheight : TopoHeight)
  | versionedData (topoheight : TopoHeight)
  deriving DecidableEq, Repr

def Deletion.run : Deletion → Exec BlockchainError (Storage P) PUnit
  | .block topoheight => do let _ ← deleteBlockAtTopoheight topoheight
  | .versionedData topoheight => deleteVersionedDataAtTopoheight topoheight

/-- A deletion takes marks away only from the transactions of its block. -/
def Spares : Deletion → Storage P → Prop
  | .block topoheight, s =>
    ∀ hash block txs s', deleteBlockAtTopoheight topoheight s = .ok (hash, block, txs) s' → SparesMarks hash s s'
  | .versionedData _, _ => True

/-- A deletion finds no transaction of its block marked for another one. -/
def FindsOwn : Deletion → Storage P → Prop
  | .block topoheight, s => s.ExecutesOwn topoheight
  | .versionedData _, _ => True

/-- The transactions of the blocks that are still stored are still executed, by the same blocks and to the same effect. -/
def MarksSurvive (s s' : Storage P) : Prop :=
  ∀ tx block, s.getBlockExecutorForTx tx = some block → s'.hasBlockWithHash block →
    s'.isTxExecutedInABlock tx ∧ s'.getBlockExecutorForTx tx = some block ∧
      s'.contractsOutputs[tx]? = s.contractsOutputs[tx]?

theorem run_versionedData (h : Deletion.run (.versionedData topoheight) s = .ok ⟨⟩ s') : SameMarks s s' := by
  have hmoves := deleteVersionedData_onlyVersioned (P := P) topoheight s
  have h : deleteVersionedDataAtTopoheight topoheight s = .ok ⟨⟩ s' := h
  rw [h] at hmoves
  obtain ⟨_, _, _, _, _, _, _, _, _, rfl⟩ := hmoves
  exact ⟨rfl, rfl, rfl⟩

theorem run_block (h : Deletion.run (.block topoheight) s = .ok ⟨⟩ s') :
    ∃ hash block txs, deleteBlockAtTopoheight topoheight s = .ok (hash, block, txs) s' := by
  obtain ⟨⟨hash, block, txs⟩, s₁, hdelete, hrest⟩ := Exec.bind_ok_iff.mp h
  cases hrest
  exact ⟨hash, block, txs, hdelete⟩

theorem spares_iff {d : Deletion} (h : d.run s = .ok ⟨⟩ s') : Spares d s ↔ FindsOwn d s := by
  cases d with
  | versionedData topoheight => exact Iff.rfl
  | block topoheight =>
    obtain ⟨hash, block, txs, hdelete⟩ := run_block h
    constructor
    · exact fun hspares => (sparesMarks_iff hdelete).mp (hspares hash block txs s' hdelete)
    · exact fun hown hash' block' txs' s'' hdelete' => (sparesMarks_iff hdelete').mpr hown

theorem run_survive {d : Deletion} (hown : FindsOwn d s) (h : d.run s = .ok ⟨⟩ s') :
    (∀ block, s'.hasBlockWithHash block → s.hasBlockWithHash block) ∧ MarksSurvive s s' := by
  cases d with
  | versionedData topoheight =>
    have hsame := run_versionedData h
    refine ⟨fun block hblock => ?_, fun tx block htx _ => ⟨?_, ?_, by rw [hsame.outputs]⟩⟩
    · unfold hasBlockWithHash at hblock ⊢
      rwa [hsame.blocks] at hblock
    · unfold getBlockExecutorForTx at htx
      unfold isTxExecutedInABlock
      rw [hsame.marks, Std.ExtTreeMap.contains_eq_isSome_getElem?, htx]
      rfl
    · unfold getBlockExecutorForTx at htx ⊢
      rw [hsame.marks, htx]
  | block topoheight =>
    obtain ⟨hash, block, txs, hdelete⟩ := run_block h
    obtain ⟨hhash, hblock, hblocks, -, -⟩ := deleteBlockAtTopoheight_marks hdelete
    have hspares := (sparesMarks_iff hdelete).mpr hown
    have hgone : ¬s'.hasBlockWithHash hash := by
      unfold hasBlockWithHash
      rw [hblocks, Std.ExtTreeMap.contains_eq_isSome_getElem?, FiniteMap.getElem?_erase_self']
      exact Bool.false_ne_true
    refine ⟨fun b hb => ?_, fun tx b htx hb => ?_⟩
    · have hne : hash ≠ b := fun he => hgone (he ▸ hb)
      unfold hasBlockWithHash at hb ⊢
      rwa [hblocks, Std.ExtTreeMap.contains_eq_isSome_getElem?, FiniteMap.getElem?_erase_of_ne _ hne,
        ← Std.ExtTreeMap.contains_eq_isSome_getElem?] at hb
    · have htx : s.txsExecuted[tx]? = some b := htx
      have hne : s.txsExecuted[tx]? ≠ some hash := by
        rw [htx, ne_eq, Option.some.injEq]
        exact fun he => hgone (he ▸ hb)
      have hkept : s'.txsExecuted[tx]? = some b := (hspares.marks tx hne).trans htx
      refine ⟨?_, hkept, hspares.outputs tx hne⟩
      unfold isTxExecutedInABlock
      rw [Std.ExtTreeMap.contains_eq_isSome_getElem?, hkept]
      rfl

private theorem marksSurvive_refl (s : Storage P) : MarksSurvive s s := by
  intro tx block htx _
  refine ⟨?_, htx, rfl⟩
  unfold isTxExecutedInABlock
  unfold getBlockExecutorForTx at htx
  rw [Std.ExtTreeMap.contains_eq_isSome_getElem?, htx]
  rfl

variable {deletions : List Deletion}

/-- No block comes back, and the marks of those that stay are kept. -/
theorem deletions_survive (h : deletions.forM Deletion.run s = .ok ⟨⟩ s')
    (hown : Exec.Along FindsOwn Deletion.run deletions s) :
    (∀ block, s'.hasBlockWithHash block → s.hasBlockWithHash block) ∧ MarksSurvive s s' := by
  induction deletions generalizing s with
  | nil =>
    cases h
    exact ⟨fun _ h => h, marksSurvive_refl _⟩
  | cons d deletions ih =>
    obtain ⟨⟨⟩, s₁, hd, hrest⟩ := Exec.bind_ok_iff.mp h
    obtain ⟨hblocks, hstep⟩ := run_survive hown.1 hd
    obtain ⟨hblocks', hrun⟩ := ih hrest (hown.2 s₁ hd)
    refine ⟨fun block hb => hblocks block (hblocks' block hb), fun tx block htx hb => ?_⟩
    obtain ⟨-, htx₁, houtputs⟩ := hstep tx block htx (hblocks' block hb)
    obtain ⟨hmarked, htx', houtputs'⟩ := hrun tx block htx₁ hb
    exact ⟨hmarked, htx', houtputs'.trans houtputs⟩

private theorem along_spares_iff (h : deletions.forM Deletion.run s = .ok ⟨⟩ s') :
    Exec.Along Spares Deletion.run deletions s ↔ Exec.Along FindsOwn Deletion.run deletions s := by
  induction deletions generalizing s with
  | nil => exact Iff.rfl
  | cons d deletions ih =>
    obtain ⟨⟨⟩, s₁, hd, hrest⟩ := Exec.bind_ok_iff.mp h
    have hsame : ∀ s₂, d.run s = .ok ⟨⟩ s₂ → s₂ = s₁ := by
      intro s₂ hs₂
      rw [hd] at hs₂
      cases hs₂
      rfl
    refine and_congr (spares_iff hd) ⟨fun hall s₂ hs₂ => ?_, fun hall s₂ hs₂ => ?_⟩
    · rw [hsame s₂ hs₂]
      exact (ih hrest).mp (hall s₁ hd)
    · rw [hsame s₂ hs₂]
      exact (ih hrest).mpr (hall s₁ hd)

/-- Whatever is deleted and in which order, the marks of the other blocks survive exactly when no deleted block holds a
transaction that another block executed. -/
theorem deletions_spare_marks_iff (deletions : List Deletion) (s s' : Storage P)
    (h : deletions.forM Deletion.run s = .ok ⟨⟩ s') :
    (Exec.Along Spares Deletion.run deletions s ∧ MarksSurvive s s') ↔
      Exec.Along FindsOwn Deletion.run deletions s :=
  ⟨fun hspares => (along_spares_iff h).mp hspares.1,
    fun hown => ⟨(along_spares_iff h).mpr hown, (deletions_survive h hown).2⟩⟩

end Runs

def orderBlock (s : Storage Unit) (hash : Hash) (topoheight : TopoHeight) (header : BlockHeader) : Storage Unit :=
  { ((s.saveBlock header [] 1 0 hash).setTopoHeightForBlock hash topoheight) with
    supply := s.supply.insert topoheight 0
    burnedSupply := s.burnedSupply.insert topoheight 0
    rewards := s.rewards.insert topoheight 0
    cumulativeDifficulty := s.cumulativeDifficulty.insert hash 1 }

def sampleHeader (height : Nat) (tips txsHashes : List Hash) : BlockHeader :=
  { version := .v2, tips, timestamp := 0, height, nonce := 0, extraNonce := [], miner := 0, txsHashes }

def sharedTransaction : Storage Unit :=
  let s := orderBlock {} 1 1 (sampleHeader 1 [] [9])
  let s := orderBlock s 2 2 (sampleHeader 1 [] [9])
  { s with txsExecuted := s.txsExecuted.insert 9 1 }

def ownTransaction : Storage Unit :=
  let s := orderBlock {} 1 1 (sampleHeader 1 [] [])
  let s := orderBlock s 2 2 (sampleHeader 1 [] [9])
  { s with txsExecuted := s.txsExecuted.insert 9 2 }

private theorem ownTransaction_findsOwn : Exec.Along FindsOwn Deletion.run [.block 2, .versionedData 2] ownTransaction := by
  refine ⟨fun hash block hhash hblock tx htx executor hexecutor => ?_, fun s' _ => ⟨trivial, fun _ _ => trivial⟩⟩
  have hhash' : ownTransaction.hashAtTopo[2]? = some 2 := by decide +kernel
  have hblock' : ownTransaction.blocks[(2 : Hash)]? = some (sampleHeader 1 [] [9]) := by decide +kernel
  have hexecutor' : ownTransaction.txsExecuted[(9 : Hash)]? = some 2 := by decide +kernel
  rw [hhash', Option.some.injEq] at hhash
  subst hhash
  rw [hblock', Option.some.injEq] at hblock
  subst hblock
  rw [List.mem_singleton.mp htx, hexecutor', Option.some.injEq] at hexecutor
  exact hexecutor.symm

/-- A block that executed its own transactions is taken back without harm to the others. -/
theorem ownTransaction_survives : ∃ s', [Deletion.block 2, .versionedData 2].forM Deletion.run ownTransaction = .ok ⟨⟩ s' ∧
    Exec.Along Spares Deletion.run [.block 2, .versionedData 2] ownTransaction ∧ MarksSurvive ownTransaction s' := by
  have hok : ∃ s', [Deletion.block 2, .versionedData 2].forM Deletion.run ownTransaction = .ok ⟨⟩ s' := by
    have heval : (match [Deletion.block 2, .versionedData 2].forM Deletion.run ownTransaction with
        | .ok _ _ => true
        | .error _ _ => false) = true := by decide +kernel
    revert heval
    cases [Deletion.block 2, .versionedData 2].forM Deletion.run ownTransaction with
    | ok _ s' => exact fun _ => ⟨s', rfl⟩
    | error _ _ => exact nofun
  obtain ⟨s', hs'⟩ := hok
  exact ⟨s', hs', (deletions_spare_marks_iff [.block 2, .versionedData 2] ownTransaction s' hs').mpr
    ownTransaction_findsOwn⟩

/-- Deleting block 2 takes away the mark of the transaction that block 1, still stored, executed. -/
theorem deletion_loses_mark_of_other_block :
    (match deleteBlockAtTopoheight 2 sharedTransaction with
      | .ok _ s' => sharedTransaction.getBlockExecutorForTx 9 == some 1 && s'.hasBlockWithHash 1 &&
          !s'.isTxExecutedInABlock 9
      | .error _ _ => false) = true := by
  decide +kernel

end Xelis.Storage
