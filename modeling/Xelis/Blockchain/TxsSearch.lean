import Xelis.Blockchain.Insertion
import Xelis.Lib.WorkList

/-! The transactions behind a set of tips: those of the blocks that are reached from the tips above a height. -/

namespace Xelis.Blockchain

open Lib (Exec FiniteMap Halt WorkList)

variable {P τ : Type}

/-- The tips of a block, where the block is high enough to be looked behind. -/
def tipsAbove (s : Storage P) (untilHeight : Nat) (hash : Hash) : List Hash :=
  match s.blocks[hash]? with
  | some header => if untilHeight ≤ header.height then header.tips else []
  | none => []

/-- A block that is high enough, with one of its transactions, which was executed in the block where this is asked for. -/
def GivesTx (s : Storage P) (untilHeight : Nat) (executedOnly : Bool) (hash tx : Hash) : Prop :=
  ∃ header, s.blocks[hash]? = some header ∧ untilHeight ≤ header.height ∧ tx ∈ header.txsHashes ∧
    (executedOnly = true → s.isTxExecutedInBlock tx hash = true)

variable {s : Storage P} {untilHeight : Nat} {executedOnly : Bool} {search : TxsSearch} {hash tx : Hash} {header : BlockHeader}

namespace TxsSearch

/-- The blocks that wait and those that were met. -/
def work (search : TxsSearch) : WorkList Hash := { queue := search.queue, processed := search.processed }

/-- A tip waits unless it was met before. -/
def meet (search : TxsSearch) (tip : Hash) : TxsSearch :=
  if search.processed.contains tip then search
  else { search with processed := search.processed ++ [tip], queue := Storage.Tips.insert search.queue tip }

theorem work_meet (search : TxsSearch) (tip : Hash) : (search.meet tip).work = search.work.meet tip := by
  unfold meet WorkList.meet work
  dsimp only
  split
  · rfl
  · rfl

theorem hashes_meet (search : TxsSearch) (tip : Hash) : (search.meet tip).hashes = search.hashes := by
  unfold meet
  split
  · rfl
  · rfl

theorem work_meetAll (tips : List Hash) (search : TxsSearch) : (tips.foldl meet search).work = tips.foldl WorkList.meet search.work := by
  induction tips generalizing search with
  | nil => rfl
  | cons tip tips ih => rw [List.foldl_cons, ih, work_meet, List.foldl_cons]

theorem hashes_meetAll (tips : List Hash) (search : TxsSearch) : (tips.foldl meet search).hashes = search.hashes := by
  induction tips generalizing search with
  | nil => rfl
  | cons tip tips ih => rw [List.foldl_cons, ih, hashes_meet]

end TxsSearch

/-- What one visited block gives to the transactions. -/
def gathered (s : Storage P) (untilHeight : Nat) (executedOnly : Bool) (hash : Hash) (header : BlockHeader) (hashes : List Hash) : List Hash :=
  if untilHeight ≤ header.height then
    (header.txsHashes.filter fun tx => !executedOnly || s.isTxExecutedInBlock tx hash).foldl Storage.Tips.insert hashes
  else hashes

variable {hashes tips : List Hash}

theorem mem_gathered (hblock : s.blocks[hash]? = some header) :
    tx ∈ gathered s untilHeight executedOnly hash header hashes ↔ tx ∈ hashes ∨ GivesTx s untilHeight executedOnly hash tx := by
  have hasked : (!executedOnly || s.isTxExecutedInBlock tx hash) = true ↔
      (executedOnly = true → s.isTxExecutedInBlock tx hash = true) := by
    cases executedOnly <;> simp
  unfold gathered
  split
  · rename_i hheight
    rw [Storage.Tips.mem_insertAll, List.mem_filter, hasked]
    refine or_congr_right ⟨fun h => ⟨header, hblock, hheight, h⟩, ?_⟩
    rintro ⟨header', hblock', -, h⟩
    cases hblock.symm.trans hblock'
    exact h
  · rename_i hlow
    refine ⟨.inl, ?_⟩
    rintro (h | ⟨header', hblock', hheight, -⟩)
    · exact h
    · cases hblock.symm.trans hblock'
      exact absurd hheight hlow

theorem nodup_gathered (h : hashes.Nodup) : (gathered s untilHeight executedOnly hash header hashes).Nodup := by
  unfold gathered
  split
  · exact Storage.Tips.nodup_insertAll h
  · exact h

theorem getAllTxsTurn_of_block (hlast : search.queue.getLast? = some hash) (hblock : s.blocks[hash]? = some header) (t : τ) :
    ∃ search', getAllTxsTurn s untilHeight executedOnly search t = .ok (.inl search') t ∧
      search'.work = search.work.visit (tipsAbove s untilHeight hash) ∧
      search'.hashes = gathered s untilHeight executedOnly hash header search.hashes := by
  have hheader : s.getBlockHeaderByHash hash = .ok header := by rw [Storage.getBlockHeaderByHash, hblock]
  unfold getAllTxsTurn tipsAbove gathered
  simp only [hlast, hheader, hblock, Exec.attempt_ok, pure_bind]
  split
  · refine ⟨_, rfl, ?_, ?_⟩
    · exact TxsSearch.work_meetAll header.tips _
    · exact TxsSearch.hashes_meetAll header.tips _
  · exact ⟨_, rfl, rfl, rfl⟩

theorem getAllTxsTurn_of_missing (hlast : search.queue.getLast? = some hash) (hblock : s.blocks[hash]? = none) (t : τ) :
    getAllTxsTurn s untilHeight executedOnly search t = .error (.failed (.notFoundOnDisk .getBlockHeaderByHash)) t := by
  have hheader : s.getBlockHeaderByHash hash = .error (.notFoundOnDisk .getBlockHeaderByHash) := by
    rw [Storage.getBlockHeaderByHash, hblock]
  unfold getAllTxsTurn
  simp only [hlast, hheader]
  rfl

/-- The transactions of the blocks visited so far, each once. -/
structure Gathered (s : Storage P) (untilHeight : Nat) (executedOnly : Bool) (visited : List Hash) (search : TxsSearch) : Prop where
  stored : ∀ hash ∈ visited, (s.blocks[hash]?).isSome
  nodup : search.hashes.Nodup
  mem_iff : ∀ tx, tx ∈ search.hashes ↔ ∃ hash ∈ visited, GivesTx s untilHeight executedOnly hash tx

theorem turns_gathered (s : Storage P) (untilHeight : Nat) (executedOnly : Bool) :
    WorkList.Turns (tipsAbove s untilHeight) TxsSearch.work (Gathered s untilHeight executedOnly) (fun hash => s.blocks[hash]? = none)
      (getAllTxsTurn s untilHeight executedOnly : TxsSearch → Exec (Halt BlockchainError) τ (TxsSearch ⊕ List Hash)) := by
  intro visited search hash t hgathered hlast hstored
  obtain ⟨header, hblock⟩ := Option.ne_none_iff_exists'.mp hstored
  obtain ⟨search', hturn, hwork, hhashes⟩ := getAllTxsTurn_of_block hlast hblock t
  refine ⟨search', hturn, hwork, ?_, hhashes ▸ nodup_gathered hgathered.nodup, fun tx => ?_⟩
  · intro other hother
    rcases List.mem_append.mp hother with hother | hother
    · exact hgathered.stored other hother
    · rw [List.mem_singleton.mp hother, hblock]
      rfl
  · rw [hhashes, mem_gathered hblock, hgathered.mem_iff]
    simp only [List.mem_append, List.mem_singleton, or_and_right, exists_or, exists_eq_left]

def storedTips (s : Storage P) : Finset Hash := (s.blocks.toList.flatMap fun e => e.2.tips).toFinset

theorem mem_storedTips (s : Storage P) (untilHeight : Nat) (hash : Hash) : ∀ tip ∈ tipsAbove s untilHeight hash, tip ∈ storedTips s := by
  intro tip htip
  unfold tipsAbove at htip
  split at htip
  · rename_i header hblock
    split at htip
    · refine List.mem_toFinset.mpr (List.mem_flatMap.mpr ⟨(hash, header), ?_, htip⟩)
      exact Std.ExtTreeMap.mem_toList_iff_getElem?_eq_some.mpr hblock
    · exact absurd htip List.not_mem_nil
  · exact absurd htip List.not_mem_nil

/-- The search ends for every store: with the transactions that the reached blocks give, or at a block that is not stored. -/
theorem getAllTxsUntilHeight_ends (s : Storage P) (untilHeight : Nat) (tips : List Hash) (executedOnly : Bool) (t : τ) : ∃ k,
    (∃ hashes, (∀ n, k ≤ n → getAllTxsUntilHeight n s untilHeight tips executedOnly t = .ok hashes t) ∧ hashes.Nodup ∧
      ∀ tx, tx ∈ hashes ↔ ∃ hash, WorkList.Reached (tipsAbove s untilHeight) tips hash ∧ GivesTx s untilHeight executedOnly hash tx) ∨
    ((∀ n, k ≤ n →
        getAllTxsUntilHeight n s untilHeight tips executedOnly t = .error (.failed (.notFoundOnDisk .getBlockHeaderByHash)) t) ∧
      ∃ hash, WorkList.Reached (tipsAbove s untilHeight) tips hash ∧ s.blocks[hash]? = none) := by
  have hstart : Gathered s untilHeight executedOnly [] { hashes := [], queue := tips, processed := [] } :=
    ⟨fun _ h => absurd h List.not_mem_nil, List.nodup_nil, fun tx => by simp⟩
  obtain ⟨visited, search, hleads, hgathered, hexplored, hlast⟩ := WorkList.leads_explored (mem_storedTips s untilHeight)
    (turns_gathered s untilHeight executedOnly) t hstart (WorkList.Explored.start (tipsAbove s untilHeight) tips)
  cases hqueue : search.queue.getLast? with
  | none =>
    have hresult : getAllTxsTurn s untilHeight executedOnly search t = .ok (.inr search.hashes) t := by
      unfold getAllTxsTurn
      rw [hqueue]
      rfl
    obtain ⟨k, hk⟩ := hleads.returns hresult
    refine ⟨k, .inl ⟨search.hashes, hk, hgathered.nodup, fun tx => (hgathered.mem_iff tx).trans ?_⟩⟩
    have hnil : search.work.queue = [] := List.getLast?_eq_none_iff.mp hqueue
    simp only [hexplored.mem_iff hnil]
  | some hash =>
    have hmissing : s.blocks[hash]? = none := hlast hash hqueue
    obtain ⟨k, hk⟩ := hleads.run_eq
    refine ⟨k + 1, .inr ⟨fun n hn => ?_, hash, hexplored.sound hash (.inr (List.mem_of_getLast? hqueue)), hmissing⟩⟩
    obtain ⟨m, rfl⟩ : ∃ m, n = m + 1 + k := ⟨n - (k + 1), by omega⟩
    refine (hk (m + 1)).trans ?_
    rw [Lib.Loop.run, Exec.bind_apply, getAllTxsTurn_of_missing hqueue hmissing]

/-- Where every reached block is stored, its transactions are found, and no others. -/
theorem getAllTxsUntilHeight_exact (s : Storage P) (untilHeight : Nat) (tips : List Hash) (executedOnly : Bool)
    (hstored : ∀ hash, WorkList.Reached (tipsAbove s untilHeight) tips hash → s.hasBlockWithHash hash = true) (t : τ) :
    ∃ k hashes, (∀ n, k ≤ n → getAllTxsUntilHeight n s untilHeight tips executedOnly t = .ok hashes t) ∧ hashes.Nodup ∧
      ∀ tx, tx ∈ hashes ↔ ∃ hash, WorkList.Reached (tipsAbove s untilHeight) tips hash ∧ ∃ header, s.getBlockHeaderByHash hash = .ok header ∧
        untilHeight ≤ header.height ∧ tx ∈ header.txsHashes ∧ (executedOnly = true → s.isTxExecutedInBlock tx hash = true) := by
  have hheader : ∀ hash header, s.getBlockHeaderByHash hash = .ok header ↔ s.blocks[hash]? = some header := by
    intro hash header
    unfold Storage.getBlockHeaderByHash
    cases s.blocks[hash]? with
    | none => exact ⟨nofun, nofun⟩
    | some header' => simp
  obtain ⟨k, ⟨hashes, hruns, hnodup, hmem⟩ | ⟨-, hash, hreached, hmissing⟩⟩ :=
    getAllTxsUntilHeight_ends s untilHeight tips executedOnly t
  · simp only [hheader]
    exact ⟨k, hashes, hruns, hnodup, hmem⟩
  · have hpresent := hstored hash hreached
    unfold Storage.hasBlockWithHash at hpresent
    rw [Std.ExtTreeMap.contains_eq_isSome_getElem?, hmissing] at hpresent
    cases hpresent

theorem hasBlockWithHash_of_reached (htips : ∀ tip ∈ tips, s.hasBlockWithHash tip = true)
    (hstored : ∀ tip ∈ storedTips s, s.hasBlockWithHash tip = true) (untilHeight : Nat) :
    ∀ hash, WorkList.Reached (tipsAbove s untilHeight) tips hash → s.hasBlockWithHash hash = true := by
  rintro hash ⟨tip, htip, hreach⟩
  induction hreach with
  | refl => exact htips tip htip
  | tail _ hlink _ => exact hstored _ (mem_storedTips s untilHeight _ _ hlink)

/-- Two blocks with the same transaction beside each other, which was executed in the first one. -/
def includedTwice : Storage Unit :=
  { storedBlocks [(0, []), (1, [0]), (2, [0])] with
    blocks := (((∅ : FiniteMap Hash BlockHeader).insert 0 (headerWithTips [])).insert 1
      { headerWithTips [0] with height := 1, txsHashes := [7] }).insert 2 { headerWithTips [0] with height := 1, txsHashes := [7, 8] }
    txsExecuted := (∅ : FiniteMap Hash Hash).insert 7 1 }

/-- The transaction is found once, through the block that has executed it. -/
theorem getAllTxsUntilHeight_includedTwice :
    ∃ k hashes, (∀ n, k ≤ n → getAllTxsUntilHeight n includedTwice 1 [1, 2] true () = .ok hashes ()) ∧ hashes.Nodup ∧ 7 ∈ hashes := by
  have htips : ∀ tip ∈ [(1 : Hash), 2], includedTwice.hasBlockWithHash tip = true :=
    List.all_eq_true.mp (by decide +kernel : [(1 : Hash), 2].all includedTwice.hasBlockWithHash = true)
  have hstored : ∀ tip ∈ storedTips includedTwice, includedTwice.hasBlockWithHash tip = true := by
    intro tip htip
    have hall : (includedTwice.blocks.toList.flatMap fun e => e.2.tips).all includedTwice.hasBlockWithHash = true := by decide +kernel
    exact List.all_eq_true.mp hall tip (List.mem_toFinset.mp htip)
  have hblock : includedTwice.getBlockHeaderByHash 1 = .ok { headerWithTips [0] with height := 1, txsHashes := [7] } := by
    unfold includedTwice Storage.getBlockHeaderByHash
    simp only
    rw [FiniteMap.getElem?_insert_of_ne _ _ (by decide), FiniteMap.getElem?_insert_self']
  have hexecuted : includedTwice.isTxExecutedInBlock 7 1 = true := by
    unfold includedTwice Storage.isTxExecutedInBlock
    simp only [FiniteMap.getElem?_insert_self', beq_self_eq_true]
  obtain ⟨k, hashes, hruns, hnodup, hmem⟩ :=
    getAllTxsUntilHeight_exact includedTwice 1 [1, 2] true (hasBlockWithHash_of_reached htips hstored 1) ()
  refine ⟨k, hashes, hruns, hnodup, (hmem 7).mpr ⟨1, .start List.mem_cons_self, _, hblock, le_refl _, List.mem_cons_self, ?_⟩⟩
  exact fun _ => hexecuted

end Xelis.Blockchain
