import Mathlib.Data.List.Induction
import Mathlib.Data.List.Sort
import Xelis.Blockchain.Ordering
import Xelis.Lib.DepthFirst
import Xelis.Lib.IndexSet
import Xelis.Lib.Lru

namespace Xelis.Blockchain

open Lib (FiniteMap IndexSet Lru)
open Lib.DepthFirst (Acyclic)

variable {P : Type}

def parents (s : Storage P) (hash : Hash) : List Hash :=
  match s.blocks[hash]? with
  | some header => header.tips
  | none => []

/-- The stored blocks are the vertices of a finite graph without cycles. -/
structure StoredDag (s : Storage P) : Prop where
  tips_stored : ∀ hash, s.hasBlockWithHash hash → ∀ tip ∈ parents s hash, s.hasBlockWithHash tip
  acyclic : Acyclic (parents s)

variable {hash tip : Hash}

theorem getPastBlocksForBlockHash_eq {s : Storage P} (h : s.hasBlockWithHash hash) :
    s.getPastBlocksForBlockHash hash = .ok (parents s hash) := by
  unfold Storage.getPastBlocksForBlockHash Storage.getBlockHeaderByHash parents
  cases hheader : s.blocks[hash]? with
  | some header => rfl
  | none => exact absurd (Std.ExtTreeMap.mem_iff_contains.mpr h) (Lib.FiniteMap.not_mem_of_getElem?_eq_none hheader)

/-- A graph of stored blocks that all have a cumulative difficulty. -/
structure RankedDag (s : Storage P) : Prop extends StoredDag s where
  ranked : ∀ hash, s.hasBlockWithHash hash → ∃ difficulty, s.cumulativeDifficulty[hash]? = some difficulty

/-- The parent relation of the stored blocks goes down for ever nowhere: there are finitely many hashes. -/
theorem StoredDag.wellFounded {s : Storage P} (h : StoredDag s) : WellFounded (fun y x => y ∈ parents s x) := by
  have hfinite : Finite Hash := Finite.of_injective BitVec.toFin (fun _ _ => BitVec.eq_of_toFin_eq)
  let below (y x : Hash) : Prop := Relation.TransGen (fun x y => y ∈ parents s x) x y
  have htrans : IsTrans Hash below := ⟨fun _ _ _ hzy hyx => hyx.trans hzy⟩
  have hirrefl : Std.Irrefl below := ⟨h.acyclic⟩
  exact Subrelation.wf (fun hyx => Relation.TransGen.single hyx) (Finite.wellFounded_of_trans_of_irrefl below)

/-- By cumulative difficulty and, where it is the same, by hash. -/
def ScoreLe (a b : Hash × Nat) : Prop := if a.2 ≠ b.2 then a.2 ≤ b.2 else a.1 ≤ b.1

instance : DecidableRel ScoreLe := fun a b => inferInstanceAs (Decidable (if a.2 ≠ b.2 then a.2 ≤ b.2 else a.1 ≤ b.1))

def sortDescendingByCumulativeDifficulty (scores : List (Hash × Nat)) : List (Hash × Nat) :=
  scores.insertionSort (fun a b => ScoreLe b a)

def sortAscendingByCumulativeDifficulty (scores : List (Hash × Nat)) : List (Hash × Nat) := scores.insertionSort ScoreLe

theorem scoreLe_iff (a b : Hash × Nat) : ScoreLe a b ↔ a.2 < b.2 ∨ a.2 = b.2 ∧ a.1.toNat ≤ b.1.toNat := by
  unfold ScoreLe
  split
  · omega
  · rw [BitVec.le_def]
    omega

theorem scoreLe_total (a b : Hash × Nat) : ScoreLe a b ∨ ScoreLe b a := by
  rw [scoreLe_iff, scoreLe_iff]
  omega

theorem scoreLe_trans (a b c : Hash × Nat) (hab : ScoreLe a b) (hbc : ScoreLe b c) : ScoreLe a c := by
  rw [scoreLe_iff] at *
  omega

theorem scoreLe_antisymm (a b : Hash × Nat) (hab : ScoreLe a b) (hba : ScoreLe b a) : a = b := by
  rw [scoreLe_iff] at hab hba
  exact Prod.ext (BitVec.eq_of_toNat_eq (by omega)) (by omega)

theorem pairwise_sortDescending (scores : List (Hash × Nat)) :
    (sortDescendingByCumulativeDifficulty scores).Pairwise (fun a b => ScoreLe b a) := by
  have htotal : Std.Total (fun a b => ScoreLe b a) := ⟨fun a b => scoreLe_total b a⟩
  have htrans : IsTrans (Hash × Nat) (fun a b => ScoreLe b a) := ⟨fun a b c hab hbc => scoreLe_trans c b a hbc hab⟩
  exact List.pairwise_insertionSort _ _

/-- The order that comes out does not depend on the one that went in. -/
theorem sortDescending_perm {scores scores' : List (Hash × Nat)} (h : scores.Perm scores') :
    sortDescendingByCumulativeDifficulty scores = sortDescendingByCumulativeDifficulty scores' :=
  ((List.perm_insertionSort _ _).trans (h.trans (List.perm_insertionSort _ _).symm)).eq_of_pairwise
    (fun a b _ _ hba hab => scoreLe_antisymm a b hab hba) (pairwise_sortDescending _) (pairwise_sortDescending _)

theorem reverse_sortAscending (scores : List (Hash × Nat)) :
    (sortAscendingByCumulativeDifficulty scores).reverse = sortDescendingByCumulativeDifficulty scores := by
  have htotal : Std.Total ScoreLe := ⟨scoreLe_total⟩
  have htrans : IsTrans (Hash × Nat) ScoreLe := ⟨scoreLe_trans⟩
  have hperm : (sortAscendingByCumulativeDifficulty scores).reverse.Perm (sortDescendingByCumulativeDifficulty scores) :=
    (List.reverse_perm _).trans ((List.perm_insertionSort _ _).trans (List.perm_insertionSort _ _).symm)
  refine hperm.eq_of_pairwise (fun a b _ _ hba hab => scoreLe_antisymm a b hab hba) ?_ (pairwise_sortDescending scores)
  exact List.pairwise_reverse.mpr (List.pairwise_insertionSort ScoreLe scores)

/-- What the node remembers of its walks through the graph. -/
structure DagCaches where
  tipBase : Lru (Hash × Nat) (Hash × Nat) := ⟨1024, []⟩
  commonBase : Lru Hash (Hash × Nat) := ⟨1024, []⟩
  tipWorkScore : Lru (Hash × Hash × Nat) (Finset Hash × Nat) := ⟨1024, []⟩
  fullOrder : Lru (Hash × Hash × Nat) (IndexSet Hash) := ⟨1024, []⟩

section Samples

def headerWithTips (tips : List Hash) : BlockHeader :=
  { version := .v2, tips, timestamp := 0, height := 0, nonce := 0, extraNonce := [], miner := 0, txsHashes := [] }

def storeBlock (s : Storage Unit) (b : Hash × List Hash) : Storage Unit :=
  { s with
    blocks := s.blocks.insert b.1 (headerWithTips b.2)
    cumulativeDifficulty := s.cumulativeDifficulty.insert b.1 b.1.toNat }

/-- Blocks with their parents. Every block counts its hash as its cumulative difficulty. -/
def storedBlocks (blocks : List (Hash × List Hash)) : Storage Unit := blocks.foldl storeBlock {}

theorem storedBlocks_concat (blocks : List (Hash × List Hash)) (b : Hash × List Hash) :
    storedBlocks (blocks ++ [b]) = storeBlock (storedBlocks blocks) b := by
  rw [storedBlocks, List.foldl_append]
  rfl

theorem hasBlockWithHash_storedBlocks (blocks : List (Hash × List Hash)) (hash : Hash) :
    (storedBlocks blocks).hasBlockWithHash hash ↔ hash ∈ blocks.map Prod.fst := by
  induction blocks using List.reverseRecOn with
  | nil => simp [storedBlocks, Storage.hasBlockWithHash]
  | append_singleton blocks b ih =>
    rw [storedBlocks_concat, List.map_append, List.mem_append, ← ih]
    unfold storeBlock Storage.hasBlockWithHash
    rw [Std.ExtTreeMap.contains_insert, Bool.or_eq_true, or_comm]
    refine or_congr_right ?_
    rw [beq_iff_eq, Std.LawfulEqCmp.compare_eq_iff_eq, List.map_singleton, List.mem_singleton, eq_comm]

variable {blocks : List (Hash × List Hash)}

theorem mem_parents_storedBlocks (h : tip ∈ parents (storedBlocks blocks) hash) : ∃ b ∈ blocks, b.1 = hash ∧ tip ∈ b.2 := by
  induction blocks using List.reverseRecOn with
  | nil => exact absurd h List.not_mem_nil
  | append_singleton blocks b ih =>
    rw [storedBlocks_concat] at h
    by_cases hhash : b.1 = hash
    · subst hhash
      simp only [parents, storeBlock, FiniteMap.getElem?_insert_self', headerWithTips] at h
      exact ⟨b, by simp, rfl, h⟩
    · simp only [parents, storeBlock, FiniteMap.getElem?_insert_of_ne _ _ hhash] at h
      obtain ⟨b', hb', heq, htip⟩ := ih h
      exact ⟨b', List.mem_append_left _ hb', heq, htip⟩

theorem cumulativeDifficulty_storedBlocks (h : hash ∈ blocks.map Prod.fst) :
    (storedBlocks blocks).cumulativeDifficulty[hash]? = some hash.toNat := by
  induction blocks using List.reverseRecOn with
  | nil => exact absurd h List.not_mem_nil
  | append_singleton blocks b ih =>
    rw [storedBlocks_concat]
    unfold storeBlock
    by_cases hhash : b.1 = hash
    · rw [hhash, FiniteMap.getElem?_insert_self']
    · rw [FiniteMap.getElem?_insert_of_ne _ _ hhash]
      refine ih ?_
      rw [List.map_append, List.mem_append] at h
      exact h.resolve_right (fun h => hhash (List.mem_singleton.mp h).symm)

/-- Every parent is among the blocks and has a smaller hash. -/
def linkedDown (blocks : List (Hash × List Hash)) : Bool :=
  blocks.all (fun b => b.2.all (fun tip => (blocks.map Prod.fst).contains tip && decide (tip.toNat < b.1.toNat)))

theorem storedBlocks_dag (h : linkedDown blocks) : StoredDag (storedBlocks blocks) := by
  have hlinked : ∀ hash, ∀ tip ∈ parents (storedBlocks blocks) hash,
      tip ∈ blocks.map Prod.fst ∧ tip.toNat < hash.toNat := by
    intro hash tip htip
    obtain ⟨b, hb, rfl, hmem⟩ := mem_parents_storedBlocks htip
    simpa only [Bool.and_eq_true, List.contains_iff_mem, decide_eq_true_eq] using List.all_eq_true.mp (List.all_eq_true.mp h b hb) tip hmem
  constructor
  · intro hash _ tip htip
    exact (hasBlockWithHash_storedBlocks blocks tip).mpr (hlinked hash tip htip).1
  · exact Lib.DepthFirst.acyclic_of_rank BitVec.toNat (fun hash tip htip => (hlinked hash tip htip).2)

theorem storedBlocks_rankedDag (h : linkedDown blocks) : RankedDag (storedBlocks blocks) where
  toStoredDag := storedBlocks_dag h
  ranked hash hhash := ⟨_, cumulativeDifficulty_storedBlocks ((hasBlockWithHash_storedBlocks blocks hash).mp hhash)⟩

def withOrder (s : Storage Unit) (order : List (Hash × TopoHeight)) : Storage Unit :=
  { s with
    topoByHash := order.foldl (fun m e => m.insert e.1 e.2) ∅
    hashAtTopo := order.foldl (fun m e => m.insert e.2 e.1) ∅ }

theorem RankedDag.withOrder {s : Storage Unit} (h : RankedDag s) (order : List (Hash × TopoHeight)) :
    RankedDag (withOrder s order) where
  tips_stored := h.tips_stored
  acyclic := h.acyclic
  ranked := h.ranked

end Samples

end Xelis.Blockchain
