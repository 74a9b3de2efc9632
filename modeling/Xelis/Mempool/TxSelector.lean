import Mathlib.Data.List.Sort
import Mathlib.Order.WithBot
import Xelis.Common.Transaction
import Xelis.Lib.Codec
import Xelis.Lib.PriorityQueue

namespace Xelis

open Lib (BinaryHeap Merges)
open Lib.Codec (KeyOrder)

structure TxSelectorEntry where
  hash : Hash
  tx : Transaction
  size : Nat

variable {l seen v : List TxSelectorEntry}

namespace TxSelector

/-- The fee of the first transaction of a group. A group without one is below every other. -/
def frontFee : List TxSelectorEntry → WithBot Nat
  | [] => ⊥
  | entry :: _ => (entry.tx.fee : WithBot Nat)

variable (heap : BinaryHeap (List TxSelectorEntry) frontFee)

def grouped (groups : List (List TxSelectorEntry)) : heap.Queue := heap.extend heap.empty groups

def pushGroup (queue : heap.Queue) (group : List TxSelectorEntry) : heap.Queue := heap.push queue group

/-- The group of the sender takes one more entry, behind the ones it has. -/
def addEntry (entry : TxSelectorEntry) : List (PublicKey × List TxSelectorEntry) → List (PublicKey × List TxSelectorEntry)
  | [] => [(entry.tx.source, [entry])]
  | (source, v) :: groups =>
    if source = entry.tx.source then (source, v ++ [entry]) :: groups else (source, v) :: addEntry entry groups

def sortByNonce (v : List TxSelectorEntry) : List TxSelectorEntry := v.insertionSort (fun a b => a.tx.nonce ≤ b.tx.nonce)

def entryOf : Nat × Hash × Transaction → TxSelectorEntry
  | (size, hash, tx) => { hash, tx, size }

def groupsOf (iter : List (Nat × Hash × Transaction)) : List (PublicKey × List TxSelectorEntry) :=
  iter.foldl (fun groups item => addEntry (entryOf item) groups) []

def new (order : KeyOrder PublicKey) (iter : List (Nat × Hash × Transaction)) : heap.Queue :=
  grouped heap ((order.arrange (groupsOf iter)).map fun group => sortByNonce group.2)

/-- The first transaction of a group whose first fee is the highest. What is left of the group goes back to the queue. -/
def next (queue : heap.Queue) : Option TxSelectorEntry × heap.Queue :=
  match heap.pop queue with
  | none => (none, queue)
  | some ([], queue) => (none, queue)
  | some (entry :: group, queue) => (some entry, if group.isEmpty then queue else heap.push queue group)

/-- What comes out until nothing does, in less than `n` turns. -/
def yielded : Nat → heap.Queue → Option (List TxSelectorEntry)
  | 0, _ => none
  | n + 1, queue =>
    match next heap queue with
    | (none, _) => some []
    | (some entry, queue) => (yielded n queue).map (entry :: ·)

section Merging

variable {heap}

def fee (entry : TxSelectorEntry) : Nat := entry.tx.fee

/-- The queue is empty, holds empty groups only, or gives a transaction with the highest fee of the first ones. -/
theorem next_cases (queue : heap.Queue) :
    (∃ queue', next heap queue = (none, queue') ∧ ∀ g ∈ heap.contents queue, g = []) ∨
      ∃ entry group others queue', next heap queue = (some entry, queue') ∧ heap.contents queue = (entry :: group) ::ₘ others ∧
        (∀ b g, b :: g ∈ others → fee b ≤ fee entry) ∧
        (heap.contents queue' = group ::ₘ others ∨ group = [] ∧ heap.contents queue' = others) := by
  unfold next
  cases hpop : heap.pop queue with
  | none =>
    refine Or.inl ⟨queue, rfl, fun g hg => ?_⟩
    rw [heap.pop_none queue hpop] at hg
    exact absurd hg (Multiset.notMem_zero g)
  | some popped =>
    obtain ⟨group, queue'⟩ := popped
    obtain ⟨hcontents, hgreatest⟩ := heap.pop_some queue group queue' hpop
    cases group with
    | nil =>
      refine Or.inl ⟨queue', rfl, fun g hg => ?_⟩
      rw [hcontents] at hg
      rcases Multiset.mem_cons.mp hg with rfl | hg
      · rfl
      · cases g with
        | nil => rfl
        | cons entry g => exact absurd (hgreatest _ hg) (not_le.mpr (WithBot.bot_lt_coe _))
    | cons entry group =>
      refine Or.inr ⟨entry, group, heap.contents queue', _, rfl, hcontents, fun b g hb => ?_, ?_⟩
      · exact WithBot.coe_le_coe.mp (hgreatest _ hb)
      · cases group with
        | nil => exact Or.inr ⟨rfl, rfl⟩
        | cons e group => exact Or.inl (heap.contents_push _ _)

variable {n m : Nat} {queue : heap.Queue}

theorem yielded_merges (h : yielded heap n queue = some l) : Merges fee (heap.contents queue) l := by
  induction n generalizing queue l with
  | zero => cases h
  | succ n ih =>
    rw [yielded] at h
    rcases next_cases queue with ⟨queue', hnext, hempty⟩ | ⟨entry, group, others, queue', hnext, hcontents, hgreatest, hleft⟩
    · rw [hnext] at h
      cases h
      exact Merges.done hempty
    · rw [hnext] at h
      obtain ⟨l', hl', rfl⟩ := Option.map_eq_some_iff.mp h
      have hmerges := ih hl'
      rw [hcontents]
      refine Merges.pick hgreatest ?_
      rcases hleft with hleft | ⟨rfl, hleft⟩
      · rwa [hleft] at hmerges
      · rw [hleft] at hmerges
        exact hmerges.cons_nil

/-- The number of transactions in the queue bounds the number of turns. -/
theorem yielded_total (queue : heap.Queue) (h : ((heap.contents queue).map List.length).sum < n) :
    ∃ l, yielded heap n queue = some l := by
  induction n generalizing queue with
  | zero => exact absurd h (Nat.not_lt_zero _)
  | succ n ih =>
    rw [yielded]
    rcases next_cases queue with ⟨queue', hnext, -⟩ | ⟨entry, group, others, queue', hnext, hcontents, -, hleft⟩
    · rw [hnext]
      exact ⟨[], rfl⟩
    · rw [hcontents, Multiset.map_cons, Multiset.sum_cons, List.length_cons] at h
      have hless : ((heap.contents queue').map List.length).sum < n := by
        rcases hleft with hleft | ⟨rfl, hleft⟩
        · rw [hleft, Multiset.map_cons, Multiset.sum_cons]
          omega
        · rw [hleft]
          omega
      obtain ⟨l, hl⟩ := ih queue' hless
      rw [hnext]
      exact ⟨entry :: l, congrArg (Option.map (entry :: ·)) hl⟩

theorem yielded_mono (h : yielded heap n queue = some l) (hle : n ≤ m) : yielded heap m queue = some l := by
  induction n generalizing m queue l with
  | zero => cases h
  | succ n ih =>
    obtain ⟨m, rfl⟩ : ∃ k, m = k + 1 := ⟨m - 1, by omega⟩
    rw [yielded] at h ⊢
    rcases hnext : next heap queue with ⟨_ | entry, queue'⟩
    · rwa [hnext] at h
    · rw [hnext] at h
      obtain ⟨l', hl', rfl⟩ := Option.map_eq_some_iff.mp h
      exact Option.map_eq_some_iff.mpr ⟨l', ih hl' (Nat.le_of_succ_le_succ hle), rfl⟩

theorem exists_yielded {groups : List (List TxSelectorEntry)} (h : heap.contents queue = groups) :
    ∃ l, (∀ n, groups.flatten.length < n → yielded heap n queue = some l) ∧ Merges fee groups l := by
  have hlength : ((heap.contents queue).map List.length).sum = groups.flatten.length := by
    rw [h, Multiset.map_coe, Multiset.sum_coe, List.length_flatten]
  obtain ⟨l, hl⟩ := yielded_total queue (Nat.lt_succ_self _)
  rw [hlength] at hl
  exact ⟨l, fun n hn => yielded_mono hl hn, h ▸ yielded_merges hl⟩

theorem contents_grouped (heap : BinaryHeap (List TxSelectorEntry) frontFee) (groups : List (List TxSelectorEntry)) : heap.contents (grouped heap groups) = groups := by
  rw [grouped, heap.contents_extend, heap.contents_empty, zero_add]

theorem contents_pushGroups (heap : BinaryHeap (List TxSelectorEntry) frontFee) (groups pushed : List (List TxSelectorEntry)) :
    heap.contents (pushed.foldl (pushGroup heap) (grouped heap groups)) = (groups ++ pushed : List (List TxSelectorEntry)) := by
  have hextend := heap.contents_extend (grouped heap groups) pushed
  rw [contents_grouped, Multiset.coe_add] at hextend
  exact hextend

end Merging

section Senders

structure BySender (groups : List (List TxSelectorEntry)) : Prop where
  same : ∀ g ∈ groups, ∀ a ∈ g, ∀ b ∈ g, a.tx.source = b.tx.source
  apart : groups.Pairwise fun g g' => ∀ a ∈ g, ∀ b ∈ g', a.tx.source ≠ b.tx.source

def ByNonce (group : List TxSelectorEntry) : Prop := group.Pairwise fun a b => a.tx.nonce ≤ b.tx.nonce

def ofSender (source : PublicKey) (entry : TxSelectorEntry) : Bool := entry.tx.source = source

/-- Every transaction comes once, those of a sender by their nonces, and each has the highest fee of the first ones that
are left of all senders. -/
structure Selected (entries l : List TxSelectorEntry) : Prop where
  once : l.Perm entries
  nonces : ∀ source, ByNonce (l.filter (ofSender source))
  highest : ∀ {before after : List TxSelectorEntry} {entry : TxSelectorEntry}, l = before ++ entry :: after →
    ∀ source first rest, (entry :: after).filter (ofSender source) = first :: rest → first.tx.fee ≤ entry.tx.fee

/-- The group of a sender, and those of the others. A sender without transactions has an empty one. -/
theorem BySender.split {groups : List (List TxSelectorEntry)} (h : BySender groups) (source : PublicKey) :
    ∃ (group : List TxSelectorEntry) (others : Multiset (List TxSelectorEntry)), [] ::ₘ (groups : Multiset (List TxSelectorEntry)) = group ::ₘ others ∧
      (group = [] ∨ group ∈ groups) ∧ (∀ a ∈ group, ofSender source a = true) ∧ ∀ g ∈ others, ∀ a ∈ g, ofSender source a = false := by
  by_cases hsome : ∃ g ∈ groups, ∃ a ∈ g, a.tx.source = source
  · obtain ⟨g, hg, a, ha, rfl⟩ := hsome
    obtain ⟨as, bs, rfl⟩ := List.append_of_mem hg
    obtain ⟨-, hgbs, hacross⟩ := List.pairwise_append.mp h.apart
    have hbehind := (List.pairwise_cons.mp hgbs).1
    refine ⟨g, [] ::ₘ (as ++ bs : List (List TxSelectorEntry)), ?_, Or.inr hg, fun b hb => ?_, fun g' hg' b hb => ?_⟩
    · rw [Multiset.cons_swap, Multiset.cons_coe g]
      exact congrArg ([] ::ₘ ·) (Multiset.coe_eq_coe.mpr List.perm_middle)
    · exact decide_eq_true (h.same g hg b hb a ha)
    · rcases Multiset.mem_cons.mp hg' with rfl | hg'
      · cases hb
      · rcases List.mem_append.mp (Multiset.mem_coe.mp hg') with hg' | hg'
        · exact decide_eq_false (hacross g' hg' g List.mem_cons_self b hb a ha)
        · exact decide_eq_false (hbehind g' hg' a ha b hb).symm
  · refine ⟨[], groups, rfl, Or.inl rfl, fun a ha => (nomatch ha), fun g hg a ha => ?_⟩
    exact decide_eq_false fun hsource => hsome ⟨g, hg, a, ha, hsource⟩

theorem BySender.selected {groups : List (List TxSelectorEntry)} (h : BySender groups)
    (hsorted : ∀ g ∈ groups, ByNonce g) (hmerges : Merges fee groups l) : Selected groups.flatten l where
  once := hmerges.perm
  nonces source := by
    obtain ⟨group, others, hsplit, hgroup, hofSender, hothers⟩ := h.split source
    rw [hmerges.cons_nil.filter_eq hsplit hothers, List.filter_eq_self.mpr hofSender]
    rcases hgroup with rfl | hgroup
    · exact List.Pairwise.nil
    · exact hsorted group hgroup
  highest hl source first rest hfirst := by
    obtain ⟨group, others, hsplit, -, hofSender, hothers⟩ := h.split source
    exact hmerges.cons_nil.greatest hsplit hofSender hothers hl hfirst

/-- The groups that were made of the entries seen so far. -/
structure Grouped (seen : List TxSelectorEntry) (groups : List (PublicKey × List TxSelectorEntry)) : Prop where
  nodup : (groups.map Prod.fst).Nodup
  source : ∀ group ∈ groups, ∀ e ∈ group.2, e.tx.source = group.1
  perm : (groups.map Prod.snd).flatten.Perm seen

variable {entry e : TxSelectorEntry} {groups : List (PublicKey × List TxSelectorEntry)}

theorem mem_keys_addEntry {source : PublicKey}
    (h : source ∈ (addEntry entry groups).map Prod.fst) : source = entry.tx.source ∨ source ∈ groups.map Prod.fst := by
  induction groups with
  | nil => exact Or.inl (List.mem_singleton.mp h)
  | cons group groups ih =>
    obtain ⟨key, v⟩ := group
    rw [addEntry] at h
    split at h
    · exact Or.inr h
    · rcases List.mem_cons.mp h with rfl | h
      · exact Or.inr List.mem_cons_self
      · exact (ih h).imp_right (List.mem_cons_of_mem _)

theorem Grouped.addEntry (entry : TxSelectorEntry)
    (h : Grouped seen groups) : Grouped (seen ++ [entry]) (addEntry entry groups) := by
  induction groups generalizing seen with
  | nil =>
    refine ⟨List.nodup_singleton _, fun group hgroup e he => ?_, ?_⟩
    · cases List.mem_singleton.mp hgroup
      rw [List.mem_singleton.mp he]
    · rw [List.nil_perm.mp h.perm]
      exact List.Perm.refl _
  | cons group groups ih =>
    obtain ⟨key, v⟩ := group
    obtain ⟨hnew, hnodup⟩ := List.nodup_cons.mp h.nodup
    rw [TxSelector.addEntry]
    split
    · rename_i hkey
      refine ⟨h.nodup, fun group hgroup e he => ?_, ?_⟩
      · rcases List.mem_cons.mp hgroup with rfl | hgroup
        · rcases List.mem_append.mp he with he | he
          · exact h.source (key, v) List.mem_cons_self e he
          · rw [List.mem_singleton.mp he, hkey]
        · exact h.source group (List.mem_cons_of_mem _ hgroup) e he
      · show ((v ++ [entry]) ++ (groups.map Prod.snd).flatten).Perm _
        rw [List.append_assoc]
        refine (List.perm_append_left_iff v |>.mpr (List.perm_append_comm)).trans ?_
        rw [← List.append_assoc]
        exact h.perm.append_right [entry]
    · rename_i hkey
      have htail : Grouped (groups.map Prod.snd).flatten groups :=
        ⟨hnodup, fun group hgroup => h.source group (List.mem_cons_of_mem _ hgroup), List.Perm.refl _⟩
      have hadd := ih htail
      refine ⟨List.nodup_cons.mpr ⟨fun hmem => ?_, hadd.nodup⟩, fun group hgroup e he => ?_, ?_⟩
      · exact (mem_keys_addEntry hmem).elim hkey hnew
      · rcases List.mem_cons.mp hgroup with rfl | hgroup
        · exact h.source (key, v) List.mem_cons_self e he
        · exact hadd.source group hgroup e he
      · show (v ++ ((TxSelector.addEntry entry groups).map Prod.snd).flatten).Perm _
        refine (List.perm_append_left_iff v |>.mpr hadd.perm).trans ?_
        rw [← List.append_assoc]
        exact h.perm.append_right [entry]

theorem grouped_groupsOf (iter : List (Nat × Hash × Transaction)) : Grouped (iter.map entryOf) (groupsOf iter) := by
  have hfold (seen : List TxSelectorEntry) (groups : List (PublicKey × List TxSelectorEntry)) (h : Grouped seen groups) :
      Grouped (seen ++ iter.map entryOf) (iter.foldl (fun groups item => addEntry (entryOf item) groups) groups) := by
    induction iter generalizing seen groups with
    | nil => rwa [List.map_nil, List.append_nil]
    | cons item iter ih =>
      rw [List.map_cons, List.append_cons]
      exact ih _ _ (h.addEntry (entryOf item))
  exact hfold [] [] ⟨List.nodup_nil, fun _ hgroup => (nomatch hgroup), List.Perm.refl _⟩

theorem byNonce_sortByNonce (v : List TxSelectorEntry) : ByNonce (sortByNonce v) := by
  have : IsTrans TxSelectorEntry (fun a b => a.tx.nonce ≤ b.tx.nonce) := ⟨fun _ _ _ => Nat.le_trans⟩
  have : Std.Total (fun a b : TxSelectorEntry => a.tx.nonce ≤ b.tx.nonce) := ⟨fun _ _ => Nat.le_total _ _⟩
  exact List.pairwise_insertionSort _ v

theorem flatten_sorted_perm (groups : List (PublicKey × List TxSelectorEntry)) :
    (groups.map fun group => sortByNonce group.2).flatten.Perm (groups.map Prod.snd).flatten := by
  induction groups with
  | nil => exact List.Perm.refl _
  | cons group groups ih => exact (List.perm_insertionSort _ group.2).append ih

theorem mem_sortByNonce : e ∈ sortByNonce v ↔ e ∈ v :=
  (List.perm_insertionSort _ v).mem_iff

theorem Grouped.bySender (h : Grouped seen groups) :
    BySender (groups.map fun group => sortByNonce group.2) where
  same g hg a ha b hb := by
    obtain ⟨group, hgroup, rfl⟩ := List.mem_map.mp hg
    rw [h.source group hgroup a (mem_sortByNonce.mp ha), h.source group hgroup b (mem_sortByNonce.mp hb)]
  apart := by
    refine List.pairwise_map.mpr ((List.pairwise_map.mp h.nodup).imp_of_mem fun {group group'} hgroup hgroup' hdiff a ha b hb => ?_)
    rw [h.source group hgroup a (mem_sortByNonce.mp ha), h.source group' hgroup' b (mem_sortByNonce.mp hb)]
    exact hdiff

theorem Grouped.arrange (order : KeyOrder PublicKey)
    (h : Grouped seen groups) : Grouped seen (order.arrange groups) where
  nodup := ((order.arrange_perm h.nodup).map Prod.fst).nodup_iff.mpr h.nodup
  source group hgroup := h.source group ((order.arrange_perm h.nodup).mem_iff.mp hgroup)
  perm := ((order.arrange_perm h.nodup).map Prod.snd).flatten.trans h.perm

end Senders

/-- What comes out of a selector, however it was filled. Groups that are not sorted, or not each of one sender, come out
merged all the same. -/
theorem transactions_selected (heap : BinaryHeap (List TxSelectorEntry) frontFee) :
    (∀ (order : KeyOrder PublicKey) (iter : List (Nat × Hash × Transaction)),
      ∃ l, (∀ n, iter.length < n → yielded heap n (new heap order iter) = some l) ∧ Selected (iter.map entryOf) l) ∧
    ∀ groups pushed : List (List TxSelectorEntry),
      ∃ l, (∀ n, (groups ++ pushed).flatten.length < n →
          yielded heap n (pushed.foldl (pushGroup heap) (grouped heap groups)) = some l) ∧
        l.Perm (groups ++ pushed).flatten ∧ Merges fee (groups ++ pushed : List (List TxSelectorEntry)) l ∧
        ((∀ g ∈ groups ++ pushed, ByNonce g) → BySender (groups ++ pushed) → Selected (groups ++ pushed).flatten l) := by
  constructor
  · intro order iter
    have hgrouped := (grouped_groupsOf iter).arrange order
    have hperm := (flatten_sorted_perm (order.arrange (groupsOf iter))).trans hgrouped.perm
    obtain ⟨l, hl, hmerges⟩ := exists_yielded (contents_grouped heap
      ((order.arrange (groupsOf iter)).map fun group => sortByNonce group.2))
    rw [hperm.length_eq, List.length_map] at hl
    have hsorted : ∀ g ∈ (order.arrange (groupsOf iter)).map (fun group => sortByNonce group.2), ByNonce g := by
      intro g hg
      obtain ⟨group, -, rfl⟩ := List.mem_map.mp hg
      exact byNonce_sortByNonce group.2
    have hselected := hgrouped.bySender.selected hsorted hmerges
    exact ⟨l, hl, hselected.once.trans hperm, hselected.nonces, hselected.highest⟩
  · intro groups pushed
    obtain ⟨l, hl, hmerges⟩ := exists_yielded (contents_pushGroups heap groups pushed)
    exact ⟨l, hl, hmerges.perm, hmerges, fun hsorted hsenders => hsenders.selected hsorted hmerges⟩

def samplePayment (source : PublicKey) (nonce fee : Nat) : TxSelectorEntry where
  hash := 0
  tx :=
    { version := .v0, source, data := .burn { asset := 0, amount := 1 }, fee, nonce, sourceCommitments := [], rangeProof := [],
      reference := { hash := 0, topoheight := 0 }, multisig := none, signature := [] }
  size := 1

/-- Two senders, and a group without transactions. -/
theorem sample_selected : ∃ l, (∀ n, 3 < n → yielded (BinaryHeap.listHeap frontFee) n
      (grouped (BinaryHeap.listHeap frontFee) [[samplePayment 1 0 5, samplePayment 1 1 9], [], [samplePayment 2 4 7]]) = some l) ∧
    Selected [samplePayment 1 0 5, samplePayment 1 1 9, samplePayment 2 4 7] l := by
  obtain ⟨l, hl, -, -, hselected⟩ := (transactions_selected (BinaryHeap.listHeap frontFee)).2
    [[samplePayment 1 0 5, samplePayment 1 1 9], [], [samplePayment 2 4 7]] []
  exact ⟨l, hl, hselected (by simp [ByNonce, samplePayment]) ⟨by simp [samplePayment], by simp [samplePayment]⟩⟩

end TxSelector

end Xelis
