import Xelis.Storage.ExecutedMarks

namespace Xelis.Storage

open Lib (FiniteMap Exec)

variable {P : Type}
variable {stop t topoheight t' : TopoHeight}

section Chain

structure OrderedAt (s : Storage P) (topoheight : TopoHeight) (hash : Hash) (header : BlockHeader) : Prop where
  slot : s.hashAtTopo[topoheight]? = some hash
  place : s.topoByHash[hash]? = some topoheight
  block : s.blocks[hash]? = some header

/-- The stored top of the chain is the top of the ordered blocks. -/
structure TopIsRight (s : Storage P) : Prop where
  topoheight : ∃ top, s.topTopoheight = some top ∧ (∃ hash header, s.OrderedAt top hash header) ∧
    ∀ t hash header, s.OrderedAt t hash header → t ≤ top
  height : ∃ top, s.topHeight = some top ∧ (∃ t hash header, s.OrderedAt t hash header ∧ header.height = top) ∧
    ∀ t hash header, s.OrderedAt t hash header → header.height ≤ top
  tips : ∀ hash, hash ∈ s.tips ↔ (∃ t header, s.OrderedAt t hash header) ∧
    ∀ t child header, s.OrderedAt t child header → hash ∉ header.tips

/-- A chain as the node keeps it: what the order, its top and the pruned topoheight are to each other. -/
structure Chain (s : Storage P) (top : TopoHeight) (height : Nat) : Prop where
  slots : ∀ (t : TopoHeight) (hash : Hash), s.hashAtTopo[t]? = some hash → ∃ header, s.OrderedAt t hash header
  above : ∀ t hash header, s.OrderedAt t hash header → t ≤ top
  parents : ∀ t hash header, s.OrderedAt t hash header → ∀ parent ∈ header.tips, ∀ u header',
    s.OrderedAt u parent header' → u < t
  filled : ∀ t, t ≤ top → t = 0 ∨ s.prunedTopoheight.getD 0 ≤ t → ∃ hash header, s.OrderedAt t hash header
  pruned : ∀ t hash header, s.OrderedAt t hash header → t = 0 ∨ s.prunedTopoheight.getD 0 ≤ t
  prunedLe : s.prunedTopoheight.getD 0 ≤ top
  genesis : ∀ hash header, s.OrderedAt 0 hash header → header.height = 0
  reached : ∃ t hash header, s.OrderedAt t hash header ∧ header.height = height
  heights : ∀ t hash header, s.OrderedAt t hash header → header.height ≤ height
  tips : ∀ t hash header, s.OrderedAt t hash header →
    (hash ∈ s.tips ↔ ∀ u child header', s.OrderedAt u child header' → hash ∉ header'.tips)

/-- A block above the topoheight where a rewind stops. -/
def Removed (s : Storage P) (stop : TopoHeight) (hash : Hash) (header : BlockHeader) : Prop :=
  ∃ t, stop < t ∧ s.OrderedAt t hash header

/-- A block at the topoheight where a rewind stops, or below it. -/
def Remains (s : Storage P) (stop : TopoHeight) (hash : Hash) (header : BlockHeader) : Prop :=
  ∃ t, t ≤ stop ∧ s.OrderedAt t hash header

/-- When a rewind that stops at a topoheight leaves the right height and the right tips. -/
structure Restorable (s : Storage P) (stop : TopoHeight) : Prop where
  /-- Nothing is removed, or the lowest removed block is as high as the highest one that remains. -/
  heights : (∀ hash header, ¬s.Removed stop hash header) ∨
    ∃ hash header, s.Removed stop hash header ∧
      (∀ hash' header', s.Removed stop hash' header' → header.height ≤ header'.height) ∧
      (∃ hash' header', s.Remains stop hash' header' ∧ header'.height = header.height) ∧
      ∀ hash' header', s.Remains stop hash' header' → header'.height ≤ header.height
  /-- The parents of removed blocks that are not removed themselves remain, without a child that remains. -/
  tips : ∀ hash header, s.Removed stop hash header → ∀ parent ∈ header.tips,
    (∃ header', s.Removed stop parent header') ∨ (∃ header', s.Remains stop parent header') ∧
      ∀ child header', s.Remains stop child header' → parent ∉ header'.tips

variable {s : Storage P} {t u : TopoHeight} {hash hash' : Hash} {header header' : BlockHeader}

theorem OrderedAt.eq_of_topoheight (h : s.OrderedAt t hash header) (h' : s.OrderedAt t hash' header') :
    hash = hash' ∧ header = header' := by
  have hhash : hash = hash' := Option.some.inj (h.slot.symm.trans h'.slot)
  subst hhash
  exact ⟨rfl, Option.some.inj (h.block.symm.trans h'.block)⟩

theorem OrderedAt.eq_of_hash (h : s.OrderedAt t hash header) (h' : s.OrderedAt u hash header') :
    t = u ∧ header = header' :=
  ⟨Option.some.inj (h.place.symm.trans h'.place), Option.some.inj (h.block.symm.trans h'.block)⟩

theorem Removed.not_remains (h : s.Removed stop hash header) : ¬s.Remains stop hash header' := by
  rintro ⟨u, hu, hordered'⟩
  obtain ⟨t, ht, hordered⟩ := h
  rw [(hordered.eq_of_hash hordered').1] at ht
  exact absurd hu (Nat.not_le.mpr ht)

end Chain

variable {s₁ s₂ s₃ s s' : Storage P} {hash hash' x : Hash} {header block header' : BlockHeader}

/-- What the order of the blocks is read from. -/
structure SameOrder (s s' : Storage P) : Prop where
  hashAtTopo : s'.hashAtTopo = s.hashAtTopo
  topoByHash : s'.topoByHash = s.topoByHash
  blocks : s'.blocks = s.blocks

theorem SameOrder.trans (h : SameOrder s₁ s₂) (h' : SameOrder s₂ s₃) : SameOrder s₁ s₃ :=
  ⟨h'.hashAtTopo.trans h.hashAtTopo, h'.topoByHash.trans h.topoByHash, h'.blocks.trans h.blocks⟩

theorem SameOrder.orderedAt (h : SameOrder s s') : s'.OrderedAt t hash header ↔ s.OrderedAt t hash header := by
  constructor
  · rintro ⟨h₁, h₂, h₃⟩
    rw [h.hashAtTopo] at h₁
    rw [h.topoByHash] at h₂
    rw [h.blocks] at h₃
    exact ⟨h₁, h₂, h₃⟩
  · rintro ⟨h₁, h₂, h₃⟩
    rw [← h.hashAtTopo] at h₁
    rw [← h.topoByHash] at h₂
    rw [← h.blocks] at h₃
    exact ⟨h₁, h₂, h₃⟩

private theorem deleteTxs_sameOrder (hash : Hash) (txs : List Hash) (acc : Storage P × List (Hash × Transaction)) :
    SameOrder acc.1 (txs.foldl (deleteTxOfBlock hash) acc).1 := by
  induction txs generalizing acc with
  | nil => exact ⟨rfl, rfl, rfl⟩
  | cons txHash txs ih =>
    have hunlink : SameOrder acc.1 (unlinkTx hash acc.1 txHash).1 := by
      unfold unlinkTx
      split <;> exact ⟨rfl, rfl, rfl⟩
    have hunmark : ∀ s₁ : Storage P, SameOrder s₁ (unmarkTx s₁ txHash) := by
      intro s₁
      unfold unmarkTx
      split <;> exact ⟨rfl, rfl, rfl⟩
    have hdelete : SameOrder (unmarkTx (unlinkTx hash acc.1 txHash).1 txHash) (deleteTxOfBlock hash acc txHash).1 := by
      unfold deleteTxOfBlock
      dsimp only
      split <;> exact ⟨rfl, rfl, rfl⟩
    exact ((hunlink.trans (hunmark _)).trans hdelete).trans (ih _)

private theorem removeBlockHashAtHeight_sameOrder (s : Storage P) (hash : Hash) (height : Nat) :
    SameOrder s (s.removeBlockHashAtHeight hash height) := by
  unfold removeBlockHashAtHeight
  split
  · exact ⟨rfl, rfl, rfl⟩
  · dsimp only
    split <;> exact ⟨rfl, rfl, rfl⟩

theorem deleteBlockAtTopoheight_order
    {txs : List (Hash × Transaction)} (h : deleteBlockAtTopoheight topoheight s = .ok (hash, block, txs) s') :
    s.hashAtTopo[topoheight]? = some hash ∧ s.blocks[hash]? = some block ∧
      SameOrder (withoutHeader s topoheight hash) s' := by
  obtain ⟨hhash, hblock, hs'⟩ := deleteBlockAtTopoheight_ok h
  refine ⟨hhash, hblock, ?_⟩
  have htxs := deleteTxs_sameOrder hash block.txsHashes (withoutHeader s topoheight hash, [])
  rcases hs' with rfl | rfl
  · exact htxs
  · exact htxs.trans (removeBlockHashAtHeight_sameOrder _ hash block.height)

theorem orderedAt_withoutHeader (hordered : s.OrderedAt t hash header) :
    (withoutHeader s t hash).OrderedAt t' hash' header' ↔ s.OrderedAt t' hash' header' ∧ t' ≠ t := by
  constructor
  · rintro ⟨h₁, h₂, h₃⟩
    have hne : t' ≠ t := by
      rintro rfl
      rw [show (withoutHeader s t' hash).hashAtTopo = s.hashAtTopo.erase t' from rfl,
        FiniteMap.getElem?_erase_self'] at h₁
      cases h₁
    have hne' : hash ≠ hash' := by
      rintro rfl
      rw [show (withoutHeader s t hash).blocks = s.blocks.erase hash from rfl, FiniteMap.getElem?_erase_self'] at h₃
      cases h₃
    refine ⟨⟨?_, ?_, ?_⟩, hne⟩
    · rwa [show (withoutHeader s t hash).hashAtTopo = s.hashAtTopo.erase t from rfl,
        FiniteMap.getElem?_erase_of_ne _ hne.symm] at h₁
    · rwa [show (withoutHeader s t hash).topoByHash = s.topoByHash.erase hash from rfl,
        FiniteMap.getElem?_erase_of_ne _ hne'] at h₂
    · rwa [show (withoutHeader s t hash).blocks = s.blocks.erase hash from rfl,
        FiniteMap.getElem?_erase_of_ne _ hne'] at h₃
  · rintro ⟨hordered', hne⟩
    have hne' : hash ≠ hash' := by
      rintro rfl
      exact hne (hordered'.eq_of_hash hordered).1
    refine ⟨?_, ?_, ?_⟩
    · show (s.hashAtTopo.erase t)[t']? = some hash'
      rw [FiniteMap.getElem?_erase_of_ne _ hne.symm]
      exact hordered'.slot
    · show (s.topoByHash.erase hash)[hash']? = some t'
      rw [FiniteMap.getElem?_erase_of_ne _ hne']
      exact hordered'.place
    · show (s.blocks.erase hash)[hash']? = some header'
      rw [FiniteMap.getElem?_erase_of_ne _ hne']
      exact hordered'.block

variable {pruned low limit count top height : Nat}

section Loop

theorem mem_replaceTip {tips : Tips} {parents : List Hash} :
    x ∈ replaceTip tips hash parents ↔ x ∈ tips ∧ x ≠ hash ∨ x ∈ parents := by
  unfold replaceTip Tips.remove
  rw [Tips.mem_insertAll, List.mem_filter, decide_eq_true_iff]

variable {s s₁ s₂ s' : Storage P} {top height n : Nat} {r r' : RewindState}

/-- The state of the loop once everything above a topoheight is gone. -/
structure Rewound (s : Storage P) (height : Nat) (n : TopoHeight) (s₁ : Storage P) (r : RewindState) : Prop where
  topoheight : r.topoheight = n
  order : ∀ t hash header, s₁.OrderedAt t hash header ↔ s.OrderedAt t hash header ∧ t ≤ n
  slots : ∀ (t : TopoHeight) (hash : Hash), s₁.hashAtTopo[t]? = some hash → ∃ header, s₁.OrderedAt t hash header
  heightLe : r.height ≤ height
  lowest : ∀ hash header, s.Removed n hash header → r.height ≤ header.height
  reached : r.height = height ∨ ∃ hash header, s.Removed n hash header ∧ header.height = r.height
  tips : ∀ x, x ∈ r.tips ↔ (¬∃ header, s.Removed n x header) ∧
    (x ∈ s.tips ∧ (∃ t header, s.OrderedAt t x header) ∨ ∃ hash header, s.Removed n hash header ∧ x ∈ header.tips)

/-- Above one topoheight less there is one block more. -/
theorem removed_succ (hordered : s.OrderedAt (n + 1) hash header) :
    s.Removed n x header' ↔ s.Removed (n + 1) x header' ∨ x = hash ∧ header' = header := by
  constructor
  · rintro ⟨t, ht, hx⟩
    rcases Nat.lt_or_eq_of_le (Nat.succ_le_of_lt ht) with hlt | heq
    · exact .inl ⟨t, hlt, hx⟩
    · have heq : n + 1 = t := heq
      subst heq
      exact .inr (hx.eq_of_topoheight hordered)
  · rintro (⟨t, ht, hx⟩ | ⟨rfl, rfl⟩)
    · exact ⟨t, Nat.lt_of_succ_lt ht, hx⟩
    · exact ⟨n + 1, Nat.lt_succ_self n, hordered⟩

/-- One turn of the loop. -/
theorem Rewound.step (hchain : s.Chain top height) (hinv : Rewound s height (n + 1) s₁ r) {hash : Hash}
    {block : BlockHeader} {txs : List (Hash × Transaction)}
    (hdelete : deleteBlockAtTopoheight (n + 1) s₁ = .ok (hash, block, txs) s₂) (hsame : SameOrder s₂ s') :
    Rewound s height n s'
      { height := if block.height < r.height then block.height else r.height
        topoheight := n
        tips := replaceTip r.tips hash block.tips
        txs := r.txs ++ txs } := by
  obtain ⟨hslot, hblock, horder⟩ := deleteBlockAtTopoheight_order hdelete
  obtain ⟨header, hordered₁⟩ := hinv.slots (n + 1) hash hslot
  have heq : header = block := Option.some.inj (hordered₁.block.symm.trans hblock)
  subst heq
  have hordered : s.OrderedAt (n + 1) hash header := ((hinv.order _ _ _).mp hordered₁).1
  have horder' := horder.trans hsame
  have hleft : ∀ t x header', s'.OrderedAt t x header' ↔ s₁.OrderedAt t x header' ∧ t ≠ n + 1 := fun t x header' =>
    horder'.orderedAt.trans (orderedAt_withoutHeader hordered₁)
  refine ⟨rfl, fun t x header' => ?_, fun t x hx => ?_, ?_, fun x header' hx => ?_, ?_, fun x => ?_⟩
  · rw [hleft, hinv.order]
    constructor
    · rintro ⟨⟨hx, hle⟩, hne⟩
      exact ⟨hx, Nat.le_of_lt_succ (Nat.lt_of_le_of_ne hle hne)⟩
    · rintro ⟨hx, hle⟩
      exact ⟨⟨hx, Nat.le_succ_of_le hle⟩, Nat.ne_of_lt (Nat.lt_succ_of_le hle)⟩
  · have hne : t ≠ n + 1 := by
      rintro rfl
      rw [horder'.hashAtTopo, show (withoutHeader s₁ (n + 1) hash).hashAtTopo = s₁.hashAtTopo.erase (n + 1) from rfl,
        FiniteMap.getElem?_erase_self'] at hx
      cases hx
    have hx₁ : s₁.hashAtTopo[t]? = some x := by
      rwa [horder'.hashAtTopo, show (withoutHeader s₁ (n + 1) hash).hashAtTopo = s₁.hashAtTopo.erase (n + 1) from rfl,
        FiniteMap.getElem?_erase_of_ne _ hne.symm] at hx
    obtain ⟨header', hx'⟩ := hinv.slots t x hx₁
    exact ⟨header', (hleft t x header').mpr ⟨hx', hne⟩⟩
  · show (if header.height < r.height then header.height else r.height) ≤ height
    have := hinv.heightLe
    split <;> omega
  · show (if header.height < r.height then header.height else r.height) ≤ header'.height
    rcases (removed_succ hordered).mp hx with hx | ⟨rfl, rfl⟩
    · have := hinv.lowest x header' hx
      split <;> omega
    · split <;> omega
  · show (if header.height < r.height then header.height else r.height) = height ∨ _
    by_cases hlt : header.height < r.height
    · refine .inr ⟨hash, header, (removed_succ hordered).mpr (.inr ⟨rfl, rfl⟩), ?_⟩
      exact (if_pos hlt).symm
    · rw [if_neg hlt]
      rcases hinv.reached with heq | ⟨x, header', hx, heq⟩
      · exact .inl heq
      · exact .inr ⟨x, header', (removed_succ hordered).mpr (.inl hx), heq⟩
  · show x ∈ replaceTip r.tips hash header.tips ↔ _
    rw [mem_replaceTip, hinv.tips]
    constructor
    · rintro (⟨⟨hnot, hwhy⟩, hne⟩ | hparent)
      · refine ⟨?_, ?_⟩
        · rintro ⟨header', hx⟩
          rcases (removed_succ hordered).mp hx with hx | ⟨heq, -⟩
          · exact hnot ⟨header', hx⟩
          · exact hne heq
        · rcases hwhy with htip | ⟨y, header', hy, hparent⟩
          · exact .inl htip
          · exact .inr ⟨y, header', (removed_succ hordered).mpr (.inl hy), hparent⟩
      · refine ⟨?_, .inr ⟨hash, header, (removed_succ hordered).mpr (.inr ⟨rfl, rfl⟩), hparent⟩⟩
        -- a parent comes before its child in the order
        rintro ⟨header', t, hlt, hx⟩
        exact absurd (hchain.parents (n + 1) hash header hordered x hparent t header' hx)
          (Nat.not_lt.mpr (Nat.succ_le_of_lt hlt))
    · rintro ⟨hnot, hwhy⟩
      have hnot' : ¬∃ header', s.Removed (n + 1) x header' := by
        rintro ⟨header', hx⟩
        exact hnot ⟨header', (removed_succ hordered).mpr (.inl hx)⟩
      have hne : x ≠ hash := by
        rintro rfl
        exact hnot ⟨header, (removed_succ hordered).mpr (.inr ⟨rfl, rfl⟩)⟩
      rcases hwhy with htip | ⟨y, header', hy, hparent⟩
      · exact .inl ⟨⟨hnot', .inl htip⟩, hne⟩
      · rcases (removed_succ hordered).mp hy with hy | ⟨rfl, rfl⟩
        · exact .inl ⟨⟨hnot', .inr ⟨y, header', hy, hparent⟩⟩, hne⟩
        · exact .inr hparent

/-- The chain starts again from its first block. -/
structure Restarted (s : Storage P) (s' : Storage P) (r : RewindState) : Prop where
  height : r.height = 0
  topoheight : r.topoheight = 0
  order : ∀ t hash header, s'.OrderedAt t hash header ↔ s.OrderedAt t hash header ∧ t = 0
  tips : ∃ genesis header, s.OrderedAt 0 genesis header ∧ r.tips = [genesis]

theorem popLoop_rewinds (hchain : s.Chain top height) (hpruned : s.prunedTopoheight.getD 0 = pruned)
    (hinv : Rewound s height n s₁ r) (hle : pruned ≤ n) (h : popLoop pruned low limit n r s₁ = .ok r' s') :
    (pruned ≤ max low limit → Rewound s height (min n (max low limit)) s' r') ∧
      (max low limit < pruned → Restarted s s' r') := by
  induction n generalizing r s₁ with
  | zero =>
    cases h
    refine ⟨fun _ => ?_, fun hlt => absurd hlt (by omega)⟩
    rw [Nat.zero_min]
    exact hinv
  | succ n ih =>
    unfold popLoop at h
    by_cases hstop : n + 1 ≤ low ∨ n + 1 ≤ limit
    · rw [if_pos hstop] at h
      cases h
      have hmax : n + 1 ≤ max low limit := le_max_iff.mpr hstop
      refine ⟨fun _ => ?_, fun hlt => absurd hlt (by omega)⟩
      rw [Nat.min_eq_left hmax]
      exact hinv
    · rw [if_neg hstop] at h
      have hmax : max low limit ≤ n := by omega
      obtain ⟨⟨hash, block, txs⟩, s₂, hdelete, h⟩ := Exec.bind_ok_iff.mp h
      obtain ⟨⟨⟩, s₃, hversioned, h⟩ := Exec.bind_ok_iff.mp h
      have hsame : SameOrder s₂ s₃ := by
        have hmoves := deleteVersionedData_onlyVersioned (P := P) (n + 1) s₂
        rw [hversioned] at hmoves
        obtain ⟨_, _, _, _, _, _, _, _, _, rfl⟩ := hmoves
        exact ⟨rfl, rfl, rfl⟩
      have hstep := hinv.step hchain hdelete hsame
      dsimp only at h
      by_cases hreached : n + 1 ≤ pruned
      · -- everything above the pruned topoheight is gone, and only the first block was kept below it
        have heq : pruned = n + 1 := Nat.le_antisymm hle hreached
        rw [if_pos hreached] at h
        refine ⟨fun hge => absurd hge (by omega), fun _ => ?_⟩
        obtain ⟨s₄, s₅, hget, h⟩ := Exec.bind_ok_iff.mp h
        cases hget
        obtain ⟨genesis, s₆, hgenesis, h⟩ := Exec.bind_ok_iff.mp h
        obtain ⟨⟨⟩, s₇, hmodify, h⟩ := Exec.bind_ok_iff.mp h
        cases hmodify
        cases h
        rw [Exec.ofExcept_apply] at hgenesis
        have horder : ∀ t x header, s₃.OrderedAt t x header ↔ s.OrderedAt t x header ∧ t = 0 := by
          intro t x header
          rw [hstep.order]
          refine and_congr_right fun hx => ⟨fun hle => ?_, fun ht => by rw [ht]; exact Nat.zero_le n⟩
          rcases hchain.pruned t x header hx with h0 | hge
          · exact h0
          · rw [hpruned, heq] at hge
            exact absurd hge (Nat.not_le.mpr (Nat.lt_succ_of_le hle))
        cases hslot : s₃.hashAtTopo[(0 : TopoHeight)]? with
        | none => simp [getHashAtTopoHeight, hslot] at hgenesis
        | some first =>
          simp only [getHashAtTopoHeight, hslot] at hgenesis
          cases hgenesis
          obtain ⟨header, hfirst⟩ := hstep.slots 0 genesis hslot
          refine ⟨rfl, rfl, fun t x header' => ?_, genesis, header, ((horder 0 genesis header).mp hfirst).1, rfl⟩
          have hsame : SameOrder s₃ { s₃ with prunedTopoheight := none } := ⟨rfl, rfl, rfl⟩
          rw [← horder]
          exact hsame.orderedAt
      · rw [if_neg hreached] at h
        have hmin : min (n + 1) (max low limit) = min n (max low limit) := by omega
        rw [hmin]
        exact ih hstep (by omega) h

end Loop

section Top

variable {s s₁ s' : Storage P} {top height stop : Nat} {r : RewindState}

def withTop (s : Storage P) (r : RewindState) : Storage P :=
  { clearVersionedDataCaches s with tips := r.tips, topTopoheight := some r.topoheight, topHeight := some r.height }

theorem orderedAt_withTop : (s.withTop r).OrderedAt t hash header ↔ s.OrderedAt t hash header := by
  have hsame : SameOrder s (s.withTop r) := ⟨rfl, rfl, rfl⟩
  exact hsame.orderedAt

/-- The height that the loop computes is the right one when the lowest removed block is as high as what remains. -/
theorem Rewound.height_iff (hchain : s.Chain top height) (hinv : Rewound s height stop s₁ r) :
    ((∃ t hash header, s₁.OrderedAt t hash header ∧ header.height = r.height) ∧
      ∀ t hash header, s₁.OrderedAt t hash header → header.height ≤ r.height) ↔
    ((∀ hash header, ¬s.Removed stop hash header) ∨
      ∃ hash header, s.Removed stop hash header ∧
        (∀ hash' header', s.Removed stop hash' header' → header.height ≤ header'.height) ∧
        (∃ hash' header', s.Remains stop hash' header' ∧ header'.height = header.height) ∧
        ∀ hash' header', s.Remains stop hash' header' → header'.height ≤ header.height) := by
  have hremains : ∀ hash header, s.Remains stop hash header ↔ ∃ t, s₁.OrderedAt t hash header := fun hash header =>
    ⟨fun ⟨t, hle, hordered⟩ => ⟨t, (hinv.order t hash header).mpr ⟨hordered, hle⟩⟩,
      fun ⟨t, hordered⟩ => ⟨t, ((hinv.order t hash header).mp hordered).2, ((hinv.order t hash header).mp hordered).1⟩⟩
  constructor
  · rintro ⟨⟨t, hash, header, hordered, heq⟩, hmax⟩
    by_cases hany : ∃ x header', s.Removed stop x header'
    · obtain ⟨x, header', hx⟩ := hany
      -- the height of the loop is the one of a removed block, also when it was never lowered
      obtain ⟨y, header₁, hy, hlowest⟩ : ∃ y header₁, s.Removed stop y header₁ ∧ header₁.height = r.height := by
        rcases hinv.reached with hnever | hremoved
        · obtain ⟨u, hu, hordered'⟩ := id hx
          have hle := hchain.heights u x header' hordered'
          rw [← hnever] at hle
          exact ⟨x, header', hx, Nat.le_antisymm hle (hinv.lowest x header' hx)⟩
        · exact hremoved
      refine .inr ⟨y, header₁, hy, fun z header₂ hz => ?_, ⟨hash, header, (hremains _ _).mpr ⟨t, hordered⟩, ?_⟩, ?_⟩
      · rw [hlowest]
        exact hinv.lowest z header₂ hz
      · rw [heq, hlowest]
      · intro z header₂ hz
        obtain ⟨u, hu⟩ := (hremains _ _).mp hz
        rw [hlowest]
        exact hmax u z header₂ hu
    · exact .inl fun x header' hx => hany ⟨x, header', hx⟩
  · rintro (hnone | ⟨x, header, hx, hlowest, ⟨y, header', hy, heq⟩, hmax⟩)
    · have hsame : r.height = height := by
        rcases hinv.reached with heq | ⟨x, header, hx, -⟩
        · exact heq
        · exact absurd hx (hnone x header)
      obtain ⟨t, hash, header, hordered, heq⟩ := hchain.reached
      have hle : t ≤ stop := Nat.le_of_not_lt fun hlt => hnone hash header ⟨t, hlt, hordered⟩
      refine ⟨⟨t, hash, header, (hinv.order _ _ _).mpr ⟨hordered, hle⟩, heq.trans hsame.symm⟩, fun u x header' hx => ?_⟩
      rw [hsame]
      exact hchain.heights u x header' ((hinv.order _ _ _).mp hx).1
    · have hrx : r.height = header.height := by
        refine Nat.le_antisymm (hinv.lowest x header hx) ?_
        rcases hinv.reached with hnever | ⟨z, header₁, hz, hzr⟩
        · obtain ⟨u, -, hordered⟩ := id hx
          rw [hnever]
          exact hchain.heights u x header hordered
        · rw [← hzr]
          exact hlowest z header₁ hz
      obtain ⟨u, hu⟩ := (hremains _ _).mp hy
      refine ⟨⟨u, y, header', hu, heq.trans hrx.symm⟩, fun t z header₁ hz => ?_⟩
      rw [hrx]
      exact hmax z header₁ ((hremains _ _).mpr ⟨t, hz⟩)

/-- The tips that the loop computes are the right ones when no parent of a removed block has a child that remains. -/
theorem Rewound.tips_iff (hchain : s.Chain top height) (hinv : Rewound s height stop s₁ r) :
    (∀ x, x ∈ r.tips ↔ (∃ t header, s₁.OrderedAt t x header) ∧
      ∀ t child header, s₁.OrderedAt t child header → x ∉ header.tips) ↔
    ∀ hash header, s.Removed stop hash header → ∀ parent ∈ header.tips,
      (∃ header', s.Removed stop parent header') ∨ (∃ header', s.Remains stop parent header') ∧
        ∀ child header', s.Remains stop child header' → parent ∉ header'.tips := by
  constructor
  · intro htips hash header hremoved parent hparent
    by_cases hgone : ∃ header', s.Removed stop parent header'
    · exact .inl hgone
    · obtain ⟨⟨t, header', hordered⟩, hchildless⟩ :=
        (htips parent).mp ((hinv.tips parent).mpr ⟨hgone, .inr ⟨hash, header, hremoved, hparent⟩⟩)
      obtain ⟨hordered', hle⟩ := (hinv.order _ _ _).mp hordered
      refine .inr ⟨⟨header', t, hle, hordered'⟩, ?_⟩
      rintro child header₁ ⟨u, hu, hchild⟩
      exact hchildless u child header₁ ((hinv.order _ _ _).mpr ⟨hchild, hu⟩)
  · intro hparents x
    rw [hinv.tips]
    constructor
    · rintro ⟨hnot, ⟨htip, t, header, hordered⟩ | ⟨hash, header, hremoved, hparent⟩⟩
      · have hle : t ≤ stop := Nat.le_of_not_lt fun hlt => hnot ⟨header, t, hlt, hordered⟩
        refine ⟨⟨t, header, (hinv.order _ _ _).mpr ⟨hordered, hle⟩⟩, fun u child header' hchild => ?_⟩
        exact (hchain.tips t x header hordered).mp htip u child header' ((hinv.order _ _ _).mp hchild).1
      · rcases hparents hash header hremoved x hparent with hgone | ⟨⟨header', t, hle, hordered⟩, hchildless⟩
        · exact absurd hgone hnot
        · refine ⟨⟨t, header', (hinv.order _ _ _).mpr ⟨hordered, hle⟩⟩, fun u child header₁ hchild => ?_⟩
          obtain ⟨hchild', hu⟩ := (hinv.order _ _ _).mp hchild
          exact hchildless child header₁ ⟨u, hu, hchild'⟩
    · rintro ⟨⟨t, header, hordered⟩, hchildless⟩
      obtain ⟨hordered', hle⟩ := (hinv.order _ _ _).mp hordered
      refine ⟨fun ⟨header', hgone⟩ => hgone.not_remains ⟨t, hle, hordered'⟩, ?_⟩
      by_cases hchild : ∃ u child header', s.OrderedAt u child header' ∧ x ∈ header'.tips
      · obtain ⟨u, child, header', hchild, hparent⟩ := hchild
        refine .inr ⟨child, header', ⟨u, Nat.lt_of_not_le fun hu => ?_, hchild⟩, hparent⟩
        exact hchildless u child header' ((hinv.order _ _ _).mpr ⟨hchild, hu⟩) hparent
      · refine .inl ⟨(hchain.tips t x header hordered').mpr ?_, t, header, hordered'⟩
        exact fun u child header' hordered₁ hparent => hchild ⟨u, child, header', hordered₁, hparent⟩

theorem Rewound.top_iff (hchain : s.Chain top height) (hinv : Rewound s height stop s₁ r) (hle : stop ≤ top)
    (hpruned : s.prunedTopoheight.getD 0 ≤ stop) : (s₁.withTop r).TopIsRight ↔ s.Restorable stop := by
  constructor
  · intro htop
    refine ⟨(hinv.height_iff hchain).mp ?_, (hinv.tips_iff hchain).mp ?_⟩
    · obtain ⟨h, hh, ⟨t, hash, header, hordered, heq⟩, hmax⟩ := htop.height
      have hh : r.height = h := Option.some.inj hh
      subst hh
      exact ⟨⟨t, hash, header, orderedAt_withTop.mp hordered, heq⟩,
        fun t hash header hordered => hmax t hash header (orderedAt_withTop.mpr hordered)⟩
    · intro x
      refine (htop.tips x).trans (and_congr ?_ ?_)
      · simp only [orderedAt_withTop]
      · simp only [orderedAt_withTop]
  · intro hrestorable
    obtain ⟨⟨t, hash, header, hordered, heq⟩, hmax⟩ := (hinv.height_iff hchain).mpr hrestorable.heights
    refine ⟨⟨r.topoheight, rfl, ?_, fun t hash header hordered => ?_⟩, ⟨r.height, rfl, ?_, ?_⟩, fun x => ?_⟩
    · obtain ⟨x, header', hx⟩ := hchain.filled stop hle (.inr hpruned)
      rw [hinv.topoheight]
      exact ⟨x, header', orderedAt_withTop.mpr ((hinv.order _ _ _).mpr ⟨hx, Nat.le_refl stop⟩)⟩
    · rw [hinv.topoheight]
      exact ((hinv.order _ _ _).mp (orderedAt_withTop.mp hordered)).2
    · exact ⟨t, hash, header, orderedAt_withTop.mpr hordered, heq⟩
    · exact fun t hash header hordered => hmax t hash header (orderedAt_withTop.mp hordered)
    · refine ((hinv.tips_iff hchain).mpr hrestorable.tips x).trans (and_congr ?_ ?_)
      · simp only [orderedAt_withTop]
      · simp only [orderedAt_withTop]

theorem Restarted.topIsRight (hchain : s.Chain top height) (h : Restarted s s₁ r) : (s₁.withTop r).TopIsRight := by
  obtain ⟨genesis, header, hgenesis, htips⟩ := h.tips
  have hfirst : s₁.OrderedAt 0 genesis header := (h.order _ _ _).mpr ⟨hgenesis, rfl⟩
  have hheight : header.height = 0 := hchain.genesis genesis header hgenesis
  have honly : ∀ t x header', (s₁.withTop r).OrderedAt t x header' → t = 0 ∧ x = genesis ∧ header' = header := by
    intro t x header' hx
    obtain ⟨hx, rfl⟩ := (h.order _ _ _).mp (orderedAt_withTop.mp hx)
    exact ⟨rfl, hx.eq_of_topoheight hgenesis⟩
  refine ⟨⟨r.topoheight, rfl, ?_, fun t x header' hx => ?_⟩, ⟨r.height, rfl, ?_, fun t x header' hx => ?_⟩, fun x => ?_⟩
  · rw [h.topoheight]
    exact ⟨genesis, header, orderedAt_withTop.mpr hfirst⟩
  · rw [(honly t x header' hx).1]
    exact Nat.zero_le _
  · exact ⟨0, genesis, header, orderedAt_withTop.mpr hfirst, hheight.trans h.height.symm⟩
  · rw [(honly t x header' hx).2.2, hheight]
    exact Nat.zero_le _
  · show x ∈ r.tips ↔ _
    rw [htips, List.mem_singleton]
    constructor
    · rintro rfl
      refine ⟨⟨0, header, orderedAt_withTop.mpr hfirst⟩, fun t child header' hchild hparent => ?_⟩
      obtain ⟨-, -, rfl⟩ := honly t child header' hchild
      exact Nat.lt_irrefl 0 (hchain.parents 0 x header' hgenesis x hparent 0 header' hgenesis)
    · rintro ⟨⟨t, header', hx⟩, -⟩
      exact (honly t x header' hx).2.1

theorem isBlockTopologicalOrdered_iff (hchain : s.Chain top height) (hash : Hash) :
    s.isBlockTopologicalOrdered hash ↔ ∃ t header, s.OrderedAt t hash header := by
  unfold isBlockTopologicalOrdered
  constructor
  · intro h
    cases htopo : s.topoByHash[hash]? with
    | none => simp [htopo] at h
    | some t =>
      simp only [htopo, beq_iff_eq] at h
      exact ⟨t, hchain.slots t hash h⟩
  · rintro ⟨t, header, hordered⟩
    rw [hordered.place]
    simp only [hordered.slot, beq_self_eq_true]

theorem rewound_start (hchain : s.Chain top height) :
    Rewound s height top s
      { height, topoheight := top, tips := s.tips.filter (s.isBlockTopologicalOrdered ·), txs := [] } := by
  have hnone : ∀ hash header, ¬s.Removed top hash header := by
    rintro hash header ⟨t, hlt, hordered⟩
    exact absurd (hchain.above t hash header hordered) (Nat.not_le.mpr hlt)
  refine ⟨rfl, fun t hash header => ?_, hchain.slots, Nat.le_refl _, fun hash header h => ?_, .inl rfl, fun x => ?_⟩
  · exact ⟨fun h => ⟨h, hchain.above t hash header h⟩, fun h => h.1⟩
  · exact absurd h (hnone hash header)
  · rw [List.mem_filter, isBlockTopologicalOrdered_iff hchain]
    constructor
    · exact fun h => ⟨fun ⟨header, hx⟩ => hnone x header hx, .inl h⟩
    · rintro ⟨-, h | ⟨hash, header, hx, -⟩⟩
      · exact h
      · exact absurd hx (hnone hash header)

theorem restorable_min (hchain : s.Chain top height) (limit : Nat) :
    s.Restorable (min top limit) ↔ s.Restorable limit := by
  have hremoved : s.Removed (min top limit) = s.Removed limit := by
    funext hash header
    refine propext ⟨fun ⟨t, hlt, h⟩ => ⟨t, ?_, h⟩, fun ⟨t, hlt, h⟩ => ⟨t, ?_, h⟩⟩
    · have hle : @LE.le Nat _ t top := hchain.above t hash header h
      have hlt : @LT.lt Nat _ (min top limit) t := hlt
      have hlimit : @LT.lt Nat _ limit t := by omega
      exact hlimit
    · exact Nat.lt_of_le_of_lt (Nat.min_le_right top limit) hlt
  have hremains : s.Remains (min top limit) = s.Remains limit := by
    funext hash header
    refine propext ⟨fun ⟨t, hle, h⟩ => ⟨t, ?_, h⟩, fun ⟨t, hle, h⟩ => ⟨t, ?_, h⟩⟩
    · exact Nat.le_trans hle (Nat.min_le_right top limit)
    · exact Nat.le_min.mpr ⟨hchain.above t hash header h, hle⟩
  constructor
  · rintro ⟨h, h'⟩
    rw [hremoved, hremains] at h h'
    exact ⟨h, h'⟩
  · rintro ⟨h, h'⟩
    rw [← hremoved, ← hremains] at h h'
    exact ⟨h, h'⟩

/-- A rewind that is accepted searched where to stop, ran the loop and stored the new top. -/
theorem popBlocks_ok {result : Nat × TopoHeight × List (Hash × Transaction)}
    (h : popBlocks height top count limit s = .ok result s') :
    ∃ low r s₁, s.lowestTopoheight top count limit = .ok low ∧
      popLoop (s.prunedTopoheight.getD 0) low limit top
        { height, topoheight := top, tips := s.tips.filter (s.isBlockTopologicalOrdered ·), txs := [] } s = .ok r s₁ ∧
      s' = s₁.withTop r := by
  unfold popBlocks at h
  split at h
  · obtain ⟨_, _, hthrow, -⟩ := Exec.bind_ok_iff.mp h
    cases hthrow
  · obtain ⟨_, _, hget, h⟩ := Exec.bind_ok_iff.mp h
    cases hget
    obtain ⟨low, s₁, hlowest, h⟩ := Exec.bind_ok_iff.mp h
    rw [Exec.ofExcept_apply] at hlowest
    cases hlow : s.lowestTopoheight top count limit with
    | error e => simp [hlow] at hlowest
    | ok low' =>
      simp only [hlow] at hlowest
      cases hlowest
      obtain ⟨r, s₂, hloop, h⟩ := Exec.bind_ok_iff.mp h
      obtain ⟨_, _, hclear, h⟩ := Exec.bind_ok_iff.mp h
      cases hclear
      obtain ⟨_, _, hstore, h⟩ := Exec.bind_ok_iff.mp h
      cases hstore
      cases h
      exact ⟨low, r, s₂, rfl, hloop, rfl⟩

/-- A rewind leaves the right top exactly when it goes back to the first block, or stops where the heights and the tips
can be restored. -/
theorem popBlocks_restores_iff (s s' : Storage P) (top height count limit : Nat)
    (result : Nat × TopoHeight × List (Hash × Transaction)) (hchain : s.Chain top height)
    (h : popBlocks height top count limit s = .ok result s') :
    s'.TopIsRight ↔ ∀ low, s.lowestTopoheight top count limit = .ok low →
      s.prunedTopoheight.getD 0 ≤ max low limit → s.Restorable (max low limit) := by
  obtain ⟨low, r, s₁, hlow, hloop, rfl⟩ := popBlocks_ok h
  obtain ⟨hrewound, hrestarted⟩ := popLoop_rewinds hchain rfl (rewound_start hchain) hchain.prunedLe hloop
  have hlow_eq : ∀ low', s.lowestTopoheight top count limit = .ok low' → low' = low := by
    intro low' hlow'
    rw [hlow] at hlow'
    exact (Except.ok.inj hlow').symm
  rcases Nat.lt_or_ge (max low limit) (s.prunedTopoheight.getD 0) with hlt | hge
  · refine ⟨fun _ low' hlow' hge => ?_, fun _ => (hrestarted hlt).topIsRight hchain⟩
    rw [hlow_eq low' hlow'] at hge
    exact absurd hge (Nat.not_le.mpr hlt)
  · have hmin : s.prunedTopoheight.getD 0 ≤ min top (max low limit) := Nat.le_min.mpr ⟨hchain.prunedLe, hge⟩
    rw [(hrewound hge).top_iff hchain (Nat.min_le_left _ _) hmin, restorable_min hchain]
    constructor
    · intro hrestorable low' hlow' _
      rw [hlow_eq low' hlow']
      exact hrestorable
    · exact fun hall => hall low hlow hge

end Top

def orderedBlocks (s : Storage P) : List (TopoHeight × Hash × BlockHeader) :=
  s.hashAtTopo.toList.filterMap fun slot =>
    if s.topoByHash[slot.2]? = some slot.1 then s.blocks[slot.2]?.map fun header => (slot.1, slot.2, header) else none

theorem mem_orderedBlocks : s.OrderedAt t hash header ↔ (t, hash, header) ∈ s.orderedBlocks := by
  unfold orderedBlocks
  rw [List.mem_filterMap]
  constructor
  · intro h
    refine ⟨(t, hash), Std.ExtTreeMap.mem_toList_iff_getElem?_eq_some.mpr h.slot, ?_⟩
    rw [if_pos h.place, h.block]
    rfl
  · rintro ⟨⟨t', hash'⟩, hslot, heq⟩
    have hslot : s.hashAtTopo[t']? = some hash' := Std.ExtTreeMap.mem_toList_iff_getElem?_eq_some.mp hslot
    dsimp only at heq
    split at heq
    · rename_i hplace
      cases hblock : s.blocks[hash']? with
      | none => simp [hblock] at heq
      | some header' =>
        simp only [hblock, Option.map_some, Option.some.injEq, Prod.mk.injEq] at heq
        obtain ⟨rfl, rfl, rfl⟩ := heq
        exact ⟨hslot, hplace, hblock⟩
    · cases heq

/-- What a list of ordered blocks has to satisfy to be those of a chain that was never pruned. -/
def isChain (blocks : List (TopoHeight × Hash × BlockHeader)) (tips : Tips) (top height : Nat) : Bool :=
  blocks.all (fun b => b.1 ≤ top && b.2.2.height ≤ height && (b.1 != 0 || b.2.2.height == 0) &&
      blocks.all (fun p => !b.2.2.tips.contains p.2.1 || decide (p.1 < b.1)) &&
      (tips.contains b.2.1 == blocks.all (fun c => !c.2.2.tips.contains b.2.1))) &&
    (List.range (top + 1)).all (fun t => blocks.any (·.1 == t)) && blocks.any (·.2.2.height == height)

theorem chain_of_isChain (hpruned : s.prunedTopoheight = none)
    (hslots : s.hashAtTopo.toList.all (fun slot => s.orderedBlocks.any (fun b => b.1 == slot.1 && b.2.1 == slot.2)) = true)
    (h : isChain s.orderedBlocks s.tips top height = true) : s.Chain top height := by
  simp only [isChain, Bool.and_eq_true, List.all_eq_true, Bool.or_eq_true, Bool.not_eq_true', bne_iff_ne, ne_eq,
    decide_eq_true_eq, beq_iff_eq, List.any_eq_true, Prod.forall, Prod.exists, List.mem_range] at h
  obtain ⟨⟨hall, hfilled⟩, t₀, hash₀, header₀, hmem₀, hheight₀⟩ := h
  have hzero : s.prunedTopoheight.getD 0 = 0 := by rw [hpruned]; rfl
  refine ⟨fun t hash hslot => ?_, fun t hash header ht => ?_, fun t hash header ht parent hparent u header' hu => ?_,
    fun t hle _ => ?_, fun t hash header _ => .inr ?_, ?_, fun hash header ht => ?_, ?_, fun t hash header ht => ?_,
    fun t hash header ht => ?_⟩
  · have hmem := List.all_eq_true.mp hslots (t, hash) (Std.ExtTreeMap.mem_toList_iff_getElem?_eq_some.mpr hslot)
    obtain ⟨⟨t', hash', header⟩, hb, heq⟩ := List.any_eq_true.mp hmem
    simp only [Bool.and_eq_true, beq_iff_eq] at heq
    obtain ⟨rfl, rfl⟩ := heq
    exact ⟨header, mem_orderedBlocks.mpr hb⟩
  · exact (hall t hash header (mem_orderedBlocks.mp ht)).1.1.1.1
  · rcases (hall t hash header (mem_orderedBlocks.mp ht)).1.2 u parent header' (mem_orderedBlocks.mp hu) with hnot | hlt
    · rw [List.contains_iff_mem.mpr hparent] at hnot
      cases hnot
    · exact hlt
  · obtain ⟨t', hash, header, hmem, rfl⟩ := hfilled t (Nat.lt_succ_of_le hle)
    exact ⟨hash, header, mem_orderedBlocks.mpr hmem⟩
  · rw [hzero]
    exact Nat.zero_le t
  · rw [hzero]
    exact Nat.zero_le top
  · rcases (hall 0 hash header (mem_orderedBlocks.mp ht)).1.1.2 with hne | heq
    · exact absurd rfl hne
    · exact heq
  · exact ⟨t₀, hash₀, header₀, mem_orderedBlocks.mpr hmem₀, hheight₀⟩
  · exact (hall t hash header (mem_orderedBlocks.mp ht)).1.1.1.2
  · have htips := (hall t hash header (mem_orderedBlocks.mp ht)).2
    rw [← List.contains_iff_mem, htips, List.all_eq_true]
    constructor
    · intro hnone u child header' hchild hparent
      have hnot := hnone (u, child, header') (mem_orderedBlocks.mp hchild)
      rw [List.contains_iff_mem.mpr hparent] at hnot
      cases hnot
    · rintro hnone ⟨u, child, header'⟩ hchild
      rw [Bool.not_eq_true', Bool.eq_false_iff, ne_eq, List.contains_iff_mem]
      exact hnone u child header' (mem_orderedBlocks.mpr hchild)

/-- Blocks 0, 1 and 2 in a row. -/
def linearChain : Storage Unit :=
  let s := orderBlock {} 10 0 (sampleHeader 0 [] [])
  let s := orderBlock s 11 1 (sampleHeader 1 [10] [])
  let s := orderBlock s 12 2 (sampleHeader 2 [11] [])
  { s with tips := [12], topTopoheight := some 2, topHeight := some 2 }

def twoBranches : Storage Unit :=
  let s := orderBlock {} 10 0 (sampleHeader 0 [] [])
  let s := orderBlock s 11 1 (sampleHeader 1 [10] [])
  let s := orderBlock s 21 2 (sampleHeader 1 [10] [])
  let s := orderBlock s 12 3 (sampleHeader 2 [11] [])
  let s := orderBlock s 22 4 (sampleHeader 2 [21] [])
  { s with tips := [12, 22], topTopoheight := some 4, topHeight := some 2 }

theorem samples_chain : linearChain.Chain 2 2 ∧ twoBranches.Chain 4 2 :=
  ⟨chain_of_isChain rfl (by decide +kernel) (by decide +kernel), chain_of_isChain rfl (by decide +kernel) (by decide +kernel)⟩

private theorem twoBranches_ordered (h : twoBranches.OrderedAt t hash header) :
    t = 4 ∧ hash = 22 ∧ header = sampleHeader 2 [21] [] ∨
      t < 4 ∧ header.height ≤ 2 ∧ (21 : Hash) ∉ header.tips := by
  have hlist : twoBranches.orderedBlocks.all (fun b =>
      decide (b.1 = 4 ∧ b.2.1 = 22 ∧ b.2.2 = sampleHeader 2 [21] []) ||
        decide (b.1 < 4 ∧ b.2.2.height ≤ 2 ∧ (21 : Hash) ∉ b.2.2.tips)) = true := by
    decide +kernel
  have hb := List.all_eq_true.mp hlist _ (mem_orderedBlocks.mp h)
  simpa only [Bool.or_eq_true, decide_eq_true_eq] using hb

private theorem twoBranches_restorable : twoBranches.Restorable 3 := by
  have htop : twoBranches.OrderedAt 4 22 (sampleHeader 2 [21] []) := mem_orderedBlocks.mpr (by decide +kernel)
  have hside : twoBranches.OrderedAt 3 12 (sampleHeader 2 [11] []) := mem_orderedBlocks.mpr (by decide +kernel)
  have hparent : twoBranches.OrderedAt 2 21 (sampleHeader 1 [10] []) := mem_orderedBlocks.mpr (by decide +kernel)
  have hremoved : ∀ hash header, twoBranches.Removed 3 hash header → hash = 22 ∧ header = sampleHeader 2 [21] [] := by
    rintro hash header ⟨t, hlt, hordered⟩
    rcases twoBranches_ordered hordered with ⟨-, h⟩ | ⟨hle, -⟩
    · exact h
    · exact absurd hle (Nat.not_lt.mpr (Nat.succ_le_of_lt hlt))
  have hremains : ∀ hash header, twoBranches.Remains 3 hash header → header.height ≤ 2 ∧ (21 : Hash) ∉ header.tips := by
    rintro hash header ⟨t, hle, hordered⟩
    rcases twoBranches_ordered hordered with ⟨rfl, -⟩ | ⟨-, h⟩
    · exact absurd hle (by decide)
    · exact h
  refine ⟨.inr ⟨22, _, ⟨4, by decide, htop⟩, fun x header hx => ?_, ⟨12, _, ⟨3, by decide, hside⟩, rfl⟩, ?_⟩, ?_⟩
  · rw [(hremoved x header hx).2]
  · exact fun x header hx => (hremains x header hx).1
  · intro hash header hx parent hmem
    rw [(hremoved hash header hx).2] at hmem
    have hmem : parent = 21 := List.mem_singleton.mp hmem
    subst hmem
    refine .inr ⟨⟨_, 2, by decide, hparent⟩, fun child header' hchild => (hremains child header' hchild).2⟩

/-- Two branches can be rewound to a block of one of them. -/
theorem twoBranches_restored : ∃ result s', popBlocks 2 4 1 3 twoBranches = .ok result s' ∧ s'.TopIsRight := by
  have hok : ∃ result s', popBlocks 2 4 1 3 twoBranches = .ok result s' := by
    have heval : (match popBlocks 2 4 1 3 twoBranches with
        | .ok _ _ => true
        | .error _ _ => false) = true := by decide +kernel
    revert heval
    cases popBlocks 2 4 1 3 twoBranches with
    | ok result s' => exact fun _ => ⟨result, s', rfl⟩
    | error _ _ => exact nofun
  obtain ⟨result, s', hs'⟩ := hok
  refine ⟨result, s', hs', (popBlocks_restores_iff twoBranches s' 4 2 1 3 result samples_chain.2 hs').mpr ?_⟩
  intro low hlow _
  have hlow' : twoBranches.lowestTopoheight 4 1 3 = .ok 0 := by decide +kernel
  rw [hlow', Except.ok.injEq] at hlow
  rw [← hlow]
  exact twoBranches_restorable

/-- After one block of a row is rewound, the stored height is still that of the removed block. -/
theorem rewind_keeps_height_of_removed_block : linearChain.Chain 2 2 ∧
    ¬∀ result s', popBlocks 2 2 1 0 linearChain = .ok result s' → s'.TopIsRight := by
  refine ⟨samples_chain.1, fun hall => ?_⟩
  have heval : (match popBlocks 2 2 1 0 linearChain with
      | .ok _ s' => s'.topHeight == some 2 && s'.orderedBlocks.all (fun b => b.2.2.height ≤ 1)
      | .error _ _ => false) = true := by decide +kernel
  revert heval
  cases hpop : popBlocks 2 2 1 0 linearChain with
  | error _ _ => exact nofun
  | ok result s' =>
    intro heval
    obtain ⟨htop, hlow⟩ := (Bool.and_eq_true _ _).mp heval
    obtain ⟨h, hh, ⟨t, hash, header, hordered, hheight⟩, -⟩ := (hall result s' hpop).height
    rw [beq_iff_eq.mp htop, Option.some.injEq] at hh
    have hle := List.all_eq_true.mp hlow _ (mem_orderedBlocks.mp hordered)
    rw [decide_eq_true_eq, hheight, ← hh] at hle
    exact absurd hle (by decide)

end Xelis.Storage
