import Mathlib.Data.Finset.Card
import Xelis.Lib.Loop

/-! A search through a graph with a queue of the vertices that wait and a record of the successors that were met.
The starts are not recorded, so that a start may be visited twice. -/

namespace Xelis.Lib

/-- The vertices that wait, and the successors that were met. -/
structure WorkList (V : Type) where
  queue : List V
  processed : List V

namespace WorkList

variable {V ε σ τ α : Type} [DecidableEq V]

/-- A successor waits unless it was met before. -/
def meet (w : WorkList V) (y : V) : WorkList V :=
  if w.processed.contains y then w
  else { queue := if w.queue.contains y then w.queue else w.queue ++ [y], processed := w.processed ++ [y] }

/-- The last vertex of the queue gives way to its successors. -/
def visit (w : WorkList V) (ys : List V) : WorkList V := ys.foldl meet { w with queue := w.queue.dropLast }

/-- What the starts lead to. -/
def Reached (next : V → List V) (starts : List V) (y : V) : Prop :=
  ∃ x ∈ starts, Relation.ReflTransGen (fun x y => y ∈ next x) x y

variable {next : V → List V} {starts visited ys : List V} {w : WorkList V} {x y : V}

omit [DecidableEq V] in
theorem Reached.start (h : x ∈ starts) : Reached next starts x := ⟨x, h, .refl⟩

omit [DecidableEq V] in
theorem Reached.tail (h : Reached next starts x) (hy : y ∈ next x) : Reached next starts y := by
  obtain ⟨z, hz, hreach⟩ := h
  exact ⟨z, hz, hreach.tail hy⟩

section Meet

variable {z : V}

theorem mem_queue_meet : z ∈ (w.meet y).queue → z ∈ w.queue ∨ z = y := by
  unfold meet
  split
  · exact .inl
  · dsimp only
    split
    · exact .inl
    · intro h
      exact (List.mem_append.mp h).imp_right List.mem_singleton.mp

theorem queue_subset_meet (w : WorkList V) (y : V) : w.queue ⊆ (w.meet y).queue := by
  unfold meet
  split
  · exact List.Subset.refl _
  · dsimp only
    split
    · exact List.Subset.refl _
    · exact List.subset_append_left _ _

theorem mem_processed_meet : z ∈ (w.meet y).processed ↔ z ∈ w.processed ∨ z = y := by
  unfold meet
  split
  · rename_i h
    refine ⟨.inl, ?_⟩
    rintro (hz | rfl)
    · exact hz
    · exact List.contains_iff_mem.mp h
  · exact List.mem_append.trans (or_congr_right List.mem_singleton)

theorem waits_meet (w : WorkList V) (y : V) : y ∈ w.processed ∨ y ∈ (w.meet y).queue := by
  unfold meet
  split
  · rename_i h
    exact .inl (List.contains_iff_mem.mp h)
  · right
    dsimp only
    split
    · rename_i h
      exact List.contains_iff_mem.mp h
    · exact List.mem_append_right _ List.mem_cons_self

theorem mem_queue_meetAll (h : z ∈ (ys.foldl meet w).queue) : z ∈ w.queue ∨ z ∈ ys := by
  induction ys generalizing w with
  | nil => exact .inl h
  | cons y ys ih =>
    rcases ih h with hz | hz
    · rcases mem_queue_meet hz with hz | rfl
      · exact .inl hz
      · exact .inr List.mem_cons_self
    · exact .inr (List.mem_cons_of_mem y hz)

theorem queue_subset_meetAll (ys : List V) (w : WorkList V) : w.queue ⊆ (ys.foldl meet w).queue := by
  induction ys generalizing w with
  | nil => exact List.Subset.refl _
  | cons y ys ih => exact List.Subset.trans (queue_subset_meet w y) (ih (w.meet y))

/-- The record holds what it held and what now waits. -/
theorem processed_meetAll (h : z ∈ (ys.foldl meet w).processed) : z ∈ w.processed ∨ z ∈ (ys.foldl meet w).queue := by
  induction ys generalizing w with
  | nil => exact .inl h
  | cons y ys ih =>
    rcases ih h with hz | hz
    · rcases mem_processed_meet.mp hz with hz | rfl
      · exact .inl hz
      · exact (waits_meet w z).imp_right (fun hz => queue_subset_meetAll ys _ hz)
    · exact .inr hz

theorem mem_processed_meetAll : z ∈ (ys.foldl meet w).processed ↔ z ∈ w.processed ∨ z ∈ ys := by
  induction ys generalizing w with
  | nil => simp
  | cons y ys ih => rw [List.foldl_cons, ih, mem_processed_meet, List.mem_cons, or_assoc]

end Meet

section Measure

/-- The visits that may still come: those that wait, and the vertices that were not met. -/
def left (vertices : Finset V) (w : WorkList V) : Nat := w.queue.length + (vertices \ w.processed.toFinset).card

variable {vertices : Finset V}

theorem left_meet (hy : y ∈ vertices) : left vertices (w.meet y) ≤ left vertices w := by
  unfold meet
  split
  · exact le_refl _
  · rename_i hnot
    have hnot' : y ∉ w.processed := fun h => hnot (List.contains_iff_mem.mpr h)
    have hcard : (vertices \ (w.processed ++ [y]).toFinset).card < (vertices \ w.processed.toFinset).card := by
      refine Finset.card_lt_card (Finset.ssubset_iff_of_subset ?_ |>.mpr ⟨y, ?_, ?_⟩)
      · refine Finset.sdiff_subset_sdiff (Finset.Subset.refl _) fun z hz => ?_
        rw [List.mem_toFinset] at hz ⊢
        exact List.mem_append_left _ hz
      · simp [hy, hnot']
      · simp
    have hlength : (if w.queue.contains y then w.queue else w.queue ++ [y]).length ≤ w.queue.length + 1 := by
      split <;> simp
    unfold left
    dsimp only
    omega

theorem left_meetAll (hys : ∀ y ∈ ys, y ∈ vertices) : left vertices (ys.foldl meet w) ≤ left vertices w := by
  induction ys generalizing w with
  | nil => exact le_refl _
  | cons y ys ih => exact (ih (fun z hz => hys z (List.mem_cons_of_mem y hz))).trans (left_meet (hys y List.mem_cons_self))

theorem left_visit (hx : w.queue.getLast? = some x) (hys : ∀ y ∈ ys, y ∈ vertices) :
    left vertices (w.visit ys) < left vertices w := by
  have hpos : w.queue ≠ [] := by
    rintro hnil
    rw [hnil] at hx
    cases hx
  have hlength : w.queue.dropLast.length < w.queue.length := by
    have := List.length_pos_iff.mpr hpos
    rw [List.length_dropLast]
    omega
  refine Nat.lt_of_le_of_lt (left_meetAll hys) ?_
  unfold left
  dsimp only
  omega

end Measure

/-- The vertices that were visited or wait are reached, and no way out of those that were visited is forgotten. -/
structure Explored (next : V → List V) (starts visited : List V) (w : WorkList V) : Prop where
  sound : ∀ y, y ∈ visited ∨ y ∈ w.queue → Reached next starts y
  recorded : ∀ y ∈ w.processed, y ∈ visited ∨ y ∈ w.queue
  started : ∀ x ∈ starts, x ∈ visited ∨ x ∈ w.queue
  closed : ∀ x ∈ visited, ∀ y ∈ next x, y ∈ visited ∨ y ∈ w.queue

omit [DecidableEq V] in
theorem Explored.start (next : V → List V) (starts : List V) : Explored next starts [] { queue := starts, processed := [] } where
  sound _ hy := .start (hy.resolve_left List.not_mem_nil)
  recorded _ hy := absurd hy List.not_mem_nil
  started _ hx := .inr hx
  closed _ hx := absurd hx List.not_mem_nil

theorem Explored.visit (h : Explored next starts visited w) (hx : w.queue.getLast? = some x) :
    Explored next starts (visited ++ [x]) (w.visit (next x)) := by
  have hqueue : w.queue = w.queue.dropLast ++ [x] := (List.dropLast_append_getLast? x hx).symm
  have hreach : Reached next starts x := h.sound x (.inr (List.mem_of_getLast? hx))
  -- what was visited or waited is still there: the vertex that is taken off the queue is visited now
  have hkept : ∀ y, y ∈ visited ∨ y ∈ w.queue → y ∈ visited ++ [x] ∨ y ∈ (w.visit (next x)).queue := by
    rintro y (hy | hy)
    · exact .inl (List.mem_append_left _ hy)
    · rw [hqueue] at hy
      rcases List.mem_append.mp hy with hy | hy
      · exact .inr (queue_subset_meetAll _ _ hy)
      · exact .inl (List.mem_append_right _ hy)
  have hrecorded : ∀ y ∈ (w.visit (next x)).processed, y ∈ visited ++ [x] ∨ y ∈ (w.visit (next x)).queue := by
    intro y hy
    rcases processed_meetAll hy with hy | hy
    · exact hkept y (h.recorded y hy)
    · exact .inr hy
  refine ⟨?_, hrecorded, fun y hy => hkept y (h.started y hy), ?_⟩
  · rintro y (hy | hy)
    · rcases List.mem_append.mp hy with hy | hy
      · exact h.sound y (.inl hy)
      · exact List.mem_singleton.mp hy ▸ hreach
    · rcases mem_queue_meetAll hy with hy | hy
      · exact h.sound y (.inr (List.mem_of_mem_dropLast hy))
      · exact hreach.tail hy
  · intro z hz y hy
    rcases List.mem_append.mp hz with hz | hz
    · exact hkept y (h.closed z hz y hy)
    · rw [List.mem_singleton.mp hz] at hy
      exact hrecorded y (mem_processed_meetAll.mpr (.inr hy))

omit [DecidableEq V] in
theorem Explored.mem_iff (h : Explored next starts visited w) (hqueue : w.queue = []) (y : V) :
    y ∈ visited ↔ Reached next starts y := by
  have hvisited : ∀ z, z ∈ visited ∨ z ∈ w.queue → z ∈ visited := by
    intro z hz
    rw [hqueue] at hz
    exact hz.resolve_right List.not_mem_nil
  constructor
  · intro hy
    exact h.sound y (.inl hy)
  · rintro ⟨x, hx, hreach⟩
    induction hreach with
    | refl => exact hvisited x (h.started x hx)
    | tail _ hz ih => exact hvisited _ (h.closed _ ih _ hz)

section Loops

variable (next starts) in
def Turns (work : σ → WorkList V) (Gathered : List V → σ → Prop) (Stuck : V → Prop) (body : σ → Exec (Halt ε) τ (σ ⊕ α)) : Prop :=
  ∀ visited s x t, Gathered visited s → (work s).queue.getLast? = some x → ¬ Stuck x →
    ∃ s', Loop.Turn body (s, t) (s', t) ∧ work s' = (work s).visit (next x) ∧ Gathered (visited ++ [x]) s'

variable {work : σ → WorkList V} {Gathered : List V → σ → Prop} {Stuck : V → Prop}
  {body : σ → Exec (Halt ε) τ (σ ⊕ α)} {vertices : Finset V}

theorem leads_explored (hnext : ∀ x, ∀ y ∈ next x, y ∈ vertices) (hturns : Turns next work Gathered Stuck body) (t : τ)
    {s : σ} (hgathered : Gathered visited s) (h : Explored next starts visited (work s)) :
    ∃ visited' s', Loop.Leads body (s, t) (s', t) ∧ Gathered visited' s' ∧ Explored next starts visited' (work s') ∧
      ∀ x, (work s').queue.getLast? = some x → Stuck x := by
  induction hn : left vertices (work s) using Nat.strong_induction_on generalizing visited s with
  | _ n ih =>
    subst hn
    by_cases hdone : ∀ x, (work s).queue.getLast? = some x → Stuck x
    · exact ⟨visited, s, .refl, hgathered, h, hdone⟩
    · push Not at hdone
      obtain ⟨x, hx, hfree⟩ := hdone
      obtain ⟨s₁, hturn, hwork, hgathered₁⟩ := hturns visited s x t hgathered hx hfree
      have hleft : left vertices (work s₁) < left vertices (work s) := hwork ▸ left_visit hx (hnext x)
      obtain ⟨visited', s', hleads, hrest⟩ := ih _ hleft hgathered₁ (hwork ▸ h.visit hx) rfl
      exact ⟨visited', s', .head hturn hleads, hrest⟩

end Loops

end WorkList

end Xelis.Lib
