import Mathlib.Data.List.Nodup
import Mathlib.Order.WellFounded

/-! The order in which a recursive depth-first search leaves the vertices of a graph without cycles. -/

namespace Xelis.Lib

variable {α : Type} [DecidableEq α] {next : α → List α}

/-- Everything a vertex leads to is listed before it, once, unless it is there already. -/
def postOrder (hwf : WellFounded (fun y x => y ∈ next x)) : α → List α → List α :=
  hwf.fix (fun x go acc =>
    if x ∈ acc then acc
    else (next x).attach.foldl (fun acc y => go y.1 y.2 acc) acc ++ [x])

namespace PostOrder

variable {hwf : WellFounded (fun y x => y ∈ next x)} {x y : α} {acc : List α}

theorem postOrder_eq (x : α) (acc : List α) :
    postOrder hwf x acc = if x ∈ acc then acc else (next x).foldl (fun acc y => postOrder hwf y acc) acc ++ [x] := by
  have hattach : (next x).attach.foldl (fun acc y => postOrder hwf y.1 acc) acc =
      (next x).foldl (fun acc y => postOrder hwf y acc) acc :=
    List.foldl_attach (f := fun acc y => postOrder hwf y acc)
  rw [← hattach]
  conv_lhs => rw [postOrder, WellFounded.fix_eq]
  rfl

theorem postOrder_of_mem (h : x ∈ acc) : postOrder hwf x acc = acc := by rw [postOrder_eq, if_pos h]

theorem postOrder_of_not_mem (h : x ∉ acc) :
    postOrder hwf x acc = (next x).foldl (fun acc y => postOrder hwf y acc) acc ++ [x] := by rw [postOrder_eq, if_neg h]

variable {ys : List α}

theorem subset_foldl (h : ∀ y ∈ ys, ∀ acc : List α, acc ⊆ postOrder hwf y acc) (acc : List α) :
    acc ⊆ ys.foldl (fun acc y => postOrder hwf y acc) acc := by
  induction ys generalizing acc with
  | nil => exact List.Subset.refl acc
  | cons y ys ih =>
    exact List.Subset.trans (h y List.mem_cons_self acc) (ih (fun y hy => h y (List.mem_cons_of_mem _ hy)) _)

theorem subset_postOrder (x : α) (acc : List α) : acc ⊆ postOrder hwf x acc := by
  induction x using hwf.induction generalizing acc with
  | _ x ih =>
    rw [postOrder_eq]
    split
    · exact List.Subset.refl acc
    · exact List.Subset.trans (subset_foldl ih acc) (List.subset_append_left _ _)

theorem mem_postOrder_self (x : α) (acc : List α) : x ∈ postOrder hwf x acc := by
  by_cases h : x ∈ acc
  · rwa [postOrder_of_mem h]
  · rw [postOrder_of_not_mem h]
    exact List.mem_append_right _ List.mem_cons_self

theorem getLast?_postOrder (h : x ∉ acc) : (postOrder hwf x acc).getLast? = some x := by
  rw [postOrder_of_not_mem h, List.getLast?_concat]

/-- Vertices are added because one of `ys` leads to them, when that is so for each of these. -/
theorem mem_or_reaches_of_mem_foldl (h : ∀ z ∈ ys, ∀ acc : List α, y ∈ postOrder hwf z acc →
    y ∈ acc ∨ Relation.ReflTransGen (fun x y => y ∈ next x) z y)
    (hy : y ∈ ys.foldl (fun acc y => postOrder hwf y acc) acc) :
    y ∈ acc ∨ ∃ z ∈ ys, Relation.ReflTransGen (fun x y => y ∈ next x) z y := by
  induction ys generalizing acc with
  | nil => exact .inl hy
  | cons z ys ih =>
    rcases ih (fun z hz => h z (List.mem_cons_of_mem _ hz)) hy with hy | ⟨z', hz', hy⟩
    · exact (h z List.mem_cons_self acc hy).imp_right (fun hy => ⟨z, List.mem_cons_self, hy⟩)
    · exact .inr ⟨z', List.mem_cons_of_mem _ hz', hy⟩

theorem mem_or_reaches_of_mem (h : y ∈ postOrder hwf x acc) : y ∈ acc ∨ Relation.ReflTransGen (fun x y => y ∈ next x) x y := by
  induction x using hwf.induction generalizing acc with
  | _ x ih =>
    by_cases hx : x ∈ acc
    · rw [postOrder_of_mem hx] at h
      exact .inl h
    · rw [postOrder_of_not_mem hx] at h
      rcases List.mem_append.mp h with h | h
      · rcases mem_or_reaches_of_mem_foldl (fun z hz acc hy => ih z hz hy) h with h | ⟨z, hz, h⟩
        · exact .inl h
        · exact .inr (.head hz h)
      · exact .inr (List.mem_singleton.mp h ▸ .refl)

/-- What a vertex leads to does not lead back to it. -/
theorem not_mem_foldl_next (h : x ∉ acc) : x ∉ (next x).foldl (fun acc y => postOrder hwf y acc) acc := by
  intro hmem
  rcases mem_or_reaches_of_mem_foldl (fun z _ acc hy => mem_or_reaches_of_mem hy) hmem with hmem | ⟨z, hz, hreach⟩
  · exact h hmem
  · have hback : Relation.ReflTransGen (fun y x => y ∈ next x) x z := Relation.reflTransGen_swap.mp hreach
    exact hwf.transGen.irrefl.irrefl x (Relation.TransGen.tail' hback hz)

/-- Every vertex stands behind all that it leads to. -/
def Downward (next : α → List α) (l : List α) : Prop := ∀ before x after, l = before ++ x :: after → ∀ y ∈ next x, y ∈ before

section

omit [DecidableEq α]

theorem downward_nil : Downward next [] := by
  intro before x after h
  simp at h

theorem Downward.concat (h : Downward next acc) (hx : ∀ y ∈ next x, y ∈ acc) : Downward next (acc ++ [x]) := by
  intro before z after heq y hy
  rcases List.eq_nil_or_concat after with rfl | ⟨after, last, rfl⟩
  · obtain ⟨rfl, rfl⟩ := List.append_inj' heq rfl |>.imp id (fun h => List.singleton_inj.mp h)
    exact hx y hy
  · rw [List.concat_eq_append, ← List.cons_append, ← List.append_assoc] at heq
    exact h before z after (List.append_inj' heq rfl).1 y hy

theorem Downward.closed (h : Downward next acc) (hx : x ∈ acc) (hy : y ∈ next x) : y ∈ acc := by
  obtain ⟨before, after, rfl⟩ := List.append_of_mem hx
  exact List.mem_append_left _ (h before x after rfl y hy)

end

/-- The search keeps an order in which all stands behind what it leads to. -/
theorem Downward.postOrder (h : Downward next acc) (x : α) : Downward next (postOrder hwf x acc) := by
  induction x using hwf.induction generalizing acc with
  | _ x ih =>
    have hchildren : ∀ ys : List α, (∀ z ∈ ys, z ∈ next x) → ∀ acc : List α, Downward next acc →
        Downward next (ys.foldl (fun acc y => Lib.postOrder hwf y acc) acc) ∧
          ∀ z ∈ ys, z ∈ ys.foldl (fun acc y => Lib.postOrder hwf y acc) acc := by
      intro ys
      induction ys with
      | nil => exact fun _ acc hacc => ⟨hacc, fun _ hz => absurd hz List.not_mem_nil⟩
      | cons z ys ihys =>
        intro hys acc hacc
        have hrest := ihys (fun z hz => hys z (List.mem_cons_of_mem _ hz)) _ (ih z (hys z List.mem_cons_self) hacc)
        refine ⟨hrest.1, fun w hw => ?_⟩
        rcases List.mem_cons.mp hw with rfl | hw
        · exact subset_foldl (fun y _ acc => subset_postOrder y acc) (Lib.postOrder hwf w acc) (mem_postOrder_self w acc)
        · exact hrest.2 w hw
    by_cases hx : x ∈ acc
    · rwa [postOrder_of_mem hx]
    · rw [postOrder_of_not_mem hx]
      obtain ⟨hdown, hmem⟩ := hchildren (next x) (fun _ hz => hz) acc h
      exact hdown.concat hmem

/-- From an empty start the search lists what its vertex leads to. -/
theorem mem_postOrder_iff (x y : α) : y ∈ postOrder hwf x [] ↔ Relation.ReflTransGen (fun x y => y ∈ next x) x y := by
  constructor
  · intro h
    exact (mem_or_reaches_of_mem h).resolve_left List.not_mem_nil
  · intro h
    induction h with
    | refl => exact mem_postOrder_self x []
    | tail _ hz ih => exact (downward_nil.postOrder x).closed ih hz

theorem foldl_of_subset (h : ys ⊆ acc) : ys.foldl (fun acc y => postOrder hwf y acc) acc = acc := by
  induction ys with
  | nil => rfl
  | cons y ys ih =>
    rw [List.foldl_cons, postOrder_of_mem (h List.mem_cons_self), ih (fun z hz => h (List.mem_cons_of_mem _ hz))]

def behind (acc l : List α) : List α := acc ++ l.filter (· ∉ acc)

/-- A list that is closed already only takes out of the search what it holds. -/
theorem postOrder_behind (h : Downward next acc) (x : α) (l : List α) :
    postOrder hwf x (behind acc l) = behind acc (postOrder hwf x l) := by
  induction x using hwf.induction generalizing l with
  | _ x ih =>
    have hchildren : ∀ ys : List α, (∀ y ∈ ys, y ∈ next x) → ∀ l : List α,
        ys.foldl (fun acc y => postOrder hwf y acc) (behind acc l) =
          behind acc (ys.foldl (fun acc y => postOrder hwf y acc) l) := by
      intro ys
      induction ys with
      | nil => exact fun _ _ => rfl
      | cons y ys ihys =>
        intro hys l
        rw [List.foldl_cons, ih y (hys y List.mem_cons_self), ihys (fun z hz => hys z (List.mem_cons_of_mem _ hz))]
        rfl
    have hmem : ∀ y, y ∈ behind acc l ↔ y ∈ acc ∨ y ∈ l := by
      intro y
      unfold behind
      by_cases hy : y ∈ acc <;> simp [hy]
    by_cases hl : x ∈ l
    · rw [postOrder_of_mem hl, postOrder_of_mem ((hmem x).mpr (.inr hl))]
    · rw [postOrder_of_not_mem hl]
      have hconcat : ∀ m : List α, behind acc (m ++ [x]) = if x ∈ acc then behind acc m else behind acc m ++ [x] := by
        intro m
        unfold behind
        split <;> rename_i hx <;> simp [hx]
      rw [hconcat, ← hchildren (next x) (fun _ hz => hz)]
      by_cases hacc : x ∈ acc
      · have hnext : next x ⊆ behind acc l := fun y hy => (hmem y).mpr (.inl (h.closed hacc hy))
        rw [postOrder_of_mem ((hmem x).mpr (.inl hacc)), if_pos hacc, foldl_of_subset hnext]
      · rw [postOrder_of_not_mem (fun hx => ((hmem x).mp hx).elim hacc hl), if_neg hacc]

/-- A search that was made before is used behind a closed list. -/
theorem postOrder_eq_behind (h : Downward next acc) (x : α) : postOrder hwf x acc = behind acc (postOrder hwf x []) := by
  rw [← postOrder_behind h]
  simp [behind]

end PostOrder

end Xelis.Lib
