import Mathlib.Data.Finset.Insert
import Mathlib.Data.List.Lookmap
import Mathlib.Logic.Relation

/-! Depth-first search with a bound on the depth.
A vertex that was met is not entered again, even where it is met closer to the start. -/

namespace Xelis.Lib.DepthFirst

variable {α : Type}

/-- The vertices that at most `n` edges lead to. -/
inductive Within (next : α → List α) : Nat → α → α → Prop where
  | refl (n : Nat) (x : α) : Within next n x x
  | step {n : Nat} {x y z : α} : y ∈ next x → Within next n y z → Within next (n + 1) x z

/-- No vertex leads back to itself. -/
def Acyclic (next : α → List α) : Prop := ∀ x, ¬ Relation.TransGen (fun x y => y ∈ next x) x x

variable {next : α → List α} {n k : Nat} {x y z : α}

variable {next' : α → List α}

theorem Acyclic.mono (h : Acyclic next) (hsub : ∀ x, ∀ y ∈ next' x, y ∈ next x) : Acyclic next' :=
  fun x hx => h x (Relation.TransGen.mono hsub x x hx)

theorem acyclic_of_rank (rank : α → Nat) (h : ∀ x, ∀ y ∈ next x, rank y < rank x) : Acyclic next := by
  intro x hx
  have hlt : ∀ y, Relation.TransGen (fun x y => y ∈ next x) x y → rank y < rank x := by
    intro y hy
    induction hy with
    | single hy => exact h _ _ hy
    | tail _ hz ih => exact (h _ _ hz).trans ih
  exact lt_irrefl _ (hlt x hx)

theorem Within.mono (h : Within next n x y) (hsub : ∀ x, ∀ y ∈ next x, y ∈ next' x) : Within next' n x y := by
  induction h with
  | refl n x => exact .refl n x
  | step hy _ ih => exact .step (hsub _ _ hy) ih

/-- What a search did: the vertices it entered and the successors it passed by, each with the edges left from there. -/
structure Trace (α : Type) where
  entered : List (α × Nat) := []
  passed : List (α × Nat) := []

namespace Trace

def enter (T : Trace α) (x : α) (k : Nat) : Trace α := { T with entered := (x, k) :: T.entered }

def pass (T : Trace α) (xs : List α) (k : Nat) : Trace α := { T with passed := xs.map (·, k) ++ T.passed }

/-- The successors of an entry were entered as well, or passed by. -/
def Follows (next : α → List α) (T : Trace α) (e : α × Nat) : Prop :=
  ∀ k, e.2 = k + 1 → ∀ y ∈ next e.1, (y, k) ∈ T.entered ∨ (y, k) ∈ T.passed

/-- A search that goes on from `T` to `T'` follows every entry it adds. -/
structure Extends (next : α → List α) (T T' : Trace α) : Prop where
  entered : T.entered ⊆ T'.entered
  passed : T.passed ⊆ T'.passed
  followed : ∀ e ∈ T'.entered, e ∈ T.entered ∨ T'.Follows next e

variable {T T' T'' : Trace α}

theorem Extends.refl (next : α → List α) (T : Trace α) : Extends next T T :=
  ⟨List.Subset.refl _, List.Subset.refl _, fun _ he => .inl he⟩

theorem Follows.extend {e : α × Nat} (h : T.Follows next e) (hT : Extends next T T') : T'.Follows next e :=
  fun k hk y hy => (h k hk y hy).imp (fun hmem => hT.entered hmem) (fun hmem => hT.passed hmem)

theorem Extends.trans (h : Extends next T T') (h' : Extends next T' T'') : Extends next T T'' where
  entered := List.Subset.trans h.entered h'.entered
  passed := List.Subset.trans h.passed h'.passed
  followed e he := by
    rcases h'.followed e he with hmem | hfollows
    · exact (h.followed e hmem).imp_right (fun hfollows => hfollows.extend h')
    · exact .inr hfollows

/-- Whatever lies behind a vertex that was passed by is no further from some entry, and within the edges left there. -/
def Covered (next : α → List α) (T : Trace α) : Prop :=
  ∀ e ∈ T.passed, ∀ j ≤ e.2, ∀ y, Within next j e.1 y → ∃ e' ∈ T.entered, Within next (min j e'.2) e'.1 y

variable [DecidableEq α]

/-- The set of the vertices that were entered. -/
def seen (T : Trace α) : Finset α := (T.entered.map Prod.fst).toFinset

end Trace

open Trace (Extends)

variable [DecidableEq α] {T : Trace α}

/-- The search: the successors to enter are chosen when a vertex is left, the last one is entered first. -/
def visit (next : α → List α) : Nat → α → Trace α → Trace α
  | 0, x, T => T.enter x 0
  | n + 1, x, T =>
    let T' := T.enter x (n + 1)
    ((next x).filter (· ∉ T'.seen)).reverse.foldl (fun T y => visit next n y T) (T'.pass ((next x).filter (· ∈ T'.seen)) n)

end Xelis.Lib.DepthFirst
