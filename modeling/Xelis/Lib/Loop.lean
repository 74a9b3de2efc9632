import Mathlib.Logic.Relation
import Xelis.Lib.Exec

/-! Loops that turn until their body has a result, run with a budget of turns. -/

namespace Xelis.Lib

/-- How a program with loops stops short: with an error of its own, or with its budget spent. -/
inductive Halt (ε : Type) where
  | failed (e : ε)
  | spent
  deriving DecidableEq

/-- The error as one of another program. -/
def Halt.map {ε ε' : Type} (f : ε → ε') : Halt ε → Halt ε'
  | failed e => failed (f e)
  | spent => spent

namespace Exec

variable {ε σ α : Type}

/-- A computation that may fail, inside a program with loops. -/
def attempt (x : Except ε α) : Exec (Halt ε) σ α :=
  match x with
  | .ok a => pure a
  | .error e => throw (.failed e)

theorem attempt_ok (a : α) : (attempt (.ok a : Except ε α) : Exec (Halt ε) σ α) = pure a := rfl

end Exec

namespace Loop

variable {ε σ τ α : Type} (body : σ → Exec (Halt ε) τ (σ ⊕ α))

/-- At most `n` turns: a turn leaves the locals of the next one, or the result. -/
def run : Nat → σ → Exec (Halt ε) τ α
  | 0, _ => throw .spent
  | n + 1, s => do
    match ← body s with
    | .inl s' => run n s'
    | .inr a => return a

def Turn (x y : σ × τ) : Prop := body x.1 x.2 = .ok (.inl y.1) y.2

/-- Some number of turns. -/
def Leads : σ × τ → σ × τ → Prop := Relation.ReflTransGen (Turn body)

variable {body} {x y z : σ × τ} {a : α} {t : τ}

theorem run_succ_of_turn (h : Turn body x y) (n : Nat) : run body (n + 1) x.1 x.2 = run body n y.1 y.2 := by
  rw [run, Exec.bind_apply, show body x.1 x.2 = _ from h]

theorem run_succ_of_result (h : body x.1 x.2 = .ok (.inr a) t) (n : Nat) : run body (n + 1) x.1 x.2 = .ok a t := by
  rw [run, Exec.bind_apply, h]
  rfl

/-- A result does not change with a larger budget. -/
theorem run_mono {n m : Nat} {s : σ} {t' : τ} (h : run body n s t = .ok a t') (hle : n ≤ m) : run body m s t = .ok a t' := by
  induction n generalizing m s t with
  | zero => cases h
  | succ n ih =>
    obtain ⟨m, rfl⟩ : ∃ k, m = k + 1 := ⟨m - 1, by omega⟩
    obtain ⟨next, t₁, hbody, hnext⟩ := Exec.bind_ok_iff.mp h
    refine Exec.bind_ok_iff.mpr ⟨next, t₁, hbody, ?_⟩
    cases next with
    | inl s' => exact ih hnext (by omega)
    | inr a' => exact hnext

theorem Leads.refl : Leads body x x := Relation.ReflTransGen.refl

theorem Leads.single (h : Turn body x y) : Leads body x y := Relation.ReflTransGen.single h

theorem Leads.trans (hxy : Leads body x y) (hyz : Leads body y z) : Leads body x z := Relation.ReflTransGen.trans hxy hyz

theorem Leads.head (hxy : Turn body x y) (hyz : Leads body y z) : Leads body x z := Relation.ReflTransGen.head hxy hyz

/-- The turns that were made come off the budget. -/
theorem Leads.run_eq (h : Leads body x y) : ∃ k, ∀ n, run body (n + k) x.1 x.2 = run body n y.1 y.2 := by
  induction h using Relation.ReflTransGen.head_induction_on with
  | refl => exact ⟨0, fun _ => rfl⟩
  | head hturn _ ih =>
    obtain ⟨k, hk⟩ := ih
    exact ⟨k + 1, fun n => (run_succ_of_turn hturn (n + k)).trans (hk n)⟩

/-- A loop that is led to its last turn returns with every budget that is large enough. -/
theorem Leads.returns (h : Leads body x y) (hlast : body y.1 y.2 = .ok (.inr a) t) :
    ∃ k, ∀ n, k ≤ n → run body n x.1 x.2 = .ok a t := by
  obtain ⟨k, hk⟩ := h.run_eq
  refine ⟨k + 1, fun n hn => ?_⟩
  obtain ⟨m, rfl⟩ : ∃ m, n = m + 1 + k := ⟨n - (k + 1), by omega⟩
  rw [hk]
  exact run_succ_of_result hlast m

end Loop

end Xelis.Lib
