import Mathlib.Data.Prod.Basic
import Mathlib.Logic.Function.Basic

/-! Objects that answer calls, and an object that another one stands for. -/

namespace Xelis.Lib

variable {ι κ α σ τ : Type}

def answers (call : σ → ι → α × σ) : σ → List ι → List α × σ
  | s, [] => ([], s)
  | s, i :: is => ((call s i).1 :: (answers call (call s i).2 is).1, (answers call (call s i).2 is).2)

variable {call : σ → ι → α × σ}

theorem answers_keeps (view : σ → τ) {is : List ι} (h : ∀ i ∈ is, ∀ s, view (call s i).2 = view s) (s : σ) :
    view (answers call s is).2 = view s := by
  induction is generalizing s with
  | nil => rfl
  | cons i is ih =>
    have hrest := ih (fun j hj => h j (List.mem_cons_of_mem i hj)) (call s i).2
    exact hrest.trans (h i List.mem_cons_self s)

/-- An object that gives the answers of another one to each call gives them in every run. `Valid` is what the calls keep. -/
theorem answers_view {call' : τ → κ → α × τ} (view : σ → τ) (on : ι → κ) (Valid : σ → Prop) {is : List ι}
    (h : ∀ s, ∀ i ∈ is, Valid s → call' (view s) (on i) = ((call s i).1, view (call s i).2) ∧ Valid (call s i).2) (s : σ) (hs : Valid s) :
    answers call' (view s) (is.map on) = ((answers call s is).1, view (answers call s is).2) ∧ Valid (answers call s is).2 := by
  induction is generalizing s with
  | nil => exact ⟨rfl, hs⟩
  | cons i is ih =>
    obtain ⟨hstep, hvalid⟩ := h s i List.mem_cons_self hs
    obtain ⟨hrest, hend⟩ := ih (fun t j hj => h t j (List.mem_cons_of_mem i hj)) _ hvalid
    refine ⟨?_, hend⟩
    rw [List.map_cons, answers, hstep, hrest]
    rfl

end Xelis.Lib
