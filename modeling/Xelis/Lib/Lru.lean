import Mathlib.Data.List.Basic

/-! A cache of bounded size that drops what was not used for the longest time. -/

namespace Xelis.Lib

/-- The entries, from the one used last to the one to be dropped next. -/
structure Lru (K V : Type) where
  capacity : Nat
  entries : List (K × V)

namespace Lru

variable {K V : Type} [DecidableEq K]

def peek (c : Lru K V) (key : K) : Option V := c.entries.lookup key

def contains (c : Lru K V) (key : K) : Bool := (c.peek key).isSome

def pop (c : Lru K V) (key : K) : Lru K V := { c with entries := c.entries.filter (fun e => e.1 ≠ key) }

def put (c : Lru K V) (key : K) (value : V) : Lru K V :=
  { c with entries := ((key, value) :: (c.pop key).entries).take c.capacity }

/-- A key that is looked up becomes the one used last. -/
def touch (c : Lru K V) (key : K) : Lru K V :=
  match c.peek key with
  | some value => { c with entries := (key, value) :: (c.pop key).entries }
  | none => c

def clear (c : Lru K V) : Lru K V := { c with entries := [] }

/-- Every entry is as `good` says. -/
def All (good : K → V → Prop) (c : Lru K V) : Prop := ∀ e ∈ c.entries, good e.1 e.2

variable {good : K → V → Prop} {c : Lru K V} {key : K} {value : V}

omit [DecidableEq K] in
theorem All.mono {good' : K → V → Prop} (h : c.All good) (himp : ∀ key value, good key value → good' key value) :
    c.All good' :=
  fun e he => himp e.1 e.2 (h e he)

theorem mem_of_peek (h : c.peek key = some value) : (key, value) ∈ c.entries := by
  obtain ⟨before, after, heq, -⟩ := List.lookup_eq_some_iff.mp h
  rw [heq]
  exact List.mem_append_right before List.mem_cons_self

theorem All.peek (h : c.All good) (hpeek : c.peek key = some value) : good key value := h _ (mem_of_peek hpeek)

theorem All.pop (h : c.All good) (key : K) : (c.pop key).All good := fun e he => h e (List.mem_filter.mp he).1

theorem All.put (h : c.All good) (hgood : good key value) : (c.put key value).All good := by
  intro e he
  rcases List.mem_cons.mp (List.mem_of_mem_take he) with rfl | he
  · exact hgood
  · exact h.pop key e he

theorem All.touch (h : c.All good) (key : K) : (c.touch key).All good := by
  unfold Lru.touch
  cases hpeek : c.peek key with
  | none => exact h
  | some value =>
    intro e he
    rcases List.mem_cons.mp he with rfl | he
    · exact h.peek hpeek
    · exact h.pop key e he

theorem touch_of_peek_none (h : c.peek key = none) : c.touch key = c := by
  unfold touch
  rw [h]

omit [DecidableEq K] in
theorem all_clear (good : K → V → Prop) (c : Lru K V) : c.clear.All good := fun _ he => absurd he List.not_mem_nil

@[simp] theorem peek_clear (c : Lru K V) (key : K) : c.clear.peek key = none := rfl

end Lru

end Xelis.Lib
