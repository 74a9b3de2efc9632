import Mathlib.Algebra.Group.Basic
import Mathlib.Algebra.Group.Pi.Basic
import Xelis.Lib.Exec

/-! Quantities that the turns of a loop add up to. -/

namespace Xelis.Lib.Exec

variable {ε σ β M : Type} [AddCommGroup M] {f : β → Exec ε σ PUnit}

/-- The sum of what the turns of a loop are worth, as far as the loop gets. -/
def tally (worth : β → σ → σ → M) (f : β → Exec ε σ PUnit) : List β → σ → M
  | [], _ => 0
  | b :: bs, s =>
    match f b s with
    | .ok _ s' => worth b s s' + tally worth f bs s'
    | .error _ _ => 0

variable {bs xs : List β}

theorem tally_cons (worth : β → σ → σ → M) {b : β} {s s' : σ} (hb : f b s = .ok ⟨⟩ s') :
    tally worth f (b :: bs) s = worth b s s' + tally worth f bs s' := by
  rw [tally, hb]

theorem tally_add (v w : β → σ → σ → M) (xs : List β) (s : σ) : tally (v + w) f xs s = tally v f xs s + tally w f xs s := by
  induction xs generalizing s with
  | nil => exact (add_zero 0).symm
  | cons x xs ih =>
    unfold tally
    cases f x s with
    | error e s' => exact (add_zero 0).symm
    | ok u s' =>
      dsimp only
      rw [ih s']
      exact add_add_add_comm _ _ _ _

theorem tally_neg (w : β → σ → σ → M) (xs : List β) (s : σ) : tally (-w) f xs s = -tally w f xs s := by
  have hzero : (0 : M) = -0 := neg_zero.symm
  induction xs generalizing s with
  | nil => exact hzero
  | cons x xs ih =>
    unfold tally
    cases f x s with
    | error e s' => exact hzero
    | ok u s' =>
      dsimp only
      rw [ih s', neg_add]
      rfl

theorem tally_sub (v w : β → σ → σ → M) (xs : List β) (s : σ) : tally (v - w) f xs s = tally v f xs s - tally w f xs s := by
  rw [sub_eq_add_neg, tally_add, tally_neg, sub_eq_add_neg]

variable {worth : β → σ → σ → M}

/-- What every turn moves a quantity by, the loop moves it by altogether. -/
theorem forM_tally {I : σ → Prop} {q : σ → M}
    (hstep : ∀ b ∈ xs, ∀ s s', I s → f b s = .ok ⟨⟩ s' → I s' ∧ q s' = q s + worth b s s') {s s' : σ} (hI : I s)
    (h : xs.forM f s = .ok ⟨⟩ s') : I s' ∧ q s' = q s + tally worth f xs s := by
  induction xs generalizing s with
  | nil =>
    cases h
    exact ⟨hI, (add_zero _).symm⟩
  | cons x xs ih =>
    obtain ⟨⟨⟩, s₁, hx, hxs⟩ := bind_ok_iff.mp h
    obtain ⟨hI₁, hq₁⟩ := hstep x List.mem_cons_self s s₁ hI hx
    obtain ⟨hI', hq'⟩ := ih (fun b hb => hstep b (List.mem_cons_of_mem _ hb)) hI₁ hxs
    refine ⟨hI', ?_⟩
    rw [hq', hq₁, tally_cons worth hx, add_assoc]

theorem tally_eq_zero {cond : β → σ → Prop} (hzero : ∀ b s s', cond b s → f b s = .ok ⟨⟩ s' → worth b s s' = 0)
    {s : σ} (halong : Along cond f xs s) : tally worth f xs s = 0 := by
  induction xs generalizing s with
  | nil => rfl
  | cons x xs ih =>
    unfold tally
    cases hx : f x s with
    | error e s' => rfl
    | ok u s' =>
      dsimp only
      rw [hzero x s s' halong.1 hx, ih (halong.2 s' hx), add_zero]

end Xelis.Lib.Exec
