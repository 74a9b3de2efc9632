import Mathlib.Order.Basic

/-! Fallible programs over a state that is kept when they fail, with rules for both outcomes. -/

namespace Xelis.Lib

/-- A program that returns a value or an error and leaves a state in both cases. -/
abbrev Exec (ε σ α : Type) := EStateM ε σ α

variable {κ γ : Type}

namespace Exec

variable {ε ε' σ α β : Type}

/-- A pure computation that may fail, run against any state. -/
def ofExcept (x : Except ε α) : Exec ε σ α :=
  match x with
  | .ok a => pure a
  | .error e => throw e

/-- The state left behind, whatever the outcome. -/
def stateOf : EStateM.Result ε σ α → σ
  | .ok _ s => s
  | .error _ s => s

theorem bind_apply (x : Exec ε σ α) (f : α → Exec ε σ β) (s : σ) :
    (x >>= f) s = match x s with
      | .ok a s' => f a s'
      | .error e s' => .error e s' := by
  show EStateM.bind x f s = _
  unfold EStateM.bind
  cases x s <;> rfl

theorem pure_apply (a : α) (s : σ) : (pure a : Exec ε σ α) s = .ok a s := rfl

theorem throw_apply (e : ε) (s : σ) : (throw e : Exec ε σ α) s = .error e s := rfl

theorem get_apply (s : σ) : (get : Exec ε σ σ) s = .ok s s := rfl

theorem set_apply (s s' : σ) : (set s' : Exec ε σ PUnit) s = .ok ⟨⟩ s' := rfl

theorem modify_apply (f : σ → σ) (s : σ) : (modify f : Exec ε σ PUnit) s = .ok ⟨⟩ (f s) := rfl

theorem modifyGet_apply (f : σ → α × σ) (s : σ) : (modifyGet f : Exec ε σ α) s = .ok (f s).1 (f s).2 := rfl

theorem ofExcept_apply (x : Except ε α) (s : σ) :
    (ofExcept x : Exec ε σ α) s = match x with
      | .ok a => .ok a s
      | .error e => .error e s := by
  cases x <;> rfl

theorem adaptExcept_apply (f : ε → ε') (x : Exec ε σ α) (s : σ) :
    (EStateM.adaptExcept f x) s = match x s with
      | .ok a s' => .ok a s'
      | .error e s' => .error (f e) s' := by
  unfold EStateM.adaptExcept
  cases x s <;> rfl

variable {s s'' s' : σ} {b : β}

/-- A bind that succeeds went through its first program. -/
theorem bind_ok_iff {x : Exec ε σ α} {f : α → Exec ε σ β} :
    (x >>= f) s = .ok b s'' ↔ ∃ a s', x s = .ok a s' ∧ f a s' = .ok b s'' := by
  rw [bind_apply]
  cases x s with
  | ok a s' => simp [and_assoc]
  | error e s' => simp

/-- A bind fails in its first program, or in the second one run on what the first left. -/
theorem bind_error_iff {x : Exec ε σ α} {f : α → Exec ε σ β} {e : ε} :
    (x >>= f) s = .error e s'' ↔
      x s = .error e s'' ∨ ∃ a s', x s = .ok a s' ∧ f a s' = .error e s'' := by
  rw [bind_apply]
  cases x s with
  | ok a s' => simp [and_assoc]
  | error e s' => simp

variable {x : Except ε α}

/-- Without a state: what succeeds went through its first part. -/
theorem except_bind_ok {f : α → Except ε β} (h : (x >>= f) = .ok b) : ∃ a, x = .ok a ∧ f a = .ok b := by
  cases x with
  | error e => cases h
  | ok a => exact ⟨a, rfl, h⟩

theorem except_bind_ok_iff {f : α → Except ε β} : (x >>= f) = .ok b ↔ ∃ a, x = .ok a ∧ f a = .ok b :=
  ⟨except_bind_ok, fun ⟨_, ha, hb⟩ => by rw [ha]; exact hb⟩

theorem except_bind_error_iff {f : α → Except ε β} {e : ε} :
    (x >>= f) = .error e ↔ x = .error e ∨ ∃ a, x = .ok a ∧ f a = .error e := by
  cases x with
  | error e' =>
    show Except.error e' = Except.error e ↔ _
    simp
  | ok a =>
    show f a = Except.error e ↔ _
    simp

/-- A second program that leaves every state alone leaves the one of the first. -/
theorem stateOf_bind_still (x : Exec ε σ α) {f : α → Exec ε σ β} (hf : ∀ a s, stateOf (f a s) = s) (s : σ) :
    stateOf ((x >>= f) s) = stateOf (x s) := by
  rw [bind_apply]
  cases x s with
  | ok a s' => exact hf a s'
  | error e s' => rfl

/-- A loop that fails did some turns and failed in the next one. -/
theorem forM_error (xs : List β) (f : β → Exec ε σ PUnit) {e : ε} (h : xs.forM f s = .error e s') :
    ∃ done x rest s₁, xs = done ++ x :: rest ∧ done.forM f s = .ok ⟨⟩ s₁ ∧ f x s₁ = .error e s' := by
  induction xs generalizing s with
  | nil => cases h
  | cons x xs ih =>
    rcases bind_error_iff.mp h with hx | ⟨⟨⟩, s₁, hx, hxs⟩
    · exact ⟨[], x, xs, s, rfl, rfl, hx⟩
    · obtain ⟨done, y, rest, s₂, rfl, hdone, hy⟩ := ih hxs
      exact ⟨x :: done, y, rest, s₂, rfl, bind_ok_iff.mpr ⟨⟨⟩, s₁, hx, hdone⟩, hy⟩

variable {xs : List β} {f : β → Exec ε σ PUnit}

/-- A loop that succeeds did so for each of its elements. -/
theorem forM_ok_mem (h : xs.forM f s = .ok ⟨⟩ s') (hb : b ∈ xs) : ∃ s₁ s₂, f b s₁ = .ok ⟨⟩ s₂ := by
  induction xs generalizing s with
  | nil => cases hb
  | cons x xs ih =>
    obtain ⟨⟨⟩, s₁, hx, hxs⟩ := bind_ok_iff.mp h
    rcases List.mem_cons.mp hb with rfl | hb
    · exact ⟨s, s₁, hx⟩
    · exact ih hxs hb

/-- Every turn of a loop starts in a state where `cond` holds. -/
def Along (cond : β → σ → Prop) (f : β → Exec ε σ PUnit) : List β → σ → Prop
  | [], _ => True
  | b :: bs, s => cond b s ∧ ∀ s', f b s = .ok ⟨⟩ s' → Along cond f bs s'

variable {cond cond' : β → σ → Prop}

theorem Along.mono (h : ∀ b s, cond b s → cond' b s) (halong : Along cond f xs s) : Along cond' f xs s := by
  induction xs generalizing s with
  | nil => exact trivial
  | cons x xs ih => exact ⟨h x s halong.1, fun s' hs' => ih (halong.2 s' hs')⟩

variable {I Q R : σ → Prop}

/-- What every turn that meets the condition keeps, a loop whose turns all meet it keeps. -/
theorem forM_along (hstep : ∀ b s s', cond b s → I s → f b s = .ok ⟨⟩ s' → I s')
    (halong : Along cond f xs s) (hinv : I s) (h : xs.forM f s = .ok ⟨⟩ s') : I s' := by
  induction xs generalizing s with
  | nil =>
    cases h
    exact hinv
  | cons x xs ih =>
    obtain ⟨⟨⟩, s₁, hx, hxs⟩ := bind_ok_iff.mp h
    exact ih (halong.2 s₁ hx) (hstep x s s₁ halong.1 hinv hx) hxs

theorem forM_keeps (hstep : ∀ b ∈ xs, ∀ s s', I s → f b s = .ok ⟨⟩ s' → I s') (hinv : I s)
    (h : xs.forM f s = .ok ⟨⟩ s') : I s' := by
  induction xs generalizing s with
  | nil =>
    cases h
    exact hinv
  | cons x xs ih =>
    obtain ⟨⟨⟩, s₁, hx, hxs⟩ := bind_ok_iff.mp h
    exact ih (fun b hb => hstep b (List.mem_cons_of_mem _ hb)) (hstep x List.mem_cons_self s s₁ hinv hx) hxs

theorem Along.of_keeps (hcond : ∀ b s, I s → cond b s) (hstep : ∀ b s s', I s → f b s = .ok ⟨⟩ s' → I s') (hinv : I s) :
    Along cond f xs s := by
  induction xs generalizing s with
  | nil => exact trivial
  | cons x xs ih => exact ⟨hcond x s hinv, fun s' hs' => ih (hstep x s s' hinv hs')⟩

/-- A loop over distinct keys does for one of them what its turn does, when the other turns leave it alone. -/
theorem forM_once {k : β → κ} (hb : b ∈ xs)
    (hkeys : xs.Pairwise (fun b c => k b ≠ k c)) (hturn : ∀ s s', Q s → f b s = .ok ⟨⟩ s' → R s')
    (hbefore : ∀ c ∈ xs, k b ≠ k c → ∀ s s', Q s → f c s = .ok ⟨⟩ s' → Q s')
    (hafter : ∀ c ∈ xs, k b ≠ k c → ∀ s s', R s → f c s = .ok ⟨⟩ s' → R s') (hQ : Q s)
    (h : xs.forM f s = .ok ⟨⟩ s') : R s' := by
  induction xs generalizing s with
  | nil => exact (List.not_mem_nil hb).elim
  | cons x xs ih =>
    obtain ⟨hx, hxs⟩ := List.pairwise_cons.mp hkeys
    obtain ⟨⟨⟩, s₁, hturnx, hrest⟩ := bind_ok_iff.mp h
    rcases List.mem_cons.mp hb with rfl | hb
    · refine forM_keeps (fun c hc s₂ s₃ => ?_) (hturn s s₁ hQ hturnx) hrest
      exact hafter c (List.mem_cons_of_mem _ hc) (hx c hc) s₂ s₃
    · refine ih hb hxs (fun c hc => hbefore c (List.mem_cons_of_mem _ hc)) (fun c hc => hafter c (List.mem_cons_of_mem _ hc))
        ?_ hrest
      exact hbefore x List.mem_cons_self (hx b hb).symm s s₁ hQ hturnx

/-- A loop over distinct keys does for each key what its turn does, when the other turns leave it alone. -/
theorem forM_each {k : β → κ} {Q R : β → σ → Prop} (hturn : ∀ b s s', Q b s → f b s = .ok ⟨⟩ s' → R b s')
    (hbefore : ∀ b c s s', k b ≠ k c → Q b s → f c s = .ok ⟨⟩ s' → Q b s')
    (hafter : ∀ b c s s', k b ≠ k c → R b s → f c s = .ok ⟨⟩ s' → R b s')
    (hkeys : xs.Pairwise (fun b c => k b ≠ k c)) (hQ : ∀ b ∈ xs, Q b s) (h : xs.forM f s = .ok ⟨⟩ s') : ∀ b ∈ xs, R b s' := fun b hb =>
  forM_once hb hkeys (hturn b) (fun c _ hne s₁ s₂ => hbefore b c s₁ s₂ hne) (fun c _ hne s₁ s₂ => hafter b c s₁ s₂ hne)
    (hQ b hb) h

/-- Whatever the outcome, the state moves along `R`. -/
def Moves (R : σ → σ → Prop) (x : Exec ε σ α) : Prop := ∀ s, R s (stateOf (x s))

section Moves

variable {R : σ → σ → Prop}
variable {x : Exec ε σ α}

/-- Where a program that moves along a relation leads when it succeeds. -/
theorem Moves.of_ok (h : Moves R x) {s s' : σ} {a : α} (hok : x s = .ok a s') : R s s' := by
  have hs := h s
  rw [hok] at hs
  exact hs

variable {f : α → Exec ε σ β}

/-- The second program has to move along `R` from where the first one ends only. -/
theorem moves_bind_of_ok (htrans : ∀ a b c, R a b → R b c → R a c) {s : σ}
    (hx : R s (stateOf (x s))) (hf : ∀ a s', x s = .ok a s' → R s' (stateOf (f a s'))) : R s (stateOf ((x >>= f) s)) := by
  rw [bind_apply]
  cases hxs : x s with
  | ok a s' =>
    rw [hxs] at hx
    exact htrans _ _ _ hx (hf a s' hxs)
  | error e s' =>
    rw [hxs] at hx
    exact hx

theorem Moves.bind (htrans : ∀ a b c, R a b → R b c → R a c)
    (hx : Moves R x) (hf : ∀ a, Moves R (f a)) : Moves R (x >>= f) :=
  fun s => moves_bind_of_ok htrans (hx s) fun a s' _ => hf a s'

theorem Moves.tryCatch (htrans : ∀ a b c, R a b → R b c → R a c) {f : ε → Exec ε σ α}
    (hx : Moves R x) (hf : ∀ e, Moves R (f e)) : Moves R (tryCatch x f) := by
  intro s
  have h := hx s
  show R s (stateOf (EStateM.tryCatch x f s))
  unfold EStateM.tryCatch
  cases hxs : x s with
  | ok a s' =>
    rw [hxs] at h
    exact h
  | error e s' =>
    rw [hxs] at h
    exact htrans _ _ _ h (hf e s')

theorem Moves.mapM (hrefl : ∀ a, R a a) (htrans : ∀ a b c, R a b → R b c → R a c) (xs : List β) {f : β → Exec ε σ α}
    (h : ∀ b ∈ xs, Moves R (f b)) : Moves R (xs.mapM f) := by
  induction xs with
  | nil => exact fun s => hrefl s
  | cons b bs ih =>
    rw [List.mapM_cons]
    refine (h b List.mem_cons_self).bind htrans fun _ => ?_
    exact (ih fun c hc => h c (List.mem_cons_of_mem _ hc)).bind htrans fun _ s => hrefl s

theorem Moves.forM (hrefl : ∀ a, R a a) (htrans : ∀ a b c, R a b → R b c → R a c) (xs : List β)
    {f : β → Exec ε σ PUnit} (h : ∀ b ∈ xs, Moves R (f b)) : Moves R (xs.forM f) := by
  induction xs with
  | nil => exact fun s => hrefl s
  | cons b bs ih =>
    exact (h b List.mem_cons_self).bind htrans fun _ => ih fun c hc => h c (List.mem_cons_of_mem _ hc)

theorem Moves.filterM (hrefl : ∀ a, R a a) (htrans : ∀ a b c, R a b → R b c → R a c) (xs : List β) {f : β → Exec ε σ Bool}
    (h : ∀ b ∈ xs, Moves R (f b)) : Moves R (xs.filterM f) := by
  have haux : ∀ acc, Moves R (xs.filterAuxM f acc) := by
    induction xs with
    | nil => exact fun _ s => hrefl s
    | cons b bs ih =>
      intro acc
      exact (h b List.mem_cons_self).bind htrans fun kept => ih (fun c hc => h c (List.mem_cons_of_mem _ hc)) _
  exact (haux []).bind htrans fun _ s => hrefl s

theorem Moves.foldlM (hrefl : ∀ a, R a a) (htrans : ∀ a b c, R a b → R b c → R a c) (xs : List β)
    {f : γ → β → Exec ε σ γ} (h : ∀ acc, ∀ b ∈ xs, Moves R (f acc b)) (acc : γ) : Moves R (xs.foldlM f acc) := by
  induction xs generalizing acc with
  | nil => exact fun s => hrefl s
  | cons b bs ih =>
    rw [List.foldlM_cons]
    exact (h acc b List.mem_cons_self).bind htrans fun acc' => ih (fun a c hc => h a c (List.mem_cons_of_mem _ hc)) acc'

end Moves

end Exec

end Xelis.Lib
