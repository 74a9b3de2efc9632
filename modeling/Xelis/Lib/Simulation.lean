import Xelis.Lib.Exec

/-! Two runs side by side: programs that fail together or return the same value in related states. -/

namespace Xelis.Lib.Exec

variable {ε ε' σ τ α β γ : Type}

/-- Both outcomes are errors, or both are the same value with related states. -/
inductive Alike (R : σ → τ → Prop) : EStateM.Result ε σ α → EStateM.Result ε' τ α → Prop
  | ok (a : α) {s : σ} {t : τ} (h : R s t) : Alike R (.ok a s) (.ok a t)
  | error (e : ε) (s : σ) (e' : ε') (t : τ) : Alike R (.error e s) (.error e' t)

/-- From states related by `R`, the outcomes are alike and the states left are related by `Q`. -/
def Agree (R : σ → τ → Prop) (x : Exec ε σ α) (y : Exec ε' τ α) (Q : σ → τ → Prop) : Prop :=
  ∀ s t, R s t → Alike Q (x s) (y t)

section Rules

variable {R Q W : σ → τ → Prop}

theorem Agree.pure (a : α) : Agree R (pure a : Exec ε σ α) (pure a : Exec ε' τ α) R := fun _ _ h => .ok a h

theorem Agree.throw (e : ε) (e' : ε') : Agree R (throw e : Exec ε σ α) (throw e' : Exec ε' τ α) Q :=
  fun s t _ => .error e s e' t

theorem Agree.modify {f : σ → σ} {g : τ → τ} (h : ∀ s t, R s t → Q (f s) (g t)) :
    Agree R (modify f : Exec ε σ PUnit) (modify g : Exec ε' τ PUnit) Q := by
  intro s t hst
  rw [modify_apply, modify_apply]
  exact .ok PUnit.unit (h s t hst)

variable {x : Exec ε σ α} {y : Exec ε' τ α} {f : α → Exec ε σ β} {g : α → Exec ε' τ β}

theorem Agree.bind (hx : Agree R x y Q) (hf : ∀ a, Agree Q (f a) (g a) W) : Agree R (x >>= f) (y >>= g) W := by
  intro s t hst
  rw [bind_apply, bind_apply]
  have h := hx s t hst
  generalize x s = r, y t = r' at h
  cases h with
  | ok a h => exact hf a _ _ h
  | error e s' e' t' => exact .error e s' e' t'

/-- Both programs return `a` and leave their states alone. -/
theorem Agree.bind_value {a : α}
    (hx : ∀ s, x s = .ok a s) (hy : ∀ t, y t = .ok a t) (h : Agree R (f a) (g a) Q) : Agree R (x >>= f) (y >>= g) Q := by
  intro s t hst
  rw [bind_apply, bind_apply, hx s, hy t]
  exact h s t hst

theorem Agree.mono {A B : σ → τ → Prop} (h : Agree R x y Q)
    (hpre : ∀ s t, A s t → R s t) (hpost : ∀ s t, Q s t → B s t) : Agree A x y B := by
  intro s t hst
  have h := h s t (hpre s t hst)
  generalize x s = r, y t = r' at h
  cases h with
  | ok a h => exact .ok a (hpost _ _ h)
  | error e s' e' t' => exact .error e s' e' t'

/-- Where one of the programs returns, the other one returns the same value. -/
theorem Agree.of_ok (h : Agree R x y Q) {s s' : σ} {t : τ} (hst : R s t) {a : α}
    (hx : x s = .ok a s') : ∃ t', y t = .ok a t' ∧ Q s' t' := by
  have h := h s t hst
  rw [hx] at h
  generalize y t = r at h
  cases h with
  | ok _ h => exact ⟨_, rfl, h⟩

theorem Agree.adaptExcept {δ δ' : Type} (f : ε → δ) (g : ε' → δ')
    (h : Agree R x y Q) : Agree R (EStateM.adaptExcept f x) (EStateM.adaptExcept g y) Q := by
  intro s t hst
  rw [adaptExcept_apply, adaptExcept_apply]
  have h := h s t hst
  generalize x s = r, y t = r' at h
  cases h with
  | ok a h => exact .ok a h
  | error e s' e' t' => exact .error _ _ _ _

theorem Agree.ofExcept {x : Except ε α} {y : Except ε' α} (h : ∀ a, x = .ok a ↔ y = .ok a) :
    Agree R (ofExcept x : Exec ε σ α) (ofExcept y : Exec ε' τ α) R := by
  intro s t hst
  rw [ofExcept_apply, ofExcept_apply]
  cases x with
  | ok a =>
    rw [(h a).mp rfl]
    exact .ok a hst
  | error e =>
    cases y with
    | ok a => exact nomatch (h a).mpr rfl
    | error e' => exact .error e s e' t

variable {xs : List β}

theorem Agree.foldlM {f : γ → β → Exec ε σ γ} {g : γ → β → Exec ε' τ γ}
    (h : ∀ acc, ∀ b ∈ xs, Agree R (f acc b) (g acc b) R) (acc : γ) : Agree R (xs.foldlM f acc) (xs.foldlM g acc) R := by
  induction xs generalizing acc with
  | nil => exact Agree.pure acc
  | cons b bs ih =>
    rw [List.foldlM_cons, List.foldlM_cons]
    exact (h acc b List.mem_cons_self).bind fun acc' => ih (fun acc c hc => h acc c (List.mem_cons_of_mem _ hc)) acc'

theorem Agree.foldlM_done {D : List β → σ → τ → Prop} {f : γ → β → Exec ε σ γ} {g : γ → β → Exec ε' τ γ}
    (h : ∀ done, ∀ b ∈ xs, ∀ acc, Agree (D done) (f acc b) (g acc b) (D (done ++ [b]))) (done : List β) (acc : γ) :
    Agree (D done) (xs.foldlM f acc) (xs.foldlM g acc) (D (done ++ xs)) := by
  induction xs generalizing done acc with
  | nil =>
    rw [List.append_nil]
    exact Agree.pure acc
  | cons b bs ih =>
    rw [List.foldlM_cons, List.foldlM_cons]
    refine (h done b List.mem_cons_self acc).bind fun acc' => ?_
    have hrest := ih (fun done c hc => h done c (List.mem_cons_of_mem _ hc)) (done ++ [b]) acc'
    rwa [List.append_assoc, List.singleton_append] at hrest

theorem Agree.forM {f : β → Exec ε σ PUnit} {g : β → Exec ε' τ PUnit}
    (h : ∀ b ∈ xs, Agree R (f b) (g b) R) : Agree R (xs.forM f) (xs.forM g) R := by
  induction xs with
  | nil => exact Agree.pure _
  | cons b bs ih =>
    exact (h b List.mem_cons_self).bind fun _ => ih fun c hc => h c (List.mem_cons_of_mem _ hc)

theorem Agree.mapM {f : β → Exec ε σ α} {g : β → Exec ε' τ α} (h : ∀ b ∈ xs, Agree R (f b) (g b) R) :
    Agree R (xs.mapM f) (xs.mapM g) R := by
  induction xs with
  | nil => exact Agree.pure _
  | cons b bs ih =>
    rw [List.mapM_cons, List.mapM_cons]
    refine (h b List.mem_cons_self).bind fun a => ?_
    exact (ih fun c hc => h c (List.mem_cons_of_mem _ hc)).bind fun as => Agree.pure _

end Rules

end Xelis.Lib.Exec
