import Xelis.Lib.Exec
import Xelis.Lib.FiniteMap

/-! Loops over the entries of a finite map, seen key by key. -/

namespace Xelis.Lib.Exec

variable {ε σ α K W : Type} [Ord K] [Std.TransOrd K] [Std.LawfulEqOrd K]

/-- What a loop over a map does at one key: its turn, when the key is in the map, and nothing otherwise. The turn
starts with the view of its key that the loop started with, since the other turns leave it alone, and with what `I`
says of the rest of the state. -/
theorem forM_toList {I : σ → Prop} {v : σ → α} {R : W → α → Prop} {f : K × W → Exec ε σ PUnit} {k : K}
    {ws : FiniteMap K W} {s s' : σ} (hinv : I s) (hstep : ∀ e s₁ s₂, I s₁ → f e s₁ = .ok ⟨⟩ s₂ → I s₂)
    (hturn : ∀ w s₁ s₂, ws[k]? = some w → I s₁ → v s₁ = v s → f (k, w) s₁ = .ok ⟨⟩ s₂ → R w (v s₂))
    (hother : ∀ e s₁ s₂, e.1 ≠ k → I s₁ → f e s₁ = .ok ⟨⟩ s₂ → v s₂ = v s₁)
    (h : ws.toList.forM f s = .ok ⟨⟩ s') :
    match ws[k]? with
    | none => v s' = v s
    | some w => R w (v s') := by
  cases hentry : ws[k]? with
  | none =>
    refine (forM_keeps (I := fun s₁ => I s₁ ∧ v s₁ = v s) ?_ ⟨hinv, rfl⟩ h).2
    intro e he s₁ s₂ hs₁ hturn
    have hne : e.1 ≠ k := by
      rintro rfl
      rw [Std.ExtTreeMap.mem_toList_iff_getElem?_eq_some.mp he] at hentry
      cases hentry
    exact ⟨hstep e s₁ s₂ hs₁.1 hturn, (hother e s₁ s₂ hne hs₁.1 hturn).trans hs₁.2⟩
  | some w =>
    have hmem : (k, w) ∈ ws.toList := Std.ExtTreeMap.mem_toList_iff_getElem?_eq_some.mpr hentry
    refine (forM_each (k := Prod.fst) (Q := fun e s₁ => e = (k, w) → I s₁ ∧ v s₁ = v s)
      (R := fun e s₁ => e = (k, w) → I s₁ ∧ R w (v s₁)) ?_ ?_ ?_ (FiniteMap.toList_keys_distinct ws)
      (fun _ _ _ => ⟨hinv, rfl⟩) h (k, w) hmem rfl).2
    · rintro e s₁ s₂ hbefore hf rfl
      obtain ⟨hs₁, hview⟩ := hbefore rfl
      exact ⟨hstep _ s₁ s₂ hs₁ hf, hturn w s₁ s₂ hentry hs₁ hview hf⟩
    · rintro e c s₁ s₂ hne hbefore hf rfl
      obtain ⟨hs₁, hview⟩ := hbefore rfl
      exact ⟨hstep c s₁ s₂ hs₁ hf, (hother c s₁ s₂ hne.symm hs₁ hf).trans hview⟩
    · rintro e c s₁ s₂ hne hafter hf rfl
      obtain ⟨hs₁, hview⟩ := hafter rfl
      refine ⟨hstep c s₁ s₂ hs₁ hf, ?_⟩
      rw [hother c s₁ s₂ hne.symm hs₁ hf]
      exact hview

end Xelis.Lib.Exec

namespace Xelis.Lib.FiniteMap

variable {ε σ α K W : Type} {f : σ → K × W → Except ε σ} {v : K → σ → α}
variable {s s' : σ}

theorem foldlM_cons_ok {β : Type} {g : σ → β → Except ε σ} {x : β} {xs : List β} :
    (x :: xs).foldlM g s = .ok s' ↔ ∃ s₁, g s x = .ok s₁ ∧ xs.foldlM g s₁ = .ok s' := by
  rw [List.foldlM_cons]
  cases hx : g s x with
  | ok s₁ => exact ⟨fun h => ⟨s₁, rfl, h⟩, fun ⟨_, hs, h⟩ => by cases hs; exact h⟩
  | error e => exact ⟨nofun, nofun⟩

variable {k : K} {es : List (K × W)}

/-- Keys that are not in the list keep their view. -/
private theorem foldlM_absent (hother : ∀ s e s', f s e = .ok s' → ∀ k, k ≠ e.1 → v k s' = v k s)
    (hk : ∀ e ∈ es, e.1 ≠ k) (h : es.foldlM f s = .ok s') : v k s' = v k s := by
  induction es generalizing s with
  | nil =>
    cases h
    rfl
  | cons e es ih =>
    obtain ⟨s₁, he, hes⟩ := foldlM_cons_ok.mp h
    rw [ih (fun d hd => hk d (List.mem_cons_of_mem _ hd)) hes]
    exact hother s e s₁ he k (hk e List.mem_cons_self).symm

private theorem foldlM_present (hother : ∀ s e s', f s e = .ok s' → ∀ k, k ≠ e.1 → v k s' = v k s) {w : W}
    (hd : es.Pairwise (fun a b => a.1 ≠ b.1)) (hk : (k, w) ∈ es) (h : es.foldlM f s = .ok s') :
    ∃ s₁ s₂, v k s₁ = v k s ∧ f s₁ (k, w) = .ok s₂ ∧ v k s' = v k s₂ := by
  induction es generalizing s with
  | nil => cases hk
  | cons e es ih =>
    obtain ⟨hne, hd⟩ := List.pairwise_cons.mp hd
    obtain ⟨s₁, he, hes⟩ := foldlM_cons_ok.mp h
    rcases List.mem_cons.mp hk with rfl | hmem
    · exact ⟨s, s₁, rfl, he, foldlM_absent hother (fun d hd => (hne d hd).symm) hes⟩
    · obtain ⟨s₂, s₃, hbefore, hturn, hafter⟩ := ih hd hmem hes
      exact ⟨s₂, s₃, hbefore.trans (hother s e s₁ he k (hne (k, w) hmem).symm), hturn, hafter⟩

private theorem foldlM_succeeds (hother : ∀ s e s', f s e = .ok s' → ∀ k, k ≠ e.1 → v k s' = v k s)
    (hd : es.Pairwise (fun a b => a.1 ≠ b.1))
    (hturn : ∀ e ∈ es, ∀ s₁, v e.1 s₁ = v e.1 s → ∃ s₂, f s₁ e = .ok s₂) : ∃ s', es.foldlM f s = .ok s' := by
  induction es generalizing s with
  | nil => exact ⟨s, rfl⟩
  | cons e es ih =>
    obtain ⟨hne, hd⟩ := List.pairwise_cons.mp hd
    obtain ⟨s₁, he⟩ := hturn e List.mem_cons_self s rfl
    have hrest : ∀ d ∈ es, ∀ s₂, v d.1 s₂ = v d.1 s₁ → ∃ s₃, f s₂ d = .ok s₃ := by
      intro d hd s₂ hs₂
      refine hturn d (List.mem_cons_of_mem _ hd) s₂ (hs₂.trans ?_)
      exact hother s e s₁ he d.1 (hne d hd).symm
    obtain ⟨s', hs'⟩ := ih hd hrest
    exact ⟨s', foldlM_cons_ok.mpr ⟨s₁, he, hs'⟩⟩

variable [Ord K] [Std.TransOrd K] [Std.LawfulEqOrd K]
variable {m : FiniteMap K W}

theorem foldlM_toList_turn (hother : ∀ s e s', f s e = .ok s' → ∀ k, k ≠ e.1 → v k s' = v k s)
    (h : m.toList.foldlM f s = .ok s') {w : W} (hk : m[k]? = some w) :
    ∃ s₁ s₂, v k s₁ = v k s ∧ f s₁ (k, w) = .ok s₂ ∧ v k s' = v k s₂ :=
  foldlM_present hother (toList_keys_distinct m) (Std.ExtTreeMap.mem_toList_iff_getElem?_eq_some.mpr hk) h

theorem foldlM_toList_other (hother : ∀ s e s', f s e = .ok s' → ∀ k, k ≠ e.1 → v k s' = v k s)
    (h : m.toList.foldlM f s = .ok s') (hk : m[k]? = none) : v k s' = v k s := by
  refine foldlM_absent hother ?_ h
  rintro ⟨k', w⟩ he rfl
  rw [Std.ExtTreeMap.mem_toList_iff_getElem?_eq_some, hk] at he
  cases he

theorem foldlM_toList_succeeds (hother : ∀ s e s', f s e = .ok s' → ∀ k, k ≠ e.1 → v k s' = v k s)
    (hturn : ∀ k w, m[k]? = some w → ∀ s₁, v k s₁ = v k s → ∃ s₂, f s₁ (k, w) = .ok s₂) :
    ∃ s', m.toList.foldlM f s = .ok s' := by
  refine foldlM_succeeds hother (toList_keys_distinct m) ?_
  rintro ⟨k, w⟩ he
  exact hturn k w (Std.ExtTreeMap.mem_toList_iff_getElem?_eq_some.mp he)

end Xelis.Lib.FiniteMap
