import Mathlib.Data.Option.Basic

/-!
# Runs of a step system

A system takes events: `step s a` is the state that the event `a` leads to from `s`, or
`none` when `a` cannot happen there. Events carry what the environment chooses (the
answer of a system call, which party moves), so that all interleavings are lists of
events.

## What is proved

* `steps_append`, `meets_append` — one run after another.
* `steps_inv` — what every step preserves, every run preserves.
* `steps_inv_of_meets` — what every step that meets a condition preserves, every run
  whose steps all meet it preserves.
* `steps_inv_history` — so with an invariant that speaks of the events that were, too.
* `steps_lockstep` — two systems that take the same steps, as far as can be seen of them,
  take the same runs.
-/

namespace Cop.Theory

universe u v

variable {σ : Type u} {α : Type v}

/-- The events of the list, one after the other. -/
def steps (step : σ → α → Option σ) : List α → σ → Option σ
  | [], s => some s
  | a :: as, s => (step s a).bind (steps step as)

/-- Every event of the run meets the condition in the state it happens in. -/
def Meets (step : σ → α → Option σ) (C : σ → α → Prop) : List α → σ → Prop
  | [], _ => True
  | a :: as, s => C s a ∧
    match step s a with
    | some t => Meets step C as t
    | none => True

variable {step : σ → α → Option σ} {C : σ → α → Prop} {I : σ → Prop}

theorem steps_cons {a : α} {as : List α} {s u : σ} :
    steps step (a :: as) s = some u ↔ ∃ t, step s a = some t ∧ steps step as t = some u :=
  Option.bind_eq_some_iff

theorem meets_cons {a : α} {as : List α} {s : σ} :
    Meets step C (a :: as) s ↔ C s a ∧ ∀ t, step s a = some t → Meets step C as t := by
  rw [Meets]
  cases step s a with
  | none => simp
  | some t => simp

theorem meets_and {D : σ → α → Prop} {as : List α} {s : σ} :
    Meets step (fun s a => C s a ∧ D s a) as s ↔ Meets step C as s ∧ Meets step D as s := by
  induction as generalizing s with
  | nil => exact ⟨fun _ => ⟨trivial, trivial⟩, fun _ => trivial⟩
  | cons a as ih =>
    simp only [meets_cons, ih]
    constructor
    · rintro ⟨⟨hC, hD⟩, h⟩
      exact ⟨⟨hC, fun t ht => (h t ht).1⟩, hD, fun t ht => (h t ht).2⟩
    · rintro ⟨⟨hC, h⟩, hD, h'⟩
      exact ⟨⟨hC, hD⟩, fun t ht => ⟨h t ht, h' t ht⟩⟩

/-- **The invariant rule**, for runs whose steps all meet a condition. -/
theorem steps_inv_of_meets (hstep : ∀ s a t, I s → C s a → step s a = some t → I t) {as : List α} {s t : σ}
    (hs : I s) (hC : Meets step C as s) (h : steps step as s = some t) : I t := by
  induction as generalizing s with
  | nil =>
    cases h
    exact hs
  | cons a as ih =>
    obtain ⟨u, ha, has⟩ := steps_cons.1 h
    obtain ⟨hCa, hCas⟩ := meets_cons.1 hC
    exact ih (hstep s a u hs hCa ha) (hCas u ha) has

/-- **The invariant rule with a history**: the invariant speaks of the events up to a state, and of the state. -/
theorem steps_inv_history {H : List α → σ → Prop}
    (hstep : ∀ as s a t, H as s → C s a → step s a = some t → H (as ++ [a]) t) {as : List α} {s t : σ}
    (hs : H [] s) (hC : Meets step C as s) (h : steps step as s = some t) : H as t := by
  suffices hgen : ∀ bs, H bs s → H (bs ++ as) t from hgen [] hs
  clear hs
  induction as generalizing s with
  | nil =>
    cases h
    intro bs hbs
    rwa [List.append_nil]
  | cons a as ih =>
    intro bs hbs
    obtain ⟨u, ha, has⟩ := steps_cons.1 h
    obtain ⟨hCa, hCas⟩ := meets_cons.1 hC
    have hu := ih (hCas u ha) has (bs ++ [a]) (hstep bs s a u hbs hCa ha)
    rwa [List.append_assoc] at hu

theorem steps_append {as bs : List α} {s u : σ} :
    steps step (as ++ bs) s = some u ↔ ∃ t, steps step as s = some t ∧ steps step bs t = some u := by
  induction as generalizing s with
  | nil => simp [steps]
  | cons a as ih =>
    rw [List.cons_append, steps_cons]
    constructor
    · rintro ⟨t, ha, has⟩
      obtain ⟨v, hv, hbs⟩ := ih.1 has
      exact ⟨v, steps_cons.2 ⟨t, ha, hv⟩, hbs⟩
    · rintro ⟨v, hv, hbs⟩
      obtain ⟨t, ha, has⟩ := steps_cons.1 hv
      exact ⟨t, ha, ih.2 ⟨v, has, hbs⟩⟩

theorem meets_append {as bs : List α} {s : σ} :
    Meets step C (as ++ bs) s ↔ Meets step C as s ∧ ∀ t, steps step as s = some t → Meets step C bs t := by
  induction as generalizing s with
  | nil => simp [Meets, steps]
  | cons a as ih =>
    rw [List.cons_append, meets_cons, meets_cons]
    constructor
    · rintro ⟨hC, h⟩
      refine ⟨⟨hC, fun t ht => (ih.1 (h t ht)).1⟩, fun u hu => ?_⟩
      obtain ⟨t, ht, has⟩ := steps_cons.1 hu
      exact (ih.1 (h t ht)).2 u has
    · rintro ⟨⟨hC, h⟩, hbs⟩
      exact ⟨hC, fun t ht => ih.2 ⟨h t ht, fun u hu => hbs u (steps_cons.2 ⟨t, ht, hu⟩)⟩⟩

theorem meets_true (as : List α) (s : σ) : Meets step (fun _ _ => True) as s := by
  induction as generalizing s with
  | nil => trivial
  | cons a as ih => exact meets_cons.2 ⟨trivial, fun t _ => ih t⟩

/-- **The invariant rule.** -/
theorem steps_inv (hstep : ∀ s a t, I s → step s a = some t → I t) {as : List α} {s t : σ} (hs : I s)
    (h : steps step as s = some t) : I t :=
  steps_inv_of_meets (fun s a t hs _ => hstep s a t hs) hs (meets_true as s) h

/-- **The rule of lockstep.** Of two systems `f` and `g` can be seen. Where every step that meets the condition looks the
same, and keeps an invariant of the pair, so does every run whose steps all meet it. -/
theorem steps_lockstep {τ : Type u} {ρ : Type u} {step' : τ → α → Option τ} {f : σ → ρ} {g : τ → ρ} {R : σ → τ → Prop}
    (hlook : ∀ s t, R s t → f s = g t)
    (hstep : ∀ s t a, R s t → C s a → (step s a = none ∧ step' t a = none) ∨
      ∃ s' t', step s a = some s' ∧ step' t a = some t' ∧ R s' t') {as : List α} {s : σ} {t : τ} (hR : R s t)
    (hC : Meets step C as s) : (steps step as s).map f = (steps step' as t).map g := by
  induction as generalizing s t with
  | nil => exact congrArg some (hlook s t hR)
  | cons a as ih =>
    obtain ⟨hCa, hCas⟩ := meets_cons.1 hC
    rw [steps, steps]
    obtain ⟨hs, ht⟩ | ⟨s', t', hs, ht, hR'⟩ := hstep s t a hR hCa
    · rw [hs, ht]
      rfl
    · rw [hs, ht]
      exact ih hR' (hCas s' hs)

end Cop.Theory
