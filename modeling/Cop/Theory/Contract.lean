import Cop.Theory.Exec

/-!
# Components and their contracts

A component takes calls: from a state and a call it gives an answer and a new
state, or stops. Its contract says the same of an abstract state, and what the
caller owes: which calls are legal, what state each leads to, and which answers are
right. A component refines its contract when every legal sequence of calls is
answered, call by call, as the contract allows.

## What is proved

* `Contract.legalRun_append`, `Contract.allowsRun_append` — one sequence of calls after another.
* `run_refines` — a relation between abstract and concrete states that every legal
  call preserves, with an allowed answer, gives refinement over runs of any length. The
  relation may count the calls made, up to a limit (the fuel of the calls, say).
-/

namespace Cop.Theory

universe u v w x

/-- What a component promises, and what its callers owe. -/
structure Contract (Δ : Type u) (ι : Type v) (ο : Type w) where
  /-- The caller may make this call. -/
  Legal : Δ → ι → Prop
  /-- The state the call leads to. -/
  next : Δ → ι → Δ
  /-- This is a right answer to the call. -/
  Allows : Δ → ι → ο → Prop

namespace Contract

variable {Δ : Type u} {ι : Type v} {ο : Type w} (C : Contract Δ ι ο)

/-- Every call of the sequence is legal where it is made. -/
def LegalRun : Δ → List ι → Prop
  | _, [] => True
  | D, c :: cs => C.Legal D c ∧ LegalRun (C.next D c) cs

/-- Every call of the sequence has a right answer, and there are no other answers. -/
def AllowsRun : Δ → List ι → List ο → Prop
  | _, [], os => os = []
  | D, c :: cs, os => ∃ o os', os = o :: os' ∧ C.Allows D c o ∧ AllowsRun (C.next D c) cs os'

/-- The state a sequence of calls leads to. -/
def nextRun (D : Δ) (cs : List ι) : Δ := cs.foldl C.next D

theorem legalRun_append {D : Δ} {cs ds : List ι} :
    C.LegalRun D (cs ++ ds) ↔ C.LegalRun D cs ∧ C.LegalRun (C.nextRun D cs) ds := by
  induction cs generalizing D with
  | nil => exact ⟨fun h => ⟨trivial, h⟩, fun h => h.2⟩
  | cons c cs ih =>
    constructor
    · rintro ⟨hc, hrest⟩
      obtain ⟨hcs, hds⟩ := ih.1 hrest
      exact ⟨⟨hc, hcs⟩, hds⟩
    · rintro ⟨⟨hc, hcs⟩, hds⟩
      exact ⟨hc, ih.2 ⟨hcs, hds⟩⟩

theorem allowsRun_append {D : Δ} {cs ds : List ι} {os : List ο} :
    C.AllowsRun D (cs ++ ds) os ↔
      ∃ os' os'', os = os' ++ os'' ∧ C.AllowsRun D cs os' ∧ C.AllowsRun (C.nextRun D cs) ds os'' := by
  induction cs generalizing D os with
  | nil =>
    constructor
    · intro h
      exact ⟨[], os, rfl, rfl, h⟩
    · rintro ⟨_, _, rfl, rfl, h⟩
      exact h
  | cons c cs ih =>
    constructor
    · rintro ⟨o, _, rfl, ho, hrest⟩
      obtain ⟨os', os'', rfl, hcs, hds⟩ := ih.1 hrest
      exact ⟨o :: os', os'', rfl, ⟨o, os', rfl, ho, hcs⟩, hds⟩
    · rintro ⟨_, os'', rfl, ⟨o, os', rfl, ho, hcs⟩, hds⟩
      exact ⟨o, os' ++ os'', rfl, ho, ih.2 ⟨os', os'', rfl, hcs, hds⟩⟩

end Contract

section Runs

variable {ε : Type u} {σ ι ο : Type v}

/-- Make the calls one after the other. -/
def run (step : σ → ι → Exec ε (ο × σ)) : σ → List ι → Exec ε (List ο × σ)
  | s, [] => .ok ([], s)
  | s, c :: cs => do
    let (o, s) ← step s c
    let (os, s) ← run step s cs
    return (o :: os, s)

theorem run_cons {step : σ → ι → Exec ε (ο × σ)} {s s' s'' : σ} {c : ι} {cs : List ι} {o : ο} {os : List ο}
    (h : step s c = .ok (o, s')) (hs : run step s' cs = .ok (os, s'')) :
    run step s (c :: cs) = .ok (o :: os, s'') := by
  rw [run, h]
  change (run step s' cs >>= _) = _
  rw [hs]
  rfl

variable {Δ : Type x} {C : Contract Δ ι ο}

/-- **Refinement over runs.** `R n D s` relates the abstract state `D` and the concrete
state `s` after `n` calls; every legal call made before the limit keeps it, and is answered
as the contract allows. -/
theorem run_refines {step : σ → ι → Exec ε (ο × σ)} {N : ℕ} {R : ℕ → Δ → σ → Prop}
    (hstep : ∀ n D s c, n < N → R n D s → C.Legal D c →
      ∃ o s', step s c = .ok (o, s') ∧ C.Allows D c o ∧ R (n + 1) (C.next D c) s')
    {cs : List ι} {n : ℕ} {D : Δ} {s : σ} (hn : n + cs.length ≤ N) (hR : R n D s) (hlegal : C.LegalRun D cs) :
    ∃ os s', run step s cs = .ok (os, s') ∧ C.AllowsRun D cs os ∧ R (n + cs.length) (C.nextRun D cs) s' := by
  induction cs generalizing n D s with
  | nil => exact ⟨[], s, rfl, rfl, hR⟩
  | cons c cs ih =>
    rw [List.length_cons] at hn
    obtain ⟨o, s', hc, hallow, hR'⟩ := hstep n D s c (by omega) hR hlegal.1
    obtain ⟨os, s'', hcs, hallows, hR''⟩ := ih (by omega) hR' hlegal.2
    refine ⟨o :: os, s'', run_cons hc hcs, ⟨o, os, rfl, hallow, hallows⟩, ?_⟩
    rw [List.length_cons, show n + (cs.length + 1) = n + 1 + cs.length by omega]
    exact hR''

end Runs

end Cop.Theory
