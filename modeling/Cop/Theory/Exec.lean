import Mathlib.Data.Nat.Basic
import Mathlib.Order.Basic

/-!
# Executions that may stop early

A C function is modelled by a Lean function into `Exec ε α`: it gives a result,
or it stops with a fault `ε` (a null pointer followed, an assertion that fails,
an index out of bounds), or its fuel runs out. What the environment answers (the
operating system, say) is an argument; an answer that it cannot give is no fault
of the program, and stops the execution with `Stop.env`. A `while` loop is `loop`: its
body, `turn`, either goes on with a new state or leaves with a result, and each
turn uses one unit of fuel. Nothing here is about a particular program.

## What is proved

* `loop_mono`, `Approx.loop` — more fuel gives the same result, so a result does not
  depend on the fuel that produced it.
* `loop_total` — the rule of total correctness: an invariant, and a variant that
  every turn decreases, give a result as soon as the fuel exceeds the variant.
* `loop_partial` — the rule of partial correctness, for every result.
* `loop_map` — two loops that take the same turns on different states give the same result.
-/

namespace Cop.Theory

universe u v w

/-- Why an execution gives no result. -/
inductive Stop (ε : Type u) where
  /-- The fuel ran out. -/
  | fuel
  /-- The environment was said to do what it cannot do. -/
  | env
  /-- The program did what it must not do. -/
  | fault (e : ε)
  deriving DecidableEq

/-- A result, or the reason there is none. -/
abbrev Exec (ε : Type u) (α : Type v) := Except (Stop ε) α

/-- What one turn of a loop does. -/
inductive Turn (σ : Type u) (ρ : Type v) where
  /-- Go on from state `s`. -/
  | more (s : σ)
  /-- Leave the loop with result `r`. -/
  | done (r : ρ)

variable {ε : Type u} {σ : Type v} {ρ : Type w}

/-- The same turn of another loop, the states and results of which are `f` and `g` of this one's. -/
def Turn.map {σ' : Type v} {ρ' : Type w} (f : σ → σ') (g : ρ → ρ') : Turn σ ρ → Turn σ' ρ'
  | .more s => .more (f s)
  | .done r => .done (g r)

/-- Go on if `p` holds; the fault `e` otherwise. -/
def check (e : ε) (p : Prop) [Decidable p] : Exec ε Unit := if p then .ok () else .error (.fault e)

/-- Go on if the environment may make `p` hold. -/
def assume (p : Prop) [Decidable p] : Exec ε Unit := if p then .ok () else .error .env

theorem check_pos {e : ε} {p : Prop} [Decidable p] (h : p) : check e p = .ok () := if_pos h

theorem check_ok {e : ε} {p : Prop} [Decidable p] {u : Unit} (h : check e p = .ok u) : p := by
  rw [check] at h
  split at h
  · assumption
  · cases h

theorem assume_pos {p : Prop} [Decidable p] (h : p) : assume (ε := ε) p = .ok () := if_pos h

theorem assume_ok {p : Prop} [Decidable p] {u : Unit} (h : assume (ε := ε) p = .ok u) : p := by
  rw [assume] at h
  split at h
  · assumption
  · cases h

theorem bind_of_ok {α β : Type v} {x : Exec ε α} {a : α} (h : x = .ok a) (f : α → Exec ε β) : (x >>= f) = f a := by
  rw [h]
  rfl

/-- What both halves of a sequence that gives a result gave. -/
theorem bind_ok {α β : Type v} {x : Exec ε α} {f : α → Exec ε β} {b : β} (h : (x >>= f) = .ok b) :
    ∃ a, x = .ok a ∧ f a = .ok b := by
  cases x with
  | error e => cases h
  | ok a => exact ⟨a, rfl, h⟩

/-- `loop turn n s`: take turns from `s` until one leaves, at most `n` of them. -/
def loop (turn : σ → Exec ε (Turn σ ρ)) : ℕ → σ → Exec ε ρ
  | 0, _ => .error .fuel
  | n + 1, s =>
    match turn s with
    | .error e => .error e
    | .ok (.done r) => .ok r
    | .ok (.more s') => loop turn n s'

theorem loop_done {turn : σ → Exec ε (Turn σ ρ)} {s : σ} {r : ρ} (h : turn s = .ok (.done r)) (n : ℕ) :
    loop turn (n + 1) s = .ok r := by simp only [loop, h]

theorem loop_more {turn : σ → Exec ε (Turn σ ρ)} {s t : σ} (h : turn s = .ok (.more t)) (n : ℕ) :
    loop turn (n + 1) s = loop turn n t := by simp only [loop, h]

/-- What the first turn of a loop that gives a result did. -/
theorem loop_ok {turn : σ → Exec ε (Turn σ ρ)} {n : ℕ} {s : σ} {r : ρ} (h : loop turn n s = .ok r) :
    ∃ m, n = m + 1 ∧ (turn s = .ok (.done r) ∨ ∃ s', turn s = .ok (.more s') ∧ loop turn m s' = .ok r) := by
  cases n with
  | zero => simp [loop] at h
  | succ m =>
    refine ⟨m, rfl, ?_⟩
    rw [loop] at h
    split at h
    · cases h
    · rename_i r' hr
      cases h
      exact .inl hr
    · rename_i s' hs
      exact .inr ⟨s', hs, h⟩

/-- **Simulation.** A loop that takes the turns of another, on states and results that `f` and `g` give, gives the
result that `g` gives. -/
theorem loop_map {σ' : Type v} {ρ' : Type w} {turn : σ → Exec ε (Turn σ ρ)} {turn' : σ' → Exec ε (Turn σ' ρ')}
    {f : σ → σ'} {g : ρ → ρ'} (h : ∀ s, turn' (f s) = (turn s).map (Turn.map f g)) (n : ℕ) (s : σ) :
    loop turn' n (f s) = (loop turn n s).map g := by
  induction n generalizing s with
  | zero => rfl
  | succ n ih =>
    rw [loop, loop, h s]
    cases turn s with
    | error e => rfl
    | ok t =>
      cases t with
      | done r => rfl
      | more s' => exact ih s'

/-! ### More fuel -/

/-- Where `x` gives a result, `y` gives the same: `y` is `x` with more fuel. -/
def Approx {α : Type w} (x y : Exec ε α) : Prop := ∀ r, x = .ok r → y = .ok r

namespace Approx

variable {α β : Type w}

theorem refl (x : Exec ε α) : Approx x x := fun _ h => h

/-- Nothing is known where the fuel has run out. -/
theorem fuel (y : Exec ε α) : Approx (.error .fuel) y := fun _ h => nomatch h

theorem bind {x y : Exec ε α} {f g : α → Exec ε β} (hxy : Approx x y) (hfg : ∀ a, Approx (f a) (g a)) :
    Approx (x >>= f) (y >>= g) := by
  intro r h
  obtain ⟨a, hx, hf⟩ := bind_ok h
  rw [bind_of_ok (hxy a hx), hfg a r hf]

theorem ite {p : Prop} [Decidable p] {x x' y y' : Exec ε α} (hx : Approx x x') (hy : Approx y y') :
    Approx (if p then x else y) (if p then x' else y') := by
  split
  · exact hx
  · exact hy

theorem loop {turn turn' : σ → Exec ε (Turn σ ρ)} (hturn : ∀ s, Approx (turn s) (turn' s)) {n m : ℕ} (hnm : n ≤ m)
    (s : σ) : Approx (loop turn n s) (loop turn' m s) := by
  intro r h
  induction m generalizing n s with
  | zero =>
    obtain rfl : n = 0 := by omega
    cases h
  | succ m ih =>
    obtain ⟨k, rfl, hd | ⟨s', hs, hr⟩⟩ := loop_ok h
    · exact loop_done (hturn s _ hd) m
    · rw [loop_more (hturn s _ hs) m]
      exact ih (by omega) s' hr

end Approx

theorem loop_mono {turn : σ → Exec ε (Turn σ ρ)} {n m : ℕ} {s : σ} {r : ρ} (h : loop turn n s = .ok r)
    (hnm : n ≤ m) : loop turn m s = .ok r := Approx.loop (fun _ => Approx.refl _) hnm s r h

/-- **Total correctness.** If every turn from a state of the invariant `I` either
goes on in `I` with a smaller variant `μ` or leaves with a result in `Q`, then the
loop gives a result in `Q`. -/
theorem loop_total {turn : σ → Exec ε (Turn σ ρ)} {I : σ → Prop} {Q : ρ → Prop} (μ : σ → ℕ)
    (hturn : ∀ s, I s → (∃ s', turn s = .ok (.more s') ∧ I s' ∧ μ s' < μ s) ∨
      ∃ r, turn s = .ok (.done r) ∧ Q r)
    {n : ℕ} {s : σ} (hs : I s) (hn : μ s < n) : ∃ r, loop turn n s = .ok r ∧ Q r := by
  induction n generalizing s with
  | zero => omega
  | succ n ih =>
    rcases hturn s hs with ⟨s', ht, hI, hμ⟩ | ⟨r, ht, hr⟩
    · rw [loop_more ht n]
      exact ih hI (by omega)
    · exact ⟨r, loop_done ht n, hr⟩

/-- **Partial correctness.** If every turn from a state of the invariant `I` that goes
on stays in `I`, and every turn that leaves does so with a result in `Q`, then every
result of the loop is in `Q`. -/
theorem loop_partial {turn : σ → Exec ε (Turn σ ρ)} {I : σ → Prop} {Q : ρ → Prop}
    (hmore : ∀ s s', I s → turn s = .ok (.more s') → I s')
    (hdone : ∀ s r, I s → turn s = .ok (.done r) → Q r)
    {n : ℕ} {s : σ} {r : ρ} (hs : I s) (h : loop turn n s = .ok r) : Q r := by
  induction n generalizing s with
  | zero => simp [loop] at h
  | succ n ih =>
    obtain ⟨m, hm, hd | ⟨s', ht, hr⟩⟩ := loop_ok h
    · exact hdone s r hs hd
    · obtain rfl : n = m := by omega
      exact ih (hmore s s' hs ht) hr

end Cop.Theory
