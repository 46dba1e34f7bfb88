import Cop.Theory.Extents
import Mathlib.Data.Fin.Basic

/-!
# Interleaving

Two sequences are interleaved into one, whose even places hold the first and whose odd places hold
the second. A sequence is cut into blocks of `W` values, vectors, and vectors are interleaved as
the blocks of the sequences are.

## What is proved

* `alternate_even`, `alternate_odd`, `alternate_evens_odds` — interleaving and taking apart.
* `window_evens_put`, `window_odds_put` — what was interleaved in memory, taken apart.
* `alternateLanes_block` — blocks of two sequences, interleaved.
* `window_succ_block` — a sequence is extended by a block.
-/

namespace Cop.Theory

universe u

variable {α : Type u} {W : ℕ}

/-- `a 0`, `b 0`, `a 1`, `b 1`, … -/
def alternate (a b : ℕ → α) : ℕ → α := fun k => if k % 2 = 0 then a (k / 2) else b (k / 2)

/-- The values at the even places from `p` on. -/
def evens (f : ℕ → α) (p : ℕ) : ℕ → α := fun k => f (p + 2 * k)

/-- The values at the odd places from `p` on. -/
def odds (f : ℕ → α) (p : ℕ) : ℕ → α := fun k => f (p + (2 * k + 1))

/-- The vector of the `W` values of a sequence from `p` on. -/
def block (f : ℕ → α) (p : ℕ) : Fin W → α := fun i => f (p + i)

/-- The values of two vectors, in turn. -/
def alternateLanes (a b : Fin W → α) : Fin (W + W) → α :=
  fun k => (if k.val % 2 = 0 then a else b) ⟨k.val / 2, by omega⟩

theorem alternate_even (a b : ℕ → α) (k : ℕ) : alternate a b (2 * k) = a k := by
  rw [alternate, if_pos (by omega), show 2 * k / 2 = k by omega]

theorem alternate_odd (a b : ℕ → α) (k : ℕ) : alternate a b (2 * k + 1) = b k := by
  rw [alternate, if_neg (by omega), show (2 * k + 1) / 2 = k by omega]

/-- The even and the odd places of a sequence make it up. -/
theorem alternate_evens_odds (f : ℕ → α) (p : ℕ) : alternate (evens f p) (odds f p) = fun k => f (p + k) := by
  funext k
  rw [alternate]
  split
  · exact congrArg f (by omega)
  · exact congrArg f (by omega)

/-- The first values of two sequences decide the first values of what they are interleaved to. -/
theorem window_alternate_congr {a b a' b' : ℕ → α} {n : ℕ} (ha : window a 0 n = window a' 0 n)
    (hb : window b 0 n = window b' 0 n) : window (alternate a b) 0 (2 * n) = window (alternate a' b') 0 (2 * n) := by
  refine window_congr fun i hi => ?_
  have ha := window_inj ha (i / 2) (by omega)
  have hb := window_inj hb (i / 2) (by omega)
  rw [Nat.zero_add] at ha hb ⊢
  rw [alternate, alternate, ha, hb]

/-- The even places of what was interleaved and written. -/
theorem window_evens_put (m a b : ℕ → α) (p n : ℕ) :
    window (evens (put m p (window (alternate a b) 0 (2 * n))) p) 0 n = window a 0 n := by
  refine window_congr fun i hi => ?_
  rw [evens, put_add (by rw [length_window]; omega), getElem_window, Nat.zero_add, Nat.zero_add, alternate_even]

/-- The odd places of what was interleaved and written. -/
theorem window_odds_put (m a b : ℕ → α) (p n : ℕ) :
    window (odds (put m p (window (alternate a b) 0 (2 * n))) p) 0 n = window b 0 n := by
  refine window_congr fun i hi => ?_
  rw [odds, put_add (by rw [length_window]; omega), getElem_window, Nat.zero_add, Nat.zero_add, alternate_odd]

@[simp] theorem ofFn_block (f : ℕ → α) (p : ℕ) : List.ofFn (block f p : Fin W → α) = window f p W := by
  refine List.ext_getElem (by simp) fun i hi hi' => ?_
  simp [block, window]

/-- Blocks of two sequences, interleaved, are a block of the interleaved sequence. -/
theorem alternateLanes_block (a b : ℕ → α) (p : ℕ) :
    alternateLanes (block a p : Fin W → α) (block b p) = block (alternate a b) (2 * p) := by
  funext k
  rw [alternateLanes, block, alternate]
  by_cases h : k.val % 2 = 0
  · rw [if_pos h, if_pos (by omega), block, show (2 * p + k.val) / 2 = p + k.val / 2 by omega]
  · rw [if_neg h, if_neg (by omega), block, show (2 * p + k.val) / 2 = p + k.val / 2 by omega]

/-- A sequence is extended by a block. -/
theorem window_succ_block (f : ℕ → α) (W n : ℕ) :
    window f 0 (W * (n + 1)) = window f 0 (W * n) ++ List.ofFn (block f (W * n) : Fin W → α) := by
  rw [ofFn_block, Nat.mul_succ, window_append, Nat.zero_add]

end Cop.Theory
