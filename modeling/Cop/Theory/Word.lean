import Mathlib.Algebra.Group.Nat.Defs
import Mathlib.Data.Nat.Basic
import Mathlib.Tactic.Common

/-!
# Unsigned arithmetic and alignment

Arithmetic of `w`-bit unsigned words, on natural numbers below `2 ^ w`: sums, differences
and products are reduced modulo `2 ^ w`, and are the exact ones where they fit. Then
digits, and alignment: the bytes to skip to come from an address to the next multiple of a power of
two, and the least multiple of a number that is not below another.

## What is proved

* `add_of_lt`, `sub_of_le`, `mul_of_lt` — where the words are the exact numbers.
* `Word.or_two_pow_mul`, `Word.xor_ones` — bits that are put above others, and the complement.
* `eq_of_digits` — a number is determined by its digits.
* `dvd_add_padTo`, `padTo_lt` — after the padding comes the next multiple.
* `dvd_roundUp`, `le_roundUp`, `roundUp_lt`, `roundUp_le` — rounding up gives the next multiple.
* `Word.roundUp_eq`, `Word.roundUp_wrap` — rounding up in words, where the sum fits and where it wraps.
-/

namespace Cop.Theory

namespace Word

/-- `a + b`. -/
def add (w a b : ℕ) : ℕ := (a + b) % 2 ^ w

/-- `a - b`. -/
def sub (w a b : ℕ) : ℕ := (a + (2 ^ w - b)) % 2 ^ w

/-- `a * b`. -/
def mul (w a b : ℕ) : ℕ := a * b % 2 ^ w

/-- `a << k`. -/
def shl (w a k : ℕ) : ℕ := (a <<< k) % 2 ^ w

variable {w a b : ℕ}

theorem add_of_lt (h : a + b < 2 ^ w) : add w a b = a + b := Nat.mod_eq_of_lt h

theorem add_lt : add w a b < 2 ^ w := Nat.mod_lt _ (Nat.two_pow_pos w)

theorem sub_of_le (h : b ≤ a) (ha : a < 2 ^ w) : sub w a b = a - b := by
  rw [sub, show a + (2 ^ w - b) = a - b + 2 ^ w by omega, Nat.add_mod_right]
  exact Nat.mod_eq_of_lt (by omega)

theorem mul_lt : mul w a b < 2 ^ w := Nat.mod_lt _ (Nat.two_pow_pos w)

theorem mul_of_lt (h : a * b < 2 ^ w) : mul w a b = a * b := Nat.mod_eq_of_lt h

theorem shl_of_lt {k : ℕ} (h : 2 ^ k * a < 2 ^ w) : shl w a k = 2 ^ k * a := by
  rw [shl, Nat.shiftLeft_eq, Nat.mul_comm]
  exact Nat.mod_eq_of_lt h

/-- Bits that are put above a number are added to it. -/
theorem or_two_pow_mul {k : ℕ} (h : b < 2 ^ k) : b ||| 2 ^ k * a = b + 2 ^ k * a := by
  have hor := Nat.shiftLeft_add_eq_or_of_lt h a
  rw [Nat.shiftLeft_eq, Nat.mul_comm] at hor
  rw [Nat.or_comm, ← hor, Nat.add_comm]

theorem sub_add_one (h : 1 ≤ a + b) : sub w (add w a b) 1 = (a + b - 1) % 2 ^ w := by
  have hpos : 1 ≤ 2 ^ w := Nat.two_pow_pos w
  rw [sub, add, Nat.mod_add_mod, show a + b + (2 ^ w - 1) = a + b - 1 + 2 ^ w by omega, Nat.add_mod_right]

/-- A sum that does not fit is too small by `2 ^ w`. -/
theorem add_of_ge (ha : a < 2 ^ w) (hb : b < 2 ^ w) (h : 2 ^ w ≤ a + b) : add w a b = a + b - 2 ^ w := by
  rw [add, Nat.mod_eq_sub_mod h]
  exact Nat.mod_eq_of_lt (by omega)

theorem xor_ones {n a : ℕ} (h : a < 2 ^ n) : a ^^^ (2 ^ n - 1) = 2 ^ n - (a + 1) := by
  refine Nat.eq_of_testBit_eq fun i => ?_
  rw [Nat.testBit_xor, Nat.testBit_two_pow_sub_one, Nat.testBit_two_pow_sub_succ h]
  by_cases hi : i < n
  · simp [hi]
  · have hbit : a.testBit i = false := Nat.testBit_lt_two_pow <|
      Nat.lt_of_lt_of_le h (Nat.pow_le_pow_right (by decide) (Nat.le_of_not_lt hi))
    simp [hi, hbit]

end Word

/-! ### Digits -/

/-- A number is determined by its digits. -/
theorem eq_of_digits {b n x y : ℕ} (hx : x < b ^ n) (hy : y < b ^ n) (h : ∀ j < n, x / b ^ j % b = y / b ^ j % b) :
    x = y := by
  induction n generalizing x y with
  | zero =>
    rw [Nat.pow_zero] at hx hy
    omega
  | succ n ih =>
    have hdiv : x / b = y / b := by
      refine ih (Nat.div_lt_of_lt_mul ?_) (Nat.div_lt_of_lt_mul ?_) fun j hj => ?_
      · rwa [Nat.pow_succ'] at hx
      · rwa [Nat.pow_succ'] at hy
      · rw [Nat.div_div_eq_div_mul, Nat.div_div_eq_div_mul, ← Nat.pow_succ']
        exact h (j + 1) (by omega)
    have hmod : x % b = y % b := by simpa using h 0 (by omega)
    rw [← Nat.div_add_mod x b, ← Nat.div_add_mod y b, hdiv, hmod]

/-! ### Alignment -/

/-- The bytes from `n` to the next multiple of `a`. -/
def padTo (a n : ℕ) : ℕ := (a - n % a) % a

variable {a n : ℕ}

theorem padTo_lt (ha : 0 < a) : padTo a n < a := Nat.mod_lt _ ha

theorem dvd_add_padTo (ha : 0 < a) : a ∣ n + padTo a n := by
  have hlt : n % a < a := Nat.mod_lt n ha
  have hdiv : n = a * (n / a) + n % a := (Nat.div_add_mod n a).symm
  rw [padTo]
  by_cases h0 : n % a = 0
  · rw [h0, Nat.sub_zero, Nat.mod_self, Nat.add_zero]
    exact Nat.dvd_of_mod_eq_zero h0
  · rw [Nat.mod_eq_of_lt (show a - n % a < a by omega)]
    refine ⟨n / a + 1, ?_⟩
    rw [Nat.mul_add, Nat.mul_one]
    omega

/-- Padding stays below every multiple. -/
theorem add_padTo_le {m : ℕ} (ha : 0 < a) (hm : a ∣ m) (hn : n ≤ m) : n + padTo a n ≤ m := by
  obtain ⟨p, hp⟩ := dvd_add_padTo (n := n) ha
  obtain ⟨q, rfl⟩ := hm
  have hpad : padTo a n < a := padTo_lt ha
  rw [hp]
  apply Nat.mul_le_mul_left
  -- otherwise the multiple lies within the padding
  by_contra hlt
  have hle : a * (q + 1) ≤ a * p := Nat.mul_le_mul_left a (by omega)
  rw [Nat.mul_add] at hle
  omega

/-- The least multiple of `g` that is not below `n`, as programs write it. -/
def roundUp (g n : ℕ) : ℕ := g * ((n + g - 1) / g)

theorem dvd_roundUp (g n : ℕ) : g ∣ roundUp g n := Nat.dvd_mul_right g _

theorem roundUp_lt {g : ℕ} (hg : 0 < g) : roundUp g n < n + g := by
  have hle : g * ((n + g - 1) / g) ≤ n + g - 1 := Nat.mul_div_le _ _
  rw [roundUp]
  omega

theorem le_roundUp {g : ℕ} (hg : 0 < g) : n ≤ roundUp g n := by
  have hdiv := Nat.div_add_mod (n + g - 1) g
  have hlt := Nat.mod_lt (n + g - 1) hg
  rw [roundUp]
  omega

/-- No other multiple is between. -/
theorem roundUp_le {g m : ℕ} (hg : 0 < g) (hm : g ∣ m) (h : n ≤ m) : roundUp g n ≤ m := by
  obtain ⟨q, rfl⟩ := hm
  have hlt : roundUp g n < g * (q + 1) := by
    have hround := roundUp_lt (n := n) hg
    rw [Nat.mul_add]
    omega
  rw [roundUp] at hlt ⊢
  exact Nat.mul_le_mul_left g (Nat.lt_succ_iff.1 (Nat.lt_of_mul_lt_mul_left hlt))

namespace Word

/-- Rounding up in words gives the next multiple, where it is at most `2 ^ w`. -/
theorem roundUp_eq {w g n : ℕ} (hg : g ≠ 0) (h : n + g ≤ 2 ^ w) : mul w g (sub w (add w n g) 1 / g) = roundUp g n := by
  have hlt : roundUp g n < n + g := roundUp_lt (Nat.pos_of_ne_zero hg)
  rw [sub_add_one (by omega), Nat.mod_eq_of_lt (by omega), mul_of_lt]
  · rfl
  · exact Nat.lt_of_lt_of_le hlt h

/-- Where the sum that is rounded wraps, the result is zero. -/
theorem roundUp_wrap {w g n : ℕ} (hg : g < 2 ^ w) (hn : n < 2 ^ w) (h : 2 ^ w < n + g) :
    mul w g (sub w (add w n g) 1 / g) = 0 := by
  have hmod : (n + g - 1) % 2 ^ w = n + g - 1 - 2 ^ w := by
    rw [Nat.mod_eq_sub_mod (by omega)]
    exact Nat.mod_eq_of_lt (by omega)
  rw [sub_add_one (by omega), hmod, Nat.div_eq_of_lt (by omega)]
  rfl

end Word

end Cop.Theory
