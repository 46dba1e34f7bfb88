import Mathlib.Data.Nat.Basic

/-!
# Heap order

The values of a map from slots, as a binary heap: the parent of the slot `k` is the slot
`(k - 1) / 2`, and no value is above its parent's. A value that has come into the heap
at the end may be too large for its place, one that has come in at the top too small. It
then goes up or down, by exchanges, and the rest stays in order.

## What is proved

* `Heaped.root` — the first value is the largest.
* `Heaped.push`, `TooLargeAt.rise`, `TooLargeAt.heaped` — a value comes in at the end and goes up.
* `Heaped.pop`, `TooSmallAt.sink`, `TooSmallAt.heaped` — one comes in at the top and goes down.
-/

namespace Cop.Theory

universe u

variable {α : Type u} {le : α → α → Prop} {f g : ℕ → α} {n j : ℕ}

/-- No value of the first `n` slots is above its parent's. -/
def Heaped (le : α → α → Prop) (f : ℕ → α) (n : ℕ) : Prop := ∀ k, 0 < k → k < n → le (f k) (f ((k - 1) / 2))

/-- The values of two slots are exchanged. -/
structure Exchanged (f g : ℕ → α) (i j : ℕ) : Prop where
  /-- At `i` is what was at `j`. -/
  left : g i = f j
  /-- At `j` is what was at `i`. -/
  right : g j = f i
  /-- Elsewhere nothing has changed. -/
  rest : ∀ k, k ≠ i → k ≠ j → g k = f k

/-- A heap, but that the value at `j` may be too large for its place. -/
structure TooLargeAt (le : α → α → Prop) (f : ℕ → α) (n j : ℕ) : Prop where
  /-- The other values are in order with their parents. -/
  others : ∀ k, 0 < k → k < n → k ≠ j → le (f k) (f ((k - 1) / 2))
  /-- Its children are in order with its parent. -/
  across : 0 < j → ∀ k, 0 < k → k < n → (k - 1) / 2 = j → le (f k) (f ((j - 1) / 2))

/-- A heap, but that the value at `j` may be too small for its place. -/
structure TooSmallAt (le : α → α → Prop) (f : ℕ → α) (n j : ℕ) : Prop where
  /-- The values but its children are in order with their parents. -/
  others : ∀ k, 0 < k → k < n → (k - 1) / 2 ≠ j → le (f k) (f ((k - 1) / 2))
  /-- Its children are in order with its parent. -/
  across : 0 < j → ∀ k, 0 < k → k < n → (k - 1) / 2 = j → le (f k) (f ((j - 1) / 2))

theorem Heaped.root (h : Heaped le f n) (hrefl : ∀ x, le x x) (htrans : ∀ {x y z}, le x y → le y z → le x z) {k : ℕ}
    (hk : k < n) : le (f k) (f 0) := by
  induction k using Nat.strongRecOn with
  | ind k ih =>
    rcases Nat.eq_zero_or_pos k with rfl | hpos
    · exact hrefl _
    · exact htrans (h k hpos hk) (ih ((k - 1) / 2) (by omega) (by omega))

/-! ### Going up -/

/-- A value comes in at the end. -/
theorem Heaped.push (h : Heaped le f n) : TooLargeAt le f (n + 1) n := by
  refine ⟨fun k hpos hk hne => h k hpos (by omega), fun _ k _ hk hkn => ?_⟩
  omega

/-- It is exchanged with its parent `p`. -/
theorem TooLargeAt.rise (h : TooLargeAt le f n j) (htrans : ∀ {x y z}, le x y → le y z → le x z) {p : ℕ}
    (hp : (j - 1) / 2 = p) (hpos : 0 < j) (hj : j < n) (hle : le (f p) (f j)) (hx : Exchanged f g j p) :
    TooLargeAt le g n p := by
  subst hp
  have hlt : (j - 1) / 2 < j := by omega
  -- Where the parent itself has a parent, the two are in order, and have been all the time.
  have hup : 0 < (j - 1) / 2 → le (f ((j - 1) / 2)) (g (((j - 1) / 2 - 1) / 2)) := by
    intro h0
    rw [hx.rest _ (by omega) (by omega)]
    exact h.others _ h0 (by omega) (by omega)
  constructor
  · intro k hk0 hkn hkp
    by_cases hkj : k = j
    · rw [hkj, hx.left, hx.right]
      exact hle
    · rw [hx.rest k hkj hkp]
      by_cases hkc : (k - 1) / 2 = j
      · rw [hkc, hx.left]
        exact h.across hpos k hk0 hkn hkc
      · have hk := h.others k hk0 hkn hkj
        by_cases hks : (k - 1) / 2 = (j - 1) / 2
        · rw [hks, hx.right]
          rw [hks] at hk
          exact htrans hk hle
        · rw [hx.rest _ hkc hks]
          exact hk
  · intro h0 k hk0 hkn hkp
    by_cases hkj : k = j
    · rw [hkj, hx.left]
      exact hup h0
    · have hk := h.others k hk0 hkn hkj
      rw [hkp] at hk
      rw [hx.rest k hkj (by omega)]
      exact htrans hk (hup h0)

/-- It is not above its parent any more. -/
theorem TooLargeAt.heaped (h : TooLargeAt le f n j) (hj : 0 < j → le (f j) (f ((j - 1) / 2))) : Heaped le f n := by
  intro k hk0 hkn
  by_cases hkj : k = j
  · subst hkj
    exact hj hk0
  · exact h.others k hk0 hkn hkj

/-! ### Going down -/

/-- A value comes in at the top of what is left of a heap. -/
theorem Heaped.pop {i : ℕ} (h : Heaped le f n) (hin : i ≤ n) (hfg : ∀ k, 0 < k → k < i → g k = f k) :
    TooSmallAt le g i 0 := by
  refine ⟨fun k hk0 hki hne => ?_, fun h0 => absurd h0 (Nat.lt_irrefl 0)⟩
  rw [hfg k hk0 hki, hfg _ (by omega) (by omega)]
  exact h k hk0 (by omega)

/-- It is exchanged with `c`, the largest of its children. -/
theorem TooSmallAt.sink (h : TooSmallAt le f n j) {c : ℕ} (hc0 : 0 < c) (hcn : c < n) (hc : (c - 1) / 2 = j)
    (hmax : ∀ k, 0 < k → k < n → (k - 1) / 2 = j → le (f k) (f c)) (hle : le (f j) (f c)) (hx : Exchanged f g c j) :
    TooSmallAt le g n c := by
  constructor
  · intro k hk0 hkn hkc
    by_cases hkj : (k - 1) / 2 = j
    · rw [hkj, hx.right]
      by_cases hkeq : k = c
      · rw [hkeq, hx.left]
        exact hle
      · rw [hx.rest k hkeq (by omega)]
        exact hmax k hk0 hkn hkj
    · rw [hx.rest _ hkc hkj]
      by_cases hkeq : k = j
      · subst hkeq
        rw [hx.right]
        exact h.across hk0 c hc0 hcn hc
      · have hne : k ≠ c := fun hkc' => hkj (hkc' ▸ hc)
        rw [hx.rest k hne hkeq]
        exact h.others k hk0 hkn hkj
  · intro _ k hk0 hkn hkc
    have hk := h.others k hk0 hkn (by omega)
    rw [hkc] at hk
    rw [hc, hx.right, hx.rest k (by omega) (by omega)]
    exact hk

/-- None of its children is above it any more. -/
theorem TooSmallAt.heaped (h : TooSmallAt le f n j)
    (hj : ∀ k, 0 < k → k < n → (k - 1) / 2 = j → le (f k) (f j)) : Heaped le f n := by
  intro k hk0 hkn
  by_cases hkj : (k - 1) / 2 = j
  · rw [hkj]
    exact hj k hk0 hkn hkj
  · exact h.others k hk0 hkn hkj

end Cop.Theory
