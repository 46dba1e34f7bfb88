import Mathlib.Data.List.Basic
import Mathlib.Data.Nat.Basic
import Mathlib.Order.Basic

/-!
# Ranges that cover a prefix

A range is where it starts and how long it is. A prefix of an address space, from `base` on,
is covered by ranges, newest first: by ranges of which each starts where the one before
it ended, or by ranges that all start at `base`, of which each is longer than the one before it.

## What is proved

* `Tiles.covered_iff`, `Nested.covered_iff` — an address is in one of the ranges exactly if it is in the prefix.
* `Tiles.pairwise` — ranges that tile have no address in common.
-/

namespace Cop.Theory

/-- The address is in one of the ranges. -/
def Covered (rs : List (ℕ × ℕ)) (a : ℕ) : Prop := ∃ r ∈ rs, r.1 ≤ a ∧ a < r.1 + r.2

/-- The ranges cover the first `n` addresses from `base` on, each of them once. -/
def Tiles (base : ℕ) : List (ℕ × ℕ) → ℕ → Prop
  | [], n => n = 0
  | r :: rs, n => ∃ m, Tiles base rs m ∧ r.1 = base + m ∧ 0 < r.2 ∧ n = m + r.2

/-- The ranges start at `base`, and the newest has the first `n` addresses. -/
def Nested (base : ℕ) : List (ℕ × ℕ) → ℕ → Prop
  | [], n => n = 0
  | r :: rs, n => ∃ m, Nested base rs m ∧ r.1 = base ∧ m < r.2 ∧ n = r.2

variable {base n a : ℕ} {rs : List (ℕ × ℕ)}

theorem covered_cons {r : ℕ × ℕ} : Covered (r :: rs) a ↔ (r.1 ≤ a ∧ a < r.1 + r.2) ∨ Covered rs a := by
  simp [Covered]

theorem Tiles.covered_iff (h : Tiles base rs n) : Covered rs a ↔ base ≤ a ∧ a < base + n := by
  induction rs generalizing n with
  | nil =>
    obtain rfl : n = 0 := h
    simp [Covered]
  | cons r rs ih =>
    obtain ⟨m, hm, hstart, -, rfl⟩ := h
    rw [covered_cons, ih hm]
    omega

theorem Nested.covered_iff (h : Nested base rs n) : Covered rs a ↔ base ≤ a ∧ a < base + n := by
  induction rs generalizing n with
  | nil =>
    obtain rfl : n = 0 := h
    simp [Covered]
  | cons r rs ih =>
    obtain ⟨m, hm, hstart, hlonger, rfl⟩ := h
    rw [covered_cons, ih hm]
    omega

/-- Ranges that tile are in the prefix. -/
theorem Tiles.mem_le (h : Tiles base rs n) {r : ℕ × ℕ} (hr : r ∈ rs) : base ≤ r.1 ∧ r.1 + r.2 ≤ base + n := by
  induction rs generalizing n with
  | nil => cases hr
  | cons q rs ih =>
    obtain ⟨m, hm, hstart, -, rfl⟩ := h
    rcases List.mem_cons.1 hr with rfl | hr
    · omega
    · have := ih hm hr
      omega

/-- **Ranges that tile have no address in common.** -/
theorem Tiles.pairwise (h : Tiles base rs n) : rs.Pairwise fun newer older => older.1 + older.2 ≤ newer.1 := by
  induction rs generalizing n with
  | nil => exact List.Pairwise.nil
  | cons r rs ih =>
    obtain ⟨m, hm, hstart, -, rfl⟩ := h
    refine List.Pairwise.cons (fun q hq => ?_) (ih hm)
    have := (hm.mem_le hq).2
    omega

end Cop.Theory
