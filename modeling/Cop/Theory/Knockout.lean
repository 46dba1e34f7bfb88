import Mathlib.Algebra.GroupWithZero.Nat
import Mathlib.Data.Set.Basic
import Mathlib.Logic.Function.Iterate
import Mathlib.Tactic.Set

/-!
# Knockouts

`2 ^ k` values compete in rounds. In a round the value at each place of the first half meets the one
at the same place of the second, and the winner takes two places next to each other. After `k`
rounds the same value is at every place: one that none of the others beats.

## What is proved

* `knockout_iterate` — who is left at a place after some rounds.
* `knockout_winner` — who is left after all of them.
* `knockout_congr` — a choice matters for the competing values only.
-/

namespace Cop.Theory

universe u

variable {α : Type u} {W : ℕ} {op op' : α → α → α} {le : α → α → Prop} {s : Set α}

/-- Of two values in `s`, `op` chooses one, and the other is not above it. -/
structure Chooses (op : α → α → α) (le : α → α → Prop) (s : Set α) : Prop where
  /-- One of the two is chosen. -/
  choice : ∀ x ∈ s, ∀ y ∈ s, op x y = x ∨ op x y = y
  /-- The first is not above it. -/
  left : ∀ x ∈ s, ∀ y ∈ s, le x (op x y)
  /-- Nor is the second. -/
  right : ∀ x ∈ s, ∀ y ∈ s, le y (op x y)
  /-- The values in `s` are ordered. -/
  trans : ∀ x ∈ s, ∀ y ∈ s, ∀ z ∈ s, le x y → le y z → le x z

theorem Chooses.refl (h : Chooses op le s) {x : α} (hx : x ∈ s) : le x x := by
  obtain hxx | hxx := h.choice x hx x hx
  · simpa only [hxx] using h.left x hx x hx
  · simpa only [hxx] using h.left x hx x hx

theorem Chooses.mem (h : Chooses op le s) {x y : α} (hx : x ∈ s) (hy : y ∈ s) : op x y ∈ s := by
  obtain hxy | hxy := h.choice x hx y hy
  · rwa [hxy]
  · rwa [hxy]

/-- One round. -/
def knockout (op : α → α → α) (a : Fin W → α) : Fin W → α :=
  fun i => op (a ⟨i.val / 2, by omega⟩) (a ⟨(W + i.val) / 2, by omega⟩)

theorem half_div (i j : ℕ) : i / 2 / 2 ^ j = i / 2 ^ (j + 1) := by rw [Nat.div_div_eq_div_mul, ← Nat.pow_succ']

theorem add_half_div (i : ℕ) {j k : ℕ} (hW : W = 2 ^ (k + (j + 1))) : (W + i) / 2 / 2 ^ j = 2 ^ k + i / 2 ^ (j + 1) := by
  rw [half_div, hW, Nat.pow_add, Nat.mul_comm, Nat.mul_add_div (Nat.two_pow_pos _)]

/-- The places that meet at `q` in the next round. -/
theorem mod_two_pow_succ_iff {k p q : ℕ} (hq : q < 2 ^ k) :
    p % 2 ^ k = q ↔ p % 2 ^ (k + 1) = q ∨ p % 2 ^ (k + 1) = 2 ^ k + q := by
  have hmod : p % 2 ^ (k + 1) = p % 2 ^ k + 2 ^ k * (p / 2 ^ k % 2) := Nat.mod_pow_succ
  have hlt : p % 2 ^ k < 2 ^ k := Nat.mod_lt _ (Nat.two_pow_pos k)
  obtain hbit | hbit := Nat.mod_two_eq_zero_or_one (p / 2 ^ k)
  · rw [hmod, hbit]
    omega
  · rw [hmod, hbit]
    omega

/-- **After `j` rounds**, the value at `i` is one of those that have met there, and none of them is
above it. They are those at the places that are `i / 2 ^ j` modulo the number of values left. -/
theorem knockout_iterate (h : Chooses op le s) {a : Fin W → α} (ha : ∀ p, a p ∈ s) (j : ℕ) :
    ∀ k, W = 2 ^ (k + j) → ∀ i : Fin W,
      (∃ p : Fin W, p.val % 2 ^ k = i.val / 2 ^ j ∧ (knockout op)^[j] a i = a p) ∧
        ∀ p : Fin W, p.val % 2 ^ k = i.val / 2 ^ j → le (a p) ((knockout op)^[j] a i) := by
  induction j with
  | zero =>
    intro k hW i
    have hplace : ∀ p : Fin W, p.val % 2 ^ k = p.val := fun p => Nat.mod_eq_of_lt (p.isLt.trans_eq hW)
    rw [Nat.pow_zero, Nat.div_one]
    refine ⟨⟨i, hplace i, rfl⟩, fun p hp => ?_⟩
    rw [hplace p] at hp
    rw [Fin.ext hp]
    exact h.refl (ha i)
  | succ j ih =>
    intro k hW i
    have hW' : W = 2 ^ (k + 1 + j) := by rw [hW, Nat.add_right_comm, Nat.add_assoc]
    have hq : i.val / 2 ^ (j + 1) < 2 ^ k :=
      Nat.div_lt_of_lt_mul (i.isLt.trans_eq (hW.trans (by rw [Nat.pow_add, Nat.mul_comm])))
    -- the two that meet at `i` come from the first half and from the second
    have hfst := half_div i.val j
    have hsnd := add_half_div i.val hW
    obtain ⟨⟨p, hp, hpa⟩, hple⟩ := ih (k + 1) hW' ⟨i.val / 2, by omega⟩
    obtain ⟨⟨q, hq', hqa⟩, hqle⟩ := ih (k + 1) hW' ⟨(W + i.val) / 2, by omega⟩
    simp only [hfst, hsnd] at hp hple hq' hqle
    rw [Function.iterate_succ_apply', knockout]
    set x := (knockout op)^[j] a ⟨i.val / 2, by omega⟩
    set y := (knockout op)^[j] a ⟨(W + i.val) / 2, by omega⟩
    have hx : x ∈ s := hpa ▸ ha p
    have hy : y ∈ s := hqa ▸ ha q
    refine ⟨?_, fun r hr => ?_⟩
    · obtain hxy | hxy := h.choice x hx y hy
      · exact ⟨p, (mod_two_pow_succ_iff hq).2 (Or.inl hp), hxy.trans hpa⟩
      · exact ⟨q, (mod_two_pow_succ_iff hq).2 (Or.inr hq'), hxy.trans hqa⟩
    · obtain hr | hr := (mod_two_pow_succ_iff hq).1 hr
      · exact h.trans _ (ha r) _ hx _ (h.mem hx hy) (hple r hr) (h.left x hx y hy)
      · exact h.trans _ (ha r) _ hy _ (h.mem hx hy) (hqle r hr) (h.right x hx y hy)

/-- **After all rounds** there is one of the values left that none of the others is above. -/
theorem knockout_winner (h : Chooses op le s) {a : Fin W → α} (ha : ∀ p, a p ∈ s) {k : ℕ} (hW : W = 2 ^ k) (i : Fin W) :
    (∃ p, (knockout op)^[k] a i = a p) ∧ ∀ p, le (a p) ((knockout op)^[k] a i) := by
  obtain ⟨⟨p, -, hp⟩, hle⟩ := knockout_iterate h ha k 0 (by rwa [Nat.zero_add]) i
  refine ⟨⟨p, hp⟩, fun q => hle q ?_⟩
  rw [Nat.pow_zero, Nat.mod_one, Nat.div_eq_of_lt (by rw [← hW]; exact i.isLt)]

/-- A choice matters for the values that compete only. -/
theorem knockout_congr {a : Fin W → α} (hop : ∀ p q, op (a p) (a q) = op' (a p) (a q))
    (hchoice : ∀ p q, op (a p) (a q) = a p ∨ op (a p) (a q) = a q) (j : ℕ) :
    (knockout op)^[j] a = (knockout op')^[j] a ∧ ∀ i, ∃ p, (knockout op)^[j] a i = a p := by
  induction j with
  | zero => exact ⟨rfl, fun i => ⟨i, rfl⟩⟩
  | succ j ih =>
    obtain ⟨heq, hmem⟩ := ih
    rw [Function.iterate_succ_apply', Function.iterate_succ_apply', ← heq]
    refine ⟨funext fun i => ?_, fun i => ?_⟩
    · obtain ⟨p, hp⟩ := hmem ⟨i.val / 2, by omega⟩
      obtain ⟨q, hq⟩ := hmem ⟨(W + i.val) / 2, by omega⟩
      rw [knockout, knockout, hp, hq, hop]
    · obtain ⟨p, hp⟩ := hmem ⟨i.val / 2, by omega⟩
      obtain ⟨q, hq⟩ := hmem ⟨(W + i.val) / 2, by omega⟩
      rw [knockout, hp, hq]
      obtain hpq | hpq := hchoice p q
      · exact ⟨p, hpq⟩
      · exact ⟨q, hpq⟩

end Cop.Theory
