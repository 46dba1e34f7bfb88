import Mathlib.Data.List.Basic
import Mathlib.Data.Nat.Basic
import Mathlib.Order.Basic

/-!
# Blocks and marks on a stack

What a caller of a stack-like allocator holds: blocks, and marks that it may go back to,
newest first. The allocator has a level, a number; a block takes up the levels up to the
one it was given at, as many as it is long, and a mark is a level. Going back to a mark
drops everything newer and keeps the mark.

`Stacked` says that a stack fits below a level: every block and every mark is below what
is newer. From it follows, without a word about addresses, that no two blocks share a
level.

## What is proved

* `Stacked.push_block`, `Stacked.push_mark`, `Stacked.dropTo` — the three ways to go on.
* `Stacked.le_top` — blocks are below the level of the allocator.
* `Stacked.pairwise` — of two blocks, the older one ends where the newer one starts, or
  before.
-/

namespace Cop.Theory

universe u

/-- A block that ends at a level, or a mark. -/
inductive Held (β : Type u) where
  /-- A block, which ends at level `e`. -/
  | block (b : β) (e : ℕ)
  /-- A mark, which is a level. -/
  | mark (m : ℕ)

variable {β : Type u}

/-- The blocks of a stack, with their ends. -/
def blocks : List (Held β) → List (β × ℕ)
  | [] => []
  | .block b e :: hs => (b, e) :: blocks hs
  | .mark _ :: hs => blocks hs

/-- Go back to the `i`-th mark, counted from the newest: that mark, and the stack from it on. -/
def dropTo : List (Held β) → ℕ → Option (ℕ × List (Held β))
  | [], _ => none
  | .block _ _ :: hs, i => dropTo hs i
  | .mark m :: hs, 0 => some (m, .mark m :: hs)
  | .mark _ :: hs, i + 1 => dropTo hs i

/-- The stack fits below the level, where a block `b` is `len b` long. -/
def Stacked (len : β → ℕ) : List (Held β) → ℕ → Prop
  | [], _ => True
  | .block b e :: hs, top => e ≤ top ∧ len b ≤ e ∧ Stacked len hs (e - len b)
  | .mark m :: hs, top => m ≤ top ∧ Stacked len hs m

variable {len : β → ℕ} {hs hs' : List (Held β)} {top : ℕ}

/-- A stack that fits below a level fits below a higher one. -/
theorem Stacked.mono {top' : ℕ} (h : Stacked len hs top) (hle : top ≤ top') : Stacked len hs top' := by
  cases hs with
  | nil => trivial
  | cons x hs =>
    cases x with
    | block b e => exact ⟨h.1.trans hle, h.2⟩
    | mark m => exact ⟨h.1.trans hle, h.2⟩

theorem Stacked.push_block {top' : ℕ} (h : Stacked len hs top) {b : β} (hle : top + len b ≤ top') :
    Stacked len (.block b top' :: hs) top' :=
  ⟨le_rfl, by omega, h.mono (by omega)⟩

theorem Stacked.push_mark (h : Stacked len hs top) : Stacked len (.mark top :: hs) top := ⟨le_rfl, h⟩

/-- Going back to a mark leaves a stack that fits below the mark. -/
theorem Stacked.dropTo {i m : ℕ} (h : Stacked len hs top) (hd : dropTo hs i = some (m, hs')) :
    m ≤ top ∧ Stacked len hs' m := by
  induction hs generalizing top i with
  | nil => cases hd
  | cons x hs ih =>
    cases x with
    | block b e =>
      obtain ⟨he, hlen, hrest⟩ := h
      obtain ⟨hm, hs'⟩ := ih hrest hd
      exact ⟨by omega, hs'⟩
    | mark m' =>
      obtain ⟨hm', hrest⟩ := h
      cases i with
      | zero =>
        cases hd
        exact ⟨hm', le_rfl, hrest⟩
      | succ i =>
        obtain ⟨hm, hs'⟩ := ih hrest hd
        exact ⟨hm.trans hm', hs'⟩

/-- Going back to a mark leaves blocks that were there. -/
theorem mem_of_dropTo {i m : ℕ} (hd : dropTo hs i = some (m, hs')) {x : β × ℕ} (hx : x ∈ blocks hs') :
    x ∈ blocks hs := by
  induction hs generalizing i with
  | nil => cases hd
  | cons y hs ih =>
    cases y with
    | block b e => exact List.mem_cons_of_mem _ (ih hd)
    | mark m' =>
      cases i with
      | zero =>
        cases hd
        exact hx
      | succ i => exact ih hd

/-- Every block is below the level, and as far from level 0 as it is long. -/
theorem Stacked.le_top (h : Stacked len hs top) {b : β} {e : ℕ} (hb : (b, e) ∈ blocks hs) : len b ≤ e ∧ e ≤ top := by
  induction hs generalizing top with
  | nil => cases hb
  | cons x hs ih =>
    cases x with
    | block b' e' =>
      obtain ⟨he, hlen, hrest⟩ := h
      rcases List.mem_cons.1 hb with heq | hb
      · cases heq
        exact ⟨hlen, he⟩
      · have := ih hrest hb
        omega
    | mark m =>
      have := ih h.2 hb
      exact ⟨this.1, this.2.trans h.1⟩

/-- **No two blocks share a level.** -/
theorem Stacked.pairwise (h : Stacked len hs top) :
    (blocks hs).Pairwise fun newer older => older.2 ≤ newer.2 - len newer.1 := by
  induction hs generalizing top with
  | nil => exact List.Pairwise.nil
  | cons x hs ih =>
    cases x with
    | block b e =>
      obtain ⟨-, -, hrest⟩ := h
      refine List.Pairwise.cons ?_ (ih hrest)
      intro y hy
      exact (hrest.le_top hy).2
    | mark m => exact ih h.2

end Cop.Theory
