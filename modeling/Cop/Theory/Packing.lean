import Cop.Theory.Word
import Mathlib.Algebra.BigOperators.Group.List.Basic
import Mathlib.Algebra.GroupWithZero.Nat

/-!
# Packing blocks

Blocks of given sizes and alignments are put one behind the other, from an address on. Before
each comes the padding to its alignment. The same blocks may need more padding, or less, from
another address.

## What is proved

* `packed_cons` — the first block, and the others behind it.
* `padsFrom_uniform` — blocks of one alignment, whose sizes are multiples of it, need padding
  before the first of them only.
* `padTo_add` — padding depends on an address up to multiples of the alignment.
-/

namespace Cop.Theory

/-- The bytes of padding that blocks (sizes and alignments) need from the address `n` on. -/
def padsFrom : ℕ → List (ℕ × ℕ) → ℕ
  | _, [] => 0
  | n, (size, align) :: bs => padTo align n + padsFrom (n + padTo align n + size) bs

/-- The bytes of the blocks. -/
def lengths (bs : List (ℕ × ℕ)) : ℕ := (bs.map Prod.fst).sum

/-- What blocks take up from the address `n` on. -/
def packed (n : ℕ) (bs : List (ℕ × ℕ)) : ℕ := padsFrom n bs + lengths bs

@[simp] theorem lengths_cons (b : ℕ × ℕ) (bs : List (ℕ × ℕ)) : lengths (b :: bs) = b.1 + lengths bs := rfl

/-- The first block comes behind its padding, and the others behind it. -/
theorem packed_cons (n size align : ℕ) (bs : List (ℕ × ℕ)) :
    packed n ((size, align) :: bs) = padTo align n + size + packed (n + padTo align n + size) bs := by
  rw [packed, packed, padsFrom, lengths_cons]
  omega

/-- Padding depends on an address up to multiples of the alignment. -/
theorem padTo_add {a k : ℕ} (h : a ∣ k) (n : ℕ) : padTo a (k + n) = padTo a n := by
  obtain ⟨q, rfl⟩ := h
  rw [padTo, padTo, Nat.mul_add_mod]

theorem padTo_of_dvd {a n : ℕ} (h : a ∣ n) : padTo a n = 0 := by
  rw [padTo, Nat.mod_eq_zero_of_dvd h, Nat.sub_zero, Nat.mod_self]

/-- From an aligned address on, blocks of one alignment whose sizes are multiples of it need no
padding. -/
theorem padsFrom_aligned {a n : ℕ} {bs : List (ℕ × ℕ)} (hbs : ∀ b ∈ bs, b.2 = a ∧ a ∣ b.1) (hn : a ∣ n) :
    padsFrom n bs = 0 := by
  induction bs generalizing n with
  | nil => rfl
  | cons b bs ih =>
    obtain ⟨size, align⟩ := b
    obtain ⟨hb, hbs⟩ := List.forall_mem_cons.1 hbs
    obtain ⟨rfl, hsize⟩ : align = a ∧ a ∣ size := hb
    rw [padsFrom, padTo_of_dvd hn, ih hbs (Nat.dvd_add (Nat.dvd_add hn (Nat.dvd_zero _)) hsize)]

/-- Blocks of one alignment, whose sizes are multiples of it, need padding before the first only. -/
theorem padsFrom_uniform {a n size : ℕ} {bs : List (ℕ × ℕ)} (ha : 0 < a)
    (hbs : ∀ b ∈ (size, a) :: bs, b.2 = a ∧ a ∣ b.1) : padsFrom n ((size, a) :: bs) = padTo a n := by
  obtain ⟨⟨-, hsize⟩, hbs⟩ := List.forall_mem_cons.1 hbs
  rw [padsFrom, padsFrom_aligned hbs (Nat.dvd_add (dvd_add_padTo ha) hsize), Nat.add_zero]

end Cop.Theory
