import Cop.Vec.Transpose

/-!
# Interleaved arrays

An array of elements that belong to two sequences in turn is read by loops of `LD2DINT` or
`LD2X2DINT` and written by loops of `ST2INT` or `ST2X2INT`, a pair of vectors of `W` elements at a
time. The double operations take two blocks of one array in a turn, or one block of each of two
arrays.

## What is proved

* `ld2dintLoop_eq`, `st2intLoop_eq` — what the loops of single operations do.
* `ld2x2dintLoop_eq`, `st2x2intLoop_eq`, `ld2x2dintPairLoop_eq`, `st2x2intPairLoop_eq` — the loops of
  double operations do what those of single ones do.
* `interleaved_access` — interleaved access, and transposition, on every back-end.
-/

namespace Cop.Vec

open Theory

variable {W : ℕ} {α : Type}

/-! ### The loops -/

section Loops

variable (B : Ops W α) (m : Mem α)

/-- `LD2DINT` on the first `n` blocks of the array at `x`. -/
def ld2dintLoop (x : ℕ) : ℕ → List α × List α
  | 0 => ([], [])
  | n + 1 =>
    let (a, b) := ld2dintLoop x n
    let (r0, r1) := B.ld2dint m (x + 2 * (W * n))
    (a ++ List.ofFn r0, b ++ List.ofFn r1)

/-- `LD2X2DINT` on the array at `x`, two blocks a turn. -/
def ld2x2dintLoop (x : ℕ) : ℕ → List α × List α
  | 0 => ([], [])
  | n + 1 =>
    let (a, b) := ld2x2dintLoop x n
    let (r00, r01, r10, r11) := B.ld2x2dint m (x + 2 * (W * (2 * n))) (x + 2 * (W * (2 * n + 1)))
    (a ++ List.ofFn r00 ++ List.ofFn r10, b ++ List.ofFn r01 ++ List.ofFn r11)

/-- `LD2X2DINT` on the arrays at `x` and `y`, a block of each a turn. -/
def ld2x2dintPairLoop (x y : ℕ) : ℕ → (List α × List α) × (List α × List α)
  | 0 => (([], []), ([], []))
  | n + 1 =>
    let ((a, b), (c, d)) := ld2x2dintPairLoop x y n
    let (r00, r01, r10, r11) := B.ld2x2dint m (x + 2 * (W * n)) (y + 2 * (W * n))
    ((a ++ List.ofFn r00, b ++ List.ofFn r01), (c ++ List.ofFn r10, d ++ List.ofFn r11))

/-- `ST2INT` of the first `n` blocks of `a` and `b`. -/
def st2intLoop (dest : ℕ) (a b : ℕ → α) : ℕ → Mem α
  | 0 => m
  | n + 1 => B.st2int (st2intLoop dest a b n) (dest + 2 * (W * n)) (block a (W * n)) (block b (W * n))

/-- `ST2X2INT` of `a` and `b`, two blocks a turn. -/
def st2x2intLoop (dest : ℕ) (a b : ℕ → α) : ℕ → Mem α
  | 0 => m
  | n + 1 =>
    B.st2x2int (st2x2intLoop dest a b n) (dest + 2 * (W * (2 * n))) (dest + 2 * (W * (2 * n + 1)))
      (block a (W * (2 * n))) (block b (W * (2 * n))) (block a (W * (2 * n + 1))) (block b (W * (2 * n + 1)))

/-- `ST2X2INT` of `a` and `b` to one array, and `c` and `d` to another, a block of each a turn. -/
def st2x2intPairLoop (dest0 dest1 : ℕ) (a b c d : ℕ → α) : ℕ → Mem α
  | 0 => m
  | n + 1 =>
    B.st2x2int (st2x2intPairLoop dest0 dest1 a b c d n) (dest0 + 2 * (W * n)) (dest1 + 2 * (W * n))
      (block a (W * n)) (block b (W * n)) (block c (W * n)) (block d (W * n))

end Loops

/-! ### Interleaved access -/

/-- What interleaved access to arrays of `2 * N` elements is to be, for `N` a multiple of `W`. -/
structure ArrayAccess (B : Ops W α) : Prop where
  /-- A loop of `LD2DINT` yields `x[0]`, `x[2]`, … and `x[1]`, `x[3]`, … -/
  ld2dint : ∀ m x n, ld2dintLoop B m x n = (window (evens m x) 0 (W * n), window (odds m x) 0 (W * n))
  /-- So does a loop of `LD2X2DINT`. -/
  ld2x2dint : ∀ m x n,
    ld2x2dintLoop B m x n = (window (evens m x) 0 (W * (2 * n)), window (odds m x) 0 (W * (2 * n)))
  /-- So does one over two arrays. -/
  ld2x2dintPair : ∀ m x y n, ld2x2dintPairLoop B m x y n =
    ((window (evens m x) 0 (W * n), window (odds m x) 0 (W * n)),
      (window (evens m y) 0 (W * n), window (odds m y) 0 (W * n)))
  /-- A loop of `ST2INT` writes `a[0]`, `b[0]`, `a[1]`, `b[1]`, … -/
  st2int : ∀ m dest a b n, Writes m (st2intLoop B m dest a b n) dest (window (alternate a b) 0 (2 * (W * n)))
  /-- So does a loop of `ST2X2INT`. -/
  st2x2int : ∀ m dest a b n,
    Writes m (st2x2intLoop B m dest a b n) dest (window (alternate a b) 0 (2 * (W * (2 * n))))
  /-- So does one over two arrays that do not meet. -/
  st2x2intPair : ∀ m dest0 dest1 a b c d n, Clear dest0 (2 * (W * n)) dest1 (2 * (W * n)) →
    ∃ m', Writes m m' dest0 (window (alternate a b) 0 (2 * (W * n))) ∧
      Writes m' (st2x2intPairLoop B m dest0 dest1 a b c d n) dest1 (window (alternate c d) 0 (2 * (W * n)))
  /-- What was stored is loaded. -/
  ld2dint_st2int : ∀ m dest a b n,
    ld2dintLoop B (st2intLoop B m dest a b n) dest n = (window a 0 (W * n), window b 0 (W * n))
  /-- What was stored two blocks a turn is loaded. -/
  ld2x2dint_st2x2int : ∀ m dest a b n,
    ld2x2dintLoop B (st2x2intLoop B m dest a b n) dest n = (window a 0 (W * (2 * n)), window b 0 (W * (2 * n)))
  /-- What was stored to two arrays is loaded. -/
  ld2x2dintPair_st2x2intPair : ∀ m dest0 dest1 a b c d n, Clear dest0 (2 * (W * n)) dest1 (2 * (W * n)) →
    ld2x2dintPairLoop B (st2x2intPairLoop B m dest0 dest1 a b c d n) dest0 dest1 n =
      ((window a 0 (W * n), window b 0 (W * n)), (window c 0 (W * n), window d 0 (W * n)))
  /-- Storing what was loaded changes nothing. -/
  st2int_ld2dint : ∀ m x a b n, ld2dintLoop B m x n = (window a 0 (W * n), window b 0 (W * n)) →
    st2intLoop B m x a b n = m
  /-- Nor does storing what was loaded two blocks a turn. -/
  st2x2int_ld2x2dint : ∀ m x a b n,
    ld2x2dintLoop B m x n = (window a 0 (W * (2 * n)), window b 0 (W * (2 * n))) → st2x2intLoop B m x a b n = m
  /-- Nor does storing what was loaded from two arrays. -/
  st2x2intPair_ld2x2dintPair : ∀ m x y a b c d n, Clear x (2 * (W * n)) y (2 * (W * n)) →
    ld2x2dintPairLoop B m x y n =
      ((window a 0 (W * n), window b 0 (W * n)), (window c 0 (W * n), window d 0 (W * n))) →
    st2x2intPairLoop B m x y a b c d n = m

/-! ### Loads -/

/-- The operations on interleaved arrays are those of the abstract back-end. -/
structure Interleaves (B : Ops W α) : Prop where
  /-- `LD2DINT`. -/
  ld2dint : B.ld2dint = (plain W α).ld2dint
  /-- `LD2X2DINT`. -/
  ld2x2dint : B.ld2x2dint = (plain W α).ld2x2dint
  /-- `ST2INT`. -/
  st2int : B.st2int = (plain W α).st2int
  /-- `ST2X2INT`. -/
  st2x2int : B.st2x2int = (plain W α).st2x2int

theorem Impl.interleaves [Zero α] (B : Impl W) : Interleaves (B.ops : Ops W α) := by
  obtain ⟨f, hf⟩ := B.exists_ste0 (α := α)
  rw [hf]
  exact ⟨rfl, rfl, rfl, rfl⟩

section Interleaves

variable {B : Ops W α} (hB : Interleaves B)

include hB

theorem Interleaves.ld2dint_eq (m : Mem α) (x p : ℕ) :
    B.ld2dint m (x + 2 * p) = (block (evens m x) p, block (odds m x) p) := by
  rw [hB.ld2dint]
  refine Prod.ext (funext fun i => congrArg m ?_) (funext fun i => congrArg m ?_)
  · omega
  · omega

theorem Interleaves.ld2x2dint_eq (m : Mem α) (src0 src1 : ℕ) : B.ld2x2dint m src0 src1 =
    ((B.ld2dint m src0).1, (B.ld2dint m src0).2, (B.ld2dint m src1).1, (B.ld2dint m src1).2) := by
  rw [hB.ld2x2dint, hB.ld2dint]
  rfl

/-- **A loop of deinterleaving loads** yields the elements at even places, and those at odd ones. -/
theorem ld2dintLoop_eq (m : Mem α) (x n : ℕ) :
    ld2dintLoop B m x n = (window (evens m x) 0 (W * n), window (odds m x) 0 (W * n)) := by
  induction n with
  | zero => rfl
  | succ n ih => rw [ld2dintLoop, ih, hB.ld2dint_eq, window_succ_block, window_succ_block]

theorem ld2x2dintLoop_eq (m : Mem α) (x n : ℕ) : ld2x2dintLoop B m x n = ld2dintLoop B m x (2 * n) := by
  induction n with
  | zero => rfl
  | succ n ih =>
    rw [ld2x2dintLoop, ih, hB.ld2x2dint_eq]
    rfl

/-- Two arrays are read as each is. -/
theorem ld2x2dintPairLoop_eq (m : Mem α) (x y n : ℕ) :
    ld2x2dintPairLoop B m x y n = (ld2dintLoop B m x n, ld2dintLoop B m y n) := by
  induction n with
  | zero => rfl
  | succ n ih =>
    rw [ld2x2dintPairLoop, ih, hB.ld2x2dint_eq]
    rfl

/-! ### Stores -/

theorem Interleaves.st2x2int_eq (m : Mem α) (dest0 dest1 : ℕ) (r00 r01 r10 r11 : Lanes W α) :
    B.st2x2int m dest0 dest1 r00 r01 r10 r11 = B.st2int (B.st2int m dest0 r00 r01) dest1 r10 r11 := by
  rw [hB.st2x2int, hB.st2int]
  rfl

theorem Interleaves.st2int_put (m : Mem α) (dest : ℕ) (a b : ℕ → α) (n : ℕ) :
    B.st2int (put m dest (window (alternate a b) 0 (2 * (W * n)))) (dest + 2 * (W * n)) (block a (W * n))
        (block b (W * n)) =
      put m dest (window (alternate a b) 0 (2 * (W * (n + 1)))) := by
  have hsize : 2 * (W * (n + 1)) = 2 * (W * n) + (W + W) := by rw [Nat.mul_succ, Nat.mul_add, Nat.two_mul W]
  have hblock : List.ofFn (alternateLanes (block a (W * n) : Lanes W α) (block b (W * n))) =
      window (alternate a b) (2 * (W * n)) (W + W) := by rw [alternateLanes_block, ofFn_block]
  rw [hB.st2int, hsize, window_append _ 0, put_append, length_window, Nat.zero_add, ← hblock]
  rfl

/-- **A loop of interleaving stores** writes the two sequences in turn. -/
theorem st2intLoop_eq (m : Mem α) (dest : ℕ) (a b : ℕ → α) (n : ℕ) :
    st2intLoop B m dest a b n = put m dest (window (alternate a b) 0 (2 * (W * n))) := by
  induction n with
  | zero => exact (put_nil m dest).symm
  | succ n ih => rw [st2intLoop, ih, hB.st2int_put]

theorem st2x2intLoop_eq (m : Mem α) (dest : ℕ) (a b : ℕ → α) (n : ℕ) :
    st2x2intLoop B m dest a b n = st2intLoop B m dest a b (2 * n) := by
  induction n with
  | zero => rfl
  | succ n ih =>
    rw [st2x2intLoop, ih, hB.st2x2int_eq]
    rfl

/-- Two arrays that do not meet are written as each is. -/
theorem st2x2intPairLoop_eq (m : Mem α) {dest0 dest1 : ℕ} (a b c d : ℕ → α) {n : ℕ}
    (h : Clear dest0 (2 * (W * n)) dest1 (2 * (W * n))) :
    st2x2intPairLoop B m dest0 dest1 a b c d n =
      put (put m dest0 (window (alternate a b) 0 (2 * (W * n)))) dest1 (window (alternate c d) 0 (2 * (W * n))) := by
  induction n with
  | zero => rw [Nat.mul_zero, window_zero, window_zero, put_nil, put_nil, st2x2intPairLoop]
  | succ n ih =>
    have hsize : 2 * (W * (n + 1)) = 2 * (W * n) + (W + W) := by rw [Nat.mul_succ, Nat.mul_add, Nat.two_mul W]
    rw [hsize] at h
    have hbefore : Clear dest0 (2 * (W * n)) dest1 (2 * (W * n)) := by
      unfold Clear at h ⊢
      omega
    -- the block for the first array is written after what the second has so far
    have hmeet : Clear dest1 (2 * (W * n)) (dest0 + 2 * (W * n)) (W + W) := by
      unfold Clear at h ⊢
      omega
    have hfirst : B.st2int (put (put m dest0 (window (alternate a b) 0 (2 * (W * n)))) dest1
          (window (alternate c d) 0 (2 * (W * n)))) (dest0 + 2 * (W * n)) (block a (W * n)) (block b (W * n)) =
        put (put m dest0 (window (alternate a b) 0 (2 * (W * (n + 1))))) dest1
          (window (alternate c d) 0 (2 * (W * n))) := by
      rw [← hB.st2int_put m dest0, hB.st2int]
      exact put_comm _ (by rwa [length_window, List.length_ofFn])
    rw [st2x2intPairLoop, ih hbefore, hB.st2x2int_eq, hfirst, hB.st2int_put]

/-! ### Back and forth -/

/-- An array that was written is read. -/
theorem ld2dintLoop_put (m : Mem α) (dest : ℕ) (a b : ℕ → α) (n : ℕ) :
    ld2dintLoop B (put m dest (window (alternate a b) 0 (2 * (W * n)))) dest n =
      (window a 0 (W * n), window b 0 (W * n)) := by
  rw [ld2dintLoop_eq hB, window_evens_put, window_odds_put]

/-- An array that was read is there already. -/
theorem st2intLoop_read {m : Mem α} {x : ℕ} {a b : ℕ → α} {n : ℕ}
    (h : ld2dintLoop B m x n = (window a 0 (W * n), window b 0 (W * n))) : st2intLoop B m x a b n = m := by
  rw [ld2dintLoop_eq hB] at h
  obtain ⟨ha, hb⟩ := Prod.mk.inj h
  have hread : window (fun k => m (x + k)) 0 (2 * (W * n)) = window m x (2 * (W * n)) :=
    window_congr fun i _ => by rw [Nat.zero_add]
  rw [st2intLoop_eq hB, ← window_alternate_congr ha hb, alternate_evens_odds, hread, put_window]

theorem Interleaves.arrayAccess : ArrayAccess B where
  ld2dint := ld2dintLoop_eq hB
  ld2x2dint m x n := by rw [ld2x2dintLoop_eq hB, ld2dintLoop_eq hB]
  ld2x2dintPair m x y n := by rw [ld2x2dintPairLoop_eq hB, ld2dintLoop_eq hB, ld2dintLoop_eq hB]
  st2int m dest a b n := writes_iff.2 (st2intLoop_eq hB m dest a b n)
  st2x2int m dest a b n := by rw [st2x2intLoop_eq hB, writes_iff, st2intLoop_eq hB]
  st2x2intPair m dest0 dest1 a b c d n h := ⟨_, writes_iff.2 rfl, writes_iff.2 (st2x2intPairLoop_eq hB m a b c d h)⟩
  ld2dint_st2int m dest a b n := by rw [st2intLoop_eq hB, ld2dintLoop_put hB]
  ld2x2dint_st2x2int m dest a b n := by
    rw [st2x2intLoop_eq hB, st2intLoop_eq hB, ld2x2dintLoop_eq hB, ld2dintLoop_put hB]
  ld2x2dintPair_st2x2intPair m dest0 dest1 a b c d n h := by
    have hswap : put (put m dest0 (window (alternate a b) 0 (2 * (W * n)))) dest1 (window (alternate c d) 0 (2 * (W * n))) =
        put (put m dest1 (window (alternate c d) 0 (2 * (W * n)))) dest0 (window (alternate a b) 0 (2 * (W * n))) :=
      put_comm m (by rwa [length_window, length_window])
    rw [st2x2intPairLoop_eq hB m a b c d h, ld2x2dintPairLoop_eq hB, ld2dintLoop_put hB, hswap, ld2dintLoop_put hB]
  st2int_ld2dint _ _ _ _ _ h := st2intLoop_read hB h
  st2x2int_ld2x2dint _ _ _ _ _ h := by
    rw [ld2x2dintLoop_eq hB] at h
    rw [st2x2intLoop_eq hB, st2intLoop_read hB h]
  st2x2intPair_ld2x2dintPair m x y a b c d n hclear h := by
    rw [ld2x2dintPairLoop_eq hB] at h
    obtain ⟨hx, hy⟩ := Prod.mk.inj h
    have hsame := st2intLoop_read hB hx
    rw [st2intLoop_eq hB] at hsame
    rw [st2x2intPairLoop_eq hB m a b c d hclear, hsame, ← st2intLoop_eq hB, st2intLoop_read hB hy]

end Interleaves

/-- **Interleaved access means the same on every back-end**: the loops of deinterleaving loads and of
interleaving stores take an array apart into two sequences and put it together from them, the ones
undo the others, and every version of `TRANSPOSE_INPLACE` is the transposition. -/
theorem interleaved_access [Zero α] (B : Impl W) :
    ArrayAccess (B.ops : Ops W α) ∧ ∀ t ∈ B.transposes, ∀ r : Rows W α, t r = transposed r :=
  ⟨B.interleaves.arrayAccess, transposes_eq B⟩

end Cop.Vec
