import Cop.Theory.Interleave
import Mathlib.Algebra.GroupWithZero.Nat
import Mathlib.Data.Fin.Tuple.Basic
import Mathlib.Data.Fin.VecNotation

/-!
# Vectors and intrinsics

The vectors of `cop_vec.h` are lanes of one element type, and the memory that they are loaded from
and stored to is a map from places to elements. Here is what the compiler and the vendors document
of the intrinsics that the header is made of: which lanes go where, and which elements of memory
are read and written. A 256-bit register is two halves, which most of its operations do not mix.

## What is defined

* `shuffle` — `__builtin_shufflevector` of clang, `__builtin_shuffle` of gcc.
* `load`, `store`, `mmStoreSs`, `mm256Broadcast`, `vld1qLane`, `vld2q` — memory.
* `mmShufflePs`, `unpacklo`, `unpackhi` — registers of 128 bits.
* `mm256ShufflePs`, `mm256Unpacklo`, `mm256Unpackhi`, `mm256Permute2f128` — registers of 256 bits.
* `vzipq`, `vuzpq` — NEON.
-/

namespace Cop.Vec

open Theory

/-- A vector of `W` elements. -/
abbrev Lanes (W : ℕ) (α : Type) := Fin W → α

/-- Memory: an element at each place. -/
abbrev Mem (α : Type) := ℕ → α

variable {α : Type} {W : ℕ}

/-- A vector of two lanes has a lane 0. -/
scoped instance neZeroTwo : NeZero 2 := ⟨by decide⟩

/-- So has one of four. -/
scoped instance neZeroFour : NeZero 4 := ⟨by decide⟩

/-- So has one of eight. -/
scoped instance neZeroEight : NeZero 8 := ⟨by decide⟩

/-! ### The compiler -/

/-- `__builtin_shufflevector(a, b, …)`: the lanes of `b` count from `W` on. -/
def shuffle (a b : Lanes W α) (mask : Fin W → Fin (W + W)) : Lanes W α := fun i => Fin.append a b (mask i)

/-! ### Memory -/

/-- All lanes from memory: `_mm_load_ps`, `_mm_load_pd`, `_mm256_load_ps`, `_mm256_load_pd`, `vld1q_f32`. -/
def load (m : Mem α) (ptr : ℕ) : Lanes W α := block m ptr

/-- All lanes to memory: `_mm_store_ps`, `_mm_store_pd`, `_mm256_store_ps`, `_mm256_store_pd`, `vst1q_f32`. -/
def store (m : Mem α) (ptr : ℕ) (a : Lanes W α) : Mem α := put m ptr (List.ofFn a)

/-- `_mm_load_ss`, `_mm_load_sd`: lane 0 from memory, and zeros. -/
def mmLoadSs [Zero α] (m : Mem α) (ptr : ℕ) : Lanes W α := fun i => if i.val = 0 then m ptr else 0

/-- `_mm_store_ss`, `_mm_store_sd`: lane 0 to memory. -/
def mmStoreSs [NeZero W] (m : Mem α) (ptr : ℕ) (a : Lanes W α) : Mem α := Function.update m ptr (a 0)

/-- `_mm256_broadcast_ss`, `_mm256_broadcast_sd`: one element from memory in all lanes. -/
def mm256Broadcast (m : Mem α) (ptr : ℕ) : Lanes W α := fun _ => m ptr

/-- `vld1q_lane_f32`: one lane from memory. -/
def vld1qLane (m : Mem α) (ptr : ℕ) (a : Lanes 4 α) (lane : Fin 4) : Lanes 4 α := Function.update a lane (m ptr)

/-- `vld2q_f32`: eight elements from memory, in turn to the two vectors. -/
def vld2q (m : Mem α) (ptr : ℕ) : Lanes 4 α × Lanes 4 α :=
  (![m ptr, m (ptr + 2), m (ptr + 4), m (ptr + 6)], ![m (ptr + 1), m (ptr + 3), m (ptr + 5), m (ptr + 7)])

/-! ### Registers of 128 bits -/

/-- `_mm_move_ss`, `_mm_move_sd`: lane 0 from `b`. -/
def mmMoveSs (a b : Lanes W α) : Lanes W α := fun i => if i.val = 0 then b i else a i

/-- `_MM_SHUFFLE`. -/
def mmShuffle (z y x w : ℕ) : ℕ := z <<< 6 ||| y <<< 4 ||| x <<< 2 ||| w

/-- The `k`-th pair of bits of an immediate. -/
def sel (imm k : ℕ) : Fin 4 := Fin.ofNat 4 (imm >>> (2 * k))

/-- `_mm_shuffle_ps`. -/
def mmShufflePs (a b : Lanes 4 α) (imm : ℕ) : Lanes 4 α := ![a (sel imm 0), a (sel imm 1), b (sel imm 2), b (sel imm 3)]

/-- `_mm_unpacklo_ps`. -/
def mmUnpackloPs (a b : Lanes 4 α) : Lanes 4 α := ![a 0, b 0, a 1, b 1]

/-- `_mm_unpackhi_ps`. -/
def mmUnpackhiPs (a b : Lanes 4 α) : Lanes 4 α := ![a 2, b 2, a 3, b 3]

/-- `_mm_unpacklo_pd`. -/
def mmUnpackloPd (a b : Lanes 2 α) : Lanes 2 α := ![a 0, b 0]

/-- `_mm_unpackhi_pd`. -/
def mmUnpackhiPd (a b : Lanes 2 α) : Lanes 2 α := ![a 1, b 1]

/-! ### Registers of 256 bits -/

/-- The lower half. -/
def lo (h : ℕ) (a : Lanes (h + h) α) : Lanes h α := fun i => a (Fin.castAdd h i)

/-- The upper half. -/
def hi (h : ℕ) (a : Lanes (h + h) α) : Lanes h α := fun i => a (Fin.natAdd h i)

/-- An operation on each half. -/
def halves (h : ℕ) (f : Lanes h α → Lanes h α → Lanes h α) (a b : Lanes (h + h) α) : Lanes (h + h) α :=
  Fin.append (f (lo h a) (lo h b)) (f (hi h a) (hi h b))

/-- `_mm256_unpacklo_ps`. -/
def mm256UnpackloPs (a b : Lanes 8 α) : Lanes 8 α := halves 4 mmUnpackloPs a b

/-- `_mm256_unpackhi_ps`. -/
def mm256UnpackhiPs (a b : Lanes 8 α) : Lanes 8 α := halves 4 mmUnpackhiPs a b

/-- `_mm256_unpacklo_pd`. -/
def mm256UnpackloPd (a b : Lanes 4 α) : Lanes 4 α := halves 2 mmUnpackloPd a b

/-- `_mm256_unpackhi_pd`. -/
def mm256UnpackhiPd (a b : Lanes 4 α) : Lanes 4 α := halves 2 mmUnpackhiPd a b

/-- `_mm256_shuffle_ps`. -/
def mm256ShufflePs (a b : Lanes 8 α) (imm : ℕ) : Lanes 8 α := halves 4 (mmShufflePs · · imm) a b

/-- The half that four bits of an immediate select: one of four, or zeros. -/
def half [Zero α] (h : ℕ) (a b : Lanes (h + h) α) (c : ℕ) : Lanes h α :=
  if c.testBit 3 then fun _ => 0
  else if c.testBit 1 then (if c.testBit 0 then hi h b else lo h b)
  else if c.testBit 0 then hi h a else lo h a

/-- `_mm256_permute2f128_ps`, `_mm256_permute2f128_pd`. -/
def mm256Permute2f128 [Zero α] (h : ℕ) (a b : Lanes (h + h) α) (imm : ℕ) : Lanes (h + h) α :=
  Fin.append (half h a b imm) (half h a b (imm >>> 4))

/-- `_mm256_blend_ps`, `_mm256_blend_pd`. -/
def mm256Blend (a b : Lanes W α) (imm : ℕ) : Lanes W α := fun i => if imm.testBit i then b i else a i

/-- `_mm256_extractf128_ps`, `_mm256_extractf128_pd`. -/
def mm256Extractf128 (h : ℕ) (a : Lanes (h + h) α) (imm : ℕ) : Lanes h α := if imm.testBit 0 then hi h a else lo h a

/-! ### NEON -/

/-- `vzipq_f32`. -/
def vzipq (a b : Lanes 4 α) : Lanes 4 α × Lanes 4 α := (![a 0, b 0, a 1, b 1], ![a 2, b 2, a 3, b 3])

/-- `vuzpq_f32`. -/
def vuzpq (a b : Lanes 4 α) : Lanes 4 α × Lanes 4 α := (![a 0, a 2, b 0, b 2], ![a 1, a 3, b 1, b 3])

end Cop.Vec
