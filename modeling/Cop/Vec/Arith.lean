import Cop.Vec.Backends

/-!
# Arithmetic of vectors

The operations of `cop_vec.h` that take and give vectors only: addition, subtraction,
multiplication, negation, a value in all lanes, rotation to the left with a lane of another vector
coming in, reversal, the lesser and the greater of two vectors, and the least and the greatest lane
of one. Each back-end makes them of its own instructions. What these compute of an element is a
parameter, as the language and the vendors document it.

## What is defined

* `Elem` — elements: the operations of C, and the laws of theirs that the back-ends rely on.
* `mmShufflePd`, `mm256PermutePs`, `mm256PermutePd`, `mm256ShufflePd`, `vrev64q`, `vextq`, … — more
  of the intrinsics.
* `hmax2`, `hmax4`, `hmax8` — the generic functions of section 3.
* `Arith`, `Impl.arith` — the operations of each back-end.
-/

namespace Cop.Vec

open Theory

variable {α : Type} {W : ℕ}

/-! ### Elements -/

/-- What C, and the machine, compute of elements. -/
structure Elem (α : Type) where
  /-- `a + b`. -/
  add : α → α → α
  /-- `a - b`. -/
  sub : α → α → α
  /-- `a * b`. -/
  mul : α → α → α
  /-- `-a`. -/
  neg : α → α
  /-- `a < b`. -/
  lt : α → α → Bool
  /-- `a` is no number. -/
  isnan : α → Bool
  /-- The exclusive or of the bits of `a` and `b`. -/
  xor : α → α → α
  /-- `-0.0`. -/
  negZero : α
  /-- A lane of `vminq_f32`. -/
  vmin : α → α → α
  /-- A lane of `vmaxq_f32`. -/
  vmax : α → α → α
  /-- `-0.0` is a sign and nothing else. -/
  xor_negZero : ∀ a, xor a negZero = neg a
  /-- Of two elements, one is less than the other at most. -/
  lt_asymm : ∀ a b, lt a b = true → lt b a = false
  /-- A number is above the lesser of two elements, or below the greater. -/
  lt_between : ∀ a b c, isnan b = false → lt a c = true → lt a b = true ∨ lt b c = true
  /-- The lesser of two numbers is one of them, and neither is less. -/
  vmin_chooses : ∀ a b, isnan a = false → isnan b = false →
    (vmin a b = a ∨ vmin a b = b) ∧ lt a (vmin a b) = false ∧ lt b (vmin a b) = false
  /-- The greater of two numbers is one of them, and neither is greater. -/
  vmax_chooses : ∀ a b, isnan a = false → isnan b = false →
    (vmax a b = a ∨ vmax a b = b) ∧ lt (vmax a b) a = false ∧ lt (vmax a b) b = false

/-- `a < b ? a : b`, as C has it, and a lane of `_mm_min_ps`. -/
def Elem.min (E : Elem α) (a b : α) : α := if E.lt a b then a else b

/-- `a > b ? a : b`, as C has it, and a lane of `_mm_max_ps`. -/
def Elem.max (E : Elem α) (a b : α) : α := if E.lt b a then a else b

/-- Numbers of a sign and a magnitude, as floats are: there are two zeros. -/
structure SignMag where
  /-- The sign. -/
  sign : Bool
  /-- The magnitude. -/
  mag : ℕ
  deriving DecidableEq

namespace SignMag

instance : Zero SignMag := ⟨⟨false, 0⟩⟩

/-- The number that is meant. -/
def toInt (a : SignMag) : ℤ := if a.sign then -a.mag else a.mag

/-- A number, with the sign of zero. -/
def ofInt (n : ℤ) : SignMag := ⟨decide (n < 0), n.natAbs⟩

/-- The machine chooses the negative zero as the lesser, and the positive one as the greater. -/
def elem : Elem SignMag where
  add a b := ofInt (a.toInt + b.toInt)
  sub a b := ofInt (a.toInt - b.toInt)
  mul a b := ⟨a.sign ^^ b.sign, a.mag * b.mag⟩
  neg a := ⟨!a.sign, a.mag⟩
  lt a b := decide (a.toInt < b.toInt)
  isnan _ := false
  xor a b := ⟨a.sign ^^ b.sign, a.mag ^^^ b.mag⟩
  negZero := ⟨true, 0⟩
  vmin a b := if a.toInt < b.toInt ∨ a.toInt = b.toInt ∧ a.sign then a else b
  vmax a b := if b.toInt < a.toInt ∨ a.toInt = b.toInt ∧ b.sign then a else b
  xor_negZero a := by rw [Bool.xor_true, Nat.xor_zero]
  lt_asymm a b h := by
    rw [decide_eq_true_iff] at h
    exact decide_eq_false (by omega)
  lt_between a b c _ h := by
    rw [decide_eq_true_iff] at h
    rw [decide_eq_true_iff, decide_eq_true_iff]
    omega
  vmin_chooses a b _ _ := by
    split
    · exact ⟨Or.inl rfl, decide_eq_false (by omega), decide_eq_false (by omega)⟩
    · exact ⟨Or.inr rfl, decide_eq_false (by omega), decide_eq_false (by omega)⟩
  vmax_chooses a b _ _ := by
    split
    · exact ⟨Or.inl rfl, decide_eq_false (by omega), decide_eq_false (by omega)⟩
    · exact ⟨Or.inr rfl, decide_eq_false (by omega), decide_eq_false (by omega)⟩

end SignMag

/-! ### Intrinsics -/

/-- An operation in each lane: `a + b` on the compiler's vectors, `_mm_add_ps`, `_mm256_add_pd`,
`vaddq_f32`, and so on. -/
def lanewise (f : α → α → α) (a b : Lanes W α) : Lanes W α := fun i => f (a i) (b i)

/-- `_mm_set1_ps`, `_mm_set1_pd`. -/
def mmSet1 (a : α) : Lanes W α := fun _ => a

/-- `_MM_SHUFFLE2`. -/
def mmShuffle2 (x y : ℕ) : ℕ := x <<< 1 ||| y

/-- The `k`-th bit of an immediate. -/
def sel2 (imm k : ℕ) : Fin 2 := Fin.ofNat 2 (imm >>> k)

/-- `_mm_shuffle_pd`. -/
def mmShufflePd (a b : Lanes 2 α) (imm : ℕ) : Lanes 2 α := ![a (sel2 imm 0), b (sel2 imm 1)]

/-- `_mm256_permute_ps`. -/
def mm256PermutePs (a : Lanes 8 α) (imm : ℕ) : Lanes 8 α := halves 4 (mmShufflePs · · imm) a a

/-- `_mm256_shuffle_pd`: two bits for each half. -/
def mm256ShufflePd (a b : Lanes 4 α) (imm : ℕ) : Lanes 4 α :=
  Fin.append (mmShufflePd (lo 2 a) (lo 2 b) imm) (mmShufflePd (hi 2 a) (hi 2 b) (imm >>> 2))

/-- `_mm256_permute_pd`. -/
def mm256PermutePd (a : Lanes 4 α) (imm : ℕ) : Lanes 4 α := mm256ShufflePd a a imm

/-- `vrev64q_f32`: the lanes of each half change places. -/
def vrev64q (a : Lanes 4 α) : Lanes 4 α := ![a 1, a 0, a 3, a 2]

/-- `vget_low_f32`. -/
def vgetLow (a : Lanes 4 α) : Lanes 2 α := lo 2 a

/-- `vget_high_f32`. -/
def vgetHigh (a : Lanes 4 α) : Lanes 2 α := hi 2 a

/-- `vcombine_f32`. -/
def vcombine (low high : Lanes 2 α) : Lanes 4 α := Fin.append low high

/-- `vextq_u32`: four lanes in a row of two vectors. -/
def vextq (a b : Lanes 4 α) (n : Fin 5) : Lanes 4 α := fun i => Fin.append a b ⟨n + i, by omega⟩

/-! ### The operations -/

/-- What every back-end provides, beside `Basic`. -/
@[ext]
structure BasicArith (W : ℕ) (α : Type) where
  /-- `add`. -/
  add : Lanes W α → Lanes W α → Lanes W α
  /-- `sub`. -/
  sub : Lanes W α → Lanes W α → Lanes W α
  /-- `mul`. -/
  mul : Lanes W α → Lanes W α → Lanes W α
  /-- `broadcast`. -/
  broadcast : α → Lanes W α
  /-- `neg`. -/
  neg : Lanes W α → Lanes W α
  /-- `rotl`. -/
  rotl : Lanes W α → Lanes W α → Lanes W α
  /-- `reverse`. -/
  reverse : Lanes W α → Lanes W α
  /-- `min`. -/
  min : Lanes W α → Lanes W α → Lanes W α
  /-- `max`. -/
  max : Lanes W α → Lanes W α → Lanes W α

/-- All of them. The functions for one lane of all have an array `st` of their own, whose elements
are what they are before. -/
structure Arith (W : ℕ) (α : Type) extends BasicArith W α where
  /-- `hmin`. -/
  hmin : Mem α → Lanes W α → α
  /-- `hmax`. -/
  hmax : Mem α → Lanes W α → α

/-! ### The generic functions -/

/-- `v2d_hmax`; with `min` for `max`, `v2d_hmin`. -/
def hmax2 (B : Basic 2 α) (max : Lanes 2 α → Lanes 2 α → Lanes 2 α) (st : Mem α) (a : Lanes 2 α) : α :=
  let (x, y) := B.interleave a a
  let a := max x y
  B.st st 0 a 0

/-- `v4f_hmax` and `v4d_hmax`; with `min` for `max`, `v4f_hmin` and `v4d_hmin`. -/
def hmax4 (B : Basic 4 α) (max : Lanes 4 α → Lanes 4 α → Lanes 4 α) (st : Mem α) (a : Lanes 4 α) : α :=
  let (x, y) := B.interleave a a
  let x := max x y
  let (a, y) := B.interleave x x
  let a := max a y
  B.st st 0 a 0

/-- `v8f_hmax`; with `min` for `max`, `v8f_hmin`. -/
def hmax8 (B : Basic 8 α) (max : Lanes 8 α → Lanes 8 α → Lanes 8 α) (st : Mem α) (a : Lanes 8 α) : α :=
  let (x, y) := B.interleave a a
  let a := max x y
  let (x, y) := B.interleave a a
  let a := max x y
  let (x, y) := B.interleave a a
  let a := max x y
  B.st st 0 a 0

/-! ### Builtin vectors -/

/-- The operations of `VEC_BASIC_OPERATIONS` on vectors, and those given. -/
def vecBasicArith (W : ℕ) (E : Elem α) (initsplat : α → Lanes W α) (rotl : Lanes W α → Lanes W α → Lanes W α)
    (reverse : Lanes W α → Lanes W α) (min max : Lanes W α → Lanes W α → Lanes W α) : BasicArith W α where
  add a b := lanewise E.add a b
  sub a b := lanewise E.sub a b
  mul a b := lanewise E.mul a b
  broadcast a := initsplat a
  neg a := fun i => E.neg (a i)
  rotl := rotl
  reverse := reverse
  min := min
  max := max

/-- `VEC_INITSPLAT2`. -/
def vecInitsplat2 (a : α) : Lanes 2 α := ![a, a]

/-- `VEC_INITSPLAT4`. -/
def vecInitsplat4 (a : α) : Lanes 4 α := ![a, a, a, a]

/-- `VEC_INITSPLAT8`. -/
def vecInitsplat8 (a : α) : Lanes 8 α := ![a, a, a, a, a, a, a, a]

/-- `v2d_max`; with `Elem.min`, `v2d_min`. -/
def builtinMax2 (max : α → α → α) (a b : Lanes 2 α) : Lanes 2 α := ![max (a 0) (b 0), max (a 1) (b 1)]

/-- `v4f_max` and `v4d_max`; with `Elem.min`, `v4f_min` and `v4d_min`. -/
def builtinMax4 (max : α → α → α) (a b : Lanes 4 α) : Lanes 4 α :=
  ![max (a 0) (b 0), max (a 1) (b 1), max (a 2) (b 2), max (a 3) (b 3)]

/-- `v8f_max`; with `Elem.min`, `v8f_min`. -/
def builtinMax8 (max : α → α → α) (a b : Lanes 8 α) : Lanes 8 α :=
  ![max (a 0) (b 0), max (a 1) (b 1), max (a 2) (b 2), max (a 3) (b 3), max (a 4) (b 4), max (a 5) (b 5),
    max (a 6) (b 6), max (a 7) (b 7)]

/-- `v4f`. -/
def builtinV4fArith (E : Elem α) : Arith 4 α where
  toBasicArith := vecBasicArith 4 E vecInitsplat4 builtinV4Rotl builtinV4Reverse (builtinMax4 E.min) (builtinMax4 E.max)
  hmin := hmax4 builtinV4f.toBasic (builtinMax4 E.min)
  hmax := hmax4 builtinV4f.toBasic (builtinMax4 E.max)

/-- `v2d`. -/
def builtinV2dArith (E : Elem α) : Arith 2 α where
  toBasicArith := vecBasicArith 2 E vecInitsplat2 builtinV2dRotl builtinV2dReverse (builtinMax2 E.min) (builtinMax2 E.max)
  hmin := hmax2 builtinV2d.toBasic (builtinMax2 E.min)
  hmax := hmax2 builtinV2d.toBasic (builtinMax2 E.max)

/-- `v8f`. -/
def builtinV8fArith (E : Elem α) : Arith 8 α where
  toBasicArith := vecBasicArith 8 E vecInitsplat8 builtinV8fRotl builtinV8fReverse (builtinMax8 E.min) (builtinMax8 E.max)
  hmin := hmax8 builtinV8f.toBasic (builtinMax8 E.min)
  hmax := hmax8 builtinV8f.toBasic (builtinMax8 E.max)

/-- `v4d`. -/
def builtinV4dArith (E : Elem α) : Arith 4 α where
  toBasicArith := vecBasicArith 4 E vecInitsplat4 builtinV4Rotl builtinV4Reverse (builtinMax4 E.min) (builtinMax4 E.max)
  hmin := hmax4 builtinV4d.toBasic (builtinMax4 E.min)
  hmax := hmax4 builtinV4d.toBasic (builtinMax4 E.max)

/-! ### SSE -/

/-- The operations of `VEC_SSE_BASIC_OPERATIONS` on vectors, and those given. -/
def vecSseBasicArith (W : ℕ) (E : Elem α) (rotl : Lanes W α → Lanes W α → Lanes W α)
    (reverse : Lanes W α → Lanes W α) : BasicArith W α where
  add a b := lanewise E.add a b
  sub a b := lanewise E.sub a b
  mul a b := lanewise E.mul a b
  broadcast a := mmSet1 a
  neg a := lanewise E.xor a (mmSet1 E.negZero)
  rotl := rotl
  reverse := reverse
  min a b := lanewise E.min a b
  max a b := lanewise E.max a b

/-- `v4f_rotl`. -/
def sseV4fRotl (a b : Lanes 4 α) : Lanes 4 α :=
  let a := mmMoveSs a b
  mmShufflePs a a (mmShuffle 0 3 2 1)

/-- `v4f`. -/
def sseV4fArith [Zero α] (E : Elem α) : Arith 4 α where
  toBasicArith := vecSseBasicArith 4 E sseV4fRotl (fun a => mmShufflePs a a (mmShuffle 0 1 2 3))
  hmin := hmax4 sseV4f.toBasic (lanewise E.min)
  hmax := hmax4 sseV4f.toBasic (lanewise E.max)

/-- `v2d`. -/
def sseV2dArith [Zero α] (E : Elem α) : Arith 2 α where
  toBasicArith := vecSseBasicArith 2 E (fun a b => mmShufflePd a b (mmShuffle2 0 1))
    (fun a => mmShufflePd a a (mmShuffle2 0 1))
  hmin := hmax2 sseV2d.toBasic (lanewise E.min)
  hmax := hmax2 sseV2d.toBasic (lanewise E.max)

/-! ### AVX -/

/-- The operations of `VEC_AVX_BASIC_OPERATIONS` on vectors, and those given. A value in all lanes is
read from where the parameter, or the constant, is. -/
def vecAvxBasicArith (W : ℕ) (E : Elem α) (rotl : Lanes W α → Lanes W α → Lanes W α)
    (reverse : Lanes W α → Lanes W α) : BasicArith W α where
  add a b := lanewise E.add a b
  sub a b := lanewise E.sub a b
  mul a b := lanewise E.mul a b
  broadcast a := mm256Broadcast (fun _ => a) 0
  neg a := lanewise E.xor a (mm256Broadcast (fun _ => E.negZero) 0)
  rotl := rotl
  reverse := reverse
  min a b := lanewise E.min a b
  max a b := lanewise E.max a b

/-- `v8f_reverse`. -/
def avxV8fReverse [Zero α] (a : Lanes 8 α) : Lanes 8 α :=
  let a := mm256Permute2f128 4 a a 0x01
  mm256PermutePs a (mmShuffle 0 1 2 3)

/-- `v8f_rotl`. -/
def avxV8fRotl [Zero α] (a b : Lanes 8 α) : Lanes 8 α :=
  let b := mm256Blend a b 0x01
  let b := mm256Permute2f128 4 b b 0x01
  let b := mm256Blend a b 0x11
  mm256ShufflePs b b (mmShuffle 0 3 2 1)

/-- `v4d_reverse`. -/
def avxV4dReverse [Zero α] (a : Lanes 4 α) : Lanes 4 α :=
  let a := mm256Permute2f128 2 a a 0x01
  mm256PermutePd a 0x05

/-- `v4d_rotl`. -/
def avxV4dRotl [Zero α] (a b : Lanes 4 α) : Lanes 4 α :=
  let b := mm256Blend a b 0x01
  let b := mm256Permute2f128 2 b b 0x01
  mm256ShufflePd a b 0x05

/-- `v8f`. -/
def avxV8fArith [Zero α] (E : Elem α) : Arith 8 α where
  toBasicArith := vecAvxBasicArith 8 E avxV8fRotl avxV8fReverse
  hmin := hmax8 avxV8f.toBasic (lanewise E.min)
  hmax := hmax8 avxV8f.toBasic (lanewise E.max)

/-- `v4d`. -/
def avxV4dArith [Zero α] (E : Elem α) : Arith 4 α where
  toBasicArith := vecAvxBasicArith 4 E avxV4dRotl avxV4dReverse
  hmin := hmax4 avxV4d.toBasic (lanewise E.min)
  hmax := hmax4 avxV4d.toBasic (lanewise E.max)

/-! ### NEON -/

/-- `v4f_reverse`. -/
def neonV4fReverse (a : Lanes 4 α) : Lanes 4 α :=
  let b := vrev64q a
  vcombine (vgetHigh b) (vgetLow b)

/-- `v4f`. -/
def neonV4fArith (E : Elem α) : Arith 4 α where
  add a b := lanewise E.add a b
  sub a b := lanewise E.sub a b
  mul a b := lanewise E.mul a b
  broadcast a := fun _ => a
  neg a := fun i => E.neg (a i)
  rotl a b := vextq a b 1
  reverse := neonV4fReverse
  min a b := lanewise E.vmin a b
  max a b := lanewise E.vmax a b
  hmin := hmax4 neonV4f.toBasic (lanewise E.vmin)
  hmax := hmax4 neonV4f.toBasic (lanewise E.vmax)

/-! ### Scalars -/

/-- `v1f` and `v1d`. -/
def v1Arith (E : Elem α) : Arith 1 α where
  toBasicArith := vecBasicArith 1 E (fun a _ => a) (fun _ b => b) (fun a => a) (lanewise E.min) (lanewise E.max)
  hmin _ a := a ⟨0, Nat.one_pos⟩
  hmax _ a := a ⟨0, Nat.one_pos⟩

/-! ### All of them -/

/-- The operations of a back-end on vectors. -/
def Impl.arith [Zero α] (E : Elem α) : Impl W → Arith W α
  | .builtinV4f => builtinV4fArith E
  | .builtinV2d => builtinV2dArith E
  | .builtinV8f => builtinV8fArith E
  | .builtinV4d => builtinV4dArith E
  | .sseV4f => sseV4fArith E
  | .sseV2d => sseV2dArith E
  | .avxV8f => avxV8fArith E
  | .avxV4d => avxV4dArith E
  | .neonV4f => neonV4fArith E
  | .v1f => v1Arith E
  | .v1d => v1Arith E

end Cop.Vec
