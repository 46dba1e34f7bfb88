import Cop.Vec.Intrinsics

/-!
# The back-ends

The loads, stores and interleaving operations of `cop_vec.h`, as each back-end implements them: the
builtin vectors of the compiler, SSE, AVX, NEON, and the scalars that stand for vectors of one
element. A back-end must provide the operations of `Basic`. Section 3 of the header provides the
others where the back-end has not: they are the defaults of the fields of `Ops`. The element type
is a parameter, so `v4f` and `v4d` of one back-end differ by their operations only.

## What is defined

* `Basic`, `Ops` — what a back-end provides, and the generic macros.
* `builtinV4f`, `builtinV2d`, `builtinV8f`, `builtinV4d` — section 1.
* `sseV4f`, `sseV2d`, `avxV8f`, `avxV4d`, `neonV4f` — section 2.
* `v1` — the scalars.
* `Impl` — all of them, by width.
-/

namespace Cop.Vec

open Theory

/-- What every back-end provides. -/
@[ext]
structure Basic (W : ℕ) (α : Type) where
  /-- `ld`. -/
  ld : Mem α → ℕ → Lanes W α
  /-- `st`. -/
  st : Mem α → ℕ → Lanes W α → Mem α
  /-- `lde0`. -/
  lde0 : Lanes W α → Mem α → ℕ → Lanes W α
  /-- `ste0`. -/
  ste0 : Mem α → ℕ → Lanes W α → Mem α
  /-- `INTERLEAVE`. -/
  interleave : Lanes W α → Lanes W α → Lanes W α × Lanes W α
  /-- `DEINTERLEAVE`. -/
  deinterleave : Lanes W α → Lanes W α → Lanes W α × Lanes W α

/-- All operations, with the generic macros for those that the back-end does not define. -/
@[ext]
structure Ops (W : ℕ) (α : Type) extends Basic W α where
  /-- `INTERLEAVE2`. -/
  interleave2 : Lanes W α → Lanes W α → Lanes W α → Lanes W α → Lanes W α × Lanes W α × Lanes W α × Lanes W α :=
    fun in1 in2 in3 in4 =>
      let (out1, out2) := interleave in1 in2
      let (out3, out4) := interleave in3 in4
      (out1, out2, out3, out4)
  /-- `DEINTERLEAVE2`. -/
  deinterleave2 : Lanes W α → Lanes W α → Lanes W α → Lanes W α → Lanes W α × Lanes W α × Lanes W α × Lanes W α :=
    fun in1 in2 in3 in4 =>
      let (out1, out2) := deinterleave in1 in2
      let (out3, out4) := deinterleave in3 in4
      (out1, out2, out3, out4)
  /-- `LD2`. -/
  ld2 : Mem α → ℕ → Lanes W α × Lanes W α := fun m src => (ld m (src + 0), ld m (src + W))
  /-- `ST2`. -/
  st2 : Mem α → ℕ → Lanes W α → Lanes W α → Mem α := fun m dest r0 r1 => st (st m (dest + 0) r0) (dest + W) r1
  /-- `LD2DINT`. -/
  ld2dint : Mem α → ℕ → Lanes W α × Lanes W α := fun m src =>
    let (tmp1, tmp2) := ld2 m src
    deinterleave tmp1 tmp2
  /-- `ST2INT`. -/
  st2int : Mem α → ℕ → Lanes W α → Lanes W α → Mem α := fun m dest in1 in2 =>
    let (tmp0, tmp1) := interleave in1 in2
    st2 m dest tmp0 tmp1
  /-- `LD2X2DINT`. -/
  ld2x2dint : Mem α → ℕ → ℕ → Lanes W α × Lanes W α × Lanes W α × Lanes W α := fun m src0 src1 =>
    let (tmp1, tmp2) := ld2 m src0
    let (tmp3, tmp4) := ld2 m src1
    deinterleave2 tmp1 tmp2 tmp3 tmp4
  /-- `ST2X2INT`. -/
  st2x2int : Mem α → ℕ → ℕ → Lanes W α → Lanes W α → Lanes W α → Lanes W α → Mem α :=
    fun m dest0 dest1 r00 r01 r10 r11 =>
      let (tmp1, tmp2, tmp3, tmp4) := interleave2 r00 r01 r10 r11
      st2 (st2 m dest0 tmp1 tmp2) dest1 tmp3 tmp4

variable {α : Type}

/-! ### Builtin vectors -/

/-- The operations of `VEC_BASIC_OPERATIONS` on memory; `ptr` is read and written as a vector, or as
an element. -/
def vecBasicOperations (W : ℕ) [NeZero W]
    (interleave deinterleave : Lanes W α → Lanes W α → Lanes W α × Lanes W α) : Basic W α where
  ld m ptr := load m ptr
  st m ptr val := store m ptr val
  lde0 a m ptr := Function.update a 0 (m ptr)
  ste0 m ptr val := Function.update m ptr (val 0)
  interleave := interleave
  deinterleave := deinterleave

/-- `v4f`. -/
def builtinV4f : Ops 4 α where
  toBasic := vecBasicOperations 4
    (fun in1 in2 => (shuffle in1 in2 ![0, 4, 1, 5], shuffle in1 in2 ![2, 6, 3, 7]))
    (fun in1 in2 => (shuffle in1 in2 ![0, 2, 4, 6], shuffle in1 in2 ![1, 3, 5, 7]))

/-- `v2d`. Its `INTERLEAVE` is its `DEINTERLEAVE`. -/
def builtinV2d : Ops 2 α where
  toBasic := vecBasicOperations 2
    (fun in1 in2 => (shuffle in1 in2 ![0, 2], shuffle in1 in2 ![1, 3]))
    (fun in1 in2 => (shuffle in1 in2 ![0, 2], shuffle in1 in2 ![1, 3]))

/-- `v4d_shuf0145`. -/
def v4dShuf0145 (a b : Lanes 4 α) : Lanes 4 α := shuffle a b ![0, 1, 4, 5]

/-- `v4d_shuf2367`. -/
def v4dShuf2367 (a b : Lanes 4 α) : Lanes 4 α := shuffle a b ![2, 3, 6, 7]

/-- `v4d_shuf0426`. -/
def v4dShuf0426 (a b : Lanes 4 α) : Lanes 4 α := shuffle a b ![0, 4, 2, 6]

/-- `v4d_shuf1537`. -/
def v4dShuf1537 (a b : Lanes 4 α) : Lanes 4 α := shuffle a b ![1, 5, 3, 7]

/-- `v8f_shuf012389AB`. -/
def v8fShuf012389AB (a b : Lanes 8 α) : Lanes 8 α := shuffle a b ![0, 1, 2, 3, 8, 9, 10, 11]

/-- `v8f_shuf4567CDEF`. -/
def v8fShuf4567CDEF (a b : Lanes 8 α) : Lanes 8 α := shuffle a b ![4, 5, 6, 7, 12, 13, 14, 15]

/-- `v8f_shuf028A46CE`. -/
def v8fShuf028A46CE (a b : Lanes 8 α) : Lanes 8 α := shuffle a b ![0, 2, 8, 10, 4, 6, 12, 14]

/-- `v8f_shuf139B57DF`. -/
def v8fShuf139B57DF (a b : Lanes 8 α) : Lanes 8 α := shuffle a b ![1, 3, 9, 11, 5, 7, 13, 15]

/-- `v8f_shuf08194C5D`. -/
def v8fShuf08194C5D (a b : Lanes 8 α) : Lanes 8 α := shuffle a b ![0, 8, 1, 9, 4, 12, 5, 13]

/-- `v8f_shuf2A3B6E7F`. -/
def v8fShuf2A3B6E7F (a b : Lanes 8 α) : Lanes 8 α := shuffle a b ![2, 10, 3, 11, 6, 14, 7, 15]

/-- `v8f_shuf018945CD`. -/
def v8fShuf018945CD (a b : Lanes 8 α) : Lanes 8 α := shuffle a b ![0, 1, 8, 9, 4, 5, 12, 13]

/-- `v8f_shuf23AB67EF`. -/
def v8fShuf23AB67EF (a b : Lanes 8 α) : Lanes 8 α := shuffle a b ![2, 3, 10, 11, 6, 7, 14, 15]

/-- `v8f`. -/
def builtinV8f : Ops 8 α where
  toBasic := vecBasicOperations 8
    (fun in1 in2 =>
      let z1 := v8fShuf08194C5D in1 in2
      let z2 := v8fShuf2A3B6E7F in1 in2
      (v8fShuf012389AB z1 z2, v8fShuf4567CDEF z1 z2))
    (fun in1 in2 =>
      let z1 := v8fShuf012389AB in1 in2
      let z2 := v8fShuf4567CDEF in1 in2
      (v8fShuf028A46CE z1 z2, v8fShuf139B57DF z1 z2))
  deinterleave2 in1 in2 in3 in4 :=
    let z1 := v8fShuf012389AB in1 in2
    let z2 := v8fShuf4567CDEF in1 in2
    let z3 := v8fShuf012389AB in3 in4
    let z4 := v8fShuf4567CDEF in3 in4
    (v8fShuf028A46CE z1 z2, v8fShuf139B57DF z1 z2, v8fShuf028A46CE z3 z4, v8fShuf139B57DF z3 z4)

/-- `v4d`. -/
def builtinV4d : Ops 4 α where
  toBasic := vecBasicOperations 4
    (fun in1 in2 =>
      let t1 := v4dShuf0426 in1 in2
      let t2 := v4dShuf1537 in1 in2
      (v4dShuf0145 t1 t2, v4dShuf2367 t1 t2))
    (fun in1 in2 =>
      let t1 := v4dShuf0145 in1 in2
      let t2 := v4dShuf2367 in1 in2
      (v4dShuf0426 t1 t2, v4dShuf1537 t1 t2))
  interleave2 in1 in2 in3 in4 :=
    let t1 := v4dShuf0426 in1 in2
    let t2 := v4dShuf1537 in1 in2
    let t3 := v4dShuf0426 in3 in4
    let t4 := v4dShuf1537 in3 in4
    (v4dShuf0145 t1 t2, v4dShuf2367 t1 t2, v4dShuf0145 t3 t4, v4dShuf2367 t3 t4)
  deinterleave2 in1 in2 in3 in4 :=
    let t1 := v4dShuf0145 in1 in2
    let t2 := v4dShuf2367 in1 in2
    let t3 := v4dShuf0145 in3 in4
    let t4 := v4dShuf2367 in3 in4
    (v4dShuf0426 t1 t2, v4dShuf1537 t1 t2, v4dShuf0426 t3 t4, v4dShuf1537 t3 t4)

/-- `v4f_rotl` and `v4d_rotl`. -/
def builtinV4Rotl (a b : Lanes 4 α) : Lanes 4 α := shuffle a b ![1, 2, 3, 4]

/-- `v4f_reverse` and `v4d_reverse`. -/
def builtinV4Reverse (a : Lanes 4 α) : Lanes 4 α := shuffle a a ![3, 2, 1, 0]

/-- `v2d_rotl`. -/
def builtinV2dRotl (a b : Lanes 2 α) : Lanes 2 α := shuffle a b ![1, 2]

/-- `v2d_reverse`. -/
def builtinV2dReverse (a : Lanes 2 α) : Lanes 2 α := shuffle a a ![1, 0]

/-- `v8f_rotl`. -/
def builtinV8fRotl (a b : Lanes 8 α) : Lanes 8 α := shuffle a b ![1, 2, 3, 4, 5, 6, 7, 8]

/-- `v8f_reverse`. -/
def builtinV8fReverse (a : Lanes 8 α) : Lanes 8 α := shuffle a a ![7, 6, 5, 4, 3, 2, 1, 0]

/-! ### SSE -/

/-- The operations of `VEC_SSE_BASIC_OPERATIONS` on memory. -/
def vecSseBasicOperations [Zero α] (W : ℕ) [NeZero W]
    (interleave deinterleave : Lanes W α → Lanes W α → Lanes W α × Lanes W α) : Basic W α where
  ld m ptr := load m ptr
  st m ptr val := store m ptr val
  lde0 a m ptr := mmMoveSs a (mmLoadSs m ptr)
  ste0 m ptr val := mmStoreSs m ptr val
  interleave := interleave
  deinterleave := deinterleave

/-- `v4f`. -/
def sseV4f [Zero α] : Ops 4 α where
  toBasic := vecSseBasicOperations 4
    (fun in1 in2 => (mmUnpackloPs in1 in2, mmUnpackhiPs in1 in2))
    (fun in1 in2 => (mmShufflePs in1 in2 (mmShuffle 2 0 2 0), mmShufflePs in1 in2 (mmShuffle 3 1 3 1)))

/-- `v2d`. Its `DEINTERLEAVE` is its `INTERLEAVE`. -/
def sseV2d [Zero α] : Ops 2 α where
  toBasic := vecSseBasicOperations 2
    (fun in1 in2 => (mmUnpackloPd in1 in2, mmUnpackhiPd in1 in2))
    (fun in1 in2 => (mmUnpackloPd in1 in2, mmUnpackhiPd in1 in2))

/-! ### AVX -/

/-- The operations of `VEC_AVX_BASIC_OPERATIONS` on memory, for halves of `h` lanes. -/
def vecAvxBasicOperations (h : ℕ) [NeZero h]
    (interleave deinterleave : Lanes (h + h) α → Lanes (h + h) α → Lanes (h + h) α × Lanes (h + h) α) :
    Basic (h + h) α where
  ld m ptr := load m ptr
  st m ptr val := store m ptr val
  lde0 a m ptr := mm256Blend a (mm256Broadcast m ptr) 1
  ste0 m ptr val := mmStoreSs m ptr (mm256Extractf128 h val 0)
  interleave := interleave
  deinterleave := deinterleave

/-- `v8f`. -/
def avxV8f [Zero α] : Ops 8 α where
  toBasic := vecAvxBasicOperations 4
    (fun in1 in2 =>
      let z1 := mm256UnpackloPs in1 in2
      let z2 := mm256UnpackhiPs in1 in2
      (mm256Permute2f128 4 z1 z2 0x20, mm256Permute2f128 4 z1 z2 0x31))
    (fun in1 in2 =>
      let z1 := mm256Permute2f128 4 in1 in2 0x20
      let z2 := mm256Permute2f128 4 in1 in2 0x31
      (mm256ShufflePs z1 z2 (mmShuffle 2 0 2 0), mm256ShufflePs z1 z2 (mmShuffle 3 1 3 1)))

/-- `v4d`. -/
def avxV4d [Zero α] : Ops 4 α where
  toBasic := vecAvxBasicOperations 2
    (fun in1 in2 =>
      let z1 := mm256UnpackloPd in1 in2
      let z2 := mm256UnpackhiPd in1 in2
      (mm256Permute2f128 2 z1 z2 0x20, mm256Permute2f128 2 z1 z2 0x31))
    (fun in1 in2 =>
      let z1 := mm256Permute2f128 2 in1 in2 0x20
      let z2 := mm256Permute2f128 2 in1 in2 0x31
      (mm256UnpackloPd z1 z2, mm256UnpackhiPd z1 z2))

/-! ### NEON -/

/-- `v4f`. `v4f_ste0` is written as `v4f_st` is. -/
def neonV4f : Ops 4 α where
  ld m ptr := load m ptr
  st m ptr val := store m ptr val
  lde0 a m ptr := vld1qLane m ptr a 0
  ste0 m ptr val := store m ptr val
  interleave in1 in2 := vzipq in1 in2
  deinterleave in1 in2 := vuzpq in1 in2
  ld2dint m src := vld2q m src
  ld2x2dint m src0 src1 :=
    let (r00, r01) := vld2q m src0
    let (r10, r11) := vld2q m src1
    (r00, r01, r10, r11)

/-! ### Scalars -/

/-- `v1f` and `v1d`: vectors of one element. -/
def v1 : Ops 1 α where
  toBasic := vecBasicOperations 1 (fun in1 in2 => (in1, in2)) (fun in1 in2 => (in1, in2))
  ld2dint m src := (load m (src + 0), load m (src + 1))
  ld2x2dint m src0 src1 := (load m (src0 + 0), load m (src0 + 1), load m (src1 + 0), load m (src1 + 1))
  st2int m dest r0 r1 := store (store m (dest + 0) r0) (dest + 1) r1
  st2x2int m dest0 dest1 r00 r01 r10 r11 :=
    store (store (store (store m (dest0 + 0) r00) (dest0 + 1) r01) (dest1 + 0) r10) (dest1 + 1) r11

/-! ### All of them -/

/-- The vector types and their implementations, by width. -/
inductive Impl : ℕ → Type
  /-- `v4f` of the compiler. -/
  | builtinV4f : Impl 4
  /-- `v2d` of the compiler. -/
  | builtinV2d : Impl 2
  /-- `v8f` of the compiler. -/
  | builtinV8f : Impl 8
  /-- `v4d` of the compiler. -/
  | builtinV4d : Impl 4
  /-- `v4f` of SSE. -/
  | sseV4f : Impl 4
  /-- `v2d` of SSE. -/
  | sseV2d : Impl 2
  /-- `v8f` of AVX. -/
  | avxV8f : Impl 8
  /-- `v4d` of AVX. -/
  | avxV4d : Impl 4
  /-- `v4f` of NEON. -/
  | neonV4f : Impl 4
  /-- The scalar `v1f`. -/
  | v1f : Impl 1
  /-- The scalar `v1d`. -/
  | v1d : Impl 1

/-- The operations of a back-end. -/
def Impl.ops [Zero α] {W : ℕ} : Impl W → Ops W α
  | .builtinV4f => Vec.builtinV4f
  | .builtinV2d => Vec.builtinV2d
  | .builtinV8f => Vec.builtinV8f
  | .builtinV4d => Vec.builtinV4d
  | .sseV4f => Vec.sseV4f
  | .sseV2d => Vec.sseV2d
  | .avxV8f => Vec.avxV8f
  | .avxV4d => Vec.avxV4d
  | .neonV4f => Vec.neonV4f
  | .v1f => v1
  | .v1d => v1

end Cop.Vec
