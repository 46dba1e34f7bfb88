import Cop.Vec.Lanewise

/-!
# Transposition

`TRANSPOSE_INPLACE` takes `W` vectors as the rows of a square and leaves its columns in them. The
generic versions of section 3 interleave rows that are half the square apart, once for two vectors,
twice for four, three times for eight; the builtin `v4d` and `v8f` and the `v8f` of AVX have networks
of their own.

## What is proved

* `v2dTransposeInplace_plain`, `v4TransposeInplace_plain`, `v8fTransposeInplace_plain` — the generic
  versions, over the abstract back-end.
* `builtinV4dTransposeInplace_eq`, `builtinV8fTransposeInplace_eq`, `avxV8fTransposeInplace_eq` — the
  networks.
* `transposes_eq` — every version of every back-end is the transposition.
-/

namespace Cop.Vec

variable {W : ℕ} {α : Type}

/-- `W` vectors. -/
abbrev Rows (W : ℕ) (α : Type) := Fin W → Lanes W α

/-- Rows become columns. -/
def transposed (r : Rows W α) : Rows W α := fun i j => r j i

/-! ### The generic versions -/

/-- `V2D_TRANSPOSE_INPLACE`. -/
def v2dTransposeInplace (B : Ops 2 α) (r : Rows 2 α) : Rows 2 α :=
  let (t1, t2) := B.interleave (r 0) (r 1)
  ![t1, t2]

/-- `V4F_TRANSPOSE_INPLACE` and `V4D_TRANSPOSE_INPLACE`. -/
def v4TransposeInplace (B : Ops 4 α) (r : Rows 4 α) : Rows 4 α :=
  let (t1, t2, t3, t4) := B.interleave2 (r 0) (r 2) (r 1) (r 3)
  let (r1, r2, r3, r4) := B.interleave2 t1 t3 t2 t4
  ![r1, r2, r3, r4]

/-- `V8F_TRANSPOSE_INPLACE`. -/
def v8fTransposeInplace (B : Ops 8 α) (r : Rows 8 α) : Rows 8 α :=
  let (t1, t2, t3, t4) := B.interleave2 (r 0) (r 4) (r 1) (r 5)
  let (t5, t6, t7, t8) := B.interleave2 (r 2) (r 6) (r 3) (r 7)
  let (z1, z2, z3, z4) := B.interleave2 t1 t5 t2 t6
  let (z5, z6, z7, z8) := B.interleave2 t3 t7 t4 t8
  let (r1, r2, r3, r4) := B.interleave2 z1 z5 z2 z6
  let (r5, r6, r7, r8) := B.interleave2 z3 z7 z4 z8
  ![r1, r2, r3, r4, r5, r6, r7, r8]

/-! ### The networks -/

/-- `V4D_TRANSPOSE_INPLACE` of the compiler's `v4d`. -/
def builtinV4dTransposeInplace (r : Rows 4 α) : Rows 4 α :=
  let t1 := v4dShuf0145 (r 0) (r 2)
  let t3 := v4dShuf0145 (r 1) (r 3)
  let t2 := v4dShuf2367 (r 0) (r 2)
  let t4 := v4dShuf2367 (r 1) (r 3)
  ![v4dShuf0426 t1 t3, v4dShuf1537 t1 t3, v4dShuf0426 t2 t4, v4dShuf1537 t2 t4]

/-- `V8F_TRANSPOSE_INPLACE` of the compiler's `v8f`. -/
def builtinV8fTransposeInplace (r : Rows 8 α) : Rows 8 α :=
  let t1 := v8fShuf08194C5D (r 0) (r 1)
  let t2 := v8fShuf2A3B6E7F (r 0) (r 1)
  let t3 := v8fShuf08194C5D (r 2) (r 3)
  let t4 := v8fShuf2A3B6E7F (r 2) (r 3)
  let t5 := v8fShuf08194C5D (r 4) (r 5)
  let t6 := v8fShuf2A3B6E7F (r 4) (r 5)
  let t7 := v8fShuf08194C5D (r 6) (r 7)
  let t8 := v8fShuf2A3B6E7F (r 6) (r 7)
  let z1 := v8fShuf018945CD t1 t3
  let z2 := v8fShuf23AB67EF t1 t3
  let z3 := v8fShuf018945CD t2 t4
  let z4 := v8fShuf23AB67EF t2 t4
  let z5 := v8fShuf018945CD t5 t7
  let z6 := v8fShuf23AB67EF t5 t7
  let z7 := v8fShuf018945CD t6 t8
  let z8 := v8fShuf23AB67EF t6 t8
  ![v8fShuf012389AB z1 z5, v8fShuf012389AB z2 z6, v8fShuf012389AB z3 z7, v8fShuf012389AB z4 z8,
    v8fShuf4567CDEF z1 z5, v8fShuf4567CDEF z2 z6, v8fShuf4567CDEF z3 z7, v8fShuf4567CDEF z4 z8]

/-- `V8F_TRANSPOSE_INPLACE` of AVX. -/
def avxV8fTransposeInplace [Zero α] (r : Rows 8 α) : Rows 8 α :=
  let t0 := mm256UnpackloPs (r 0) (r 1)
  let t1 := mm256UnpackhiPs (r 0) (r 1)
  let t2 := mm256UnpackloPs (r 2) (r 3)
  let t3 := mm256UnpackhiPs (r 2) (r 3)
  let t4 := mm256UnpackloPs (r 4) (r 5)
  let t5 := mm256UnpackhiPs (r 4) (r 5)
  let t6 := mm256UnpackloPs (r 6) (r 7)
  let t7 := mm256UnpackhiPs (r 6) (r 7)
  let z0 := mm256ShufflePs t0 t2 (mmShuffle 1 0 1 0)
  let z1 := mm256ShufflePs t0 t2 (mmShuffle 3 2 3 2)
  let z2 := mm256ShufflePs t1 t3 (mmShuffle 1 0 1 0)
  let z3 := mm256ShufflePs t1 t3 (mmShuffle 3 2 3 2)
  let z4 := mm256ShufflePs t4 t6 (mmShuffle 1 0 1 0)
  let z5 := mm256ShufflePs t4 t6 (mmShuffle 3 2 3 2)
  let z6 := mm256ShufflePs t5 t7 (mmShuffle 1 0 1 0)
  let z7 := mm256ShufflePs t5 t7 (mmShuffle 3 2 3 2)
  ![mm256Permute2f128 4 z0 z4 0x20, mm256Permute2f128 4 z1 z5 0x20, mm256Permute2f128 4 z2 z6 0x20,
    mm256Permute2f128 4 z3 z7 0x20, mm256Permute2f128 4 z0 z4 0x31, mm256Permute2f128 4 z1 z5 0x31,
    mm256Permute2f128 4 z2 z6 0x31, mm256Permute2f128 4 z3 z7 0x31]

/-- The versions of `TRANSPOSE_INPLACE` for a vector type: that of the back-end, where it has one, and
the generic one. Scalars have none. -/
def Impl.transposes [Zero α] : Impl W → List (Rows W α → Rows W α)
  | .builtinV4f => [v4TransposeInplace Vec.builtinV4f]
  | .builtinV2d => [v2dTransposeInplace Vec.builtinV2d]
  | .builtinV8f => [builtinV8fTransposeInplace, v8fTransposeInplace Vec.builtinV8f]
  | .builtinV4d => [builtinV4dTransposeInplace, v4TransposeInplace Vec.builtinV4d]
  | .sseV4f => [v4TransposeInplace Vec.sseV4f]
  | .sseV2d => [v2dTransposeInplace Vec.sseV2d]
  | .avxV8f => [avxV8fTransposeInplace, v8fTransposeInplace Vec.avxV8f]
  | .avxV4d => [v4TransposeInplace Vec.avxV4d]
  | .neonV4f => [v4TransposeInplace Vec.neonV4f]
  | .v1f => []
  | .v1d => []

/-! ### All are the transposition -/

theorem v2dTransposeInplace_plain (r : Rows 2 α) : v2dTransposeInplace (plain 2 α) r = transposed r := by
  funext i j
  fin_cases i <;> fin_cases j <;> rfl

theorem v4TransposeInplace_plain (r : Rows 4 α) : v4TransposeInplace (plain 4 α) r = transposed r := by
  funext i j
  fin_cases i <;> fin_cases j <;> rfl

theorem v8fTransposeInplace_plain (r : Rows 8 α) : v8fTransposeInplace (plain 8 α) r = transposed r := by
  funext i j
  fin_cases i <;> fin_cases j <;> rfl

theorem builtinV4dTransposeInplace_eq (r : Rows 4 α) : builtinV4dTransposeInplace r = transposed r := by
  funext i j
  fin_cases i <;> fin_cases j <;> rfl

theorem builtinV8fTransposeInplace_eq (r : Rows 8 α) : builtinV8fTransposeInplace r = transposed r := by
  funext i j
  fin_cases i <;> fin_cases j <;> rfl

theorem avxV8fTransposeInplace_eq [Zero α] (r : Rows 8 α) : avxV8fTransposeInplace r = transposed r := by
  funext i j
  fin_cases i <;> fin_cases j <;> rfl

/-- **Every version** on every back-end is the transposition. -/
theorem transposes_eq [Zero α] (B : Impl W) : ∀ t ∈ B.transposes, ∀ r : Rows W α, t r = transposed r := by
  cases B with
  | builtinV4f =>
    rw [Impl.transposes, builtinV4f_eq]
    exact List.forall_mem_singleton.2 v4TransposeInplace_plain
  | builtinV2d =>
    rw [Impl.transposes, builtinV2d_eq]
    exact List.forall_mem_singleton.2 v2dTransposeInplace_plain
  | builtinV8f =>
    rw [Impl.transposes, builtinV8f_eq]
    exact List.forall_mem_cons.2 ⟨builtinV8fTransposeInplace_eq, List.forall_mem_singleton.2 v8fTransposeInplace_plain⟩
  | builtinV4d =>
    rw [Impl.transposes, builtinV4d_eq]
    exact List.forall_mem_cons.2 ⟨builtinV4dTransposeInplace_eq, List.forall_mem_singleton.2 v4TransposeInplace_plain⟩
  | sseV4f =>
    rw [Impl.transposes, sseV4f_eq]
    exact List.forall_mem_singleton.2 v4TransposeInplace_plain
  | sseV2d =>
    rw [Impl.transposes, sseV2d_eq]
    exact List.forall_mem_singleton.2 v2dTransposeInplace_plain
  | avxV8f =>
    rw [Impl.transposes, avxV8f_eq]
    exact List.forall_mem_cons.2 ⟨avxV8fTransposeInplace_eq, List.forall_mem_singleton.2 v8fTransposeInplace_plain⟩
  | avxV4d =>
    rw [Impl.transposes, avxV4d_eq]
    exact List.forall_mem_singleton.2 v4TransposeInplace_plain
  | neonV4f =>
    rw [Impl.transposes, neonV4f_eq]
    exact List.forall_mem_singleton.2 v4TransposeInplace_plain
  | v1f => exact List.forall_mem_nil _
  | v1d => exact List.forall_mem_nil _

end Cop.Vec
