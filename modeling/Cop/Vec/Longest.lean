import Cop.Theory.Columns
import Cop.Theory.Word
import Cop.Vec.Code

/-!
# The longest vectors

A build of `cop_vec.h` takes the vector types that the compiler and the machine have, by what macros
they define, and calls the longest of floats `vlf` and the longest of doubles `vld`. Loops over arrays
are written for these, whatever their width: they go in steps of `VLF_WIDTH`, over arrays that have
room for `VLF_PAD_LENGTH` elements. Such a loop does to each element what the scalars do.

## What is proved

* `padLength_eq`, `padLength_wrap` — the length of arrays with room for all steps.
* `Expr.run_code`, `Kernel.acts_turn`, `Kernel.acts_loop` — an expression, a turn, and a loop, on every
  back-end.
* `loop_longest` — loops over the longest vectors, on every build.
-/

namespace Cop.Vec

open Theory

variable {W : ℕ} {α : Type}

/-! ### Builds -/

/-- The macros that the compiler, and the user, define or do not. -/
structure Macros where
  /-- `__clang__`. -/
  clang : Bool
  /-- `__GNUC__`. -/
  gnuc : Bool
  /-- `_MSC_VER`. -/
  msc : Bool
  /-- `_M_X64`. -/
  x64 : Bool
  /-- `__SSE__`. -/
  sse : Bool
  /-- `__AVX__`. -/
  avx : Bool
  /-- `__ARM_NEON__`. -/
  neon : Bool
  /-- `VEC_DISABLE_COMPILER_BUILTINS`. -/
  disableCompilerBuiltins : Bool
  /-- Section 1 compiles for its `v4f` and `v2d` with clang only: the shuffles for other compilers take
  two indices more than they are given. -/
  compiles : disableCompilerBuiltins = false → (sse || neon) = true → gnuc = true → clang = true

namespace Macros

variable (M : Macros)

/-- Section 1 has `v4f` and `v2d`. -/
def builtin128 : Bool := !M.disableCompilerBuiltins && (M.clang || M.gnuc) && (M.sse || M.neon)

/-- Section 1 has `v8f` and `v4d`. -/
def builtin256 : Bool := !M.disableCompilerBuiltins && (M.clang || M.gnuc) && M.avx

/-- Section 2 has `v4f` and `v2d` of SSE. -/
def sse128 : Bool := (M.msc && M.x64) || ((M.clang || M.gnuc) && M.sse)

/-- `v4f`, where `V4F_EXISTS`. -/
def v4f : Option (Impl 4) :=
  if M.builtin128 then some .builtinV4f
  else if M.sse128 then some .sseV4f
  else if (M.clang || M.gnuc) && M.neon then some .neonV4f
  else none

/-- `v2d`, where `V2D_EXISTS`. -/
def v2d : Option (Impl 2) :=
  if M.builtin128 then some .builtinV2d else if M.sse128 then some .sseV2d else none

/-- `v8f`, where `V8F_EXISTS`. -/
def v8f : Option (Impl 8) :=
  if M.builtin256 then some .builtinV8f else if M.clang && M.avx then some .avxV8f else none

/-- `v4d`, where `V4D_EXISTS`. -/
def v4d : Option (Impl 4) :=
  if M.builtin256 then some .builtinV4d else if M.clang && M.avx then some .avxV4d else none

/-- `vlf`, with `VLF_WIDTH`. -/
def vlf : (W : ℕ) × Impl W :=
  match M.v8f, M.v4f with
  | some B, _ => ⟨8, B⟩
  | none, some B => ⟨4, B⟩
  | none, none => ⟨1, .v1f⟩

/-- `VLF_PAD_LENGTH`, of a length in an unsigned type of `w` bits. -/
def vlfPadLength (w len : ℕ) : ℕ :=
  match M.v8f, M.v4f with
  | some _, _ => Word.add w len (Word.sub w 8 (len &&& 7) &&& 7)
  | none, some _ => Word.add w len (Word.sub w 4 (len &&& 3) &&& 3)
  | none, none => len

/-- `vld`, with `VLD_WIDTH`. -/
def vld : (W : ℕ) × Impl W :=
  match M.v4d, M.v2d with
  | some B, _ => ⟨4, B⟩
  | none, some B => ⟨2, B⟩
  | none, none => ⟨1, .v1d⟩

/-- `VLD_PAD_LENGTH`. -/
def vldPadLength (w len : ℕ) : ℕ :=
  match M.v4d, M.v2d with
  | some _, _ => Word.add w len (Word.sub w 4 (len &&& 3) &&& 3)
  | none, some _ => Word.add w len (Word.sub w 2 (len &&& 1) &&& 1)
  | none, none => len

end Macros

/-! ### Padding -/

/-- The length with room for all steps of `W` elements, as the macros have it. -/
def padLength (w W len : ℕ) : ℕ := Word.add w len (Word.sub w W (len &&& (W - 1)) &&& (W - 1))

section Padding

variable {w len k : ℕ}

theorem pad_eq (hk : k < w) : Word.sub w (2 ^ k) (len &&& (2 ^ k - 1)) &&& (2 ^ k - 1) = padTo (2 ^ k) len := by
  have hlt : len % 2 ^ k < 2 ^ k := Nat.mod_lt _ (Nat.two_pow_pos k)
  rw [Nat.and_two_pow_sub_one_eq_mod, Nat.and_two_pow_sub_one_eq_mod,
    Word.sub_of_le hlt.le (Nat.pow_lt_pow_right (by decide) hk), padTo]

/-- **The padded length** is the next multiple of the width. -/
theorem padLength_eq (hk : k < w) (hlen : len + 2 ^ k ≤ 2 ^ w) :
    padLength w (2 ^ k) len = len + padTo (2 ^ k) len := by
  have hpad : padTo (2 ^ k) len < 2 ^ k := padTo_lt (Nat.two_pow_pos k)
  rw [padLength, pad_eq hk, Word.add_of_lt (by omega)]

/-- A length that is above the last multiple is padded to nothing. -/
theorem padLength_wrap (hk : k < w) (hlen : len < 2 ^ w) (hwrap : 2 ^ w < len + 2 ^ k) : padLength w (2 ^ k) len = 0 := by
  have hpos : 0 < 2 ^ k := Nat.two_pow_pos k
  have hdvd : 2 ^ k ∣ 2 ^ w := Nat.pow_dvd_pow 2 hk.le
  obtain ⟨q, hq⟩ := dvd_add_padTo (n := len) hpos
  obtain ⟨r, hr⟩ := hdvd
  have hle : len + padTo (2 ^ k) len ≤ 2 ^ w := add_padTo_le hpos ⟨r, hr⟩ hlen.le
  -- the padded length is a multiple above the last one but one
  have hrq : r ≤ q := by
    by_contra hlt
    have hmul : 2 ^ k * (q + 1) ≤ 2 ^ k * r := Nat.mul_le_mul_left _ (by omega)
    rw [Nat.mul_add, ← hq, ← hr] at hmul
    omega
  have heq : len + padTo (2 ^ k) len = 2 ^ w := by
    refine le_antisymm hle ?_
    rw [hq, hr]
    exact Nat.mul_le_mul_left _ hrq
  rw [padLength, pad_eq hk, Word.add, heq, Nat.mod_self]

/-- What the padded length is good for. -/
theorem padLength_spec (hk : k < w) (hlen : len + 2 ^ k ≤ 2 ^ w) :
    2 ^ k ∣ padLength w (2 ^ k) len ∧ len ≤ padLength w (2 ^ k) len ∧ padLength w (2 ^ k) len < len + 2 ^ k := by
  have hpos : 0 < 2 ^ k := Nat.two_pow_pos k
  rw [padLength_eq hk hlen]
  exact ⟨dvd_add_padTo hpos, Nat.le_add_right _ _, Nat.add_lt_add_left (padTo_lt hpos) _⟩

theorem padLength_one (hw : 0 < w) (hlen : len < 2 ^ w) : padLength w 1 len = len := by
  have hpad := @padLength_eq w len 0 hw (by rwa [Nat.pow_zero])
  rw [Nat.pow_zero, padTo, Nat.mod_one, Nat.add_zero] at hpad
  exact hpad

end Padding

/-! ### Loops -/

/-- What is computed of the elements of arrays at one index. -/
inductive Expr (α : Type) where
  /-- The element of the array at `p`. -/
  | arr (p : ℕ)
  /-- A constant. -/
  | const (a : α)
  /-- `add`. -/
  | add (e e' : Expr α)
  /-- `sub`. -/
  | sub (e e' : Expr α)
  /-- `mul`. -/
  | mul (e e' : Expr α)
  /-- `neg`. -/
  | neg (e : Expr α)
  /-- `min`. -/
  | min (e e' : Expr α)
  /-- `max`. -/
  | max (e e' : Expr α)

namespace Expr

/-- The arrays of an expression. -/
def arrays : Expr α → List ℕ
  | arr p => [p]
  | const _ => []
  | neg e => e.arrays
  | add e e' | sub e e' | mul e e' | min e e' | max e e' => e.arrays ++ e'.arrays

/-- Its value, from a column of the arrays, for a choice between two elements. -/
def eval (E : Elem α) (choice : (α → α → α) × (α → α → α)) (σ : ℕ → α) : Expr α → α
  | arr p => σ p
  | const a => a
  | add e e' => E.add (e.eval E choice σ) (e'.eval E choice σ)
  | sub e e' => E.sub (e.eval E choice σ) (e'.eval E choice σ)
  | mul e e' => E.mul (e.eval E choice σ) (e'.eval E choice σ)
  | neg e => E.neg (e.eval E choice σ)
  | min e e' => choice.1 (e.eval E choice σ) (e'.eval E choice σ)
  | max e e' => choice.2 (e.eval E choice σ) (e'.eval E choice σ)

/-- The code for the `W` indices from `i` on. -/
def code (i : ℕ) : Expr α → Code W α (Lanes W α)
  | arr p => .op (.ld (p + i)) .ret
  | const a => .op (.broadcast a) .ret
  | add e e' => (e.code i).bind fun a => (e'.code i).bind fun b => .op (.add a b) .ret
  | sub e e' => (e.code i).bind fun a => (e'.code i).bind fun b => .op (.sub a b) .ret
  | mul e e' => (e.code i).bind fun a => (e'.code i).bind fun b => .op (.mul a b) .ret
  | neg e => (e.code i).bind fun a => .op (.neg a) .ret
  | min e e' => (e.code i).bind fun a => (e'.code i).bind fun b => .op (.min a b) .ret
  | max e e' => (e.code i).bind fun a => (e'.code i).bind fun b => .op (.max a b) .ret

end Expr

/-- The body of a loop: the arrays that are written, one after the other, and what to. -/
abbrev Kernel (α : Type) := List (ℕ × Expr α)

namespace Kernel

/-- The arrays of a loop. -/
def arrays (k : Kernel α) : Set ℕ := {p | ∃ s ∈ k, p = s.1 ∨ p ∈ s.2.arrays}

/-- What a loop does to a column. -/
def apply (E : Elem α) (choice : (α → α → α) × (α → α → α)) : Kernel α → (ℕ → α) → ℕ → α
  | [], σ => σ
  | (d, e) :: k, σ => apply E choice k (Function.update σ d (e.eval E choice σ))

/-- A turn of a loop, for the `W` indices from `i` on. -/
def turn (i : ℕ) : Kernel α → Code W α Unit
  | [] => .ret ()
  | (d, e) :: k => (e.code i).bind fun v => .op (.store (.st (d + i) v)) fun _ => turn i k

/-- `for (i = 0; i < n; i += W)`, for `n` a multiple of `W`: the turns from `i` on. -/
def loop (k : Kernel α) : ℕ → ℕ → Code W α Unit
  | 0, _ => .ret ()
  | t + 1, i => (turn i k).bind fun _ => loop k t (i + W)

end Kernel

/-- The choice of a back-end between two elements, `min` and `max`. -/
def Impl.choice (E : Elem α) : Impl W → (α → α → α) × (α → α → α)
  | .neonV4f => (E.vmin, E.vmax)
  | _ => (E.min, E.max)

theorem Impl.arith_eq_choice [Zero α] (E : Elem α) (B : Impl W) :
    B.arith E = plainArith W E (B.choice E).1 (B.choice E).2 := by
  cases B with
  | neonV4f => exact (Impl.arith_eq E .neonV4f).2 trivial
  | builtinV4f => exact (Impl.arith_eq E .builtinV4f).1 id
  | builtinV2d => exact (Impl.arith_eq E .builtinV2d).1 id
  | builtinV8f => exact (Impl.arith_eq E .builtinV8f).1 id
  | builtinV4d => exact (Impl.arith_eq E .builtinV4d).1 id
  | sseV4f => exact (Impl.arith_eq E .sseV4f).1 id
  | sseV2d => exact (Impl.arith_eq E .sseV2d).1 id
  | avxV8f => exact (Impl.arith_eq E .avxV8f).1 id
  | avxV4d => exact (Impl.arith_eq E .avxV4d).1 id
  | v1f => exact (Impl.arith_eq E .v1f).1 id
  | v1d => exact (Impl.arith_eq E .v1d).1 id

/-! ### What loops read -/

/-- The value of an expression depends on the elements of its arrays. -/
theorem Expr.eval_congr (E : Elem α) (choice : (α → α → α) × (α → α → α)) {σ τ : ℕ → α} (e : Expr α)
    (h : ∀ p ∈ e.arrays, σ p = τ p) : e.eval E choice σ = e.eval E choice τ := by
  induction e with
  | arr p => exact h p (List.mem_singleton_self p)
  | const a => rfl
  | neg e ih => exact congrArg E.neg (ih h)
  | add e e' ih ih' =>
    exact congrArg₂ E.add (ih fun p hp => h p (List.mem_append_left _ hp)) (ih' fun p hp => h p (List.mem_append_right _ hp))
  | sub e e' ih ih' =>
    exact congrArg₂ E.sub (ih fun p hp => h p (List.mem_append_left _ hp)) (ih' fun p hp => h p (List.mem_append_right _ hp))
  | mul e e' ih ih' =>
    exact congrArg₂ E.mul (ih fun p hp => h p (List.mem_append_left _ hp)) (ih' fun p hp => h p (List.mem_append_right _ hp))
  | min e e' ih ih' =>
    exact congrArg₂ choice.1 (ih fun p hp => h p (List.mem_append_left _ hp))
      (ih' fun p hp => h p (List.mem_append_right _ hp))
  | max e e' ih ih' =>
    exact congrArg₂ choice.2 (ih fun p hp => h p (List.mem_append_left _ hp))
      (ih' fun p hp => h p (List.mem_append_right _ hp))

theorem Kernel.arrays_cons {ps : Set ℕ} {s : ℕ × Expr α} {k : Kernel α} (h : Kernel.arrays (s :: k) ⊆ ps) :
    s.1 ∈ ps ∧ (∀ p ∈ s.2.arrays, p ∈ ps) ∧ Kernel.arrays k ⊆ ps := by
  refine ⟨h ⟨s, List.mem_cons_self, Or.inl rfl⟩, fun p hp => h ⟨s, List.mem_cons_self, Or.inr hp⟩, ?_⟩
  rintro p ⟨s', hs', hp⟩
  exact h ⟨s', List.mem_cons_of_mem _ hs', hp⟩

/-- What a loop does to a column depends on its elements of the arrays. -/
theorem Kernel.reads_apply (E : Elem α) (choice : (α → α → α) × (α → α → α)) {ps : Set ℕ} (k : Kernel α)
    (hk : k.arrays ⊆ ps) : Reads ps (k.apply E choice) := by
  induction k with
  | nil => exact fun _ _ h => h
  | cons s k ih =>
    intro σ τ h
    obtain ⟨-, hsrc, hk⟩ := Kernel.arrays_cons hk
    refine ih hk _ _ fun p hp => ?_
    rw [s.2.eval_congr E choice fun q hq => h q (hsrc q hq)]
    by_cases hps : p = s.1
    · rw [hps, Function.update_self, Function.update_self]
    · rw [Function.update_of_ne hps, Function.update_of_ne hps, h p hp]

/-! ### On every back-end -/

section Loops

variable [Zero α] {E : Elem α} (B : Impl W) (st m : Mem α)

/-- **An expression** gives its values at the next indices, and leaves memory alone. -/
theorem Expr.run_code (i : ℕ) (e : Expr α) : (e.code i).run B.ops (B.arith E) st m =
    ((fun l => e.eval E (B.choice E) (column m (i + l)) : Lanes W α), m) := by
  obtain ⟨f, hf⟩ := B.exists_ste0 (α := α)
  rw [hf, B.arith_eq_choice E]
  induction e with
  | arr p => exact congrArg (·, m) (funext fun l => congrArg m (Nat.add_assoc p i l))
  | const a => rfl
  | add e e' ih ih' =>
    rw [code, Code.run_bind, ih, Code.run_bind, ih']
    rfl
  | sub e e' ih ih' =>
    rw [code, Code.run_bind, ih, Code.run_bind, ih']
    rfl
  | mul e e' ih ih' =>
    rw [code, Code.run_bind, ih, Code.run_bind, ih']
    rfl
  | neg e ih =>
    rw [code, Code.run_bind, ih]
    rfl
  | min e e' ih ih' =>
    rw [code, Code.run_bind, ih, Code.run_bind, ih']
    rfl
  | max e e' ih ih' =>
    rw [code, Code.run_bind, ih, Code.run_bind, ih']
    rfl

variable {ps : Set ℕ} {n : ℕ} (hps : Separate ps n) {k : Kernel α}

include hps

/-- **A turn** acts on the columns at its indices. -/
theorem Kernel.acts_turn {i : ℕ} (hi : i + W ≤ n) (hk : k.arrays ⊆ ps) :
    Acts ps n (k.apply E (B.choice E)) (extent i W) m ((turn i k).run B.ops (B.arith E) st m).2 := by
  induction k generalizing m with
  | nil => exact acts_refl ps n m
  | cons s k ih =>
    obtain ⟨hdest, -, hrest⟩ := Kernel.arrays_cons hk
    obtain ⟨d, e⟩ := s
    rw [turn, Code.run_bind, e.run_code B st m]
    have hstore : B.ops.st m (d + i) (fun l => e.eval E (B.choice E) (column m (i + l)) : Lanes W α) =
        put m (d + i) (List.ofFn fun l : Fin W => e.eval E (B.choice E) (column m (i + l))) := by rw [B.deals.st]; rfl
    refine Acts.comp (G := Kernel.apply E (B.choice E) k) (Kernel.reads_apply E (B.choice E) k hrest) ?_ (ih _ hrest)
    change Acts ps n _ _ m (B.ops.st m (d + i) _)
    rw [hstore]
    exact acts_put hps hdest (e.eval E (B.choice E)) hi List.length_ofFn fun l hl => List.getElem_ofFn _

/-- **A loop** acts on the columns at the indices from where it starts. -/
theorem Kernel.acts_loop (hk : k.arrays ⊆ ps) (t i : ℕ) (hi : i + W * t ≤ n) :
    Acts ps n (k.apply E (B.choice E)) (extent i (W * t)) m ((k.loop t i : Code W α Unit).run B.ops (B.arith E) st m).2 := by
  induction t generalizing m i with
  | zero =>
    have hnone : extent i (W * 0) = ∅ := Set.eq_empty_iff_forall_notMem.2 fun j hj => by
      rw [mem_extent] at hj
      omega
    rw [hnone]
    exact acts_empty ps n _ m
  | succ t ih =>
    have hsplit : extent i (W * (t + 1)) = extent i W ∪ extent (i + W) (W * t) := by
      ext j
      simp only [mem_extent, Set.mem_union, Nat.mul_succ]
      omega
    have hdisj : ∀ j ∈ extent i W, j ∉ extent (i + W) (W * t) := fun j hj hj' => by
      rw [mem_extent] at hj hj'
      omega
    rw [Nat.mul_succ] at hi
    rw [loop, Code.run_bind, hsplit]
    exact Acts.union (Kernel.reads_apply E (B.choice E) k hk) (Kernel.acts_turn B st m hps (by omega) hk)
      (ih _ (i + W) (by omega)) hdisj

end Loops

/-! ### On every build -/

/-- The two kinds of elements. -/
inductive Prec where
  /-- `float`. -/
  | single
  /-- `double`. -/
  | double

/-- `vlf` or `vld`. -/
def Macros.longest (M : Macros) : Prec → (W : ℕ) × Impl W
  | .single => M.vlf
  | .double => M.vld

/-- `VLF_PAD_LENGTH` or `VLD_PAD_LENGTH`. -/
def Macros.longestPadLength (M : Macros) (w len : ℕ) : Prec → ℕ
  | .single => M.vlfPadLength w len
  | .double => M.vldPadLength w len

/-- The padded length is that for the width. -/
theorem Macros.longestPadLength_eq (M : Macros) (P : Prec) {w len : ℕ} (hw : 0 < w) (hlen : len < 2 ^ w) :
    M.longestPadLength w len P = padLength w (M.longest P).1 len := by
  cases P with
  | single =>
    unfold longestPadLength longest vlfPadLength vlf
    cases M.v8f with
    | some B => rfl
    | none =>
      cases M.v4f with
      | some B => rfl
      | none => exact (padLength_one hw hlen).symm
  | double =>
    unfold longestPadLength longest vldPadLength vld
    cases M.v4d with
    | some B => rfl
    | none =>
      cases M.v2d with
      | some B => rfl
      | none => exact (padLength_one hw hlen).symm

/-- The longest vectors have eight lanes at most. -/
theorem Impl.exists_width_le (B : Impl W) : ∃ k ≤ 3, W = 2 ^ k := by
  obtain ⟨k, rfl⟩ := B.exists_width
  refine ⟨k, ?_, rfl⟩
  by_contra hk
  have hle : 2 ^ 4 ≤ 2 ^ k := Nat.pow_le_pow_right (by decide) (by omega)
  generalize hW : 2 ^ k = W at *
  cases B <;> omega

/-- No `min` and no `max`. -/
def Expr.ChoiceFree : Expr α → Prop
  | .arr _ | .const _ => True
  | .neg e => e.ChoiceFree
  | .add e e' | .sub e e' | .mul e e' => e.ChoiceFree ∧ e'.ChoiceFree
  | .min _ _ | .max _ _ => False

/-- The memory after a loop over the longest vectors of a build, over arrays with room for all steps. -/
def Kernel.runLongest [Zero α] (E : Elem α) (M : Macros) (P : Prec) (k : Kernel α) (st : Mem α) (w len : ℕ) (m : Mem α) :
    Mem α :=
  ((k.loop (M.longestPadLength w len P / (M.longest P).1) 0 : Code (M.longest P).1 α Unit).run (M.longest P).2.ops
    ((M.longest P).2.arith E) st m).2

/-- The choice matters for `min` and `max` only. -/
theorem Expr.eval_choiceFree (E : Elem α) (choice choice' : (α → α → α) × (α → α → α)) (σ : ℕ → α) {e : Expr α}
    (h : e.ChoiceFree) : e.eval E choice σ = e.eval E choice' σ := by
  induction e with
  | arr p => rfl
  | const a => rfl
  | add e e' ih ih' => exact congrArg₂ E.add (ih h.1) (ih' h.2)
  | sub e e' ih ih' => exact congrArg₂ E.sub (ih h.1) (ih' h.2)
  | mul e e' ih ih' => exact congrArg₂ E.mul (ih h.1) (ih' h.2)
  | neg e ih => exact congrArg E.neg (ih h)
  | min e e' => exact h.elim
  | max e e' => exact h.elim

theorem Kernel.apply_choiceFree (E : Elem α) (choice choice' : (α → α → α) × (α → α → α)) (σ : ℕ → α) {k : Kernel α}
    (h : ∀ s ∈ k, s.2.ChoiceFree) : k.apply E choice σ = k.apply E choice' σ := by
  induction k generalizing σ with
  | nil => rfl
  | cons s k ih =>
    obtain ⟨d, e⟩ := s
    rw [apply, apply, Expr.eval_choiceFree E choice choice' σ (h (d, e) List.mem_cons_self)]
    exact ih _ fun s hs => h s (List.mem_cons_of_mem _ hs)

section Longest

variable [Zero α] (E : Elem α) (P : Prec) (M : Macros) {k : Kernel α} (st m : Mem α) {w len : ℕ}

/-- A loop over arrays that are padded does all of their columns. -/
theorem Kernel.acts_longest (hw : 32 ≤ w) (hlen : len + (M.longest P).1 ≤ 2 ^ w)
    (hsep : Separate k.arrays (M.longestPadLength w len P)) :
    ((M.longest P).1 ∣ M.longestPadLength w len P ∧ len ≤ M.longestPadLength w len P ∧
        M.longestPadLength w len P < len + (M.longest P).1) ∧
      Acts k.arrays (M.longestPadLength w len P) (k.apply E ((M.longest P).2.choice E))
        (extent 0 (M.longestPadLength w len P)) m (k.runLongest E M P st w len m) := by
  obtain ⟨j, hj, hwidth⟩ := (M.longest P).2.exists_width_le
  have hpos : 0 < (M.longest P).1 := (M.longest P).2.width_pos
  have hspec := @padLength_spec w len j (by omega) (by rwa [← hwidth])
  rw [← hwidth, ← M.longestPadLength_eq P (by omega) (by omega)] at hspec
  refine ⟨hspec, ?_⟩
  have hturns : (M.longest P).1 * (M.longestPadLength w len P / (M.longest P).1) = M.longestPadLength w len P :=
    Nat.mul_div_cancel' hspec.1
  have hacts := Kernel.acts_loop (E := E) (M.longest P).2 st m hsep subset_rfl
    (M.longestPadLength w len P / (M.longest P).1) 0 (by omega)
  rwa [hturns] at hacts

/-- A length that is above the last multiple of the width is padded to nothing, and nothing is done. -/
theorem Kernel.runLongest_wrap (hw : 32 ≤ w) (hlen : len < 2 ^ w) (hwrap : 2 ^ w < len + (M.longest P).1) :
    k.runLongest E M P st w len m = m := by
  obtain ⟨j, hj, hwidth⟩ := (M.longest P).2.exists_width_le
  have hpad : M.longestPadLength w len P = 0 := by
    rw [M.longestPadLength_eq P (by omega) hlen, hwidth]
    exact padLength_wrap (by omega) hlen (by rwa [← hwidth])
  unfold runLongest
  rw [hpad, Nat.zero_div]
  rfl

end Longest

/-- **Loops over the longest vectors**, on every build, for every length below `2 ^ w`. Over arrays that
have room for the padded length, and are the same or do not meet, a loop does to each column what its
body says, and touches nothing else; builds that choose alike between elements leave the same at the
first `len` indices, so what the vectors compute is what the scalars compute. Where the padded length
wraps, the loop does nothing. -/
theorem loop_longest [Zero α] (E : Elem α) (P : Prec) (M : Macros) (k : Kernel α) (st m : Mem α) {w len : ℕ} (hw : 32 ≤ w)
    (hlen : len < 2 ^ w) (hsep : Separate k.arrays (M.longestPadLength w len P)) :
    (len + (M.longest P).1 ≤ 2 ^ w →
        ((M.longest P).1 ∣ M.longestPadLength w len P ∧ len ≤ M.longestPadLength w len P ∧
            M.longestPadLength w len P < len + (M.longest P).1) ∧
          Acts k.arrays (M.longestPadLength w len P) (k.apply E ((M.longest P).2.choice E))
            (extent 0 (M.longestPadLength w len P)) m (k.runLongest E M P st w len m) ∧
          ∀ (M' : Macros) (st' : Mem α), len + (M'.longest P).1 ≤ 2 ^ w →
            Separate k.arrays (M'.longestPadLength w len P) →
            ((M.longest P).2.choice E = (M'.longest P).2.choice E ∨ ∀ s ∈ k, s.2.ChoiceFree) →
            ∀ p ∈ k.arrays, ∀ i < len, k.runLongest E M P st w len m (p + i) = k.runLongest E M' P st' w len m (p + i)) ∧
      (2 ^ w < len + (M.longest P).1 → k.runLongest E M P st w len m = m) := by
  refine ⟨fun hfits => ?_, Kernel.runLongest_wrap E P M st m hw hlen⟩
  obtain ⟨hpad, hacts⟩ := Kernel.acts_longest E P M st m hw hfits hsep
  refine ⟨hpad, hacts, fun M' st' hfits' hsep' hchoice p hp i hi => ?_⟩
  obtain ⟨hpad', hacts'⟩ := Kernel.acts_longest E P M' st' m hw hfits' hsep'
  have happly : k.apply E ((M.longest P).2.choice E) = k.apply E ((M'.longest P).2.choice E) := by
    obtain heq | hfree := hchoice
    · rw [heq]
    · exact funext fun σ => Kernel.apply_choiceFree E _ _ σ hfree
  have hin : i < M.longestPadLength w len P := hi.trans_le hpad.2.1
  have hin' : i < M'.longestPadLength w len P := hi.trans_le hpad'.2.1
  rw [happly] at hacts
  exact hacts.unique hacts' hp hin (by rw [mem_extent]; omega) hin' (by rw [mem_extent]; omega)

/-- clang, for a machine with SSE, with the intrinsics. -/
def sseMacros : Macros where
  clang := true
  gnuc := true
  msc := false
  x64 := false
  sse := true
  avx := false
  neon := false
  disableCompilerBuiltins := true
  compiles h := absurd h (by decide)

/-- `d[i] = s[i] + d[i]`, for arrays at 16 and 32. -/
def addKernel : Kernel SignMag := [(32, .add (.arr 16) (.arr 32))]

/-- Five elements are eight with the padding. -/
theorem addKernel_separate : Separate addKernel.arrays (sseMacros.longestPadLength 32 5 .single) := by
  have hmem : ∀ p ∈ addKernel.arrays, p = 16 ∨ p = 32 := by
    rintro p ⟨s, hs, hp⟩
    rw [addKernel, List.mem_singleton] at hs
    rw [hs] at hp
    simp only [Expr.arrays, List.cons_append, List.nil_append, List.mem_cons, List.not_mem_nil, or_false] at hp
    omega
  have hpad : sseMacros.longestPadLength 32 5 .single = 8 := by decide
  intro p hp q hq
  rw [hpad]
  unfold Clear
  obtain rfl | rfl := hmem p hp <;> obtain rfl | rfl := hmem q hq <;> omega

/-- The last of five elements is added. -/
theorem loop_longest_add : addKernel.runLongest SignMag.elem sseMacros .single (fun _ => 0) 32 5
    (fun p => ⟨false, p⟩) (32 + 4) = ⟨false, 56⟩ :=
  ((loop_longest SignMag.elem .single sseMacros addKernel (fun _ => 0) (fun p => ⟨false, p⟩) (by decide) (by decide)
    addKernel_separate).1 (by decide)).2.1.done 32 ⟨_, List.mem_singleton_self _, Or.inl rfl⟩ 4 (by decide)
    (mem_extent.2 (by decide))

end Cop.Vec
