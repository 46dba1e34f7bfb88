import Cop.Vec.Backends
import Mathlib.Data.Fintype.Basic
import Mathlib.Tactic.FinCases

/-!
# What the back-ends compute

The abstract back-end of `W` lanes, `plain`, says what each operation is for: a load reads
consecutive elements, a store writes them, an interleaving operation deals the elements of two
vectors out in turn, and a deinterleaving one collects them. Every back-end is that one, each by its
own network of shuffles; the one for NEON is, but for the store of element 0.

## What is proved

* `generic_plain` — the generic macros, over the abstract basic operations, are the abstract ones.
* `vecBasicOperations_eq`, `vecSseBasicOperations_eq`, `vecAvxBasicOperations_eq` — the basic ones are
  the abstract ones.
* `Impl.ops_eq` — every back-end is the abstract one, up to `ste0` on NEON.
-/

namespace Cop.Vec

open Theory

variable {W : ℕ} {α : Type}

/-- The elements of two vectors in turn, as two vectors. -/
def dealt (a b : Lanes W α) : Lanes W α × Lanes W α :=
  (fun i => alternateLanes a b (Fin.castAdd W i), fun i => alternateLanes a b (Fin.natAdd W i))

/-- The elements at even places of two vectors, and those at odd places. -/
def collected (a b : Lanes W α) : Lanes W α × Lanes W α :=
  (fun i => Fin.append a b ⟨2 * i, by omega⟩, fun i => Fin.append a b ⟨2 * i + 1, by omega⟩)

variable (W α) in
/-- The abstract basic operations. -/
def plainBasic : Basic W α where
  ld m ptr := block m ptr
  st m ptr val := put m ptr (List.ofFn val)
  lde0 a m ptr := fun i => if i.val = 0 then m ptr else a i
  ste0 m ptr val := put m ptr ((List.ofFn val).take 1)
  interleave := dealt
  deinterleave := collected

variable (W α) in
/-- The abstract back-end. -/
def plain : Ops W α where
  toBasic := plainBasic W α
  interleave2 in1 in2 in3 in4 := ((dealt in1 in2).1, (dealt in1 in2).2, (dealt in3 in4).1, (dealt in3 in4).2)
  deinterleave2 in1 in2 in3 in4 :=
    ((collected in1 in2).1, (collected in1 in2).2, (collected in3 in4).1, (collected in3 in4).2)
  ld2 m src := (block m src, block m (src + W))
  st2 m dest r0 r1 := put m dest (List.ofFn r0 ++ List.ofFn r1)
  ld2dint m src := (fun i => m (src + 2 * i), fun i => m (src + (2 * i + 1)))
  st2int m dest r0 r1 := put m dest (List.ofFn (alternateLanes r0 r1))
  ld2x2dint m src0 src1 := (fun i => m (src0 + 2 * i), fun i => m (src0 + (2 * i + 1)),
    fun i => m (src1 + 2 * i), fun i => m (src1 + (2 * i + 1)))
  st2x2int m dest0 dest1 r00 r01 r10 r11 :=
    put (put m dest0 (List.ofFn (alternateLanes r00 r01))) dest1 (List.ofFn (alternateLanes r10 r11))

variable (W α) in
/-- The abstract back-end whose `ste0` stores all elements. -/
def wide : Ops W α := { plain W α with ste0 := (plain W α).st }

/-- The basic operations with the generic macros. -/
def Basic.generic (B : Basic W α) : Ops W α := { B with }

/-! ### The generic macros -/

/-- Two vectors dealt out make up the elements in turn. -/
theorem ofFn_dealt (a b : Lanes W α) :
    List.ofFn (dealt a b).1 ++ List.ofFn (dealt a b).2 = List.ofFn (alternateLanes a b) := by
  rw [List.ofFn_add]
  rfl

theorem append_block (m : Mem α) (src : ℕ) (k : Fin (W + W)) :
    Fin.append (block m src : Lanes W α) (block m (src + W)) k = m (src + k) := by
  refine Fin.addCases (fun i => ?_) (fun i => ?_) k
  · rw [Fin.append_left]
    rfl
  · rw [Fin.append_right, block, Fin.val_natAdd, Nat.add_assoc]

/-- What is collected of consecutive elements. -/
theorem collected_block (m : Mem α) (src : ℕ) :
    collected (block m src : Lanes W α) (block m (src + W)) =
      ((fun i => m (src + 2 * i) : Lanes W α), (fun i => m (src + (2 * i + 1)) : Lanes W α)) := by
  have hlane : ∀ i : Fin W, 2 * i.val < W + W ∧ 2 * i.val + 1 < W + W := fun i => by omega
  refine Prod.ext ?_ ?_
  · funext i
    exact append_block m src ⟨2 * i, (hlane i).1⟩
  · funext i
    exact append_block m src ⟨2 * i + 1, (hlane i).2⟩

theorem put_pair (m : Mem α) (dest : ℕ) (r0 r1 : Lanes W α) :
    put (put m (dest + 0) (List.ofFn r0)) (dest + W) (List.ofFn r1) = put m dest (List.ofFn r0 ++ List.ofFn r1) := by
  rw [put_append, List.length_ofFn, Nat.add_zero]

theorem put_dealt (m : Mem α) (dest : ℕ) (r0 r1 : Lanes W α) :
    put (put m (dest + 0) (List.ofFn (dealt r0 r1).1)) (dest + W) (List.ofFn (dealt r0 r1).2) =
      put m dest (List.ofFn (alternateLanes r0 r1)) := by
  rw [put_pair, ofFn_dealt]

/-- **The generic macros** do with the abstract operations what the abstract back-end does. -/
theorem generic_plain : (plainBasic W α).generic = plain W α := by
  refine Ops.ext rfl rfl rfl rfl rfl rfl rfl rfl rfl ?_ ?_ ?_ ?_ ?_
  · funext m dest r0 r1
    exact put_pair m dest r0 r1
  · funext m src
    exact collected_block m src
  · funext m dest r0 r1
    exact put_dealt m dest r0 r1
  · funext m src0 src1
    exact congrArg₂ (fun s t => (s.1, s.2, t.1, t.2)) (collected_block m src0) (collected_block m src1)
  · funext m dest0 dest1 r00 r01 r10 r11
    change _ = put (put m dest0 (List.ofFn (alternateLanes r00 r01))) dest1 (List.ofFn (alternateLanes r10 r11))
    rw [← put_dealt m dest0, ← put_dealt _ dest1]
    rfl

/-- So it is enough that the basic operations are the abstract ones. -/
theorem Basic.generic_eq {B : Basic W α} (h : B = plainBasic W α) : B.generic = plain W α := by rw [h, generic_plain]

/-! ### The back-ends -/

theorem take_ofFn (hW : 0 < W) (a : Lanes W α) : (List.ofFn a).take 1 = [a ⟨0, hW⟩] := by
  obtain ⟨k, rfl⟩ := Nat.exists_eq_add_of_lt hW
  rw [Nat.zero_add] at *
  rw [List.ofFn_succ]
  rfl

theorem update_zero [NeZero W] (a : Lanes W α) (x : α) : Function.update a 0 x = fun i => if i.val = 0 then x else a i := by
  funext i
  rw [Function.update_apply]
  exact if_congr Fin.val_eq_zero_iff.symm rfl rfl

section Basic

variable {il dl : Lanes W α → Lanes W α → Lanes W α × Lanes W α}

theorem vecBasicOperations_eq [NeZero W] (hil : il = dealt) (hdl : dl = collected) :
    vecBasicOperations W il dl = plainBasic W α := by
  refine Basic.ext rfl rfl ?_ ?_ hil hdl
  · funext a m ptr
    exact update_zero a (m ptr)
  · funext m ptr val
    change Function.update m ptr (val 0) = put m ptr ((List.ofFn val).take 1)
    rw [take_ofFn (Nat.pos_of_neZero W), put_singleton]
    rfl

theorem vecSseBasicOperations_eq [Zero α] [NeZero W] (hil : il = dealt) (hdl : dl = collected) :
    vecSseBasicOperations W il dl = plainBasic W α := by
  rw [← vecBasicOperations_eq hil hdl]
  refine Basic.ext rfl rfl ?_ rfl rfl rfl
  funext a m ptr
  refine Eq.trans ?_ (update_zero a (m ptr)).symm
  funext i
  by_cases hi : i.val = 0
  · simp [vecSseBasicOperations, mmMoveSs, mmLoadSs, hi]
  · simp [vecSseBasicOperations, mmMoveSs, hi]

theorem vecAvxBasicOperations_eq {h : ℕ} [NeZero h]
    {il dl : Lanes (h + h) α → Lanes (h + h) α → Lanes (h + h) α × Lanes (h + h) α} (hil : il = dealt)
    (hdl : dl = collected) : vecAvxBasicOperations h il dl = plainBasic (h + h) α := by
  have hpos : 0 < h + h := Nat.add_pos_left (Nat.pos_of_neZero h) h
  refine Basic.ext rfl rfl ?_ ?_ hil hdl
  · funext a m ptr i
    change (if Nat.testBit 1 i.val then m ptr else a i) = if i.val = 0 then m ptr else a i
    exact if_congr Nat.testBit_one_eq_true_iff_self_eq_zero rfl rfl
  · funext m ptr val
    change Function.update m ptr (lo h val 0) = put m ptr ((List.ofFn val).take 1)
    rw [take_ofFn hpos, put_singleton]
    rfl

end Basic

/-- Two pairs of vectors that agree in every lane. -/
theorem pairs_ext {f g : Lanes W α → Lanes W α → Lanes W α × Lanes W α}
    (h : ∀ a b i, (f a b).1 i = (g a b).1 i ∧ (f a b).2 i = (g a b).2 i) : f = g := by
  funext a b
  exact Prod.ext (funext fun i => (h a b i).1) (funext fun i => (h a b i).2)

theorem builtinV4f_eq : builtinV4f = plain 4 α := by
  refine Basic.generic_eq (vecBasicOperations_eq (pairs_ext fun a b i => ?_) (pairs_ext fun a b i => ?_))
  · fin_cases i <;> exact ⟨rfl, rfl⟩
  · fin_cases i <;> exact ⟨rfl, rfl⟩

theorem builtinV2d_eq : builtinV2d = plain 2 α := by
  refine Basic.generic_eq (vecBasicOperations_eq (pairs_ext fun a b i => ?_) (pairs_ext fun a b i => ?_))
  · fin_cases i <;> exact ⟨rfl, rfl⟩
  · fin_cases i <;> exact ⟨rfl, rfl⟩

theorem builtinV8f_eq : builtinV8f = plain 8 α := by
  refine Basic.generic_eq (vecBasicOperations_eq (pairs_ext fun a b i => ?_) (pairs_ext fun a b i => ?_))
  · fin_cases i <;> exact ⟨rfl, rfl⟩
  · fin_cases i <;> exact ⟨rfl, rfl⟩

theorem builtinV4d_eq : builtinV4d = plain 4 α := by
  refine Basic.generic_eq (vecBasicOperations_eq (pairs_ext fun a b i => ?_) (pairs_ext fun a b i => ?_))
  · fin_cases i <;> exact ⟨rfl, rfl⟩
  · fin_cases i <;> exact ⟨rfl, rfl⟩

theorem sseV4f_eq [Zero α] : sseV4f = plain 4 α := by
  refine Basic.generic_eq (vecSseBasicOperations_eq (pairs_ext fun a b i => ?_) (pairs_ext fun a b i => ?_))
  · fin_cases i <;> exact ⟨rfl, rfl⟩
  · fin_cases i <;> exact ⟨rfl, rfl⟩

theorem sseV2d_eq [Zero α] : sseV2d = plain 2 α := by
  refine Basic.generic_eq (vecSseBasicOperations_eq (pairs_ext fun a b i => ?_) (pairs_ext fun a b i => ?_))
  · fin_cases i <;> exact ⟨rfl, rfl⟩
  · fin_cases i <;> exact ⟨rfl, rfl⟩

theorem avxV8f_eq [Zero α] : avxV8f = plain 8 α := by
  refine Basic.generic_eq (vecAvxBasicOperations_eq (pairs_ext fun a b i => ?_) (pairs_ext fun a b i => ?_))
  · fin_cases i <;> exact ⟨rfl, rfl⟩
  · fin_cases i <;> exact ⟨rfl, rfl⟩

theorem avxV4d_eq [Zero α] : avxV4d = plain 4 α := by
  refine Basic.generic_eq (vecAvxBasicOperations_eq (pairs_ext fun a b i => ?_) (pairs_ext fun a b i => ?_))
  · fin_cases i <;> exact ⟨rfl, rfl⟩
  · fin_cases i <;> exact ⟨rfl, rfl⟩

theorem v1_eq : v1 = plain 1 α := by
  refine Basic.generic_eq (vecBasicOperations_eq (pairs_ext fun a b i => ?_) (pairs_ext fun a b i => ?_))
  · fin_cases i
    exact ⟨rfl, rfl⟩
  · fin_cases i
    exact ⟨rfl, rfl⟩

/-- The back-end for NEON stores a whole vector for its element 0. -/
theorem neonV4f_eq : neonV4f = wide 4 α := by
  have hbasic : neonV4f.toBasic = { plainBasic 4 α with ste0 := (plainBasic 4 α).st } := by
    refine Basic.ext rfl rfl ?_ rfl (pairs_ext fun a b i => ?_) (pairs_ext fun a b i => ?_)
    · funext a m ptr
      exact update_zero a (m ptr)
    · fin_cases i <;> exact ⟨rfl, rfl⟩
    · fin_cases i <;> exact ⟨rfl, rfl⟩
  have hld2dint : vld2q = (plain 4 α).ld2dint := by
    funext m src
    refine Prod.ext (funext fun i => ?_) (funext fun i => ?_)
    · fin_cases i <;> rfl
    · fin_cases i <;> rfl
  have hgeneric : neonV4f = { neonV4f.toBasic.generic with
      ld2dint := vld2q
      ld2x2dint := fun m src0 src1 => ((vld2q m src0).1, (vld2q m src0).2, (vld2q m src1).1, (vld2q m src1).2) } :=
    (rfl : (neonV4f : Ops 4 α) = _)
  have hste0 : Basic.generic { plainBasic 4 α with ste0 := (plainBasic 4 α).st } =
      { (plainBasic 4 α).generic with ste0 := (plain 4 α).st } := rfl
  rw [hgeneric, hbasic, hste0, generic_plain, hld2dint]
  rfl

/-- The back-end whose store of element 0 is too wide. -/
def Impl.WideSte0 : Impl W → Prop
  | .neonV4f => True
  | _ => False

/-- **Every back-end is the abstract one**, up to the store of element 0 on NEON. -/
theorem Impl.ops_eq [Zero α] (B : Impl W) :
    (¬ B.WideSte0 → B.ops = plain W α) ∧ (B.WideSte0 → B.ops = wide W α) := by
  cases B with
  | builtinV4f => exact ⟨fun _ => builtinV4f_eq, False.elim⟩
  | builtinV2d => exact ⟨fun _ => builtinV2d_eq, False.elim⟩
  | builtinV8f => exact ⟨fun _ => builtinV8f_eq, False.elim⟩
  | builtinV4d => exact ⟨fun _ => builtinV4d_eq, False.elim⟩
  | sseV4f => exact ⟨fun _ => sseV4f_eq, False.elim⟩
  | sseV2d => exact ⟨fun _ => sseV2d_eq, False.elim⟩
  | avxV8f => exact ⟨fun _ => avxV8f_eq, False.elim⟩
  | avxV4d => exact ⟨fun _ => avxV4d_eq, False.elim⟩
  | neonV4f => exact ⟨fun h => absurd trivial h, fun _ => neonV4f_eq⟩
  | v1f => exact ⟨fun _ => v1_eq, False.elim⟩
  | v1d => exact ⟨fun _ => v1_eq, False.elim⟩

/-- But for `ste0`, every back-end is the abstract one. -/
theorem Impl.exists_ste0 [Zero α] (B : Impl W) : ∃ f, B.ops = { plain W α with ste0 := f } := by
  by_cases hB : B.WideSte0
  · exact ⟨_, B.ops_eq.2 hB⟩
  · exact ⟨_, B.ops_eq.1 hB⟩

end Cop.Vec
