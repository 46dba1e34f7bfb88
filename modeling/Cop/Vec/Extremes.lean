import Cop.Theory.Knockout
import Cop.Vec.Arith
import Cop.Vec.Lanewise

/-!
# What arithmetic computes

The abstract operations on vectors work in each lane, move the lanes of two vectors one place to the
left, or turn one around. The least and the greatest lane of a vector are found by a knockout: a
vector that is interleaved with itself has its halves side by side. Every back-end computes these,
each with its own shuffles; the one for NEON has a choice of its own between two elements.

## What is proved

* `hmax2_eq`, `hmax4_eq`, `hmax8_eq` — the generic functions are knockouts.
* `Impl.arith_eq` — every back-end computes the abstract operations.
* `hmin_hmax_extreme` — the least and the greatest lane, on every back-end.
-/

namespace Cop.Vec

open Theory

variable {W : ℕ} {α : Type}

variable (W) in
/-- The abstract operations that every back-end provides, for a choice between two elements. -/
def plainBasicArith (E : Elem α) (min max : α → α → α) : BasicArith W α where
  add := lanewise E.add
  sub := lanewise E.sub
  mul := lanewise E.mul
  broadcast a := fun _ => a
  neg a := fun i => E.neg (a i)
  rotl a b := fun i => Fin.append a b ⟨i + 1, by omega⟩
  reverse a := fun i => a i.rev
  min := lanewise min
  max := lanewise max

/-- The lane that is left of a knockout. -/
def winner [Zero α] (op : α → α → α) (a : Lanes W α) : α :=
  if h : 0 < W then (knockout op)^[Nat.log2 W] a ⟨0, h⟩ else 0

variable (W) in
/-- All of the abstract operations. -/
def plainArith [Zero α] (E : Elem α) (min max : α → α → α) : Arith W α where
  toBasicArith := plainBasicArith W E min max
  hmin _ a := winner min a
  hmax _ a := winner max a

/-! ### The generic functions -/

/-- A vector that is interleaved with itself has its halves side by side. -/
theorem lanewise_dealt (op : α → α → α) (a : Lanes W α) : lanewise op (dealt a a).1 (dealt a a).2 = knockout op a := by
  funext i
  simp only [lanewise, dealt, alternateLanes, ite_self, knockout, Fin.val_castAdd, Fin.val_natAdd]

theorem st_zero (st : Mem α) (a : Lanes W α) (h : 0 < W) : (plainBasic W α).st st 0 a 0 = a ⟨0, h⟩ := by
  have hlen : 0 < (List.ofFn a).length := by rwa [List.length_ofFn]
  exact (put_add (m := st) (p := 0) hlen).trans (List.getElem_ofFn _)

/-- A back-end deals vectors out and stores them as the abstract one does. -/
structure Deals (B : Basic W α) : Prop where
  /-- `INTERLEAVE`. -/
  interleave : B.interleave = dealt
  /-- `st`. -/
  st : B.st = (plainBasic W α).st

theorem Impl.deals [Zero α] (B : Impl W) : Deals (B.ops (α := α)).toBasic := by
  obtain ⟨f, hf⟩ := B.exists_ste0 (α := α)
  rw [hf]
  exact ⟨rfl, rfl⟩

section Winner

variable [Zero α] (op : α → α → α)

/-- The winner, where the number of lanes is a power of two. -/
theorem winner_eq {k : ℕ} (hW : W = 2 ^ k) (h : 0 < W) (a : Lanes W α) :
    winner op a = (knockout op)^[k] a ⟨0, h⟩ := by
  have hrounds : Nat.log2 W = k := by rw [hW, Nat.log2_two_pow]
  rw [winner, dif_pos h, hrounds]

theorem hmax2_eq {B : Basic 2 α} (hB : Deals B) : hmax2 B (lanewise op) = fun _ a => winner op a := by
  funext st a
  simp only [hmax2, hB.interleave, hB.st, lanewise_dealt]
  rw [st_zero st _ (by decide), winner_eq (k := 1) op rfl (by decide)]
  rfl

theorem hmax4_eq {B : Basic 4 α} (hB : Deals B) : hmax4 B (lanewise op) = fun _ a => winner op a := by
  funext st a
  simp only [hmax4, hB.interleave, hB.st, lanewise_dealt]
  rw [st_zero st _ (by decide), winner_eq (k := 2) op rfl (by decide)]
  rfl

theorem hmax8_eq {B : Basic 8 α} (hB : Deals B) : hmax8 B (lanewise op) = fun _ a => winner op a := by
  funext st a
  simp only [hmax8, hB.interleave, hB.st, lanewise_dealt]
  rw [st_zero st _ (by decide), winner_eq (k := 3) op rfl (by decide)]
  rfl

end Winner

/-! ### The back-ends -/

theorem builtinMax2_eq (op : α → α → α) : builtinMax2 op = lanewise op := by
  funext a b i
  fin_cases i <;> rfl

theorem builtinMax4_eq (op : α → α → α) : builtinMax4 op = lanewise op := by
  funext a b i
  fin_cases i <;> rfl

theorem builtinMax8_eq (op : α → α → α) : builtinMax8 op = lanewise op := by
  funext a b i
  fin_cases i <;> rfl

/-- The exclusive or with a sign in every lane negates. -/
theorem lanewise_xor_negZero (E : Elem α) (a : Lanes W α) :
    lanewise E.xor a (fun _ => E.negZero) = fun i => E.neg (a i) := funext fun i => E.xor_negZero (a i)

section BasicArith

variable {E : Elem α} {rotl min max : Lanes W α → Lanes W α → Lanes W α} {reverse : Lanes W α → Lanes W α}

/-- The lanes of two vectors, one place to the left. -/
def Rotates (rotl : Lanes W α → Lanes W α → Lanes W α) : Prop :=
  ∀ a b i, rotl a b i = Fin.append a b ⟨i.val + 1, by omega⟩

/-- The lanes of a vector, turned around. -/
def Reverses (reverse : Lanes W α → Lanes W α) : Prop := ∀ a i, reverse a i = a i.rev

theorem vecBasicArith_eq {initsplat : α → Lanes W α} (hsplat : ∀ a i, initsplat a i = a) (hrotl : Rotates rotl)
    (hreverse : Reverses reverse) (hmin : min = lanewise E.min) (hmax : max = lanewise E.max) :
    vecBasicArith W E initsplat rotl reverse min max = plainBasicArith W E E.min E.max := by
  refine BasicArith.ext rfl rfl rfl ?_ rfl ?_ ?_ hmin hmax
  · funext a i
    exact hsplat a i
  · funext a b i
    exact hrotl a b i
  · funext a i
    exact hreverse a i

theorem vecSseBasicArith_eq (hrotl : Rotates rotl) (hreverse : Reverses reverse) :
    vecSseBasicArith W E rotl reverse = plainBasicArith W E E.min E.max := by
  refine BasicArith.ext rfl rfl rfl rfl ?_ ?_ ?_ rfl rfl
  · funext a
    exact lanewise_xor_negZero E a
  · funext a b i
    exact hrotl a b i
  · funext a i
    exact hreverse a i

theorem vecAvxBasicArith_eq (hrotl : Rotates rotl) (hreverse : Reverses reverse) :
    vecAvxBasicArith W E rotl reverse = plainBasicArith W E E.min E.max :=
  (rfl : vecAvxBasicArith W E rotl reverse = vecSseBasicArith W E rotl reverse).trans (vecSseBasicArith_eq hrotl hreverse)

end BasicArith

/-- Operations are those of a back-end and the generic functions. -/
theorem Arith.eq_of {A A' : Arith W α} (hbasic : A.toBasicArith = A'.toBasicArith) (hhmin : A.hmin = A'.hmin)
    (hhmax : A.hmax = A'.hmax) : A = A' := by
  cases A
  cases A'
  simp only [Arith.mk.injEq]
  exact ⟨hbasic, hhmin, hhmax⟩

section Impl

variable [Zero α] (E : Elem α)

theorem builtinV4fArith_eq : builtinV4fArith E = plainArith 4 E E.min E.max := by
  refine Arith.eq_of ?_ ?_ ?_
  · refine vecBasicArith_eq (fun a i => ?_) (fun a b i => ?_) (fun a i => ?_) (builtinMax4_eq _) (builtinMax4_eq _)
    · fin_cases i <;> rfl
    · fin_cases i <;> rfl
    · fin_cases i <;> rfl
  · exact (congrArg _ (builtinMax4_eq E.min)).trans (hmax4_eq E.min Impl.builtinV4f.deals)
  · exact (congrArg _ (builtinMax4_eq E.max)).trans (hmax4_eq E.max Impl.builtinV4f.deals)

theorem builtinV2dArith_eq : builtinV2dArith E = plainArith 2 E E.min E.max := by
  refine Arith.eq_of ?_ ?_ ?_
  · refine vecBasicArith_eq (fun a i => ?_) (fun a b i => ?_) (fun a i => ?_) (builtinMax2_eq _) (builtinMax2_eq _)
    · fin_cases i <;> rfl
    · fin_cases i <;> rfl
    · fin_cases i <;> rfl
  · exact (congrArg _ (builtinMax2_eq E.min)).trans (hmax2_eq E.min Impl.builtinV2d.deals)
  · exact (congrArg _ (builtinMax2_eq E.max)).trans (hmax2_eq E.max Impl.builtinV2d.deals)

theorem builtinV8fArith_eq : builtinV8fArith E = plainArith 8 E E.min E.max := by
  refine Arith.eq_of ?_ ?_ ?_
  · refine vecBasicArith_eq (fun a i => ?_) (fun a b i => ?_) (fun a i => ?_) (builtinMax8_eq _) (builtinMax8_eq _)
    · fin_cases i <;> rfl
    · fin_cases i <;> rfl
    · fin_cases i <;> rfl
  · exact (congrArg _ (builtinMax8_eq E.min)).trans (hmax8_eq E.min Impl.builtinV8f.deals)
  · exact (congrArg _ (builtinMax8_eq E.max)).trans (hmax8_eq E.max Impl.builtinV8f.deals)

theorem builtinV4dArith_eq : builtinV4dArith E = plainArith 4 E E.min E.max := by
  refine Arith.eq_of ?_ ?_ ?_
  · refine vecBasicArith_eq (fun a i => ?_) (fun a b i => ?_) (fun a i => ?_) (builtinMax4_eq _) (builtinMax4_eq _)
    · fin_cases i <;> rfl
    · fin_cases i <;> rfl
    · fin_cases i <;> rfl
  · exact (congrArg _ (builtinMax4_eq E.min)).trans (hmax4_eq E.min Impl.builtinV4d.deals)
  · exact (congrArg _ (builtinMax4_eq E.max)).trans (hmax4_eq E.max Impl.builtinV4d.deals)

theorem sseV4fArith_eq : sseV4fArith E = plainArith 4 E E.min E.max := by
  refine Arith.eq_of (vecSseBasicArith_eq (fun a b i => ?_) fun a i => ?_) (hmax4_eq E.min Impl.sseV4f.deals)
    (hmax4_eq E.max Impl.sseV4f.deals)
  · fin_cases i <;> rfl
  · fin_cases i <;> rfl

theorem sseV2dArith_eq : sseV2dArith E = plainArith 2 E E.min E.max := by
  refine Arith.eq_of (vecSseBasicArith_eq (fun a b i => ?_) fun a i => ?_) (hmax2_eq E.min Impl.sseV2d.deals)
    (hmax2_eq E.max Impl.sseV2d.deals)
  · fin_cases i <;> rfl
  · fin_cases i <;> rfl

theorem avxV8fArith_eq : avxV8fArith E = plainArith 8 E E.min E.max := by
  refine Arith.eq_of (vecAvxBasicArith_eq (fun a b i => ?_) fun a i => ?_) (hmax8_eq E.min Impl.avxV8f.deals)
    (hmax8_eq E.max Impl.avxV8f.deals)
  · fin_cases i <;> rfl
  · fin_cases i <;> rfl

theorem avxV4dArith_eq : avxV4dArith E = plainArith 4 E E.min E.max := by
  refine Arith.eq_of (vecAvxBasicArith_eq (fun a b i => ?_) fun a i => ?_) (hmax4_eq E.min Impl.avxV4d.deals)
    (hmax4_eq E.max Impl.avxV4d.deals)
  · fin_cases i <;> rfl
  · fin_cases i <;> rfl

/-- The back-end for NEON chooses between two elements in its own way. -/
theorem neonV4fArith_eq : neonV4fArith E = plainArith 4 E E.vmin E.vmax := by
  refine Arith.eq_of (BasicArith.ext rfl rfl rfl rfl rfl ?_ ?_ rfl rfl) (hmax4_eq E.vmin Impl.neonV4f.deals)
    (hmax4_eq E.vmax Impl.neonV4f.deals)
  · funext a b i
    exact congrArg (Fin.append a b) (Fin.ext (Nat.add_comm 1 i.val))
  · funext a i
    fin_cases i <;> rfl

theorem v1Arith_eq : v1Arith E = plainArith 1 E E.min E.max := by
  have hwinner : ∀ op : α → α → α, (fun _ a => a ⟨0, Nat.one_pos⟩ : Mem α → Lanes 1 α → α) = fun _ a => winner op a := by
    intro op
    funext st a
    exact (winner_eq (k := 0) op rfl Nat.one_pos a).symm
  refine Arith.eq_of (vecBasicArith_eq (fun a i => rfl) (fun a b i => ?_) (fun a i => ?_) rfl rfl) (hwinner E.min)
    (hwinner E.max)
  · fin_cases i
    rfl
  · fin_cases i
    rfl

end Impl

/-- **Every back-end computes the abstract operations**, with the choice of C between two elements or,
on NEON, the machine's. -/
theorem Impl.arith_eq [Zero α] (E : Elem α) (B : Impl W) :
    (¬ B.WideSte0 → B.arith E = plainArith W E E.min E.max) ∧ (B.WideSte0 → B.arith E = plainArith W E E.vmin E.vmax) := by
  cases B with
  | builtinV4f => exact ⟨fun _ => builtinV4fArith_eq E, False.elim⟩
  | builtinV2d => exact ⟨fun _ => builtinV2dArith_eq E, False.elim⟩
  | builtinV8f => exact ⟨fun _ => builtinV8fArith_eq E, False.elim⟩
  | builtinV4d => exact ⟨fun _ => builtinV4dArith_eq E, False.elim⟩
  | sseV4f => exact ⟨fun _ => sseV4fArith_eq E, False.elim⟩
  | sseV2d => exact ⟨fun _ => sseV2dArith_eq E, False.elim⟩
  | avxV8f => exact ⟨fun _ => avxV8fArith_eq E, False.elim⟩
  | avxV4d => exact ⟨fun _ => avxV4dArith_eq E, False.elim⟩
  | neonV4f => exact ⟨fun h => absurd trivial h, fun _ => neonV4fArith_eq E⟩
  | v1f => exact ⟨fun _ => v1Arith_eq E, False.elim⟩
  | v1d => exact ⟨fun _ => v1Arith_eq E, False.elim⟩

/-! ### The extreme lanes -/

section Elem

variable (E : Elem α)

/-- The elements that are numbers. -/
def Elem.Numbers : Set α := {a | E.isnan a = false}

/-- Numbers are ordered, where none is less. -/
theorem Elem.not_lt_trans {a b c : α} (hb : b ∈ E.Numbers) (hab : E.lt b a = false) (hbc : E.lt c b = false) :
    E.lt c a = false := by
  by_contra hca
  rw [Bool.not_eq_false] at hca
  obtain hcb | hba := E.lt_between c b a hb hca
  · rw [hcb] at hbc
    exact absurd hbc (by decide)
  · rw [hba] at hab
    exact absurd hab (by decide)

theorem Elem.lt_irrefl (a : α) : E.lt a a = false := by
  by_contra h
  rw [Bool.not_eq_false] at h
  exact absurd (h.symm.trans (E.lt_asymm a a h)) (by decide)

theorem Elem.max_chooses (a b : α) : (E.max a b = a ∨ E.max a b = b) ∧ E.lt (E.max a b) a = false ∧
    E.lt (E.max a b) b = false := by
  unfold Elem.max
  by_cases h : E.lt b a = true
  · rw [if_pos h]
    exact ⟨Or.inl rfl, E.lt_irrefl a, E.lt_asymm b a h⟩
  · rw [if_neg h]
    exact ⟨Or.inr rfl, Bool.not_eq_true _ ▸ h, E.lt_irrefl b⟩

theorem Elem.min_chooses (a b : α) : (E.min a b = a ∨ E.min a b = b) ∧ E.lt a (E.min a b) = false ∧
    E.lt b (E.min a b) = false := by
  unfold Elem.min
  by_cases h : E.lt a b = true
  · rw [if_pos h]
    exact ⟨Or.inl rfl, E.lt_irrefl a, E.lt_asymm a b h⟩
  · rw [if_neg h]
    exact ⟨Or.inr rfl, Bool.not_eq_true _ ▸ h, E.lt_irrefl b⟩

/-- What C and the machine choose of two numbers is the greater. -/
theorem Elem.chooses_max {op : α → α → α} (h : op = E.max ∨ op = E.vmax) :
    Chooses op (fun a b => E.lt b a = false) E.Numbers := by
  have hop : ∀ a ∈ E.Numbers, ∀ b ∈ E.Numbers,
      (op a b = a ∨ op a b = b) ∧ E.lt (op a b) a = false ∧ E.lt (op a b) b = false := by
    obtain rfl | rfl := h
    · exact fun a _ b _ => E.max_chooses a b
    · exact fun a ha b hb => E.vmax_chooses a b ha hb
  exact ⟨fun a ha b hb => (hop a ha b hb).1, fun a ha b hb => (hop a ha b hb).2.1, fun a ha b hb => (hop a ha b hb).2.2,
    fun a _ b hb c _ hab hbc => E.not_lt_trans hb hab hbc⟩

/-- What they choose is the lesser. -/
theorem Elem.chooses_min {op : α → α → α} (h : op = E.min ∨ op = E.vmin) :
    Chooses op (fun a b => E.lt a b = false) E.Numbers := by
  have hop : ∀ a ∈ E.Numbers, ∀ b ∈ E.Numbers,
      (op a b = a ∨ op a b = b) ∧ E.lt a (op a b) = false ∧ E.lt b (op a b) = false := by
    obtain rfl | rfl := h
    · exact fun a _ b _ => E.min_chooses a b
    · exact fun a ha b hb => E.vmin_chooses a b ha hb
  exact ⟨fun a ha b hb => (hop a ha b hb).1, fun a ha b hb => (hop a ha b hb).2.1, fun a ha b hb => (hop a ha b hb).2.2,
    fun a _ b hb c _ hab hbc => E.not_lt_trans hb hbc hab⟩

end Elem

/-- The number of lanes is a power of two. -/
theorem Impl.exists_width (B : Impl W) : ∃ k, W = 2 ^ k := by
  cases B with
  | builtinV4f => exact ⟨2, rfl⟩
  | builtinV2d => exact ⟨1, rfl⟩
  | builtinV8f => exact ⟨3, rfl⟩
  | builtinV4d => exact ⟨2, rfl⟩
  | sseV4f => exact ⟨2, rfl⟩
  | sseV2d => exact ⟨1, rfl⟩
  | avxV8f => exact ⟨3, rfl⟩
  | avxV4d => exact ⟨2, rfl⟩
  | neonV4f => exact ⟨2, rfl⟩
  | v1f => exact ⟨0, rfl⟩
  | v1d => exact ⟨0, rfl⟩

theorem Impl.width_pos (B : Impl W) : 0 < W := by
  obtain ⟨k, rfl⟩ := B.exists_width
  exact Nat.two_pow_pos k

/-- The winner of numbers is one of them that none of the others beats. -/
theorem winner_extreme [Zero α] (B : Impl W) {op : α → α → α} {le : α → α → Prop} {s : Set α} (h : Chooses op le s)
    {a : Lanes W α} (ha : ∀ i, a i ∈ s) : (∃ i, winner op a = a i) ∧ ∀ i, le (a i) (winner op a) := by
  obtain ⟨k, hW⟩ := B.exists_width
  rw [winner_eq op hW B.width_pos]
  exact knockout_winner h ha hW _

/-- What the operations of a back-end on vectors are, for some choice between two elements. -/
theorem Impl.arith_choice [Zero α] (E : Elem α) (B : Impl W) : ∃ min max, (min = E.min ∨ min = E.vmin) ∧
    (max = E.max ∨ max = E.vmax) ∧ B.arith E = plainArith W E min max := by
  by_cases hB : B.WideSte0
  · exact ⟨E.vmin, E.vmax, Or.inr rfl, Or.inr rfl, (B.arith_eq E).2 hB⟩
  · exact ⟨E.min, E.max, Or.inl rfl, Or.inl rfl, (B.arith_eq E).1 hB⟩

/-- **The extreme lanes**, on every back-end: of a vector of numbers, `hmin` gives one that none is
less than, and `hmax` one that none is greater than, whatever was in their array. -/
theorem hmin_hmax_extreme [Zero α] (E : Elem α) (B : Impl W) (st : Mem α) (a : Lanes W α)
    (ha : ∀ i, E.isnan (a i) = false) :
    ((∃ i, (B.arith E).hmin st a = a i) ∧ ∀ i, E.lt (a i) ((B.arith E).hmin st a) = false) ∧
      (∃ i, (B.arith E).hmax st a = a i) ∧ ∀ i, E.lt ((B.arith E).hmax st a) (a i) = false := by
  obtain ⟨min, max, hmin, hmax, harith⟩ := B.arith_choice E
  rw [harith]
  exact ⟨winner_extreme B (E.chooses_min hmin) ha, winner_extreme B (E.chooses_max hmax) ha⟩

/-- On NEON, of numbers with both zeros among them. -/
theorem hmin_hmax_extreme_zeros : ((∃ i, (Impl.neonV4f.arith SignMag.elem).hmin (fun _ => 0)
      ![⟨true, 0⟩, ⟨false, 7⟩, ⟨false, 0⟩, ⟨false, 3⟩] = (![⟨true, 0⟩, ⟨false, 7⟩, ⟨false, 0⟩, ⟨false, 3⟩] : Lanes 4 SignMag) i) ∧
    ∀ i, SignMag.elem.lt ((![⟨true, 0⟩, ⟨false, 7⟩, ⟨false, 0⟩, ⟨false, 3⟩] : Lanes 4 SignMag) i)
      ((Impl.neonV4f.arith SignMag.elem).hmin (fun _ => 0) ![⟨true, 0⟩, ⟨false, 7⟩, ⟨false, 0⟩, ⟨false, 3⟩]) = false) ∧
    (Impl.neonV4f.arith SignMag.elem).hmin (fun _ => 0) ![⟨true, 0⟩, ⟨false, 7⟩, ⟨false, 0⟩, ⟨false, 3⟩] = ⟨true, 0⟩ :=
  ⟨(hmin_hmax_extreme SignMag.elem .neonV4f (fun _ => 0) ![⟨true, 0⟩, ⟨false, 7⟩, ⟨false, 0⟩, ⟨false, 3⟩] fun _ => rfl).1,
    by decide⟩

end Cop.Vec
