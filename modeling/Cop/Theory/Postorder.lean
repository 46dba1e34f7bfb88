import Cop.Theory.DigitTree
import Mathlib.Data.List.FinRange

/-!
# Digit trees, leaves first

The list of the items of a digit tree in which the items below an item come before
it. Each item is listed with its depth.

## The model

* `postorder d t` — the list, where the root of `t` is at depth `d`.
* `Below t b a` — the path to `b` goes on from the end of the path to `a`.

## What is proved

* `mem_postorder` — every item is listed, with the length of its path as its depth.
* `postorder_pairwise` — no item is listed twice, and none after an item it is below of.
* `below_before` — where the list has an item, everything below it came before; this
  holds of the beginnings of the list as well.
-/

namespace Cop.Theory

universe u

namespace DigitTree

variable {k : ℕ} {α : Type u}

/-- The items with their depths, leaves first. -/
def postorder : ℕ → DigitTree k α → List (α × ℕ)
  | _, nil => []
  | d, node a s => (List.finRange k).flatMap (fun i => (s i).postorder (d + 1)) ++ [(a, d)]

/-- `b` stands below `a`. -/
def Below (t : DigitTree k α) (b a : α) : Prop := ∃ π i σ, t.at? π = some a ∧ t.at? (π ++ i :: σ) = some b

theorem mem_postorder {d e : ℕ} {t : DigitTree k α} {b : α} :
    (b, e) ∈ t.postorder d ↔ ∃ π, t.at? π = some b ∧ e = d + π.length := by
  induction t generalizing d with
  | nil => simp [postorder]
  | node a s ih =>
    simp only [postorder, List.mem_append, List.mem_flatMap, List.mem_finRange, true_and, List.mem_singleton,
      Prod.mk.injEq, ih]
    constructor
    · rintro (⟨i, π, hπ, rfl⟩ | ⟨rfl, rfl⟩)
      · exact ⟨i :: π, hπ, by rw [List.length_cons]; omega⟩
      · exact ⟨[], rfl, rfl⟩
    · rintro ⟨π, hπ, rfl⟩
      cases π with
      | nil => exact .inr ⟨(Option.some.inj hπ).symm, rfl⟩
      | cons i π => exact .inl ⟨i, π, hπ, by rw [List.length_cons]; omega⟩

theorem mem_of_mem_postorder {d : ℕ} {t : DigitTree k α} {v : α × ℕ} (h : v ∈ t.postorder d) : v.1 ∈ t := by
  obtain ⟨π, hπ, -⟩ := mem_postorder.1 h
  exact mem_of_at? hπ

theorem exists_mem_postorder {d : ℕ} {t : DigitTree k α} {b : α} (h : b ∈ t) : ∃ e, (b, e) ∈ t.postorder d := by
  obtain ⟨π, hπ⟩ := mem_iff_at?.1 h
  exact ⟨_, mem_postorder.2 ⟨π, hπ, rfl⟩⟩

theorem Below.mem {t : DigitTree k α} {b a : α} (h : t.Below b a) : b ∈ t := by
  obtain ⟨π, i, σ, -, hb⟩ := h
  exact mem_of_at? hb

/-- No item is below itself. -/
theorem Below.ne {t : DigitTree k α} (ho : t.Once) {b a : α} (h : t.Below b a) : b ≠ a := by
  obtain ⟨π, i, σ, ha, hb⟩ := h
  rintro rfl
  have := congrArg List.length (ho.at?_inj ha hb)
  rw [List.length_append, List.length_cons] at this
  omega

/-- What is below an item of a child is below it within the child. -/
theorem Below.kid {a : α} {s : Fin k → DigitTree k α} (ho : (node a s).Once) {i : Fin k} {b c : α} (hc : c ∈ s i)
    (h : (node a s).Below b c) : (s i).Below b c := by
  obtain ⟨π, l, σ, hπ, hb⟩ := h
  obtain ⟨τ, hτ⟩ := mem_iff_at?.1 hc
  -- the path to `c` begins with the number of the child it is in
  obtain rfl : π = i :: τ := ho.at?_inj hπ hτ
  exact ⟨τ, l, σ, hτ, hb⟩

theorem postorder_pairwise {d : ℕ} {t : DigitTree k α} (ho : t.Once) :
    (t.postorder d).Pairwise fun v w => v.1 ≠ w.1 ∧ ¬ t.Below w.1 v.1 := by
  induction t generalizing d with
  | nil => exact List.Pairwise.nil
  | node a s ih =>
    rw [postorder, List.pairwise_append, List.pairwise_flatMap]
    refine ⟨⟨fun i _ => ?_, ?_⟩, List.pairwise_singleton .., ?_⟩
    · refine (ih i (ho.2.2 i)).imp_of_mem fun hv _ h => ⟨h.1, fun hb => h.2 ?_⟩
      exact hb.kid ho (mem_of_mem_postorder hv)
    · refine (List.nodup_finRange k).imp fun {i j} hij v hv w hw => ?_
      have hv' : v.1 ∈ s i := mem_of_mem_postorder hv
      have hw' : w.1 ∉ s i := ho.2.1 j i (Ne.symm hij) w.1 (mem_of_mem_postorder hw)
      exact ⟨fun he => hw' (he ▸ hv'), fun hb => hw' (hb.kid ho hv').mem⟩
    · intro v hv w hw
      obtain ⟨i, -, hv⟩ := List.mem_flatMap.1 hv
      obtain rfl : w = (a, d) := List.mem_singleton.1 hw
      have hv' : v.1 ∈ s i := mem_of_mem_postorder hv
      exact ⟨fun (he : v.1 = a) => ho.1 i (he ▸ hv'), fun hb => ho.1 i (hb.kid ho hv').mem⟩

/-- **Leaves first**: where the list has an item, everything below it came before. -/
theorem below_before {d : ℕ} {t : DigitTree k α} (ho : t.Once) {pre post : List (α × ℕ)} {v : α × ℕ}
    (h : pre ++ v :: post <+: t.postorder d) {b : α} (hb : t.Below b v.1) : b ∈ pre.map Prod.fst := by
  obtain ⟨rest, hrest⟩ := h
  rw [List.append_assoc, List.cons_append] at hrest
  have hpair := hrest ▸ postorder_pairwise (d := d) ho
  obtain ⟨e, he⟩ := exists_mem_postorder (d := d) hb.mem
  rw [← hrest, List.mem_append, List.mem_cons] at he
  rcases he with he | he | he
  · exact List.mem_map.2 ⟨_, he, rfl⟩
  · exact absurd (congrArg Prod.fst he) (hb.ne ho)
  · exact absurd hb ((List.pairwise_cons.1 (List.pairwise_append.1 hpair).2.1).1 _ he).2

end DigitTree

end Cop.Theory
