import Cop.Sort.Safety
import Mathlib.Data.Prod.Basic

/-!
# The order of equal elements

What merge sort does with elements that compare equal, when the comparator is strict. Where two
elements tie, the insertion sort of short arrays leaves them as they are, while the merge takes
the one of the second half.

## What is proved

* `copSortMerge_stable_iff` — merge sort keeps the order of equal elements, and gives what the
  insertion sort would, exactly when it makes no difference in which order the pieces are read that
  are sorted by insertion.
* `copSortMerge_stable` — up to eight elements it always does.
* `copSortMerge_stable_iff_of_nodup` — elements that can be told apart keep their order if no two
  of different pieces are equal.
* `nine_swapped` — nine equal elements do not.
-/

namespace Cop.Sort

open Theory

variable {α : Type} {cmp : α → α → Bool} {w : ℕ} {a b : Arr} {m : Cells α}

/-- What a strict comparator finds in order is not in the opposite order. -/
theorem strict (x y : α) (hxy : cmp x y = true) : ¬ ¬ cmp x y = true := not_not.2 hxy

section Strict

variable [IsStrictWeakOrder α fun x y => cmp x y = true]

variable (cmp) in
theorem copSortMerge_pieces (hn : 2 ≤ a.nb) (hap : Arr.Apart a b) (hb : b.nb = a.nb) (hw : a.nb < 2 ^ w) :
    ∃ m', (∀ fuel, a.nb < fuel → copSortMerge cmp w fuel a b m = .ok m') ∧
      (a.elems m').Pairwise (fun x y => ¬ cmp y x = true) ∧
      (Stable cmp (a.elems m) (a.elems m') ↔
        ∀ z, tiesIn cmp z (pieces 7 (a.elems m)).reverse = tiesIn cmp z (pieces 7 (a.elems m))) := by
  obtain ⟨m', hok, helems, -⟩ := copSortMerge_total cmp (m := m) hn hap hb hw (Nat.lt_succ_self a.nb)
  refine ⟨m', fun fuel h => copSortMerge_approx h m' hok, ?_, ?_⟩
  · rw [helems]
    exact mergeSorted_sorted Compares.of_strictWeak 7 _
  · rw [helems]
    exact mergeSorted_stable_iff Compares.of_strictWeak strict 7 _

/-- **The order of equal elements.** With a strict comparator, merge sort keeps it, and leaves what
the insertion sort leaves, if and only if equal elements are the same ones in the pieces of at most
eight elements from the last one to the first as they are from the first to the last. -/
theorem copSortMerge_stable_iff (hn : 2 ≤ a.nb) (hap : Arr.Apart a b) (hb : b.nb = a.nb) (hw : a.nb < 2 ^ w) :
    ∃ m' n', (∀ fuel, a.nb < fuel → copSortMerge cmp w fuel a b m = .ok m') ∧
      (∀ fuel, a.nb < fuel → copSortInsertion cmp w fuel a m = .ok n') ∧
      (Stable cmp (a.elems m) (a.elems m') ↔
        ∀ z, tiesIn cmp z (pieces 7 (a.elems m)).reverse = tiesIn cmp z (pieces 7 (a.elems m))) ∧
      (a.elems m' = a.elems n' ↔
        ∀ z, tiesIn cmp z (pieces 7 (a.elems m)).reverse = tiesIn cmp z (pieces 7 (a.elems m))) := by
  obtain ⟨m', hok, hsorted, hiff⟩ := copSortMerge_pieces cmp (m := m) hn hap hb hw
  obtain ⟨n', hok', -, helems⟩ := copSortInsertion_total cmp (m := m) hn hw (Nat.lt_succ_self a.nb)
  have hins : Stable cmp (a.elems m) (insertionSorted cmp (a.elems m)) :=
    insertionSorted_stable Compares.of_strictWeak strict _
  refine ⟨m', n', hok, fun fuel h => copSortInsertion_approx h n' hok', hiff, ?_⟩
  rw [helems, ← hiff]
  constructor
  · intro heq
    rw [heq]
    exact hins
  · intro hstable
    refine eq_of_stable Compares.of_strictWeak strict hsorted (insertionSorted_sorted Compares.of_strictWeak _) ?_
    intro z
    rw [hins z, hstable z]

/-- Up to eight elements are one piece. -/
theorem copSortMerge_stable (hn : 2 ≤ a.nb) (h8 : a.nb ≤ 8) (hap : Arr.Apart a b) (hb : b.nb = a.nb) (hw : a.nb < 2 ^ w) :
    ∃ m', (∀ fuel, a.nb < fuel → copSortMerge cmp w fuel a b m = .ok m') ∧ Stable cmp (a.elems m) (a.elems m') := by
  obtain ⟨m', hok, -, hiff⟩ := copSortMerge_pieces cmp (m := m) hn hap hb hw
  refine ⟨m', hok, hiff.2 fun z => ?_⟩
  rw [pieces, if_pos (by rwa [Arr.elems, length_window])]
  rfl

/-- Elements that can be told apart keep their order if no two of different pieces are equal. -/
theorem copSortMerge_stable_iff_of_nodup (hn : 2 ≤ a.nb) (hap : Arr.Apart a b) (hb : b.nb = a.nb) (hw : a.nb < 2 ^ w)
    (hnodup : (a.elems m).Nodup) :
    ∃ m', (∀ fuel, a.nb < fuel → copSortMerge cmp w fuel a b m = .ok m') ∧
      (Stable cmp (a.elems m) (a.elems m') ↔
        (pieces 7 (a.elems m)).Pairwise fun xs ys => ∀ x ∈ xs, ∀ y ∈ ys, ¬ ties cmp x y = true) := by
  obtain ⟨m', hok, -, hiff⟩ := copSortMerge_pieces cmp (m := m) hn hap hb hw
  exact ⟨m', hok, hiff.trans (tiesIn_reverse_iff Compares.of_strictWeak strict 7 hnodup)⟩

end Strict

/-- Records that are compared by their first component. -/
def byKey (x y : ℕ × ℕ) : Bool := decide (x.1 < y.1)

instance : IsStrictWeakOrder (ℕ × ℕ) fun x y => byKey x y = true where
  irrefl x h := lt_irrefl x.1 (of_decide_eq_true h)
  trans x y z hxy hyz := decide_eq_true ((of_decide_eq_true hxy).trans (of_decide_eq_true hyz))
  incomp_trans x y z hxy hyz := by
    simp only [byKey, decide_eq_true_eq] at *
    omega

/-- Twenty records, each key of which is there twice. -/
theorem copSortMerge_stable_iff_twenty :
    ∃ m' n', (∀ fuel, 20 < fuel →
        copSortMerge byKey 64 fuel ⟨100, 20⟩ ⟨200, 20⟩ (fun c => (c * 7 % 10, c)) = .ok m') ∧
      (∀ fuel, 20 < fuel → copSortInsertion byKey 64 fuel ⟨100, 20⟩ (fun c => (c * 7 % 10, c)) = .ok n') ∧
      (Stable byKey (Arr.elems ⟨100, 20⟩ fun c => (c * 7 % 10, c)) (Arr.elems ⟨100, 20⟩ m') ↔
        ∀ z, tiesIn byKey z (pieces 7 (Arr.elems ⟨100, 20⟩ fun c => (c * 7 % 10, c))).reverse =
          tiesIn byKey z (pieces 7 (Arr.elems ⟨100, 20⟩ fun c => (c * 7 % 10, c)))) ∧
      (Arr.elems ⟨100, 20⟩ m' = Arr.elems ⟨100, 20⟩ n' ↔
        ∀ z, tiesIn byKey z (pieces 7 (Arr.elems ⟨100, 20⟩ fun c => (c * 7 % 10, c))).reverse =
          tiesIn byKey z (pieces 7 (Arr.elems ⟨100, 20⟩ fun c => (c * 7 % 10, c)))) :=
  copSortMerge_stable_iff (a := ⟨100, 20⟩) (b := ⟨200, 20⟩) (by decide) (.inl (by decide)) rfl (by decide)

/-- Nine records with one key, and the number of the record. -/
theorem nine_swapped : ∃ m', copSortMerge byKey 64 10 ⟨100, 9⟩ ⟨200, 9⟩ (fun c => (0, c)) = .ok m' ∧
    Arr.elems ⟨100, 9⟩ m' = [104, 105, 106, 107, 108, 100, 101, 102, 103].map (0, ·) ∧
    ¬ Stable byKey (Arr.elems ⟨100, 9⟩ fun c => (0, c)) (Arr.elems ⟨100, 9⟩ m') := by
  refine ⟨_, rfl, rfl, fun h => ?_⟩
  exact absurd (h (0, 0)) (by decide)

end Cop.Sort
