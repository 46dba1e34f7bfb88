import Cop.Sort.Heap
import Cop.Sort.Merge
import Cop.Sort.Quick

/-!
# The sorts are safe

What the four functions promise for any comparator, be it an order or not. A run that
gives a result has met no fault: no access outside the arrays, no assertion that fails, no
index that has wrapped, in the call or in any call it makes.

## What is proved

* `copSort_safe` — the four functions come to their end, and permute the array.
-/

namespace Cop.Sort

open Theory

variable {α : Type} {a : Arr} {m : Cells α}

/-- `sort`, given enough fuel, comes to its end without a fault. Its result does not depend on
the fuel; the elements of `a` are permuted, and the cells that are not lent are as before. -/
def Safe (a : Arr) (lent : Set ℕ) (m : Cells α) (sort : ℕ → Exec Fault (Cells α)) : Prop :=
  ∃ m', (∀ fuel, a.nb < fuel → sort fuel = .ok m') ∧ (a.elems m').Perm (a.elems m) ∧ ∀ c, c ∉ lent → m' c = m c

/-- A result with the least fuel is the result with more. -/
theorem Safe.of_least {lent : Set ℕ} {sort : ℕ → Exec Fault (Cells α)} {m' : Cells α}
    (hok : sort (a.nb + 1) = .ok m') (hmore : ∀ fuel, a.nb + 1 ≤ fuel → Approx (sort (a.nb + 1)) (sort fuel))
    (hperm : (a.elems m').Perm (a.elems m)) (hframe : ∀ c, c ∉ lent → m' c = m c) : Safe a lent m sort :=
  ⟨m', fun fuel hf => hmore fuel hf m' hok, hperm, hframe⟩

theorem Safe.of_rearranged {sort : ℕ → Exec Fault (Cells α)}
    (hok : ∃ m', sort (a.nb + 1) = .ok m' ∧ Rearranged a.cells m m')
    (hmore : ∀ fuel, a.nb + 1 ≤ fuel → Approx (sort (a.nb + 1)) (sort fuel)) : Safe a a.cells m sort := by
  obtain ⟨m', hok, hr⟩ := hok
  exact .of_least hok hmore (Arr.perm_elems hr) fun c hc => hr.frame hc

theorem lt_two_pow {n w : ℕ} (hn : 2 ≤ n) (h : n ≤ 2 ^ (w - 1)) : n < 2 ^ w := by
  have hfits := two_mul_le hn h
  omega

/-- **The four sorts are safe**, whatever the comparator, for arrays of up to half of `2 ^ w`
elements: of two or more for all of them but the heap sort. -/
theorem copSort_safe (cmp : α → α → Bool) (w : ℕ) (a : Arr) (m : Cells α) (hw : a.nb ≤ 2 ^ (w - 1)) :
    (2 ≤ a.nb → Safe a a.cells m fun fuel => copSortInsertion cmp w fuel a m) ∧
    (2 ≤ a.nb → Safe a a.cells m fun fuel => copSortQuick cmp w fuel a m) ∧
    (2 ≤ a.nb → ∀ b : Arr, b.nb = a.nb → Arr.Apart a b →
      Safe a (a.cells ∪ b.cells) m fun fuel => copSortMerge cmp w fuel a b m) ∧
    Safe a a.cells m fun fuel => copSortHeap cmp w fuel a m := by
  have hlt : a.nb < a.nb + 1 := Nat.lt_succ_self _
  refine ⟨fun hn => ?_, fun hn => ?_, fun hn b hb hap => ?_, ?_⟩
  · obtain ⟨m', hok, hr, -⟩ := copSortInsertion_total cmp (m := m) hn (lt_two_pow hn hw) hlt
    exact .of_rearranged ⟨m', hok, hr⟩ fun fuel h => copSortInsertion_approx h
  · obtain ⟨m', hok, hr, -⟩ := copSortQuick_total cmp (m := m) hn (lt_two_pow hn hw) hlt
    exact .of_rearranged ⟨m', hok, hr⟩ fun fuel h => copSortQuick_approx cmp h
  · obtain ⟨m', hok, helems, hframe⟩ := copSortMerge_total cmp (m := m) hn hap hb (lt_two_pow hn hw) hlt
    refine .of_least hok (fun fuel h => copSortMerge_approx h) ?_ fun c hc => ?_
    · rw [helems]
      exact mergeSorted_perm cmp 7 _
    · exact hframe c (fun hin => hc (.inl hin)) fun hin => hc (.inr hin)
  · obtain ⟨m', hok, hr, -⟩ := copSortHeap_total cmp (m := m) hw hlt
    exact .of_rearranged ⟨m', hok, hr⟩ fun fuel h => copSortHeap_approx cmp h

/-- Nine elements, and a comparator that is no order. -/
theorem copSort_safe_nine :
    Safe ⟨100, 9⟩ (Arr.cells ⟨100, 9⟩) id
      (fun fuel => copSortInsertion (fun x y => x % 3 == y % 2) 64 fuel ⟨100, 9⟩ id) ∧
    Safe ⟨100, 9⟩ (Arr.cells ⟨100, 9⟩) id
      (fun fuel => copSortQuick (fun x y => x % 3 == y % 2) 64 fuel ⟨100, 9⟩ id) ∧
    Safe ⟨100, 9⟩ (Arr.cells ⟨100, 9⟩ ∪ Arr.cells ⟨200, 9⟩) id
      (fun fuel => copSortMerge (fun x y => x % 3 == y % 2) 64 fuel ⟨100, 9⟩ ⟨200, 9⟩ id) ∧
    Safe ⟨100, 9⟩ (Arr.cells ⟨100, 9⟩) id
      (fun fuel => copSortHeap (fun x y => x % 3 == y % 2) 64 fuel ⟨100, 9⟩ id) := by
  obtain ⟨hinsertion, hquick, hmerge, hheap⟩ := copSort_safe (fun x y => x % 3 == y % 2) 64 ⟨100, 9⟩ id (by decide)
  exact ⟨hinsertion (by decide), hquick (by decide), hmerge (by decide) ⟨200, 9⟩ rfl (.inl (by decide)), hheap⟩

end Cop.Sort
