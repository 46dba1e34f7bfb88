import Cop.Sort.Safety

/-!
# The sorts sort

What the four functions do with a comparator that is one for an order, be it `<` or `≤`.

## What is proved

* `copSortQuick_sorts` — quick sort.
* `copSortMerge_sorts` — merge sort, whose result does not depend on what is in `scratch`.
* `copSortHeap_sorts` — heap sort, and the heap that its first loop builds.
* `copSortInsertion_sorts` — insertion sort, which is stable for the strict order.
-/

namespace Cop.Sort

open Theory

variable {α : Type} {le : α → α → Prop} {cmp : α → α → Bool} {w : ℕ} {a b : Arr} {m : Cells α}

/-- `sort`, given enough fuel, comes to its end without a fault, with `m'` for every fuel. -/
structure Sorts (le : α → α → Prop) (a : Arr) (lent : Set ℕ) (m m' : Cells α) (sort : ℕ → Exec Fault (Cells α)) :
    Prop where
  /-- The result. -/
  ok : ∀ fuel, a.nb < fuel → sort fuel = .ok m'
  /-- The elements of `a` are permuted. -/
  perm : (a.elems m').Perm (a.elems m)
  /-- They are in order. -/
  sorted : ∀ i j, i < j → j < a.nb → le (m' (a.ptr + i)) (m' (a.ptr + j))
  /-- The cells that are not lent are as before. -/
  frame : ∀ c, c ∉ lent → m' c = m c

/-- A result with the least fuel is the result with more. -/
theorem Sorts.of_least {lent : Set ℕ} {m' : Cells α} {sort : ℕ → Exec Fault (Cells α)}
    (hok : sort (a.nb + 1) = .ok m') (hmore : ∀ fuel, a.nb + 1 ≤ fuel → Approx (sort (a.nb + 1)) (sort fuel))
    (hperm : (a.elems m').Perm (a.elems m)) (hsorted : a.Sorted m' le) (hframe : ∀ c, c ∉ lent → m' c = m c) :
    Sorts le a lent m m' sort := ⟨fun fuel hf => hmore fuel hf m' hok, hperm, hsorted, hframe⟩

/-- **Quick sort** sorts. -/
theorem copSortQuick_sorts (hord : Compares le cmp) (hn : 2 ≤ a.nb) (hw : a.nb < 2 ^ w) :
    ∃ m', Sorts le a a.cells m m' fun fuel => copSortQuick cmp w fuel a m := by
  obtain ⟨m', hok, hr, hsorted⟩ := copSortQuick_total cmp (m := m) hn hw (Nat.lt_succ_self a.nb)
  exact ⟨m', .of_least hok (fun fuel h => copSortQuick_approx cmp h) (Arr.perm_elems hr) (hsorted le hord)
    fun c hc => hr.frame hc⟩

/-- Twenty elements, sorted by `≤`. -/
theorem copSortQuick_sorts_twenty :
    ∃ m', Sorts (· ≤ ·) ⟨100, 20⟩ (Arr.cells ⟨100, 20⟩) (fun c => c * 7 % 10) m'
      fun fuel => copSortQuick (fun x y => decide (x ≤ y)) 64 fuel ⟨100, 20⟩ fun c => c * 7 % 10 :=
  copSortQuick_sorts Compares.decide_le (by decide) (by decide)

/-- **Merge sort** sorts, and uses nothing but its two arrays. What is in the scratch array does
not matter. -/
theorem copSortMerge_sorts (hord : Compares le cmp) (hn : 2 ≤ a.nb) (hw : a.nb < 2 ^ w) (hb : b.nb = a.nb)
    (hap : Arr.Apart a b) :
    ∃ m', (Sorts le a (a.cells ∪ b.cells) m m' fun fuel => copSortMerge cmp w fuel a b m) ∧
      ∀ n, a.elems n = a.elems m →
        ∃ n', (∀ fuel, a.nb < fuel → copSortMerge cmp w fuel a b n = .ok n') ∧ a.elems n' = a.elems m' := by
  obtain ⟨m', hok, helems, hframe⟩ := copSortMerge_total cmp (m := m) hn hap hb hw (Nat.lt_succ_self a.nb)
  refine ⟨m', .of_least hok (fun fuel h => copSortMerge_approx h) ?_ (Arr.sorted_of_pairwise ?_) fun c hc => ?_,
    fun n hsame => ?_⟩
  · rw [helems]
    exact mergeSorted_perm cmp 7 _
  · rw [helems]
    exact mergeSorted_sorted hord 7 _
  · exact hframe c (fun hin => hc (.inl hin)) fun hin => hc (.inr hin)
  · obtain ⟨n', hok', helems', -⟩ := copSortMerge_total cmp (m := n) hn hap hb hw (Nat.lt_succ_self a.nb)
    exact ⟨n', fun fuel hf => copSortMerge_approx hf n' hok', by rw [helems', hsame, helems]⟩

/-- Twenty elements, sorted by `<`. -/
theorem copSortMerge_sorts_twenty :
    ∃ m', (Sorts (· ≤ ·) ⟨100, 20⟩ (Arr.cells ⟨100, 20⟩ ∪ Arr.cells ⟨200, 20⟩) (fun c => c * 7 % 10) m'
      fun fuel => copSortMerge (fun x y => decide (x < y)) 64 fuel ⟨100, 20⟩ ⟨200, 20⟩ fun c => c * 7 % 10) ∧
      ∀ n, Arr.elems ⟨100, 20⟩ n = Arr.elems ⟨100, 20⟩ (fun c => c * 7 % 10) →
        ∃ n', (∀ fuel, 20 < fuel →
          copSortMerge (fun x y => decide (x < y)) 64 fuel ⟨100, 20⟩ ⟨200, 20⟩ n = .ok n') ∧
          Arr.elems ⟨100, 20⟩ n' = Arr.elems ⟨100, 20⟩ m' :=
  copSortMerge_sorts Compares.decide_lt (by decide) (by decide) rfl (.inl (by decide))

/-- **Heap sort** sorts: the first loop leaves no element above its parent, and what the second
loop leaves is in order. No object of a C program has more than `2 ^ (w - 1)` elements; in a larger array the
index of a child would wrap. -/
theorem copSortHeap_sorts (hord : Compares le cmp) (hw : a.nb ≤ 2 ^ (w - 1)) :
    ∃ h m', (∀ fuel, a.nb < fuel → loop (buildTurn cmp w fuel a) fuel ⟨2, m⟩ = .ok h) ∧
      (∀ k, 0 < k → k < a.nb → le (h (a.ptr + k)) (h (a.ptr + (k - 1) / 2))) ∧
      (∀ fuel, copSortHeap cmp w fuel a m =
        loop (buildTurn cmp w fuel a) fuel ⟨2, m⟩ >>= fun h => loop (popTurn cmp w fuel a) fuel ⟨1, h⟩) ∧
      Sorts le a a.cells m m' fun fuel => copSortHeap cmp w fuel a m := by
  have hf : a.nb < a.nb + 1 := Nat.lt_succ_self a.nb
  obtain ⟨h, hbuild, -, hheap⟩ := build_total cmp (m := m) (fun hn => two_mul_le hn hw) hf
  obtain ⟨m', hok, hr, hsorted⟩ := copSortHeap_total cmp (m := m) hw hf
  exact ⟨h, m', fun fuel hf => Approx.loop (buildTurn_approx cmp hf) hf _ h hbuild, hheap le hord, fun _ => rfl,
    .of_least hok (fun fuel h => copSortHeap_approx cmp h) (Arr.perm_elems hr) (hsorted le hord)
      fun c hc => hr.frame hc⟩

/-- Twenty elements, sorted by `≤`. -/
theorem copSortHeap_sorts_twenty :
    ∃ h m', (∀ fuel, 20 < fuel →
        loop (buildTurn (fun x y => decide (x ≤ y)) 64 fuel ⟨100, 20⟩) fuel ⟨2, fun c => c * 7 % 10⟩ = .ok h) ∧
      (∀ k, 0 < k → k < 20 → h (100 + k) ≤ h (100 + (k - 1) / 2)) ∧
      (∀ fuel, copSortHeap (fun x y => decide (x ≤ y)) 64 fuel ⟨100, 20⟩ (fun c => c * 7 % 10) =
        loop (buildTurn (fun x y => decide (x ≤ y)) 64 fuel ⟨100, 20⟩) fuel ⟨2, fun c => c * 7 % 10⟩ >>=
          fun h => loop (popTurn (fun x y => decide (x ≤ y)) 64 fuel ⟨100, 20⟩) fuel ⟨1, h⟩) ∧
      Sorts (· ≤ ·) ⟨100, 20⟩ (Arr.cells ⟨100, 20⟩) (fun c => c * 7 % 10) m'
        fun fuel => copSortHeap (fun x y => decide (x ≤ y)) 64 fuel ⟨100, 20⟩ fun c => c * 7 % 10 :=
  copSortHeap_sorts (a := ⟨100, 20⟩) (w := 64) Compares.decide_le (by decide)

/-- **Insertion sort** sorts. With the strict order as the comparator, elements that compare equal
keep their order. -/
theorem copSortInsertion_sorts (hord : Compares le cmp) (hn : 2 ≤ a.nb) (hw : a.nb < 2 ^ w) :
    ∃ m', (Sorts le a a.cells m m' fun fuel => copSortInsertion cmp w fuel a m) ∧
      ((∀ x y, cmp x y = true ↔ le x y ∧ ¬ le y x) → Stable cmp (a.elems m) (a.elems m')) := by
  obtain ⟨m', hok, hr, helems⟩ := copSortInsertion_total cmp (m := m) hn hw (Nat.lt_succ_self a.nb)
  refine ⟨m', .of_least hok (fun fuel h => copSortInsertion_approx h) (Arr.perm_elems hr) (Arr.sorted_of_pairwise ?_)
    fun c hc => hr.frame hc, fun hstrict => ?_⟩
  · rw [helems]
    exact insertionSorted_sorted hord _
  · rw [helems]
    exact insertionSorted_stable hord (fun x y hxy => ((hstrict x y).1 hxy).2) _

/-- Twenty elements, sorted by `<`. -/
theorem copSortInsertion_sorts_twenty :
    ∃ m', (Sorts (· ≤ ·) ⟨100, 20⟩ (Arr.cells ⟨100, 20⟩) (fun c => c * 7 % 10) m'
      fun fuel => copSortInsertion (fun x y => decide (x < y)) 64 fuel ⟨100, 20⟩ fun c => c * 7 % 10) ∧
      ((∀ x y : ℕ, decide (x < y) = true ↔ x ≤ y ∧ ¬ y ≤ x) →
        Stable (fun x y => decide (x < y)) (Arr.elems ⟨100, 20⟩ fun c => c * 7 % 10) (Arr.elems ⟨100, 20⟩ m')) :=
  copSortInsertion_sorts Compares.decide_lt (by decide) (by decide)

end Cop.Sort
