import Mathlib.Data.List.Induction
import Mathlib.Data.List.Sort

/-!
# Sorting lists by a comparator

What an insertion sort and a merge sort make of a list, for a comparator that need not
be an order. `cmp x y` is asked when `x` might have to come before `y`. An insertion
starts at the back: it goes on while the comparator wants the new element before the
one it meets. A merge takes from the first list where the comparator wants that. The
merge sort leaves short lists to the insertion sort. A comparator is one *for* a total
preorder if it agrees with it where it is strict; between equal elements its answers are
its own.

## What is proved

* `insertBack_append` — one step of an insertion.
* `insertionSorted_append` — one insertion.
* `mergeSorted_append` — one level of the merge sort.
* `insertionSorted_perm`, `mergeSorted_perm` — the results are permutations.
* `insertionSorted_sorted`, `mergeSorted_sorted` — they are sorted, if the comparator is one for
  a preorder.
* `insertionSorted_stable` — the insertion sort keeps equal elements in order, if the comparator
  is the strict order.
* `mergeSorted_ties`, `mergeSorted_stable_iff` — the merge sort puts the pieces of equal elements
  the other way round, and is stable where that makes no difference.
* `eq_of_stable` — there is one stable result.
-/

namespace Cop.Theory

open scoped List

variable {α : Type*} (cmp : α → α → Bool)

/-- The order in which Mathlib's insertion meets the elements is the reverse one. -/
def Stays (x y : α) : Prop := ¬ cmp x y = true

instance : DecidableRel (Stays cmp) := fun x y => inferInstanceAs (Decidable (¬ cmp x y = true))

/-- `x` goes into `xs`, from the back. -/
def insertBack (x : α) (xs : List α) : List α := (xs.reverse.orderedInsert (Stays cmp) x).reverse

/-- The elements of `xs`, inserted one after the other. -/
def insertionSorted (xs : List α) : List α := (xs.reverse.insertionSort (Stays cmp)).reverse

/-- A list of at most `k + 1` elements is sorted by insertion. Another one is cut into halves,
which are sorted and merged. -/
def mergeSorted (k : ℕ) (xs : List α) : List α :=
  if xs.length ≤ k + 1 then insertionSorted cmp xs
  else List.merge (mergeSorted k (xs.take (xs.length / 2))) (mergeSorted k (xs.drop (xs.length / 2))) cmp
termination_by xs.length
decreasing_by
  · rw [List.length_take]
    omega
  · rw [List.length_drop]
    omega

theorem insertBack_append (x y : α) (xs : List α) :
    insertBack cmp x (xs ++ [y]) = if cmp x y then insertBack cmp x xs ++ [y] else xs ++ [y, x] := by
  unfold insertBack
  rw [List.reverse_append, List.reverse_singleton, List.singleton_append, List.orderedInsert_cons]
  by_cases h : cmp x y = true
  · have hs : ¬ Stays cmp x y := not_not.2 h
    rw [if_neg hs, if_pos h, List.reverse_cons]
  · have hs : Stays cmp x y := h
    rw [if_pos hs, if_neg h, List.reverse_cons, List.reverse_cons, List.reverse_reverse, List.append_assoc]
    rfl

theorem insertionSorted_append (x : α) (xs : List α) :
    insertionSorted cmp (xs ++ [x]) = insertBack cmp x (insertionSorted cmp xs) := by
  unfold insertionSorted insertBack
  rw [List.reverse_append, List.reverse_singleton, List.singleton_append, List.insertionSort_cons,
    List.reverse_reverse]

theorem insertionSorted_perm (xs : List α) : insertionSorted cmp xs ~ xs :=
  calc insertionSorted cmp xs ~ xs.reverse.insertionSort (Stays cmp) := List.reverse_perm _
    _ ~ xs.reverse := List.perm_insertionSort _ _
    _ ~ xs := List.reverse_perm _

theorem mergeSorted_append {k : ℕ} {xs ys : List α} (hlong : k + 1 < (xs ++ ys).length)
    (hhalf : xs.length = (xs ++ ys).length / 2) :
    mergeSorted cmp k (xs ++ ys) = List.merge (mergeSorted cmp k xs) (mergeSorted cmp k ys) cmp := by
  rw [mergeSorted, if_neg (Nat.not_le_of_lt hlong), ← hhalf, List.take_left, List.drop_left]

theorem mergeSorted_perm (k : ℕ) (xs : List α) : mergeSorted cmp k xs ~ xs := by
  induction xs using mergeSorted.induct k with
  | case1 xs h =>
    rw [mergeSorted, if_pos h]
    exact insertionSorted_perm cmp xs
  | case2 xs h ihl ihr =>
    rw [mergeSorted, if_neg h]
    refine (List.merge_perm_append cmp).trans ((ihl.append ihr).trans ?_)
    rw [List.take_append_drop]

/-! ### Comparators for an order -/

/-- `cmp` is a comparator for the total preorder `le`: both `<` and `≤` are. -/
structure Compares (le : α → α → Prop) (cmp : α → α → Bool) : Prop where
  /-- Any two elements are in order one way or the other. -/
  total : ∀ x y, le x y ∨ le y x
  /-- The order is transitive. -/
  trans : ∀ {x y z}, le x y → le y z → le x z
  /-- Elements that are strictly in order compare so. -/
  of_lt : ∀ {x y}, le x y → ¬ le y x → cmp x y = true
  /-- Elements that compare so are in order. -/
  of_cmp : ∀ {x y}, cmp x y = true → le x y

variable {cmp} {le : α → α → Prop}

namespace Compares

/-- Elements that do not compare so are in the opposite order. -/
theorem of_not_cmp (h : Compares le cmp) {x y : α} (hxy : ¬ cmp x y = true) : le y x := by
  by_contra hyx
  exact hxy (h.of_lt ((h.total x y).resolve_right hyx) hyx)

theorem refl (h : Compares le cmp) (x : α) : le x x := (h.total x x).elim id id

/-- The order of a linear order is a comparator for it. -/
theorem decide_le [LinearOrder α] : Compares (α := α) (· ≤ ·) fun x y => decide (x ≤ y) :=
  ⟨le_total, le_trans, fun hxy _ => decide_eq_true hxy, of_decide_eq_true⟩

/-- So is the strict order. -/
theorem decide_lt [LinearOrder α] : Compares (α := α) (· ≤ ·) fun x y => decide (x < y) :=
  ⟨le_total, le_trans, fun _ hyx => decide_eq_true (lt_of_not_ge hyx), fun hxy => (of_decide_eq_true hxy).le⟩

/-- So is every strict weak order. -/
theorem of_strictWeak {cmp : α → α → Bool} [IsStrictWeakOrder α fun x y => cmp x y = true] :
    Compares (fun x y => ¬ cmp y x = true) cmp := by
  have hasymm : ∀ x y, cmp x y = true → ¬ cmp y x = true := fun x y hxy hyx =>
    irrefl_of (fun x y => cmp x y = true) x (trans_of (fun x y => cmp x y = true) hxy hyx)
  refine ⟨fun x y => ?_, fun {x y z} hyx hzy hzx => ?_, fun _ hyx => not_not.1 hyx, fun hxy => hasymm _ _ hxy⟩
  · by_contra h
    push Not at h
    exact hasymm y x h.1 h.2
  · -- `y` is between `x` and `z`, so it is equal to both
    have hxy : ¬ cmp x y = true := fun hxy => hzy (trans_of (fun x y => cmp x y = true) hzx hxy)
    have hyz : ¬ cmp y z = true := fun hyz => hyx (trans_of (fun x y => cmp x y = true) hyz hzx)
    have hincomp := @IsStrictWeakOrder.incomp_trans α (fun x y => cmp x y = true) _ z y x ⟨hzy, hyz⟩ ⟨hyx, hxy⟩
    exact hincomp.1 hzx

end Compares

theorem insertBack_perm (x : α) (xs : List α) : insertBack cmp x xs ~ x :: xs :=
  calc insertBack cmp x xs ~ xs.reverse.orderedInsert (Stays cmp) x := List.reverse_perm _
    _ ~ x :: xs.reverse := List.perm_orderedInsert _ _ _
    _ ~ x :: xs := (List.reverse_perm xs).cons x

theorem insertBack_sorted (h : Compares le cmp) (x : α) {xs : List α} (hxs : xs.Pairwise le) :
    (insertBack cmp x xs).Pairwise le := by
  induction xs using List.reverseRecOn with
  | nil => exact List.pairwise_singleton le x
  | append_singleton xs y ih =>
    obtain ⟨hinit, -, hlast⟩ := List.pairwise_append.1 hxs
    rw [insertBack_append]
    split
    · rename_i hcmp
      -- The element goes further down, and `y` stays the last one.
      refine List.pairwise_append.2 ⟨ih hinit, List.pairwise_singleton le y, fun z hz y' hy' => ?_⟩
      obtain rfl := List.mem_singleton.1 hy'
      rcases List.mem_cons.1 ((insertBack_perm x xs).subset hz) with rfl | hz
      · exact h.of_cmp hcmp
      · exact hlast z hz y' hy'
    · rename_i hcmp
      have hyx : le y x := h.of_not_cmp hcmp
      refine List.pairwise_append.2 ⟨hinit, List.pairwise_pair.2 hyx, fun z hz u hu => ?_⟩
      have hzy : le z y := hlast z hz y (List.mem_singleton_self y)
      rcases List.mem_pair.1 hu with rfl | rfl
      · exact hzy
      · exact h.trans hzy hyx

theorem insertionSorted_sorted (h : Compares le cmp) (xs : List α) : (insertionSorted cmp xs).Pairwise le := by
  induction xs using List.reverseRecOn with
  | nil => exact List.Pairwise.nil
  | append_singleton xs x ih =>
    rw [insertionSorted_append]
    exact insertBack_sorted h x ih

theorem merge_sorted (h : Compares le cmp) {xs ys : List α} (hxs : xs.Pairwise le) (hys : ys.Pairwise le) :
    (List.merge xs ys cmp).Pairwise le := by
  induction xs generalizing ys with
  | nil => rwa [List.nil_merge]
  | cons x xs ihx =>
    induction ys with
    | nil => rwa [List.merge_right]
    | cons y ys ihy =>
      obtain ⟨hx, hxs'⟩ := List.pairwise_cons.1 hxs
      obtain ⟨hy, hys'⟩ := List.pairwise_cons.1 hys
      by_cases hcmp : cmp x y = true
      · rw [List.cons_merge_cons_pos cmp xs ys hcmp]
        refine List.pairwise_cons.2 ⟨fun z hz => ?_, ihx hxs' hys⟩
        rcases List.mem_append.1 ((List.merge_perm_append cmp).subset hz) with hz | hz
        · exact hx z hz
        · rcases List.mem_cons.1 hz with rfl | hz
          · exact h.of_cmp hcmp
          · exact h.trans (h.of_cmp hcmp) (hy z hz)
      · have hyx : le y x := h.of_not_cmp hcmp
        rw [List.cons_merge_cons_neg cmp xs ys hcmp]
        refine List.pairwise_cons.2 ⟨fun z hz => ?_, ihy hys'⟩
        rcases List.mem_append.1 ((List.merge_perm_append cmp).subset hz) with hz | hz
        · rcases List.mem_cons.1 hz with rfl | hz
          · exact hyx
          · exact h.trans hyx (hx z hz)
        · exact hy z hz

theorem mergeSorted_sorted (h : Compares le cmp) (k : ℕ) (xs : List α) : (mergeSorted cmp k xs).Pairwise le := by
  induction xs using mergeSorted.induct k with
  | case1 xs hshort =>
    rw [mergeSorted, if_pos hshort]
    exact insertionSorted_sorted h xs
  | case2 xs hlong ihl ihr =>
    rw [mergeSorted, if_neg hlong]
    exact merge_sorted h ihl ihr

/-! ### Equal elements -/

/-- The comparator finds no order between the two elements. -/
def ties (cmp : α → α → Bool) (x y : α) : Bool := !cmp x y && !cmp y x

/-- Elements that compare equal are in `ys` in the order in which they are in `xs`. -/
def Stable (cmp : α → α → Bool) (xs ys : List α) : Prop := ∀ x, ys.filter (ties cmp x) = xs.filter (ties cmp x)

/-- Two elements that are equal to a third one are equal to each other. -/
theorem not_cmp_of_ties (h : Compares le cmp) (hstrict : ∀ x y, cmp x y = true → ¬ le y x) {x y z : α}
    (hx : ties cmp z x = true) (hy : ties cmp z y = true) : ¬ cmp x y = true := by
  simp only [ties, Bool.and_eq_true, Bool.not_eq_true', ← Bool.not_eq_true] at hx hy
  exact fun hxy => hstrict x y hxy (h.trans (h.of_not_cmp hy.1) (h.of_not_cmp hx.2))

/-- An element that is inserted comes behind those that are equal to it. -/
theorem insertBack_stable (h : Compares le cmp) (hstrict : ∀ x y, cmp x y = true → ¬ le y x) (x : α) (xs : List α) :
    Stable cmp (xs ++ [x]) (insertBack cmp x xs) := by
  intro z
  induction xs using List.reverseRecOn with
  | nil => rfl
  | append_singleton xs y ih =>
    rw [insertBack_append]
    split
    · rename_i hcmp
      rw [List.filter_append, ih]
      simp only [List.filter_append, List.append_assoc]
      congr 1
      -- `x` passes `y`, so one of the two is not equal to `z`.
      by_cases hx : ties cmp z x = true
      · have hy : ¬ ties cmp z y = true := fun hy => not_cmp_of_ties h hstrict hx hy hcmp
        rw [List.filter_singleton, List.filter_singleton]
        simp [hy]
      · rw [List.filter_singleton, List.filter_singleton]
        simp [hx]
    · rw [List.append_assoc]
      rfl

theorem insertionSorted_stable (h : Compares le cmp) (hstrict : ∀ x y, cmp x y = true → ¬ le y x) (xs : List α) :
    Stable cmp xs (insertionSorted cmp xs) := by
  intro z
  induction xs using List.reverseRecOn with
  | nil => rfl
  | append_singleton xs x ih =>
    rw [insertionSorted_append, insertBack_stable h hstrict x _ z, List.filter_append, List.filter_append, ih]

theorem ties_self (h : Compares le cmp) (hstrict : ∀ x y, cmp x y = true → ¬ le y x) (x : α) : ties cmp x x = true := by
  have hx : ¬ cmp x x = true := fun hx => hstrict x x hx (h.refl x)
  simp [ties, hx]

/-- Elements that are in order both ways are equal. -/
theorem ties_of_le (hstrict : ∀ x y, cmp x y = true → ¬ le y x) {x y : α} (hxy : le x y) (hyx : le y x) :
    ties cmp x y = true := by
  have h₁ : ¬ cmp x y = true := fun h => hstrict x y h hyx
  have h₂ : ¬ cmp y x = true := fun h => hstrict y x h hxy
  simp [ties, h₁, h₂]

/-- **Stable results are unique**: two sorted lists with the same equal elements in the same order. -/
theorem eq_of_stable (h : Compares le cmp) (hstrict : ∀ x y, cmp x y = true → ¬ le y x) {xs ys : List α}
    (hxs : xs.Pairwise le) (hys : ys.Pairwise le) (hsame : Stable cmp xs ys) : xs = ys := by
  induction xs generalizing ys with
  | nil =>
    cases ys with
    | nil => rfl
    | cons y ys =>
      have hy := hsame y
      rw [List.filter_cons_of_pos (ties_self h hstrict y)] at hy
      cases hy
  | cons x xs ih =>
    obtain ⟨hx, hxs'⟩ := List.pairwise_cons.1 hxs
    have hx₀ := hsame x
    rw [List.filter_cons_of_pos (ties_self h hstrict x)] at hx₀
    cases ys with
    | nil => cases hx₀
    | cons y ys =>
      obtain ⟨hy, hys'⟩ := List.pairwise_cons.1 hys
      have hy₀ := hsame y
      rw [List.filter_cons_of_pos (ties_self h hstrict y)] at hy₀
      -- each of the two heads is in the other list, so they are equal
      have hyx : le y x := by
        have hmem : x ∈ y :: ys := List.mem_of_mem_filter (hx₀ ▸ List.mem_cons_self)
        rcases List.mem_cons.1 hmem with rfl | hmem
        · exact h.refl x
        · exact hy x hmem
      have hxy : le x y := by
        have hmem : y ∈ x :: xs := List.mem_of_mem_filter (hy₀ ▸ List.mem_cons_self)
        rcases List.mem_cons.1 hmem with rfl | hmem
        · exact h.refl y
        · exact hx y hmem
      rw [List.filter_cons_of_pos (ties_of_le hstrict hxy hyx)] at hx₀
      obtain ⟨rfl, -⟩ := List.cons.inj hx₀
      refine congrArg (y :: ·) (ih hxs' hys' fun z => ?_)
      have hz := hsame z
      rw [List.filter_cons, List.filter_cons] at hz
      split at hz
      · exact (List.cons.inj hz).2
      · exact hz

/-- Merging puts equal elements of the second list first. -/
theorem merge_ties (h : Compares le cmp) (hstrict : ∀ x y, cmp x y = true → ¬ le y x) {xs ys : List α}
    (hys : ys.Pairwise le) (z : α) :
    (List.merge xs ys cmp).filter (ties cmp z) = ys.filter (ties cmp z) ++ xs.filter (ties cmp z) := by
  induction xs generalizing ys with
  | nil => rw [List.nil_merge, List.filter_nil, List.append_nil]
  | cons x xs ihx =>
    induction ys with
    | nil => rw [List.merge_right, List.filter_nil, List.nil_append]
    | cons y ys ihy =>
      obtain ⟨hy, hys'⟩ := List.pairwise_cons.1 hys
      by_cases hcmp : cmp x y = true
      · rw [List.cons_merge_cons_pos cmp xs ys hcmp, List.filter_cons, ihx hys]
        split
        · rename_i hx
          -- what is behind `x` in the second list is larger than `x`
          have hnone : (y :: ys).filter (ties cmp z) = [] := by
            refine List.filter_eq_nil_iff.2 fun u hu htie => ?_
            have hyu : le y u := by
              rcases List.mem_cons.1 hu with rfl | hu
              · exact h.refl u
              · exact hy u hu
            have hux : le u x := h.of_not_cmp (not_cmp_of_ties h hstrict hx htie)
            exact hstrict x y hcmp (h.trans hyu hux)
          rw [hnone, List.nil_append, List.nil_append, List.filter_cons_of_pos hx]
        · rename_i hx
          rw [List.filter_cons_of_neg hx]
      · rw [List.cons_merge_cons_neg cmp xs ys hcmp, List.filter_cons, ihy hys', List.filter_cons (x := y)]
        split
        · rw [List.cons_append]
        · rfl

/-- The pieces that the merge sort leaves to the insertion sort. -/
def pieces (k : ℕ) (xs : List α) : List (List α) :=
  if xs.length ≤ k + 1 then [xs] else pieces k (xs.take (xs.length / 2)) ++ pieces k (xs.drop (xs.length / 2))
termination_by xs.length
decreasing_by
  · rw [List.length_take]
    omega
  · rw [List.length_drop]
    omega

theorem flatten_pieces (k : ℕ) (xs : List α) : (pieces k xs).flatten = xs := by
  induction xs using pieces.induct k with
  | case1 xs h => rw [pieces, if_pos h, List.flatten_singleton]
  | case2 xs h ihl ihr => rw [pieces, if_neg h, List.flatten_append, ihl, ihr, List.take_append_drop]

/-- Elements that compare equal, piece by piece. -/
def tiesIn (cmp : α → α → Bool) (z : α) (bs : List (List α)) : List α := bs.flatMap (List.filter (ties cmp z))

theorem tiesIn_pieces (k : ℕ) (z : α) (xs : List α) : tiesIn cmp z (pieces k xs) = xs.filter (ties cmp z) := by
  conv_rhs => rw [← flatten_pieces k xs]
  rw [tiesIn, List.filter_flatten, List.flatMap]

/-- **Equal elements after the merge sort**: piece by piece, from the last one to the first. -/
theorem mergeSorted_ties (h : Compares le cmp) (hstrict : ∀ x y, cmp x y = true → ¬ le y x) (k : ℕ) (xs : List α)
    (z : α) : (mergeSorted cmp k xs).filter (ties cmp z) = tiesIn cmp z (pieces k xs).reverse := by
  induction xs using pieces.induct k with
  | case1 xs hshort =>
    rw [mergeSorted, if_pos hshort, pieces, if_pos hshort, insertionSorted_stable h hstrict xs z]
    exact (List.flatMap_singleton _ _).symm
  | case2 xs hlong ihl ihr =>
    rw [mergeSorted, if_neg hlong, pieces, if_neg hlong, merge_ties h hstrict (mergeSorted_sorted h k _), ihl, ihr,
      List.reverse_append]
    exact List.flatMap_append.symm

/-- **Where the merge sort is stable**: equal elements are the same ones in the pieces from the
first to the last and from the last to the first. -/
theorem mergeSorted_stable_iff (h : Compares le cmp) (hstrict : ∀ x y, cmp x y = true → ¬ le y x) (k : ℕ) (xs : List α) :
    Stable cmp xs (mergeSorted cmp k xs) ↔ ∀ z, tiesIn cmp z (pieces k xs).reverse = tiesIn cmp z (pieces k xs) :=
  forall_congr' fun z => by rw [mergeSorted_ties h hstrict, tiesIn_pieces]

/-- Lists without a common element are the same in reverse order only if one is left of them. -/
theorem flatten_reverse_eq_iff {bs : List (List α)} (hnodup : bs.flatten.Nodup) :
    bs.reverse.flatten = bs.flatten ↔ bs.Pairwise fun b c => b = [] ∨ c = [] := by
  induction bs with
  | nil => exact iff_of_true rfl List.Pairwise.nil
  | cons b bs ih =>
    rw [List.flatten_cons] at hnodup
    obtain ⟨-, hbs, hdisj⟩ := List.nodup_append.1 hnodup
    rw [List.reverse_cons, List.flatten_append, List.flatten_singleton, List.flatten_cons, List.pairwise_cons]
    cases b with
    | nil => simpa using ih hbs
    | cons x xs =>
      constructor
      · intro heq
        have hempty : ∀ c ∈ bs, c = [] := by
          cases hrev : bs.reverse.flatten with
          | nil => simpa using hrev
          | cons y ys =>
            -- the first element of the others would be `x`
            rw [hrev] at heq
            obtain ⟨rfl, -⟩ := List.cons.inj heq
            have hmem : y ∈ bs.flatten := by
              have hy : y ∈ bs.reverse.flatten := hrev ▸ List.mem_cons_self
              simpa using hy
            exact absurd rfl (hdisj y List.mem_cons_self y hmem)
        exact ⟨fun c hc => .inr (hempty c hc), List.pairwise_of_forall_mem_list fun c hc d _ => .inl (hempty c hc)⟩
      · rintro ⟨hempty, -⟩
        have hnil : ∀ c ∈ bs, c = [] := fun c hc => (hempty c hc).resolve_left (List.cons_ne_nil x xs)
        have h₁ : bs.flatten = [] := List.flatten_eq_nil_iff.2 hnil
        have h₂ : bs.reverse.flatten = [] := List.flatten_eq_nil_iff.2 fun c hc => hnil c (List.mem_reverse.1 hc)
        rw [h₁, h₂, List.append_nil, List.nil_append]

/-- Among elements that can be told apart, the merge sort is stable if no two of different pieces
are equal. -/
theorem tiesIn_reverse_iff (h : Compares le cmp) (hstrict : ∀ x y, cmp x y = true → ¬ le y x) (k : ℕ) {xs : List α}
    (hnodup : xs.Nodup) :
    (∀ z, tiesIn cmp z (pieces k xs).reverse = tiesIn cmp z (pieces k xs)) ↔
      (pieces k xs).Pairwise fun b c => ∀ x ∈ b, ∀ y ∈ c, ¬ ties cmp x y = true := by
  have hclass : ∀ z, tiesIn cmp z (pieces k xs).reverse = tiesIn cmp z (pieces k xs) ↔
      (pieces k xs).Pairwise fun b c => b.filter (ties cmp z) = [] ∨ c.filter (ties cmp z) = [] := by
    intro z
    have hsub : ((pieces k xs).map (List.filter (ties cmp z))).flatten.Nodup := by
      have hties : (tiesIn cmp z (pieces k xs)).Nodup := by
        rw [tiesIn_pieces]
        exact hnodup.filter _
      rwa [tiesIn, List.flatMap_def] at hties
    have hiff := flatten_reverse_eq_iff hsub
    rw [← List.map_reverse, List.pairwise_map] at hiff
    exact hiff
  constructor
  · intro hall
    refine (List.pairwise_iff_forall_sublist.2 fun {b c} hbc x hx y hy htie => ?_)
    rcases List.pairwise_iff_forall_sublist.1 ((hclass x).1 (hall x)) hbc with hb | hc
    · exact List.filter_eq_nil_iff.1 hb x hx (ties_self h hstrict x)
    · exact List.filter_eq_nil_iff.1 hc y hy htie
  · intro hpieces z
    refine (hclass z).2 (hpieces.imp fun {b c} hbc => ?_)
    by_contra hne
    push Not at hne
    obtain ⟨x, hx⟩ := List.exists_mem_of_ne_nil _ hne.1
    obtain ⟨y, hy⟩ := List.exists_mem_of_ne_nil _ hne.2
    obtain ⟨hxb, hzx⟩ := List.mem_filter.1 hx
    obtain ⟨hyc, hzy⟩ := List.mem_filter.1 hy
    have h₁ : ¬ cmp x y = true := not_cmp_of_ties h hstrict hzx hzy
    have h₂ : ¬ cmp y x = true := not_cmp_of_ties h hstrict hzy hzx
    exact hbc x hxb y hyc (by simp [ties, h₁, h₂])

end Cop.Theory
