import Cop.Sort.Insertion

/-!
# Quick sort

`COP_SORT_QUICK` of `cop_sort.h`. Arrays of fewer than four elements are sorted by the
loop of the insertion sort. Otherwise a pivot is chosen and lifted out of the array into
`pval`, which leaves a hole in the last slot. Two indices, `start` and `end`, run towards
each other over the other slots; a second scan then moves `start` on over what is left.
The element at `start` goes to the last slot, and the pivot takes its place.

## What is proved

* `choosePivot_total` — the pivot is an element, and the last slot is the hole.
* `partition_total` — the pivot is back in the array, between what the comparator wants
  before it and what it does not.
* `Partitioned.sorted` — sorting the two parts sorts the array.
* `copSortQuick_total` — for every comparator the function comes to its end, without a
  fault in any of its calls, and has rearranged the array; it has sorted it, for a
  comparator that is one for an order.
-/

namespace Cop.Sort

open Theory

variable {α : Type} (cmp : α → α → Bool) (w : ℕ)

/-- `if (CM(inout[p], inout[q])) { size_t tp = p; p = q; q = tp; }`: the new `p` and `q`. -/
def order (inout : Arr) (m : Cells α) (p q : ℕ) : Exec Fault (ℕ × ℕ) := do
  let x ← inout.get m p
  let y ← inout.get m q
  return if cmp x y then (q, p) else (p, q)

/-- The index `p2` of the median of three. -/
def medianOfThree (inout : Arr) (m : Cells α) (start last : ℕ) : Exec Fault ℕ := do
  let p1 := start
  let d ← Idx.sub last start
  let p3 ← Idx.add w start (d / 2)
  let p2 := last
  let (p3, p2) ← order cmp inout m p3 p2
  let (p2, _) ← order cmp inout m p2 p1
  let (_, p2) ← order cmp inout m p3 p2
  return p2

/-- The pivot, and the memory with a hole at the end. -/
def choosePivot (inout : Arr) (m : Cells α) (start last : ℕ) : Exec Fault (α × Cells α) :=
  if 16 ≤ inout.nb then do
    let p2 ← medianOfThree cmp w inout m start last
    let pval ← inout.get m p2
    let m ← inout.move m p2 last
    return (pval, m)
  else do
    let pval ← inout.get m last
    return (pval, m)

/-- Where the partition is. -/
structure Parts (α : Type) where
  /-- The elements before it belong to the first part. -/
  start : ℕ
  /-- `end`: the elements behind it belong to the second part. -/
  last : ℕ
  /-- The memory. -/
  mem : Cells α

/-- A turn of `while (start < end)`. -/
def partitionTurn (inout : Arr) (pval : α) (s : Parts α) : Exec Fault (Turn (Parts α) (Parts α)) :=
  if s.start < s.last then do
    let x ← inout.get s.mem s.start
    if cmp x pval then do
      let start ← Idx.add w s.start 1
      return .more { s with start := start }
    else do
      let y ← inout.get s.mem s.last
      if cmp y pval then do
        let mem ← inout.swap s.mem s.last s.start
        let start ← Idx.add w s.start 1
        let last ← Idx.sub s.last 1
        return .more ⟨start, last, mem⟩
      else do
        let last ← Idx.sub s.last 1
        return .more { s with last := last }
  else return .done s

/-- A turn of `while (start < nb_elements-1 && CM(inout[start], pval)) start++;`. -/
def scanTurn (inout : Arr) (pval : α) (m : Cells α) (start : ℕ) : Exec Fault (Turn ℕ ℕ) := do
  let slot ← Idx.sub inout.nb 1
  if start < slot then do
    let x ← inout.get m start
    if cmp x pval then do
      let start ← Idx.add w start 1
      return .more start
    else return .done start
  else return .done start

/-- From the choice of the pivot to its return, at `start`. -/
def partition (fuel : ℕ) (inout : Arr) (m : Cells α) : Exec Fault (ℕ × Cells α) := do
  let last ← Idx.sub inout.nb 1
  let (pval, m) ← choosePivot cmp w inout m 0 last
  let last ← Idx.sub last 1
  check .assertion (0 < last)
  let s ← loop (partitionTurn cmp w inout pval) fuel ⟨0, last, m⟩
  let start ← loop (scanTurn cmp w inout pval s.mem) fuel s.start
  let slot ← Idx.sub inout.nb 1
  let m ← inout.move s.mem slot start
  let m ← inout.set m start pval
  return (start, m)

/-- `if (n > 1) fn_name_(inout + i, n);`. -/
def sortPart (sort : Arr → Cells α → Exec Fault (Cells α)) (inout : Arr) (i n : ℕ) (m : Cells α) :
    Exec Fault (Cells α) :=
  if 1 < n then do
    let part ← inout.part i n
    sort part m
  else return m

/-- `COP_SORT_QUICK`. -/
def copSortQuick : ℕ → Arr → Cells α → Exec Fault (Cells α)
  | 0, _, _ => .error .fuel
  | fuel + 1, inout, m =>
    if inout.nb < 4 then copSortInsertion cmp w (fuel + 1) inout m
    else do
      let (start, m) ← partition cmp w (fuel + 1) inout m
      let m ← sortPart (copSortQuick fuel) inout 0 start m
      let start ← Idx.add w start 1
      let nb ← Idx.sub inout.nb start
      sortPart (copSortQuick fuel) inout start nb m

variable {w} {fuel fuel' : ℕ} {a : Arr} {m : Cells α}

/-! ### The pivot -/

theorem order_lt {p q : ℕ} (hp : p < a.nb) (hq : q < a.nb) :
    ∃ p' q', order cmp a m p q = .ok (p', q') ∧ p' < a.nb ∧ q' < a.nb := by
  rw [order, bind_of_ok (Arr.get_of_lt hp), bind_of_ok (Arr.get_of_lt hq)]
  split
  · exact ⟨q, p, rfl, hq, hp⟩
  · exact ⟨p, q, rfl, hp, hq⟩

theorem medianOfThree_lt {last : ℕ} (hlast : last < a.nb) (hw : a.nb < 2 ^ w) :
    ∃ p, medianOfThree cmp w a m 0 last = .ok p ∧ p < a.nb := by
  obtain ⟨p3, p2, h1, hp3, hp2⟩ := order_lt cmp (m := m) (show (last - 0) / 2 < a.nb by omega) hlast
  obtain ⟨p2', p1, h2, hp2', -⟩ := order_lt cmp (m := m) hp2 (show 0 < a.nb by omega)
  obtain ⟨p3', p, h3, -, hp⟩ := order_lt cmp (m := m) hp3 hp2'
  refine ⟨p, ?_, hp⟩
  rw [medianOfThree, bind_of_ok (Idx.sub_of_le (Nat.zero_le last)), bind_of_ok (Idx.add_of_lt (by omega)),
    Nat.zero_add, bind_of_ok h1]
  dsimp only
  rw [bind_of_ok h2]
  dsimp only
  rw [bind_of_ok h3]
  rfl

/-- The hole is in the last slot. -/
theorem choosePivot_total {last : ℕ} (hlast : last < a.nb) (hw : a.nb < 2 ^ w) :
    ∃ pval m', choosePivot cmp w a m 0 last = .ok (pval, m') ∧
      Rearranged a.cells m (Function.update m' (a.ptr + last) pval) := by
  unfold choosePivot
  split
  · obtain ⟨p, hp, hlt⟩ := medianOfThree_lt cmp (m := m) hlast hw
    refine ⟨m (a.ptr + p), Function.update m (a.ptr + p) (m (a.ptr + last)), ?_, ?_⟩
    · rw [bind_of_ok hp, bind_of_ok (Arr.get_of_lt hlt), bind_of_ok (Arr.move_of_lt hlt hlast)]
      rfl
    · exact (Rearranged.fill a.cells m (a.ptr + p)).moveHole (Arr.mem_cells hlt) (Arr.mem_cells hlast)
  · refine ⟨m (a.ptr + last), m, ?_, Rearranged.fill a.cells m (a.ptr + last)⟩
    rw [bind_of_ok (Arr.get_of_lt hlast)]
    rfl

/-! ### The partition -/

theorem partitionTurn_eq {pval : α} {s : Parts α} (h : s.start < s.last) (hlast : s.last < a.nb)
    (hw : a.nb < 2 ^ w) :
    partitionTurn cmp w a pval s = .ok (.more (
      if cmp (s.mem (a.ptr + s.start)) pval then { s with start := s.start + 1 }
      else if cmp (s.mem (a.ptr + s.last)) pval then
        ⟨s.start + 1, s.last - 1, a.exchange s.mem s.last s.start⟩
      else { s with last := s.last - 1 })) := by
  have hstart : s.start < a.nb := h.trans hlast
  have hadd : Idx.add w s.start 1 = .ok (s.start + 1) := Idx.add_of_lt (by omega)
  have hsub : Idx.sub s.last 1 = .ok (s.last - 1) := Idx.sub_of_le (by omega)
  rw [partitionTurn, if_pos h, bind_of_ok (Arr.get_of_lt hstart)]
  split
  · rw [bind_of_ok hadd]
    rfl
  · rw [bind_of_ok (Arr.get_of_lt hlast)]
    split
    · rw [bind_of_ok (Arr.swap_of_lt hlast hstart), bind_of_ok hadd, bind_of_ok hsub]
      rfl
    · rw [bind_of_ok hsub]
      rfl

/-- The two indices run towards each other over the slots before the hole. -/
structure Between (a : Arr) (m : Cells α) (slot : ℕ) (pval : α) (s : Parts α) : Prop where
  /-- They pass each other by one at most. -/
  le : s.start ≤ s.last + 1
  /-- Neither reaches the hole. -/
  lt : s.last < slot
  /-- Nothing is lost but the pivot. -/
  filled : Rearranged a.cells m (Function.update s.mem (a.ptr + slot) pval)

/-- What they have passed is on its side of the pivot, as the comparator sees it. -/
structure Split (cmp : α → α → Bool) (a : Arr) (slot : ℕ) (pval : α) (s : Parts α) : Prop where
  /-- What `start` has passed belongs before the pivot. -/
  low : ∀ i, i < s.start → cmp (s.mem (a.ptr + i)) pval = true
  /-- What `end` has passed does not. -/
  high : ∀ i, s.last < i → i < slot → ¬ cmp (s.mem (a.ptr + i)) pval = true

/-- A turn keeps the indices between the ends, and brings them closer. -/
theorem Between.turn {slot : ℕ} {pval : α} {s : Parts α} (hs : Between a m slot pval s) (hslot : slot < a.nb)
    (hw : a.nb < 2 ^ w) (h : s.start < s.last) :
    ∃ s', partitionTurn cmp w a pval s = .ok (.more s') ∧ Between a m slot pval s' ∧
      s'.last + 1 - s'.start < s.last + 1 - s.start := by
  have hlt := hs.lt
  refine ⟨_, partitionTurn_eq cmp h (hlt.trans hslot) hw, ?_⟩
  split
  · exact ⟨⟨by dsimp only; omega, hlt, hs.filled⟩, by dsimp only; omega⟩
  · split
    · refine ⟨⟨by dsimp only; omega, by dsimp only; omega, ?_⟩, by dsimp only; omega⟩
      exact hs.filled.swapBeside (Arr.mem_cells (by omega)) (Arr.mem_cells (by omega)) (by omega) (by omega)
    · exact ⟨⟨by dsimp only; omega, by dsimp only; omega, hs.filled⟩, by dsimp only; omega⟩

variable {cmp} in
/-- A turn passes one element, or exchanges two and passes both. -/
theorem Split.turn {slot : ℕ} {pval : α} {s s' : Parts α} (hs : Split cmp a slot pval s) (hlast : s.last < a.nb)
    (hw : a.nb < 2 ^ w) (h : s.start < s.last) (hturn : partitionTurn cmp w a pval s = .ok (.more s')) :
    Split cmp a slot pval s' := by
  rw [partitionTurn_eq cmp h hlast hw] at hturn
  cases hturn
  split
  · rename_i hstart
    refine ⟨fun i hi => ?_, hs.high⟩
    rcases Nat.lt_succ_iff_lt_or_eq.1 hi with hi | rfl
    · exact hs.low i hi
    · exact hstart
  · rename_i hstart
    split
    · rename_i hcmp
      have hne : s.last ≠ s.start := by omega
      refine ⟨fun i hi => ?_, fun i hi hislot => ?_⟩
      · dsimp only at hi ⊢
        rcases Nat.lt_succ_iff_lt_or_eq.1 hi with hi | rfl
        · rw [Arr.exchange_of_ne (by omega) (by omega)]
          exact hs.low i hi
        · rw [Arr.exchange_right]
          exact hcmp
      · dsimp only at hi ⊢
        rcases Nat.lt_or_eq_of_le (show s.last ≤ i by omega) with hi | rfl
        · rw [Arr.exchange_of_ne (by omega) (by omega)]
          exact hs.high i hi hislot
        · rw [Arr.exchange_left hne]
          exact hstart
    · rename_i hcmp
      refine ⟨hs.low, fun i hi hislot => ?_⟩
      dsimp only at hi ⊢
      rcases Nat.lt_or_eq_of_le (show s.last ≤ i by omega) with hi | rfl
      · exact hs.high i hi hislot
      · exact hcmp

theorem partitionLoop_total {slot : ℕ} {pval : α} {s : Parts α} (hs : Between a m slot pval s)
    (hsplit : Split cmp a slot pval s) (hslot : slot < a.nb) (hw : a.nb < 2 ^ w) (hf : a.nb < fuel) :
    ∃ t, loop (partitionTurn cmp w a pval) fuel s = .ok t ∧ Between a m slot pval t ∧ Split cmp a slot pval t ∧
      t.last ≤ t.start := by
  have hlt := hs.lt
  refine loop_total (fun s : Parts α => s.last + 1 - s.start)
    (I := fun s => Between a m slot pval s ∧ Split cmp a slot pval s) ?_ ⟨hs, hsplit⟩ (by omega)
  intro t ht
  obtain ⟨ht, hsplit⟩ := ht
  by_cases h : t.start < t.last
  · obtain ⟨t', hturn, ht', hless⟩ := ht.turn cmp hslot hw h
    exact .inl ⟨t', hturn, ⟨ht', hsplit.turn (ht.lt.trans hslot) hw h hturn⟩, hless⟩
  · refine .inr ⟨t, ?_, ht, hsplit, Nat.le_of_not_lt h⟩
    rw [partitionTurn, if_neg h]
    rfl

/-- The second scan passes what belongs before the pivot, and stops at the hole at the latest. -/
theorem scan_total (pval : α) {start : ℕ} (hstart : start < a.nb) (hw : a.nb < 2 ^ w) (hf : a.nb < fuel) :
    ∃ k, loop (scanTurn cmp w a pval m) fuel start = .ok k ∧ start ≤ k ∧ k < a.nb ∧
      (∀ i, start ≤ i → i < k → cmp (m (a.ptr + i)) pval = true) ∧
      (k < a.nb - 1 → ¬ cmp (m (a.ptr + k)) pval = true) := by
  refine loop_total (fun k : ℕ => a.nb - k)
    (I := fun k => start ≤ k ∧ k < a.nb ∧ ∀ i, start ≤ i → i < k → cmp (m (a.ptr + i)) pval = true) ?_
    ⟨le_rfl, hstart, fun i hi hik => absurd hi (Nat.not_le_of_lt hik)⟩ (by omega)
  intro k hI
  obtain ⟨hle, hk, hpassed⟩ := hI
  unfold scanTurn
  rw [bind_of_ok (Idx.sub_of_le (by omega))]
  split
  · rename_i hlt
    rw [bind_of_ok (Arr.get_of_lt hk)]
    split
    · rename_i hcmp
      rw [bind_of_ok (Idx.add_of_lt (by omega))]
      refine .inl ⟨k + 1, rfl, ⟨by omega, by omega, fun i hi hik => ?_⟩, by omega⟩
      rcases Nat.lt_succ_iff_lt_or_eq.1 hik with hik | rfl
      · exact hpassed i hi hik
      · exact hcmp
    · rename_i hcmp
      exact .inr ⟨k, rfl, hle, hk, hpassed, fun _ => hcmp⟩
  · rename_i hlt
    exact .inr ⟨k, rfl, hle, hk, hpassed, fun h => absurd h hlt⟩

/-- The pivot is in the slot `k`, between the two parts. -/
structure Partitioned (cmp : α → α → Bool) (a : Arr) (m : Cells α) (pval : α) (k : ℕ) : Prop where
  /-- The slot is in the array. -/
  lt : k < a.nb
  /-- It holds the pivot. -/
  pivot : m (a.ptr + k) = pval
  /-- The first part. -/
  low : ∀ i, i < k → cmp (m (a.ptr + i)) pval = true
  /-- The second part. -/
  high : ∀ i, k < i → i < a.nb → ¬ cmp (m (a.ptr + i)) pval = true

variable {cmp} in
/-- What the two loops leave, with the element at `k` moved to the last slot and the pivot in its place. -/
theorem Split.partitioned {pval : α} {s : Parts α} {k : ℕ} (hs : Split cmp a (a.nb - 1) pval s)
    (hle : s.last ≤ s.start) (hsk : s.start ≤ k) (hk : k < a.nb)
    (hpassed : ∀ i, s.start ≤ i → i < k → cmp (s.mem (a.ptr + i)) pval = true)
    (hstop : k < a.nb - 1 → ¬ cmp (s.mem (a.ptr + k)) pval = true) :
    Partitioned cmp a (Function.update (Function.update s.mem (a.ptr + (a.nb - 1)) (s.mem (a.ptr + k))) (a.ptr + k) pval)
      pval k := by
  refine ⟨hk, Function.update_self .., fun i hi => ?_, fun i hi hin => ?_⟩
  · rw [Function.update_of_ne (by omega), Function.update_of_ne (by omega)]
    rcases Nat.lt_or_ge i s.start with hi' | hi'
    · exact hs.low i hi'
    · exact hpassed i hi' hi
  · rw [Function.update_of_ne (by omega)]
    rcases Nat.lt_or_eq_of_le (show i ≤ a.nb - 1 by omega) with hislot | rfl
    · rw [Function.update_of_ne (by omega)]
      exact hs.high i (by omega) hislot
    · rw [Function.update_self]
      exact hstop hi

/-- The pivot is back in the array, between the two parts. -/
theorem partition_total (hn : 4 ≤ a.nb) (hw : a.nb < 2 ^ w) (hf : a.nb < fuel) :
    ∃ k pval m', partition cmp w fuel a m = .ok (k, m') ∧ Partitioned cmp a m' pval k ∧ Rearranged a.cells m m' := by
  have hslot : a.nb - 1 < a.nb := by omega
  obtain ⟨pval, m₁, hpivot, hfill⟩ := choosePivot_total cmp (m := m) hslot hw
  have hs : Between a m (a.nb - 1) pval ⟨0, a.nb - 1 - 1, m₁⟩ := ⟨by dsimp only; omega, by dsimp only; omega, hfill⟩
  have hsplit : Split cmp a (a.nb - 1) pval ⟨0, a.nb - 1 - 1, m₁⟩ :=
    ⟨fun i hi => absurd hi (Nat.not_lt_zero i), fun i hi hislot => by dsimp only at hi; omega⟩
  obtain ⟨s, hloop, hs, hsplit, hmet⟩ := partitionLoop_total cmp hs hsplit hslot hw hf
  have hle := hs.le
  have hlt := hs.lt
  obtain ⟨k, hscan, hsk, hk, hpassed, hstop⟩ :=
    scan_total cmp pval (m := s.mem) (show s.start < a.nb by omega) hw hf
  refine ⟨k, pval, _, ?_, hsplit.partitioned hmet hsk hk hpassed hstop,
    hs.filled.moveHole (Arr.mem_cells hslot) (Arr.mem_cells hk)⟩
  have hsub : Idx.sub a.nb 1 = .ok (a.nb - 1) := Idx.sub_of_le (by omega)
  rw [partition, bind_of_ok hsub, bind_of_ok hpivot]
  dsimp only
  rw [bind_of_ok (Idx.sub_of_le (by omega)), bind_of_ok (check_pos (by omega)), bind_of_ok hloop, bind_of_ok hscan,
    bind_of_ok hsub, bind_of_ok (Arr.move_of_lt hslot hk), bind_of_ok (Arr.set_of_lt hk)]
  rfl

/-! ### The recursion -/

theorem sortPart_total {sort : Arr → Cells α → Exec Fault (Cells α)} {i n : ℕ} (hle : i + n ≤ a.nb)
    (hsort : 2 ≤ n → ∃ m', sort ⟨a.ptr + i, n⟩ m = .ok m' ∧ Rearranged (Arr.cells ⟨a.ptr + i, n⟩) m m' ∧
      ∀ le, Compares le cmp → Arr.Sorted ⟨a.ptr + i, n⟩ m' le) :
    ∃ m', sortPart sort a i n m = .ok m' ∧ Rearranged (Arr.cells ⟨a.ptr + i, n⟩) m m' ∧
      ∀ le, Compares le cmp → Arr.Sorted ⟨a.ptr + i, n⟩ m' le := by
  unfold sortPart
  split
  · rename_i hn
    obtain ⟨m', hm', hr, hsorted⟩ := hsort hn
    refine ⟨m', ?_, hr, hsorted⟩
    rw [bind_of_ok (Arr.part_of_le hle), hm']
  · refine ⟨m, rfl, Rearranged.refl _ _, fun le _ i j hij hj => ?_⟩
    dsimp only at hj
    omega

variable {cmp} in
/-- The two parts are sorted, one after the other. -/
theorem Partitioned.sorted {le : α → α → Prop} (hle : Compares le cmp) {pval : α} {k : ℕ} {m₁ m₂ m₃ : Cells α}
    (h : Partitioned cmp a m₁ pval k) (hlow : Rearranged (Arr.cells ⟨a.ptr + 0, k⟩) m₁ m₂)
    (hlowSorted : Arr.Sorted ⟨a.ptr + 0, k⟩ m₂ le)
    (hhigh : Rearranged (Arr.cells ⟨a.ptr + (k + 1), a.nb - (k + 1)⟩) m₂ m₃)
    (hhighSorted : Arr.Sorted ⟨a.ptr + (k + 1), a.nb - (k + 1)⟩ m₃ le) : a.Sorted m₃ le := by
  have hk := h.lt
  -- The second call leaves the first part and the pivot alone, the first call the second part.
  have h₃ : ∀ i, i ≤ k → m₃ (a.ptr + i) = m₂ (a.ptr + i) := by
    intro i hi
    refine hhigh.frame fun hin => ?_
    have hge := hin.1
    dsimp only at hge
    omega
  have h₂ : ∀ i, k ≤ i → m₂ (a.ptr + i) = m₁ (a.ptr + i) := by
    intro i hi
    refine hlow.frame fun hin => ?_
    have hlt := hin.2
    dsimp only at hlt
    omega
  have hpivot : m₃ (a.ptr + k) = pval := by rw [h₃ k le_rfl, h₂ k le_rfl, h.pivot]
  have hbefore : ∀ i, i < k → le (m₃ (a.ptr + i)) pval := by
    intro i hi
    rw [h₃ i hi.le]
    refine hlow.forall_mem (P := fun x => le x pval) ?_ _ ⟨by dsimp only; omega, by dsimp only; omega⟩
    intro c hc
    obtain ⟨hge, hlt⟩ := hc
    dsimp only at hge hlt
    obtain ⟨j, rfl⟩ := Nat.exists_eq_add_of_le (show a.ptr ≤ c by omega)
    exact hle.of_cmp (h.low j (by omega))
  have hbehind : ∀ i, k < i → i < a.nb → le pval (m₃ (a.ptr + i)) := by
    intro i hi hin
    refine hhigh.forall_mem (P := fun x => le pval x) ?_ _ ⟨by dsimp only; omega, by dsimp only; omega⟩
    intro c hc
    obtain ⟨hge, hlt⟩ := hc
    dsimp only at hge hlt
    obtain ⟨j, rfl⟩ := Nat.exists_eq_add_of_le (show a.ptr ≤ c by omega)
    rw [h₂ j (by omega)]
    exact hle.of_not_cmp (h.high j (by omega) (by omega))
  intro i j hij hj
  rcases Nat.lt_trichotomy j k with hjk | rfl | hjk
  · rw [h₃ i (by omega), h₃ j (by omega)]
    have hsorted := hlowSorted i j hij hjk
    rwa [Nat.add_zero] at hsorted
  · rw [hpivot]
    exact hbefore i hij
  · rcases Nat.lt_trichotomy i k with hik | rfl | hik
    · exact hle.trans (hbefore i hik) (hbehind j hjk hj)
    · rw [hpivot]
      exact hbehind j hjk hj
    · have hsorted := hhighSorted (i - (k + 1)) (j - (k + 1)) (by omega) (by dsimp only; omega)
      dsimp only at hsorted
      rwa [show a.ptr + (k + 1) + (i - (k + 1)) = a.ptr + i by omega,
        show a.ptr + (k + 1) + (j - (k + 1)) = a.ptr + j by omega] at hsorted

/-- **Quick sort is safe**, whatever the comparator. For a comparator that is one for an order it sorts. -/
theorem copSortQuick_total (hn : 2 ≤ a.nb) (hw : a.nb < 2 ^ w) (hf : a.nb < fuel) :
    ∃ m', copSortQuick cmp w fuel a m = .ok m' ∧ Rearranged a.cells m m' ∧
      ∀ le, Compares le cmp → a.Sorted m' le := by
  induction fuel generalizing a m with
  | zero => omega
  | succ fuel ih =>
    rw [copSortQuick]
    split
    · obtain ⟨m', hm', hr, helems⟩ := copSortInsertion_total cmp (m := m) hn hw hf
      refine ⟨m', hm', hr, fun le hle => Arr.sorted_of_pairwise ?_⟩
      rw [helems]
      exact insertionSorted_sorted hle _
    · rename_i h4
      obtain ⟨k, pval, m₁, hpart, hk, h₁⟩ := partition_total cmp (m := m) (by omega) hw hf
      have hlt := hk.lt
      obtain ⟨m₂, hlow, h₂, hlowSorted⟩ := sortPart_total cmp (a := a) (m := m₁) (i := 0) (n := k) (by omega)
        fun h2 => ih h2 (by dsimp only; omega) (by dsimp only; omega)
      obtain ⟨m₃, hhigh, h₃, hhighSorted⟩ := sortPart_total cmp (a := a) (m := m₂) (i := k + 1)
        (n := a.nb - (k + 1)) (by omega) fun h2 => ih h2 (by dsimp only; omega) (by dsimp only; omega)
      refine ⟨m₃, ?_, (h₁.trans (h₂.mono (Arr.cells_part (by omega)))).trans (h₃.mono (Arr.cells_part (by omega))),
        fun le hle => hk.sorted hle h₂ (hlowSorted le hle) h₃ (hhighSorted le hle)⟩
      rw [bind_of_ok hpart]
      dsimp only
      rw [bind_of_ok hlow, bind_of_ok (Idx.add_of_lt (by omega)), bind_of_ok (Idx.sub_of_le (by omega)), hhigh]

/-! ### More fuel -/

theorem partition_approx (h : fuel ≤ fuel') : Approx (partition cmp w fuel a m) (partition cmp w fuel' a m) := by
  unfold partition
  refine .bind (.refl _) fun last => .bind (.refl _) fun pivot => .bind (.refl _) fun last => ?_
  refine .bind (.refl _) fun _ => .bind (.loop (fun _ => .refl _) h _) fun s => ?_
  exact .bind (.loop (fun _ => .refl _) h _) fun start => .refl _

theorem sortPart_approx {sort sort' : Arr → Cells α → Exec Fault (Cells α)}
    (h : ∀ a m, Approx (sort a m) (sort' a m)) (i n : ℕ) : Approx (sortPart sort a i n m) (sortPart sort' a i n m) :=
  .ite (.bind (.refl _) fun part => h part m) (.refl _)

theorem copSortQuick_approx (h : fuel ≤ fuel') : Approx (copSortQuick cmp w fuel a m) (copSortQuick cmp w fuel' a m) := by
  induction fuel generalizing fuel' a m with
  | zero => exact .fuel _
  | succ fuel ih =>
    obtain ⟨fuel', rfl⟩ := Nat.exists_eq_add_of_le' (show 1 ≤ fuel' by omega)
    have hrec : ∀ a m, Approx (copSortQuick cmp w fuel a m) (copSortQuick cmp w fuel' a m) :=
      fun a m => ih (by omega)
    unfold copSortQuick
    refine .ite (copSortInsertion_approx h) (.bind (partition_approx cmp h) fun parts => ?_)
    refine .bind (sortPart_approx hrec _ _) fun m => .bind (.refl _) fun start => .bind (.refl _) fun nb => ?_
    exact sortPart_approx hrec _ _

end Cop.Sort
