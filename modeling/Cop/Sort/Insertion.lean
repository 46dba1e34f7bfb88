import Cop.Sort.Cells
import Cop.Theory.ListSort

/-!
# Insertion sort

`COP_SORT_INSERTION` of `cop_sort.h`. The element at `i` is kept in `tmp` while the
elements before it move up; the hole at `j` moves down. The store at the end is skipped
where the hole has not moved, for there `tmp` is what the array still holds.

## What is proved

* `shift_total` — the inner loop leaves the hole where an insertion into the list of the
  elements before `i` would put `tmp`.
* `copSortInsertion_total` — for every comparator the function comes to its end, without a
  fault; it has rearranged the array, as `insertionSorted` does with the list.
-/

namespace Cop.Sort

open Theory

variable {α : Type} (cmp : α → α → Bool) (w : ℕ)

/-- A turn of `for (j = i; j && CM(tmp, inout[j-1]); j--) inout[j] = inout[j-1];`, at `j`. -/
def shiftTurn (inout : Arr) (tmp : α) (s : Cursor α) : Exec Fault (Turn (Cursor α) (Cursor α)) :=
  if s.idx = 0 then .ok (.done s)
  else do
    let k ← Idx.sub s.idx 1
    let x ← inout.get s.mem k
    if cmp tmp x then do
      let mem ← inout.set s.mem s.idx x
      return .more ⟨k, mem⟩
    else return .done s

/-- `if (j != i) inout[j] = tmp;`. -/
def putBack (inout : Arr) (i : ℕ) (tmp : α) (s : Cursor α) : Exec Fault (Cells α) :=
  if s.idx = i then .ok s.mem else inout.set s.mem s.idx tmp

/-- A turn of the outer loop, at `i`. -/
def insertTurn (fuel : ℕ) (inout : Arr) (s : Cursor α) : Exec Fault (Turn (Cursor α) (Cells α)) :=
  if s.idx < inout.nb then do
    let tmp ← inout.get s.mem s.idx
    let t ← loop (shiftTurn cmp inout tmp) fuel s
    let mem ← putBack inout s.idx tmp t
    let i ← Idx.add w s.idx 1
    return .more ⟨i, mem⟩
  else return .done s.mem

/-- `COP_SORT_INSERTION`. -/
def copSortInsertion (fuel : ℕ) (inout : Arr) (m : Cells α) : Exec Fault (Cells α) := do
  check .assertion (2 ≤ inout.nb)
  loop (insertTurn cmp w fuel inout) fuel ⟨1, m⟩

variable {cmp w} {fuel fuel' : ℕ} {a : Arr} {m : Cells α}

/-! ### The inner loop -/

theorem shiftTurn_eq {tmp : α} {s : Cursor α} (h : s.idx < a.nb) :
    shiftTurn cmp a tmp s = .ok (if s.idx ≠ 0 ∧ cmp tmp (s.mem (a.ptr + (s.idx - 1))) = true then
      .more ⟨s.idx - 1, Function.update s.mem (a.ptr + s.idx) (s.mem (a.ptr + (s.idx - 1)))⟩
    else .done s) := by
  unfold shiftTurn
  split
  · rename_i h0
    rw [if_neg fun hc => hc.1 h0]
  · rename_i h0
    rw [bind_of_ok (Idx.sub_of_le (by omega)), bind_of_ok (Arr.get_of_lt (by omega))]
    split
    · rename_i hcmp
      rw [bind_of_ok (Arr.set_of_lt h), if_pos ⟨h0, hcmp⟩]
      rfl
    · rename_i hcmp
      rw [if_neg fun hc => hcmp hc.2]
      rfl

/-- The inner loop, at a hole that started at `i`. -/
structure Hole (cmp : α → α → Bool) (a : Arr) (m : Cells α) (i : ℕ) (s : Cursor α) : Prop where
  /-- The hole does not move up. -/
  le : s.idx ≤ i
  /-- Where it has not moved, nothing has. -/
  start : s.idx = i → s.mem = m
  /-- Nothing is lost but `tmp`. -/
  filled : Rearranged a.cells m (Function.update s.mem (a.ptr + s.idx) (m (a.ptr + i)))
  /-- What is before the hole, and behind `i`, is as it was. -/
  rest : ∀ c, c < a.ptr + s.idx ∨ a.ptr + i < c → s.mem c = m c
  /-- What is between them is where the insertion puts it. -/
  moved : insertBack cmp (m (a.ptr + i)) (window m a.ptr i) =
    insertBack cmp (m (a.ptr + i)) (window m a.ptr s.idx) ++ window s.mem (a.ptr + s.idx + 1) (i - s.idx)

/-- The hole is where the insertion ends. -/
def Stopped (cmp : α → α → Bool) (a : Arr) (m : Cells α) (i : ℕ) (s : Cursor α) : Prop :=
  insertBack cmp (m (a.ptr + i)) (window m a.ptr s.idx) = window m a.ptr s.idx ++ [m (a.ptr + i)]

theorem Hole.init (i : ℕ) : Hole cmp a m i ⟨i, m⟩ :=
  ⟨le_rfl, fun _ => rfl, Rearranged.fill _ _ _, fun _ _ => rfl, by simp⟩

theorem Hole.move {i j : ℕ} {mem : Cells α} (hs : Hole cmp a m i ⟨j + 1, mem⟩) (hi : i < a.nb)
    (hcmp : cmp (m (a.ptr + i)) (mem (a.ptr + j)) = true) :
    Hole cmp a m i ⟨j, Function.update mem (a.ptr + (j + 1)) (mem (a.ptr + j))⟩ := by
  have hle : j + 1 ≤ i := hs.le
  have hsame : mem (a.ptr + j) = m (a.ptr + j) := hs.rest _ (.inl (by dsimp only; omega))
  refine ⟨?_, ?_, hs.filled.moveHole (Arr.mem_cells (by dsimp only; omega)) (Arr.mem_cells (by omega)), ?_, ?_⟩
  · dsimp only
    omega
  · intro h
    dsimp only at h
    omega
  · intro c hc
    dsimp only at hc ⊢
    rw [Function.update_of_ne (by omega)]
    exact hs.rest c (by dsimp only; omega)
  · have hmoved := hs.moved
    dsimp only at hmoved ⊢
    rw [hmoved, window_succ, insertBack_append, ← hsame, if_pos hcmp, List.append_assoc, List.singleton_append,
      show i - j = i - (j + 1) + 1 by omega, window_cons, Nat.add_assoc a.ptr j 1, Function.update_self]
    congr 2
    exact window_congr fun k _ => (Function.update_of_ne (by omega) _ _).symm

/-- The insertion ends at the bottom, or where the comparator says so. -/
theorem Hole.stopped {i : ℕ} {s : Cursor α} (hs : Hole cmp a m i s)
    (h : ¬ (s.idx ≠ 0 ∧ cmp (m (a.ptr + i)) (s.mem (a.ptr + (s.idx - 1))) = true)) : Stopped cmp a m i s := by
  obtain ⟨j, mem⟩ := s
  unfold Stopped
  cases j with
  | zero => rfl
  | succ j =>
    have hsame : mem (a.ptr + j) = m (a.ptr + j) := hs.rest _ (.inl (by dsimp only; omega))
    dsimp only at h ⊢
    rw [Nat.add_sub_cancel, hsame] at h
    rw [window_succ, insertBack_append, if_neg fun hc => h ⟨Nat.succ_ne_zero j, hc⟩, List.append_assoc]
    rfl

variable (cmp) in
/-- The inner loop finds the place of the element at `i`. -/
theorem shift_total {i : ℕ} (hi : i < a.nb) (hf : i < fuel) :
    ∃ t, loop (shiftTurn cmp a (m (a.ptr + i))) fuel ⟨i, m⟩ = .ok t ∧ Hole cmp a m i t ∧ Stopped cmp a m i t := by
  refine loop_total (fun s : Cursor α => s.idx) (I := Hole cmp a m i) ?_ (Hole.init i) hf
  intro s hs
  rw [shiftTurn_eq (hs.le.trans_lt hi)]
  split
  · rename_i hmove
    obtain ⟨j, mem⟩ := s
    obtain ⟨k, rfl⟩ := Nat.exists_eq_succ_of_ne_zero hmove.1
    exact .inl ⟨_, rfl, hs.move hi hmove.2, Nat.lt_succ_self k⟩
  · rename_i hstop
    exact .inr ⟨s, rfl, hs, hs.stopped hstop⟩

/-! ### The outer loop -/

/-- What the outer loop has done before it turns to the element at `i`. -/
structure Inserted (cmp : α → α → Bool) (a : Arr) (m : Cells α) (s : Cursor α) : Prop where
  /-- It does not go beyond the end. -/
  le : s.idx ≤ a.nb
  /-- Nothing is lost. -/
  moved : Rearranged a.cells m s.mem
  /-- The elements before `i` are sorted by insertion. -/
  sorted : window s.mem a.ptr s.idx = insertionSorted cmp (window m a.ptr s.idx)
  /-- The others are as they were. -/
  rest : ∀ c, a.ptr + s.idx ≤ c → s.mem c = m c

theorem putBack_ok {i : ℕ} {s : Cursor α} (hs : Hole cmp a m i s) (hi : i < a.nb) :
    putBack a i (m (a.ptr + i)) s = .ok (Function.update s.mem (a.ptr + s.idx) (m (a.ptr + i))) := by
  unfold putBack
  split
  · rename_i heq
    rw [hs.start heq, heq, Function.update_eq_self]
  · have hle := hs.le
    exact Arr.set_of_lt (by omega)

theorem Hole.window_eq {i : ℕ} {s : Cursor α} (hs : Hole cmp a m i s) (hstop : Stopped cmp a m i s) :
    window (Function.update s.mem (a.ptr + s.idx) (m (a.ptr + i))) a.ptr (i + 1) =
      insertBack cmp (m (a.ptr + i)) (window m a.ptr i) := by
  have hle := hs.le
  rw [hs.moved, hstop, show i + 1 = s.idx + 1 + (i - s.idx) by omega, window_append, window_update_succ]
  congr 1
  · congr 1
    exact window_congr fun k _ => hs.rest _ (.inl (by omega))
  · exact window_congr fun k _ => Function.update_of_ne (by omega) _ _

theorem Inserted.turn {s : Cursor α} (h : Inserted cmp a m s) (hlt : s.idx < a.nb) (hw : a.nb < 2 ^ w)
    (hf : a.nb < fuel) :
    ∃ m', insertTurn cmp w fuel a s = .ok (.more ⟨s.idx + 1, m'⟩) ∧ Inserted cmp a m ⟨s.idx + 1, m'⟩ := by
  obtain ⟨t, ht, hhole, hstop⟩ := shift_total cmp (m := s.mem) hlt (hlt.trans hf)
  refine ⟨Function.update t.mem (a.ptr + t.idx) (s.mem (a.ptr + s.idx)), ?_, hlt, h.moved.trans hhole.filled, ?_, ?_⟩
  · rw [insertTurn, if_pos hlt, bind_of_ok (Arr.get_of_lt hlt), bind_of_ok ht, bind_of_ok (putBack_ok hhole hlt),
      bind_of_ok (Idx.add_of_lt (by omega))]
    rfl
  · have hsame : s.mem (a.ptr + s.idx) = m (a.ptr + s.idx) := h.rest _ le_rfl
    dsimp only
    rw [hhole.window_eq hstop, window_succ, insertionSorted_append, h.sorted, hsame]
  · intro c hc
    have hle := hhole.le
    dsimp only at hc ⊢
    rw [Function.update_of_ne (by omega), hhole.rest c (.inr (by omega)), h.rest c (by omega)]

variable (cmp) in
/-- **Insertion sort** comes to its end and has inserted the elements one after the other. -/
theorem copSortInsertion_total (hn : 2 ≤ a.nb) (hw : a.nb < 2 ^ w) (hf : a.nb < fuel) :
    ∃ m', copSortInsertion cmp w fuel a m = .ok m' ∧ Rearranged a.cells m m' ∧
      a.elems m' = insertionSorted cmp (a.elems m) := by
  have hinit : Inserted cmp a m ⟨1, m⟩ := ⟨by dsimp only; omega, Rearranged.refl _ _, rfl, fun _ _ => rfl⟩
  rw [copSortInsertion, bind_of_ok (check_pos hn)]
  refine loop_total (fun s : Cursor α => a.nb - s.idx) (I := Inserted cmp a m) ?_ hinit (by dsimp only; omega)
  intro s hs
  by_cases hlt : s.idx < a.nb
  · obtain ⟨m', hm', hs'⟩ := hs.turn hlt hw hf
    refine .inl ⟨_, hm', hs', ?_⟩
    dsimp only
    omega
  · refine .inr ⟨s.mem, ?_, hs.moved, ?_⟩
    · rw [insertTurn, if_neg hlt]
      rfl
    · have heq : s.idx = a.nb := le_antisymm hs.le (Nat.le_of_not_lt hlt)
      have hsorted := hs.sorted
      rwa [heq] at hsorted

/-! ### More fuel -/

theorem insertTurn_approx (h : fuel ≤ fuel') (s : Cursor α) :
    Approx (insertTurn cmp w fuel a s) (insertTurn cmp w fuel' a s) := by
  unfold insertTurn
  refine .ite (.bind (.refl _) fun tmp => ?_) (.refl _)
  exact .bind (.loop (fun _ => .refl _) h s) fun t => .refl _

theorem copSortInsertion_approx (h : fuel ≤ fuel') :
    Approx (copSortInsertion cmp w fuel a m) (copSortInsertion cmp w fuel' a m) :=
  .bind (.refl _) fun _ => .loop (insertTurn_approx h) h _

end Cop.Sort
