import Cop.Sort.Insertion
import Cop.Theory.Word

/-!
# Merge sort

`COP_SORT_MERGE` of `cop_sort.h`. Arrays of at most eight elements are sorted by the loop
of the insertion sort. Otherwise the array is copied to `scratch`, the halves of the copy
are sorted with the array as the scratch of both calls, and the array is overwritten with
their merge. The pointers that move, `inout`, `p1` and `p2`, are counted from the starts of
their arrays. `while (l1--)` leaves a wrapped `l1` behind, which nobody reads.

## What is proved

* `mergeLoop_total` — the merge stops when one half is used up.
* `mergeParts_total` — the array holds the merge of the halves.
* `copSortMerge_total` — for every comparator the function comes to its end, without a
  fault in any of its calls; it leaves in the array what `mergeSorted` makes of the list,
  and writes to no cell outside the two arrays.
-/

namespace Cop.Sort

open Theory

variable {α : Type} (cmp : α → α → Bool) (w : ℕ)

/-- Where the merge is. -/
structure Merging (α : Type) where
  /-- How far `inout` has moved. -/
  out : ℕ
  /-- Where `p1` is in `scratch`. -/
  p1 : ℕ
  /-- What is left of the first half. -/
  l1 : ℕ
  /-- Where `p2` is in `scratch`. -/
  p2 : ℕ
  /-- What is left of the second half. -/
  l2 : ℕ
  /-- The memory. -/
  mem : Cells α

/-- A turn of `while (l1 && l2)`. -/
def mergeTurn (inout scratch : Arr) (s : Merging α) : Exec Fault (Turn (Merging α) (Merging α)) :=
  if s.l1 ≠ 0 ∧ s.l2 ≠ 0 then do
    let x ← scratch.get s.mem s.p1
    let y ← scratch.get s.mem s.p2
    if cmp x y then do
      let mem ← inout.set s.mem s.out x
      let l1 ← Idx.sub s.l1 1
      return .more { s with out := s.out + 1, p1 := s.p1 + 1, l1 := l1, mem := mem }
    else do
      let mem ← inout.set s.mem s.out y
      let l2 ← Idx.sub s.l2 1
      return .more { s with out := s.out + 1, p2 := s.p2 + 1, l2 := l2, mem := mem }
  else return .done s

/-- Where the copying of what is left is. -/
structure Drain (α : Type) where
  /-- How far `inout` has moved. -/
  out : ℕ
  /-- Where the pointer is in `scratch`. -/
  p : ℕ
  /-- What is left. -/
  l : ℕ
  /-- The memory. -/
  mem : Cells α

/-- A turn of `while (l--) *inout++ = *p++;`. -/
def drainTurn (inout scratch : Arr) (s : Drain α) : Exec Fault (Turn (Drain α) (Drain α)) :=
  if s.l ≠ 0 then do
    let x ← scratch.get s.mem s.p
    let mem ← inout.set s.mem s.out x
    return .more ⟨s.out + 1, s.p + 1, Word.sub w s.l 1, mem⟩
  else return .done { s with l := Word.sub w s.l 1 }

/-- The three loops that merge the halves of `scratch`. -/
def mergeParts (fuel : ℕ) (inout scratch : Arr) (l1 l2 : ℕ) (m : Cells α) : Exec Fault (Cells α) := do
  let s ← loop (mergeTurn cmp inout scratch) fuel ⟨0, 0, l1, l1, l2, m⟩
  let t ← loop (drainTurn w inout scratch) fuel ⟨s.out, s.p1, s.l1, s.mem⟩
  let u ← loop (drainTurn w inout scratch) fuel ⟨t.out, s.p2, s.l2, t.mem⟩
  return u.mem

/-- `COP_SORT_MERGE`. -/
def copSortMerge : ℕ → Arr → Arr → Cells α → Exec Fault (Cells α)
  | 0, _, _, _ => .error .fuel
  | fuel + 1, inout, scratch, m =>
    if inout.nb ≤ 8 then copSortInsertion cmp w (fuel + 1) inout m
    else do
      let l1 := inout.nb / 2
      let l2 ← Idx.sub inout.nb l1
      let m ← Arr.memcpy m scratch inout inout.nb
      let p1 ← scratch.part 0 l1
      let rest ← inout.part 0 l1
      let m ← copSortMerge fuel p1 rest m
      let p2 ← scratch.part l1 l2
      let rest ← inout.part 0 l2
      let m ← copSortMerge fuel p2 rest m
      mergeParts cmp w (fuel + 1) inout scratch l1 l2 m

variable {cmp w} {fuel fuel' : ℕ} {a b : Arr} {m : Cells α}

/-! ### The merge -/

/-- The merge of what is left of the halves, `xs` and `ys`, is still to come. -/
structure Merged (cmp : α → α → Bool) (a b : Arr) (m : Cells α) (zs : List α) (s : Merging α) : Prop where
  /-- There is room for it. -/
  fits : s.out + s.l1 + s.l2 = a.nb
  /-- The first half is in `scratch`. -/
  le1 : s.p1 + s.l1 ≤ b.nb
  /-- The second one as well. -/
  le2 : s.p2 + s.l2 ≤ b.nb
  /-- Only the array is written to. -/
  rest : ∀ c, c ∉ a.cells → s.mem c = m c
  /-- What is written, with what is to come, is the merge of the halves. -/
  merged : window s.mem a.ptr s.out ++
    List.merge (window m (b.ptr + s.p1) s.l1) (window m (b.ptr + s.p2) s.l2) cmp = zs

theorem rest_update {mem : Cells α} {i : ℕ} (hrest : ∀ c, c ∉ a.cells → mem c = m c) (hi : i < a.nb) (x : α) :
    ∀ c, c ∉ a.cells → Function.update mem (a.ptr + i) x c = m c := by
  intro c hc
  rw [Function.update_of_ne, hrest c hc]
  intro heq
  exact hc (heq ▸ Arr.mem_cells hi)

theorem Merged.turn {zs : List α} {s : Merging α} (hs : Merged cmp a b m zs s) (hap : Arr.Apart a b)
    (h1 : s.l1 ≠ 0) (h2 : s.l2 ≠ 0) :
    ∃ s', mergeTurn cmp a b s = .ok (.more s') ∧ Merged cmp a b m zs s' ∧ s'.l1 + s'.l2 < s.l1 + s.l2 := by
  obtain ⟨out, p1, l1, p2, l2, mem⟩ := s
  obtain ⟨hfits, hle1, hle2, hrest, hmerged⟩ := hs
  obtain ⟨k1, rfl⟩ := Nat.exists_eq_succ_of_ne_zero h1
  obtain ⟨k2, rfl⟩ := Nat.exists_eq_succ_of_ne_zero h2
  dsimp only at hfits hle1 hle2 hrest hmerged
  have hx : b.get mem p1 = .ok (m (b.ptr + p1)) := by
    rw [Arr.get_of_lt (by omega), hrest _ (hap.notMem (by omega))]
  have hy : b.get mem p2 = .ok (m (b.ptr + p2)) := by
    rw [Arr.get_of_lt (by omega), hrest _ (hap.notMem (by omega))]
  have hout : out < a.nb := by omega
  rw [Nat.succ_eq_add_one, Nat.succ_eq_add_one, window_cons, window_cons] at hmerged
  rw [mergeTurn, if_pos ⟨h1, h2⟩, bind_of_ok hx, bind_of_ok hy]
  by_cases hcmp : cmp (m (b.ptr + p1)) (m (b.ptr + p2)) = true
  · rw [if_pos hcmp, bind_of_ok (Arr.set_of_lt hout), bind_of_ok (Idx.sub_of_le (Nat.le_add_left 1 k1))]
    refine ⟨_, rfl, ⟨?_, ?_, hle2, rest_update hrest hout _, ?_⟩, ?_⟩
    · dsimp only
      omega
    · dsimp only
      omega
    · rw [List.cons_merge_cons_pos _ _ _ hcmp] at hmerged
      dsimp only
      rw [window_update_succ, List.append_assoc, Nat.add_sub_cancel, window_cons]
      exact hmerged
    · dsimp only
      omega
  · rw [if_neg hcmp, bind_of_ok (Arr.set_of_lt hout), bind_of_ok (Idx.sub_of_le (Nat.le_add_left 1 k2))]
    refine ⟨_, rfl, ⟨?_, hle1, ?_, rest_update hrest hout _, ?_⟩, ?_⟩
    · dsimp only
      omega
    · dsimp only
      omega
    · rw [List.cons_merge_cons_neg _ _ _ hcmp] at hmerged
      dsimp only
      rw [window_update_succ, List.append_assoc, Nat.add_sub_cancel, window_cons]
      exact hmerged
    · dsimp only
      omega

/-- The merge stops when one half is used up. -/
theorem mergeLoop_total {zs : List α} {s : Merging α} (hs : Merged cmp a b m zs s) (hap : Arr.Apart a b)
    (hf : a.nb < fuel) :
    ∃ t, loop (mergeTurn cmp a b) fuel s = .ok t ∧ Merged cmp a b m zs t ∧ (t.l1 = 0 ∨ t.l2 = 0) := by
  have hfits := hs.fits
  refine loop_total (fun s : Merging α => s.l1 + s.l2) (I := Merged cmp a b m zs) ?_ hs (by omega)
  intro t ht
  by_cases h : t.l1 ≠ 0 ∧ t.l2 ≠ 0
  · exact .inl (ht.turn hap h.1 h.2)
  · refine .inr ⟨t, ?_, ht, by omega⟩
    rw [mergeTurn, if_neg h]
    rfl

/-! ### What is left -/

/-- The `l` values at `p` are still to be copied; once they are, the array holds `zs`. -/
structure Drained (a b : Arr) (m : Cells α) (e : ℕ) (zs : List α) (s : Drain α) : Prop where
  /-- They go up to `e`. -/
  out_eq : s.out + s.l = e
  /-- They are in `scratch`. -/
  le : s.p + s.l ≤ b.nb
  /-- Only the array is written to. -/
  rest : ∀ c, c ∉ a.cells → s.mem c = m c
  /-- What is written, with what is to come. -/
  drained : window s.mem a.ptr s.out ++ window m (b.ptr + s.p) s.l = zs

/-- The copying fills the array up to `e`. -/
theorem drainLoop_total {e : ℕ} {zs : List α} {s : Drain α} (hs : Drained a b m e zs s) (hap : Arr.Apart a b)
    (he : e ≤ a.nb) (hw : a.nb < 2 ^ w) (hf : a.nb < fuel) :
    ∃ t, loop (drainTurn w a b) fuel s = .ok t ∧ t.out = e ∧ (∀ c, c ∉ a.cells → t.mem c = m c) ∧
      window t.mem a.ptr e = zs := by
  have hout := hs.out_eq
  refine loop_total (fun s : Drain α => s.l) (I := Drained a b m e zs) ?_ hs (by omega)
  intro t ht
  obtain ⟨out, p, l, mem⟩ := t
  obtain ⟨hout, hle, hrest, hdrained⟩ := ht
  dsimp only at hout hle hrest hdrained
  cases l with
  | zero =>
    refine .inr ⟨⟨out, p, Word.sub w 0 1, mem⟩, rfl, hout, hrest, ?_⟩
    rw [window_zero, List.append_nil] at hdrained
    rw [← hout]
    exact hdrained
  | succ l =>
    have hlt : out < a.nb := by omega
    have hx : mem (b.ptr + p) = m (b.ptr + p) := hrest _ (hap.notMem (by omega))
    refine .inl ⟨⟨out + 1, p + 1, l, Function.update mem (a.ptr + out) (m (b.ptr + p))⟩, ?_, ⟨?_, ?_, ?_, ?_⟩, ?_⟩
    · rw [drainTurn, if_pos (Nat.succ_ne_zero l), bind_of_ok (Arr.get_of_lt (by dsimp only; omega))]
      dsimp only
      rw [hx, bind_of_ok (Arr.set_of_lt hlt), Word.sub_of_le (by omega) (by omega), Nat.add_sub_cancel]
      rfl
    · dsimp only
      omega
    · dsimp only
      omega
    · exact rest_update hrest hlt _
    · dsimp only
      rw [window_update_succ, List.append_assoc]
      rw [window_cons] at hdrained
      exact hdrained
    · dsimp only
      omega

variable (cmp) in
/-- **The array holds the merge of the halves.** -/
theorem mergeParts_total {l1 l2 : ℕ} (hap : Arr.Apart a b) (ha : l1 + l2 = a.nb) (hb : b.nb = a.nb)
    (hw : a.nb < 2 ^ w) (hf : a.nb < fuel) :
    ∃ m', mergeParts cmp w fuel a b l1 l2 m = .ok m' ∧ (∀ c, c ∉ a.cells → m' c = m c) ∧
      a.elems m' = List.merge (window m b.ptr l1) (window m (b.ptr + l1) l2) cmp := by
  have hinit : Merged cmp a b m (List.merge (window m b.ptr l1) (window m (b.ptr + l1) l2) cmp)
      ⟨0, 0, l1, l1, l2, m⟩ :=
    ⟨by dsimp only; omega, by dsimp only; omega, by dsimp only; omega, fun _ _ => rfl, rfl⟩
  obtain ⟨s, hloop, hs, hempty⟩ := mergeLoop_total hinit hap hf
  have hfits := hs.fits
  -- One of the two is empty, so that the merge is their concatenation.
  have hsplit : window s.mem a.ptr s.out ++ (window m (b.ptr + s.p1) s.l1 ++ window m (b.ptr + s.p2) s.l2) =
      List.merge (window m b.ptr l1) (window m (b.ptr + l1) l2) cmp := by
    rw [← hs.merged]
    rcases hempty with h0 | h0
    · rw [h0, window_zero, List.nil_merge, List.nil_append]
    · rw [h0, window_zero, List.merge_right, List.append_nil]
  obtain ⟨t, ht, htout, htrest, htwin⟩ := drainLoop_total (a := a) (b := b) (m := m) (e := s.out + s.l1)
    (s := ⟨s.out, s.p1, s.l1, s.mem⟩) ⟨rfl, hs.le1, hs.rest, rfl⟩ hap (by omega) hw hf
  obtain ⟨u, hu, -, hurest, huwin⟩ := drainLoop_total (a := a) (b := b) (m := m) (e := a.nb)
    (s := ⟨t.out, s.p2, s.l2, t.mem⟩) ⟨by dsimp only; omega, hs.le2, htrest, rfl⟩ hap le_rfl hw hf
  refine ⟨u.mem, ?_, hurest, ?_⟩
  · rw [mergeParts, bind_of_ok hloop, bind_of_ok ht, bind_of_ok hu]
    rfl
  · dsimp only at htwin huwin
    rw [Arr.elems, huwin, htout, htwin, List.append_assoc, hsplit]

/-! ### The recursion -/

variable (cmp) in
/-- **Merge sort** comes to its end and has merged the halves at every level. -/
theorem copSortMerge_total (hn : 2 ≤ a.nb) (hap : Arr.Apart a b) (hb : b.nb = a.nb) (hw : a.nb < 2 ^ w)
    (hf : a.nb < fuel) :
    ∃ m', copSortMerge cmp w fuel a b m = .ok m' ∧ a.elems m' = mergeSorted cmp 7 (a.elems m) ∧
      ∀ c, c ∉ a.cells → c ∉ b.cells → m' c = m c := by
  induction fuel generalizing a b m with
  | zero => omega
  | succ fuel ih =>
    rw [copSortMerge]
    split
    · rename_i h8
      obtain ⟨m', hm', hr, helems⟩ := copSortInsertion_total cmp (m := m) hn hw hf
      refine ⟨m', hm', ?_, fun c hc _ => hr.frame hc⟩
      rw [helems, mergeSorted, if_pos (by rwa [Arr.elems, length_window])]
    · rename_i h8
      have hhalf : a.nb / 2 + (a.nb - a.nb / 2) = a.nb := by omega
      obtain ⟨m₁, hcopy, helems, hrest₁⟩ := Arr.memcpy_total (m := m) hap hb
      -- The first call: the front of the copy, with the front of the array as its scratch.
      obtain ⟨m₂, hfirst, hsorted₁, hrest₂⟩ := ih (a := ⟨b.ptr + 0, a.nb / 2⟩) (b := ⟨a.ptr + 0, a.nb / 2⟩) (m := m₁)
        (by dsimp only; omega) (hap.parts (by omega) (by omega)) rfl (by dsimp only; omega) (by dsimp only; omega)
      -- The second call: the back of the copy, with the front of the array again.
      obtain ⟨m₃, hsecond, hsorted₂, hrest₃⟩ := ih (a := ⟨b.ptr + a.nb / 2, a.nb - a.nb / 2⟩)
        (b := ⟨a.ptr + 0, a.nb - a.nb / 2⟩) (m := m₂)
        (by dsimp only; omega) (hap.parts (by omega) (by omega)) rfl (by dsimp only; omega) (by dsimp only; omega)
      obtain ⟨m', hmerge, hrest', helems'⟩ := mergeParts_total cmp (m := m₃) hap hhalf hb hw hf
      refine ⟨m', ?_, ?_, ?_⟩
      · dsimp only
        rw [bind_of_ok (Idx.sub_of_le (by omega)), bind_of_ok hcopy, bind_of_ok (Arr.part_of_le (by omega)),
          bind_of_ok (Arr.part_of_le (by omega)), bind_of_ok hfirst, bind_of_ok (Arr.part_of_le (by omega)),
          bind_of_ok (Arr.part_of_le (by omega)), bind_of_ok hsecond, hmerge]
      · have hfront : window m₃ b.ptr (a.nb / 2) = window m₂ b.ptr (a.nb / 2) := by
          refine window_congr fun i hi => hrest₃ _ (fun hin => ?_) (hap.notMem_part (by omega) (by omega))
          obtain ⟨hle, -⟩ := hin
          dsimp only at hle
          omega
        have hback : window m₂ (b.ptr + a.nb / 2) (a.nb - a.nb / 2) =
            window m₁ (b.ptr + a.nb / 2) (a.nb - a.nb / 2) := by
          apply window_congr
          intro i hi
          rw [Nat.add_assoc]
          refine hrest₂ _ (fun hin => ?_) (hap.notMem_part (by omega) (by omega))
          obtain ⟨-, hlt⟩ := hin
          dsimp only at hlt
          omega
        have hcat : a.elems m = window m₁ b.ptr (a.nb / 2) ++ window m₁ (b.ptr + a.nb / 2) (a.nb - a.nb / 2) := by
          rw [← helems, Arr.elems, hb, ← window_append, hhalf]
        rw [helems', hfront, hcat, mergeSorted_append]
        · exact congrArg₂ (List.merge · · cmp) hsorted₁ (hsorted₂.trans (congrArg _ hback))
        · rw [← hcat, Arr.elems, length_window]
          omega
        · rw [← hcat, Arr.elems, length_window, length_window]
      · intro c hca hcb
        have hpart : ∀ {x : Arr} {i n : ℕ}, i + n ≤ x.nb → c ∉ x.cells → c ∉ Arr.cells ⟨x.ptr + i, n⟩ :=
          fun hle hc hin => hc (Arr.cells_part hle hin)
        rw [hrest' c hca, hrest₃ c (hpart (by omega) hcb) (hpart (by omega) hca),
          hrest₂ c (hpart (by omega) hcb) (hpart (by omega) hca), hrest₁ c hcb]

/-! ### More fuel -/

theorem mergeParts_approx (h : fuel ≤ fuel') {l1 l2 : ℕ} :
    Approx (mergeParts cmp w fuel a b l1 l2 m) (mergeParts cmp w fuel' a b l1 l2 m) := by
  refine .bind (.loop (fun _ => .refl _) h _) fun s => .bind (.loop (fun _ => .refl _) h _) fun t => ?_
  exact .bind (.loop (fun _ => .refl _) h _) fun u => .refl _

theorem copSortMerge_approx (h : fuel ≤ fuel') :
    Approx (copSortMerge cmp w fuel a b m) (copSortMerge cmp w fuel' a b m) := by
  induction fuel generalizing fuel' a b m with
  | zero => exact .fuel _
  | succ fuel ih =>
    obtain ⟨fuel', rfl⟩ := Nat.exists_eq_add_of_le' (show 1 ≤ fuel' by omega)
    unfold copSortMerge
    refine .ite (copSortInsertion_approx h) (.bind (.refl _) fun l2 => .bind (.refl _) fun m => ?_)
    refine .bind (.refl _) fun p1 => .bind (.refl _) fun rest => .bind (ih (by omega)) fun m => ?_
    refine .bind (.refl _) fun p2 => .bind (.refl _) fun rest => .bind (ih (by omega)) fun m => ?_
    exact mergeParts_approx h

end Cop.Sort
