import Cop.Theory.Rearrange
import Mathlib.Data.List.GetD
import Mathlib.Data.List.Pairwise

/-!
# Writing to consecutive places

A memory is a map from places to values. A write puts a list of values at consecutive places, its
extent. What is read from a place on is a `window`.

## What is proved

* `put_cons`, `put_append` — a write is made of smaller ones.
* `window_put`, `window_update`, `put_of_notMem` — what is written is read, and nothing else changes.
* `writes_iff` — a write, place by place.
* `put_eq_put_take` — when a write does what its first part does.
* `put_comm` — writes to extents that do not meet, in any order.
* `putAll_perm`, `window_putAll`, `putAll_of_notMem` — the same for lists of writes.
-/

namespace Cop.Theory

universe u

variable {α : Type u} {m : ℕ → α} {p q : ℕ} {xs ys : List α}

/-- The memory after `xs` was written from the place `p` on. -/
def put (m : ℕ → α) (p : ℕ) (xs : List α) : ℕ → α := fun i => if p ≤ i then xs.getD (i - p) (m i) else m i

/-- The places of a write. -/
def extent (p n : ℕ) : Set ℕ := Set.Ico p (p + n)

theorem mem_extent {p n i : ℕ} : i ∈ extent p n ↔ p ≤ i ∧ i < p + n := Iff.rfl

/-- A place of a write is so many places behind the first. -/
theorem exists_of_mem_extent {p n i : ℕ} (h : i ∈ extent p n) : ∃ k, k < n ∧ i = p + k := by
  obtain ⟨hle, hlt⟩ := mem_extent.1 h
  obtain ⟨k, rfl⟩ := Nat.exists_eq_add_of_le hle
  exact ⟨k, by omega, rfl⟩

/-- Two extents do not meet. -/
def Clear (p n q k : ℕ) : Prop := p + n ≤ q ∨ q + k ≤ p

instance (p n q k : ℕ) : Decidable (Clear p n q k) := inferInstanceAs (Decidable (_ ∨ _))

theorem Clear.symm {p n q k : ℕ} (h : Clear p n q k) : Clear q k p n := Or.symm h

/-! ### One write -/

theorem put_of_notMem {i : ℕ} (h : i ∉ extent p xs.length) : put m p xs i = m i := by
  rw [put]
  split
  · rename_i hle
    rw [mem_extent] at h
    exact List.getD_eq_default _ _ (by omega)
  · rfl

theorem put_add {i : ℕ} (h : i < xs.length) : put m p xs (p + i) = xs[i] := by
  rw [put, if_pos (Nat.le_add_right p i), Nat.add_sub_cancel_left]
  exact List.getD_eq_getElem _ _ h

@[simp] theorem put_nil (m : ℕ → α) (p : ℕ) : put m p [] = m := by
  funext i
  exact put_of_notMem (fun h => by rw [mem_extent, List.length_nil] at h; omega)

theorem put_cons (m : ℕ → α) (p : ℕ) (x : α) (xs : List α) : put m p (x :: xs) = put (Function.update m p x) (p + 1) xs := by
  funext i
  rcases Nat.lt_trichotomy i p with hlt | rfl | hgt
  · rw [put, put, if_neg (by omega), if_neg (by omega), Function.update_of_ne (by omega)]
  · rw [put, put, if_pos le_rfl, if_neg (by omega), Function.update_self, Nat.sub_self]
    rfl
  · obtain ⟨k, rfl⟩ := Nat.exists_eq_add_of_lt hgt
    rw [put, put, if_pos (by omega), if_pos (by omega), Function.update_of_ne (by omega), Nat.add_assoc,
      Nat.add_sub_cancel_left, show p + (k + 1) - (p + 1) = k by omega]
    rfl

theorem put_singleton (m : ℕ → α) (p : ℕ) (x : α) : put m p [x] = Function.update m p x := by rw [put_cons, put_nil]

theorem put_append (m : ℕ → α) (p : ℕ) (xs ys : List α) : put m p (xs ++ ys) = put (put m p xs) (p + xs.length) ys := by
  induction xs generalizing m p with
  | nil => simp
  | cons x xs ih => rw [List.cons_append, put_cons, put_cons, ih, List.length_cons, Nat.add_assoc, Nat.add_comm 1]

theorem window_put (m : ℕ → α) (p : ℕ) (xs : List α) : window (put m p xs) p xs.length = xs := by
  refine List.ext_getElem (length_window _ _ _) fun i hi hi' => ?_
  rw [getElem_window, put_add hi']

theorem window_update (m : ℕ → α) (p : ℕ) {n k : ℕ} (x : α) :
    window (Function.update m (p + k) x) p n = (window m p n).set k x := by
  refine List.ext_getElem (by simp) fun i hi hi' => ?_
  rw [getElem_window, List.getElem_set, getElem_window]
  by_cases hik : k = i
  · rw [if_pos hik, hik, Function.update_self]
  · rw [if_neg hik, Function.update_of_ne (by omega)]

/-- Writing what is there changes nothing. -/
theorem put_window (m : ℕ → α) (p n : ℕ) : put m p (window m p n) = m := by
  funext i
  by_cases hi : i ∈ extent p n
  · obtain ⟨k, hk, rfl⟩ := exists_of_mem_extent hi
    rw [put_add (by rwa [length_window]), getElem_window]
  · exact put_of_notMem (by rwa [length_window])

/-- A write does what its first part does where the memory holds the rest. -/
theorem put_eq_put_take {n : ℕ} :
    put m p xs = put m p (xs.take n) ↔ ∀ i (h : i < xs.length), n ≤ i → m (p + i) = xs[i] := by
  have hout : ∀ i, n ≤ i → put m p (xs.take n) (p + i) = m (p + i) := fun i hi => put_of_notMem fun hmem => by
    rw [mem_extent, List.length_take] at hmem
    omega
  constructor
  · intro heq i h hi
    rw [← put_add (m := m) (p := p) h, heq, hout i hi]
  · intro hheld
    funext i
    by_cases hi : i ∈ extent p xs.length
    · obtain ⟨k, hk, rfl⟩ := exists_of_mem_extent hi
      rw [put_add hk]
      by_cases hkn : k < n
      · rw [put_add (by rw [List.length_take]; omega), List.getElem_take]
      · rw [hout k (by omega), hheld k hk (by omega)]
    · rw [put_of_notMem hi, put_of_notMem fun hmem => hi ?_]
      rw [mem_extent, List.length_take] at hmem
      rw [mem_extent]
      omega

/-- Writes that do not meet, in either order. -/
theorem put_comm (m : ℕ → α) (h : Clear p xs.length q ys.length) : put (put m p xs) q ys = put (put m q ys) p xs := by
  funext i
  unfold Clear at h
  by_cases hi : i ∈ extent p xs.length
  · obtain ⟨k, hk, rfl⟩ := exists_of_mem_extent hi
    have hout : p + k ∉ extent q ys.length := by
      rw [mem_extent]
      omega
    rw [put_of_notMem hout, put_add hk, put_add hk]
  · rw [put_of_notMem hi]
    by_cases hi' : i ∈ extent q ys.length
    · obtain ⟨k, hk, rfl⟩ := exists_of_mem_extent hi'
      rw [put_add hk, put_add hk]
    · rw [put_of_notMem hi', put_of_notMem hi', put_of_notMem hi]

/-- From `m` to `m'`, the values `xs` were written from the place `p` on, and nothing else. -/
def Writes (m m' : ℕ → α) (p : ℕ) (xs : List α) : Prop :=
  (∀ i (h : i < xs.length), m' (p + i) = xs[i]) ∧ ∀ i, i ∉ extent p xs.length → m' i = m i

theorem writes_iff {m' : ℕ → α} : Writes m m' p xs ↔ m' = put m p xs := by
  constructor
  · rintro ⟨hin, hout⟩
    funext i
    by_cases hi : i ∈ extent p xs.length
    · obtain ⟨k, hk, rfl⟩ := exists_of_mem_extent hi
      rw [hin k hk, put_add]
    · rw [hout i hi, put_of_notMem hi]
  · rintro rfl
    exact ⟨fun i h => put_add h, fun i h => put_of_notMem h⟩

/-! ### Lists of writes -/

/-- The memory after all writes of a list, each with its first place. -/
def putAll (m : ℕ → α) (ws : List (ℕ × List α)) : ℕ → α := ws.foldl (fun m w => put m w.1 w.2) m

/-- No two of the writes meet. -/
def AllClear (ws : List (ℕ × List α)) : Prop := ws.Pairwise fun v w => Clear v.1 v.2.length w.1 w.2.length

instance : Std.Symm fun v w : ℕ × List α => Clear v.1 v.2.length w.1 w.2.length := ⟨fun _ _ h => h.symm⟩

theorem putAll_cons (m : ℕ → α) (w : ℕ × List α) (ws : List (ℕ × List α)) :
    putAll m (w :: ws) = putAll (put m w.1 w.2) ws := rfl

/-- **In any order** writes that do not meet leave the same memory. -/
theorem putAll_perm {vs ws : List (ℕ × List α)} (hperm : vs.Perm ws) (hvs : AllClear vs) (m : ℕ → α) :
    putAll m vs = putAll m ws := by
  refine hperm.foldl_eq' (fun v hv w hw n => ?_) m
  by_cases hvw : v = w
  · rw [hvw]
  · exact put_comm n (hvs.forall hv hw hvw)

/-- A place that is in none of the extents keeps its value. -/
theorem putAll_of_notMem {ws : List (ℕ × List α)} {i : ℕ} (h : ∀ w ∈ ws, i ∉ extent w.1 w.2.length) :
    putAll m ws i = m i := by
  induction ws generalizing m with
  | nil => rfl
  | cons w ws ih =>
    obtain ⟨hw, hws⟩ := List.forall_mem_cons.1 h
    rw [putAll_cons, ih hws, put_of_notMem hw]

/-- **Each write is read**, whatever was written besides. -/
theorem window_putAll {ws : List (ℕ × List α)} (hws : AllClear ws) {w : ℕ × List α} (hw : w ∈ ws) :
    window (putAll m ws) w.1 w.2.length = w.2 := by
  induction ws generalizing m with
  | nil => cases hw
  | cons v ws ih =>
    obtain ⟨hv, hws⟩ := List.pairwise_cons.1 hws
    rw [putAll_cons]
    rcases List.mem_cons.1 hw with rfl | hw
    · have hrest : window (putAll (put m w.1 w.2) ws) w.1 w.2.length = window (put m w.1 w.2) w.1 w.2.length := by
        refine window_congr fun i hi => putAll_of_notMem fun v hv' hmem => ?_
        have hclear := hv v hv'
        rw [mem_extent] at hmem
        unfold Clear at hclear
        omega
      rw [hrest, window_put]
    · exact ih hws hw

end Cop.Theory
