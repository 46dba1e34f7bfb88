import Cop.Platform
import Cop.Theory.Rearrange

/-!
# The arrays of the sorts

What the four macros of `cop_sort.h` work on. The elements are in cells, one for each
value of `data_type_`. An array argument comes with the number of elements that the
caller lends: an access to any other element is a fault, and so is an array passed on
that reaches beyond them. The result of index arithmetic is a fault if it has wrapped;
where the source lets a `size_t` wrap on purpose, the model uses `Word.sub` instead.
A comparator is any function of two values into `Bool`.

## What is proved

* `Arr.mem_cells`, `Arr.cells_part`, `Arr.Apart.notMem` — which cells are meant.
* `Arr.exchange_rearranged` — an exchange loses nothing.
* `Arr.memcpy_total` — what `memcpy` does.
* `Arr.sorted_of_pairwise` — when an array is sorted.
* `get_of_lt`, `set_of_lt`, `move_of_lt`, `swap_of_lt`, `part_of_le` — accesses within the bounds.
* `Idx.add_of_lt`, `Idx.sub_of_le`, `Idx.shl_of_lt` — arithmetic within the bounds.
-/

namespace Cop.Sort

open Theory

/-- Memory: a cell for each value of `data_type_`. -/
abbrev Cells (α : Type) := ℕ → α

/-- An array argument. -/
structure Arr where
  /-- The pointer. -/
  ptr : ℕ
  /-- The number of elements that are lent. -/
  nb : ℕ

namespace Arr

variable {α : Type} (a : Arr) (m : Cells α)

/-- Its cells. -/
def cells : Set ℕ := Set.Ico a.ptr (a.ptr + a.nb)

/-- Its elements. -/
def elems : List α := window m a.ptr a.nb

/-- `a[i]`. -/
def get (i : ℕ) : Exec Fault α := do
  check .outOfBounds (i < a.nb)
  return m (a.ptr + i)

/-- `a[i] = x;`. -/
def set (i : ℕ) (x : α) : Exec Fault (Cells α) := do
  check .outOfBounds (i < a.nb)
  return Function.update m (a.ptr + i) x

/-- `if (i != j) a[i] = a[j];`. -/
def move (i j : ℕ) : Exec Fault (Cells α) :=
  if i = j then .ok m
  else do
    let x ← a.get m j
    a.set m i x

/-- The memory with `a[i]` and `a[j]` exchanged. -/
def exchange (i j : ℕ) : Cells α :=
  Function.update (Function.update m (a.ptr + i) (m (a.ptr + j))) (a.ptr + j) (m (a.ptr + i))

/-- `tmp = a[i]; a[i] = a[j]; a[j] = tmp;`. -/
def swap (i j : ℕ) : Exec Fault (Cells α) := do
  let tmp ← a.get m i
  let x ← a.get m j
  let m ← a.set m i x
  a.set m j tmp

/-- The `n` elements at `a + i`, to be lent to another call. -/
def part (i n : ℕ) : Exec Fault Arr := do
  check .outOfBounds (i + n ≤ a.nb)
  return ⟨a.ptr + i, n⟩

/-- The memory with the `n` elements at `src` copied to `dst`. -/
def copied (dst src n : ℕ) : Cells α := fun c => if dst ≤ c ∧ c < dst + n then m (src + (c - dst)) else m c

/-- `memcpy(dst, src, n * sizeof(data_type_));`. -/
def memcpy (dst src : Arr) (n : ℕ) : Exec Fault (Cells α) := do
  check .outOfBounds (n ≤ dst.nb ∧ n ≤ src.nb)
  check .overlap (dst.ptr + n ≤ src.ptr ∨ src.ptr + n ≤ dst.ptr)
  return copied m dst.ptr src.ptr n

/-- Its elements are in order. -/
def Sorted (le : α → α → Prop) : Prop := ∀ i j, i < j → j < a.nb → le (m (a.ptr + i)) (m (a.ptr + j))

/-- The two arrays have no cell in common. -/
def Apart (a b : Arr) : Prop := a.ptr + a.nb ≤ b.ptr ∨ b.ptr + b.nb ≤ a.ptr

variable {a m} {i j n : ℕ} {x : α}

theorem mem_cells (h : i < a.nb) : a.ptr + i ∈ a.cells := ⟨by omega, by omega⟩

theorem cells_part (h : i + n ≤ a.nb) : cells ⟨a.ptr + i, n⟩ ⊆ a.cells := by
  intro c hc
  obtain ⟨hle, hlt⟩ := hc
  refine ⟨?_, ?_⟩ <;> dsimp only at hle hlt <;> omega

theorem get_of_lt (h : i < a.nb) : a.get m i = .ok (m (a.ptr + i)) := by
  rw [get, check_pos h]
  rfl

theorem set_of_lt (h : i < a.nb) : a.set m i x = .ok (Function.update m (a.ptr + i) x) := by
  rw [set, check_pos h]
  rfl

/-- Where the two are the same, the assignment that is skipped would change nothing. -/
theorem move_of_lt (hi : i < a.nb) (hj : j < a.nb) :
    a.move m i j = .ok (Function.update m (a.ptr + i) (m (a.ptr + j))) := by
  rw [move]
  split
  · rename_i hij
    rw [hij, Function.update_eq_self]
  · rw [bind_of_ok (get_of_lt hj), set_of_lt hi]

theorem swap_of_lt (hi : i < a.nb) (hj : j < a.nb) : a.swap m i j = .ok (a.exchange m i j) := by
  rw [swap, bind_of_ok (get_of_lt hi), bind_of_ok (get_of_lt hj), bind_of_ok (set_of_lt hi), set_of_lt hj]
  rfl

theorem exchange_rearranged (hi : i < a.nb) (hj : j < a.nb) : Rearranged a.cells m (a.exchange m i j) :=
  Rearranged.swap (mem_cells hj) (mem_cells hi)

theorem exchange_right (i j : ℕ) : a.exchange m i j (a.ptr + j) = m (a.ptr + i) := Function.update_self ..

theorem exchange_left (h : i ≠ j) : a.exchange m i j (a.ptr + i) = m (a.ptr + j) := by
  rw [exchange, Function.update_of_ne (by omega), Function.update_self]

theorem exchange_of_ne {k : ℕ} (hi : k ≠ i) (hj : k ≠ j) : a.exchange m i j (a.ptr + k) = m (a.ptr + k) := by
  rw [exchange, Function.update_of_ne (by omega), Function.update_of_ne (by omega)]

theorem part_of_le (h : i + n ≤ a.nb) : a.part i n = .ok ⟨a.ptr + i, n⟩ := by
  rw [part, check_pos h]
  rfl

theorem Apart.notMem {b : Arr} (h : Apart a b) (hi : i < b.nb) : b.ptr + i ∉ a.cells := by
  intro hmem
  obtain ⟨hle, hlt⟩ := hmem
  rcases h with h | h <;> omega

theorem Apart.parts {b : Arr} {k : ℕ} (h : Apart a b) (hi : i + n ≤ b.nb) (hk : k ≤ a.nb) :
    Apart ⟨b.ptr + i, n⟩ ⟨a.ptr + 0, k⟩ := by
  unfold Apart at h ⊢
  dsimp only
  omega

theorem Apart.notMem_part {b : Arr} (h : Apart a b) (hi : i < b.nb) (hn : n ≤ a.nb) :
    b.ptr + i ∉ cells ⟨a.ptr + 0, n⟩ := fun hin => h.notMem hi (cells_part (by omega) hin)

theorem memcpy_total {b : Arr} (h : Apart a b) (hb : b.nb = a.nb) :
    ∃ m', memcpy m b a a.nb = .ok m' ∧ b.elems m' = a.elems m ∧ ∀ c, c ∉ b.cells → m' c = m c := by
  have happart : b.ptr + a.nb ≤ a.ptr ∨ a.ptr + a.nb ≤ b.ptr := by
    rcases h with h | h <;> omega
  refine ⟨copied m b.ptr a.ptr a.nb, ?_, ?_, ?_⟩
  · rw [memcpy, bind_of_ok (check_pos ⟨hb.ge, le_rfl⟩), bind_of_ok (check_pos happart)]
    rfl
  · rw [elems, elems, hb]
    apply window_congr
    intro i hi
    rw [copied, if_pos ⟨by omega, by omega⟩, Nat.add_sub_cancel_left]
  · intro c hc
    exact if_neg fun hin => hc ⟨hin.1, by omega⟩

theorem perm_elems {m' : Cells α} (h : Rearranged a.cells m m') : (a.elems m').Perm (a.elems m) := h.window_perm

theorem sorted_of_pairwise {le : α → α → Prop} (h : (a.elems m).Pairwise le) : a.Sorted m le := by
  intro i j hij hj
  rw [elems, window, List.pairwise_map, List.pairwise_iff_getElem] at h
  have hle := h i j (by simp; omega) (by simp; omega) hij
  simpa using hle

end Arr

/-! ### Index arithmetic -/

namespace Idx

/-- `a + b`. -/
def add (w a b : ℕ) : Exec Fault ℕ := do
  check .wrapped (a + b < 2 ^ w)
  return a + b

/-- `a - b`. -/
def sub (a b : ℕ) : Exec Fault ℕ := do
  check .wrapped (b ≤ a)
  return a - b

/-- `a << b`. -/
def shl (w a b : ℕ) : Exec Fault ℕ := do
  check .wrapped (a <<< b < 2 ^ w)
  return a <<< b

variable {w a b : ℕ}

theorem add_of_lt (h : a + b < 2 ^ w) : add w a b = .ok (a + b) := by
  rw [add, check_pos h]
  rfl

theorem sub_of_le (h : b ≤ a) : sub a b = .ok (a - b) := by
  rw [sub, check_pos h]
  rfl

theorem shl_of_lt (h : a <<< b < 2 ^ w) : shl w a b = .ok (a <<< b) := by
  rw [shl, check_pos h]
  rfl

end Idx

/-- An index and the memory: what the loops over an array carry along. -/
structure Cursor (α : Type) where
  /-- The index. -/
  idx : ℕ
  /-- The memory. -/
  mem : Cells α

end Cop.Sort
