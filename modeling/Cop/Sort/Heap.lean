import Cop.Sort.Cells
import Cop.Theory.HeapOrder
import Cop.Theory.ListSort
import Cop.Theory.Word

/-!
# Heap sort

`COP_SORT_HEAP` of `cop_sort.h`. The first loop builds a heap in which the parent of the
slot `k` is the slot `(k - 1) / 2`: each element is exchanged with its parents until the
comparator is content. The second loop exchanges the first element with the last one of
the heap, which ends one slot earlier from then on, and lets the element that came to the
top sink. Going up, `p--` wraps where there is no parent, and the loop is left.

## What is proved

* `siftUpTurn_eq`, `siftDownTurn_eq` — each turn of the inner loops is an exchange.
* `siftUp_total`, `siftDown_total` — the inner loops rearrange the array, and restore the heap
  order if the comparator is one for an order.
* `build_total`, `pop_total` — the same for the two loops: a heap is built, and taken apart.
* `copSortHeap_total` — for every comparator the function comes to its end, without a
  fault, and has rearranged the array; it has sorted it, for a comparator that is one for an order.
-/

namespace Cop.Sort

open Theory

variable {α : Type} (cmp : α → α → Bool) (w : ℕ)

/-! ### Going up -/

/-- Where the element that goes up is. -/
structure Rising (α : Type) where
  /-- Its slot. -/
  j : ℕ
  /-- The parent of its slot. -/
  p : ℕ
  /-- What the parent holds. -/
  pv : α
  /-- The memory. -/
  mem : Cells α

/-- A turn of `while (!CM(jv, pv))`. -/
def siftUpTurn (data : Arr) (jv : α) (s : Rising α) : Exec Fault (Turn (Rising α) (Cells α)) :=
  if cmp jv s.pv then return .done s.mem
  else do
    let mem ← data.set s.mem s.j s.pv
    let mem ← data.set mem s.p jv
    let up ← Idx.add w s.p 1
    let q := up >>> 1
    let p := Word.sub w q 1
    if q = 0 then return .done mem
    else do
      let pv ← data.get mem p
      return .more ⟨s.p, p, pv, mem⟩

/-- The body of the first loop, at `i`. -/
def siftUp (fuel : ℕ) (data : Arr) (i : ℕ) (m : Cells α) : Exec Fault (Cells α) := do
  let j ← Idx.sub i 1
  let p ← Idx.sub (i >>> 1) 1
  let jv ← data.get m j
  let pv ← data.get m p
  loop (siftUpTurn cmp w data jv) fuel ⟨j, p, pv, m⟩

/-- A turn of `for (i = 2; i <= nb_data; i++)`. -/
def buildTurn (fuel : ℕ) (data : Arr) (s : Cursor α) : Exec Fault (Turn (Cursor α) (Cells α)) :=
  if s.idx ≤ data.nb then do
    let mem ← siftUp cmp w fuel data s.idx s.mem
    let i ← Idx.add w s.idx 1
    return .more ⟨i, mem⟩
  else return .done s.mem

/-! ### Going down -/

/-- Where the element that sinks is. -/
structure Sinking (α : Type) where
  /-- Its slot. -/
  p : ℕ
  /-- The first child of its slot. -/
  c : ℕ
  /-- The memory. -/
  mem : Cells α

/-- The child to compare with, and its value: `c` and `cv`, or `cn` and `cv2`. -/
def pickChild (data : Arr) (hs : ℕ) (m : Cells α) (c : ℕ) : Exec Fault (ℕ × α) := do
  let cv ← data.get m c
  let cn ← Idx.add w c 1
  if cn < hs then do
    let cv2 ← data.get m cn
    if !cmp cv2 cv then return (cn, cv2) else return (c, cv)
  else return (c, cv)

/-- A turn of `for (p = 0, c = 1; c < hs; p = c, c = ((c + 1) << 1) - 1)`. -/
def siftDownTurn (data : Arr) (hs : ℕ) (pv : α) (s : Sinking α) : Exec Fault (Turn (Sinking α) (Cells α)) :=
  if s.c < hs then do
    let (c, cv) ← pickChild cmp w data hs s.mem s.c
    if cmp cv pv then return .done s.mem
    else do
      let mem ← data.set s.mem c pv
      let mem ← data.set mem s.p cv
      let up ← Idx.add w c 1
      let twice ← Idx.shl w up 1
      let next ← Idx.sub twice 1
      return .more ⟨c, next, mem⟩
  else return .done s.mem

/-- A turn of `for (i = 1; i < nb_data; i++)`. -/
def popTurn (fuel : ℕ) (data : Arr) (s : Cursor α) : Exec Fault (Turn (Cursor α) (Cells α)) :=
  if s.idx < data.nb then do
    let hs ← Idx.sub data.nb s.idx
    let pv ← data.get s.mem hs
    let top ← data.get s.mem 0
    let mem ← data.set s.mem hs top
    let mem ← data.set mem 0 pv
    let mem ← loop (siftDownTurn cmp w data hs pv) fuel ⟨0, 1, mem⟩
    let i ← Idx.add w s.idx 1
    return .more ⟨i, mem⟩
  else return .done s.mem

/-- `COP_SORT_HEAP`. -/
def copSortHeap (fuel : ℕ) (data : Arr) (m : Cells α) : Exec Fault (Cells α) := do
  let m ← loop (buildTurn cmp w fuel data) fuel ⟨2, m⟩
  loop (popTurn cmp w fuel data) fuel ⟨1, m⟩

variable {w} {fuel fuel' : ℕ} {a : Arr} {m : Cells α}

/-! ### The first loop -/

/-- What the locals of the way up stand for. -/
structure Rises (a : Arr) (m : Cells α) (jv : α) (s : Rising α) : Prop where
  /-- The element is in the array. -/
  j_lt : s.j < a.nb
  /-- Its parent is before it. -/
  p_lt : s.p < s.j
  /-- What the slot holds. -/
  j_eq : s.mem (a.ptr + s.j) = jv
  /-- What its parent holds. -/
  p_eq : s.mem (a.ptr + s.p) = s.pv
  /-- Nothing is lost. -/
  moved : Rearranged a.cells m s.mem

theorem siftUpTurn_eq {jv : α} {s : Rising α} (hs : Rises a m jv s) (hw : a.nb < 2 ^ w) :
    siftUpTurn cmp w a jv s = .ok (if cmp jv s.pv then .done s.mem
      else if s.p = 0 then .done (a.exchange s.mem s.j s.p)
      else .more ⟨s.p, (s.p + 1) / 2 - 1, a.exchange s.mem s.j s.p (a.ptr + ((s.p + 1) / 2 - 1)),
        a.exchange s.mem s.j s.p⟩) := by
  have hj := hs.j_lt
  have hp := hs.p_lt
  have hhalf : (s.p + 1) >>> 1 = (s.p + 1) / 2 := rfl
  unfold siftUpTurn
  split
  · rfl
  · rw [bind_of_ok (Arr.set_of_lt hj), bind_of_ok (Arr.set_of_lt (by omega)), bind_of_ok (Idx.add_of_lt (by omega)),
      ← hs.p_eq, ← hs.j_eq]
    dsimp only
    rw [hhalf]
    by_cases h0 : s.p = 0
    · rw [if_pos (show (s.p + 1) / 2 = 0 by omega), if_pos h0]
      rfl
    · rw [if_neg (show ¬ (s.p + 1) / 2 = 0 by omega), if_neg h0, Word.sub_of_le (by omega) (by omega),
        bind_of_ok (Arr.get_of_lt (by omega))]
      rfl

/-- What the slots of the array hold. -/
def slots (a : Arr) (m : Cells α) (k : ℕ) : α := m (a.ptr + k)

theorem exchanged_slots {i j : ℕ} (hij : i ≠ j) : Exchanged (slots a m) (slots a (a.exchange m i j)) i j :=
  ⟨Arr.exchange_left hij, Arr.exchange_right i j, fun _ hi hj => Arr.exchange_of_ne hi hj⟩

theorem Rises.up {jv : α} {s : Rising α} (hs : Rises a m jv s) (h0 : s.p ≠ 0) :
    Rises a m jv ⟨s.p, (s.p + 1) / 2 - 1, a.exchange s.mem s.j s.p (a.ptr + ((s.p + 1) / 2 - 1)),
      a.exchange s.mem s.j s.p⟩ := by
  have hj := hs.j_lt
  have hp := hs.p_lt
  refine ⟨hp.trans hj, ?_, ?_, rfl, hs.moved.trans (Arr.exchange_rearranged hj (hp.trans hj))⟩
  · dsimp only
    omega
  · dsimp only
    rw [Arr.exchange_right, hs.j_eq]

/-- The first `i` elements are a heap, but for the one that goes up. -/
structure RisesInHeap (le : α → α → Prop) (a : Arr) (i : ℕ) (s : Rising α) : Prop where
  /-- It has a parent. -/
  pos : 0 < s.j
  /-- It is one of them. -/
  lt : s.j < i
  /-- The parent is the one of the heap. -/
  parent : (s.j - 1) / 2 = s.p
  /-- The others are in order. -/
  large : TooLargeAt le (slots a s.mem) i s.j

section Rise

variable {cmp} {le : α → α → Prop} {i : ℕ} {jv : α} {s : Rising α}

theorem RisesInHeap.rise (h : RisesInHeap le a i s) (hle : Compares le cmp) (hs : Rises a m jv s)
    (hcmp : ¬ cmp jv s.pv = true) : TooLargeAt le (slots a (a.exchange s.mem s.j s.p)) i s.p := by
  refine h.large.rise hle.trans h.parent h.pos h.lt ?_ (exchanged_slots hs.p_lt.ne')
  unfold slots
  rw [hs.p_eq, hs.j_eq]
  exact hle.of_not_cmp hcmp

theorem RisesInHeap.up (h : RisesInHeap le a i s) (hle : Compares le cmp) (hs : Rises a m jv s)
    (hcmp : ¬ cmp jv s.pv = true) (h0 : s.p ≠ 0) {x : α} :
    RisesInHeap le a i ⟨s.p, (s.p + 1) / 2 - 1, x, a.exchange s.mem s.j s.p⟩ := by
  refine ⟨Nat.pos_of_ne_zero h0, hs.p_lt.trans h.lt, ?_, h.rise hle hs hcmp⟩
  dsimp only
  omega

theorem RisesInHeap.heaped (h : RisesInHeap le a i s) (hle : Compares le cmp) (hs : Rises a m jv s)
    (hcmp : cmp jv s.pv = true) : Heaped le (slots a s.mem) i := by
  refine h.large.heaped fun _ => ?_
  unfold slots
  rw [h.parent, hs.p_eq, hs.j_eq]
  exact hle.of_cmp hcmp

theorem RisesInHeap.top (h : RisesInHeap le a i s) (hle : Compares le cmp) (hs : Rises a m jv s)
    (hcmp : ¬ cmp jv s.pv = true) (h0 : s.p = 0) : Heaped le (slots a (a.exchange s.mem s.j s.p)) i :=
  (h.rise hle hs hcmp).heaped fun hpos => absurd h0 hpos.ne'

end Rise

/-- The way up ends, and makes a heap of `i` elements of one of `i - 1`. -/
theorem siftUp_total {i : ℕ} (hi : 2 ≤ i) (hle : i ≤ a.nb) (hw : a.nb < 2 ^ w) (hf : a.nb < fuel) :
    ∃ m', siftUp cmp w fuel a i m = .ok m' ∧ Rearranged a.cells m m' ∧
      ∀ le, Compares le cmp → Heaped le (slots a m) (i - 1) → Heaped le (slots a m') i := by
  have hhalf : i >>> 1 = i / 2 := rfl
  rw [siftUp, bind_of_ok (Idx.sub_of_le (by omega)), hhalf, bind_of_ok (Idx.sub_of_le (by omega)),
    bind_of_ok (Arr.get_of_lt (by omega)), bind_of_ok (Arr.get_of_lt (by omega))]
  refine loop_total (fun s : Rising α => s.p) (I := fun s => Rises a m (m (a.ptr + (i - 1))) s ∧
    ∀ le, Compares le cmp → Heaped le (slots a m) (i - 1) → RisesInHeap le a i s) ?_
    ⟨⟨by dsimp only; omega, by dsimp only; omega, rfl, rfl, Rearranged.refl _ _⟩, fun le _ hheap => ?_⟩
    (by dsimp only; omega)
  · intro s hI
    obtain ⟨hs, hin⟩ := hI
    have hp := hs.p_lt
    rw [siftUpTurn_eq cmp hs hw]
    split
    · rename_i hcmp
      exact .inr ⟨s.mem, rfl, hs.moved, fun le hord hheap => (hin le hord hheap).heaped hord hs hcmp⟩
    · rename_i hcmp
      split
      · rename_i h0
        exact .inr ⟨_, rfl, hs.moved.trans (Arr.exchange_rearranged hs.j_lt (hp.trans hs.j_lt)),
          fun le hord hheap => (hin le hord hheap).top hord hs hcmp h0⟩
      · rename_i h0
        refine .inl ⟨_, rfl, ⟨hs.up h0, fun le hord hheap => (hin le hord hheap).up hord hs hcmp h0⟩, ?_⟩
        dsimp only
        omega
  · refine ⟨by dsimp only; omega, by dsimp only; omega, by dsimp only; omega, ?_⟩
    obtain ⟨n, rfl⟩ := Nat.exists_eq_add_of_le' (show 1 ≤ i by omega)
    exact hheap.push

theorem build_total (hw : 2 ≤ a.nb → 2 * a.nb ≤ 2 ^ w) (hf : a.nb < fuel) :
    ∃ m', loop (buildTurn cmp w fuel a) fuel ⟨2, m⟩ = .ok m' ∧ Rearranged a.cells m m' ∧
      ∀ le, Compares le cmp → Heaped le (slots a m') a.nb := by
  refine loop_total (fun s : Cursor α => a.nb + 1 - s.idx)
    (I := fun s => 2 ≤ s.idx ∧ Rearranged a.cells m s.mem ∧
      ∀ le, Compares le cmp → Heaped le (slots a s.mem) (s.idx - 1)) ?_
    ⟨le_rfl, Rearranged.refl _ _, fun le _ k hpos hk => by dsimp only at hk; omega⟩ (by dsimp only; omega)
  intro s hs
  obtain ⟨h2, hs, hheap⟩ := hs
  by_cases hle : s.idx ≤ a.nb
  · have hfits : 2 * a.nb ≤ 2 ^ w := hw (h2.trans hle)
    obtain ⟨m', hm', hr, hheap'⟩ := siftUp_total cmp (m := s.mem) h2 hle (show a.nb < 2 ^ w by omega) hf
    refine .inl ⟨⟨s.idx + 1, m'⟩, ?_, ⟨?_, hs.trans hr, fun le hord => hheap' le hord (hheap le hord)⟩, ?_⟩
    · rw [buildTurn, if_pos hle, bind_of_ok hm', bind_of_ok (Idx.add_of_lt (by omega))]
      rfl
    · dsimp only
      omega
    · dsimp only
      omega
  · refine .inr ⟨s.mem, ?_, hs, fun le hord k hpos hk => hheap le hord k hpos (by omega)⟩
    rw [buildTurn, if_neg hle]
    rfl

/-! ### The second loop -/

/-- The child that is compared with the element that sinks. -/
def child (cmp : α → α → Bool) (a : Arr) (hs : ℕ) (m : Cells α) (c : ℕ) : ℕ :=
  if c + 1 < hs ∧ cmp (m (a.ptr + (c + 1))) (m (a.ptr + c)) = false then c + 1 else c

theorem le_child (hs c : ℕ) : c ≤ child cmp a hs m c := by
  unfold child
  split <;> omega

theorem child_lt {hs c : ℕ} (h : c < hs) : child cmp a hs m c < hs := by
  unfold child
  split <;> omega

theorem pickChild_eq {hs c : ℕ} (hc : c < hs) (hhs : hs ≤ a.nb) (hw : a.nb < 2 ^ w) :
    pickChild cmp w a hs m c = .ok (child cmp a hs m c, m (a.ptr + child cmp a hs m c)) := by
  rw [pickChild, bind_of_ok (Arr.get_of_lt (by omega)), bind_of_ok (Idx.add_of_lt (by omega))]
  unfold child
  by_cases hlt : c + 1 < hs
  · rw [if_pos hlt, bind_of_ok (Arr.get_of_lt (by omega))]
    cases hcmp : cmp (m (a.ptr + (c + 1))) (m (a.ptr + c)) with
    | false =>
      simp only [hlt, true_and, if_true, Bool.not_false]
      rfl
    | true =>
      simp only [hlt, true_and, Bool.not_true, Bool.false_eq_true, Bool.true_eq_false, if_false]
      rfl
  · rw [if_neg hlt, if_neg fun h => hlt h.1]
    rfl

/-- What the locals of the way down stand for. -/
structure Sinks (a : Arr) (m : Cells α) (pv : α) (s : Sinking α) : Prop where
  /-- The element is in the array. -/
  p_lt : s.p < a.nb
  /-- Its children are behind it. -/
  c_gt : s.p < s.c
  /-- What the slot holds. -/
  p_eq : s.mem (a.ptr + s.p) = pv
  /-- Nothing is lost. -/
  moved : Rearranged a.cells m s.mem

theorem siftDownTurn_eq {hs : ℕ} {pv : α} {s : Sinking α} (h : Sinks a m pv s) (hc : s.c < hs) (hhs : hs < a.nb)
    (hw : 2 * a.nb ≤ 2 ^ w) :
    siftDownTurn cmp w a hs pv s = .ok (
      if cmp (s.mem (a.ptr + child cmp a hs s.mem s.c)) pv then .done s.mem
      else .more ⟨child cmp a hs s.mem s.c, 2 * child cmp a hs s.mem s.c + 1,
        a.exchange s.mem (child cmp a hs s.mem s.c) s.p⟩) := by
  have hlt : child cmp a hs s.mem s.c < hs := child_lt cmp hc
  have hp := h.p_lt
  rw [siftDownTurn, if_pos hc, bind_of_ok (pickChild_eq cmp hc hhs.le (by omega))]
  generalize child cmp a hs s.mem s.c = k at hlt
  dsimp only
  have htwice : (k + 1) <<< 1 = 2 * (k + 1) := by
    rw [Nat.shiftLeft_eq]
    omega
  split
  · rfl
  · rw [bind_of_ok (Arr.set_of_lt (by omega)), bind_of_ok (Arr.set_of_lt hp), bind_of_ok (Idx.add_of_lt (by omega)),
      bind_of_ok (Idx.shl_of_lt (by omega)), bind_of_ok (Idx.sub_of_le (by omega)), htwice,
      show 2 * (k + 1) - 1 = 2 * k + 1 by omega, ← h.p_eq]
    rfl

/-- In a heap of the first `hs` elements, the one that sinks is in the array. -/
theorem Sinks.widen {hs : ℕ} {pv : α} {s : Sinking α} (h : Sinks ⟨a.ptr, hs⟩ m pv s) (hhs : hs ≤ a.nb) :
    Sinks a m pv s := by
  have hpart : Arr.cells ⟨a.ptr, hs⟩ ⊆ a.cells := Arr.cells_part (i := 0) (by omega)
  exact ⟨h.p_lt.trans_le hhs, h.c_gt, h.p_eq, h.moved.mono hpart⟩

theorem Sinks.down {hs k : ℕ} {pv : α} {s : Sinking α} (h : Sinks ⟨a.ptr, hs⟩ m pv s) (hk : k < hs) (hck : s.c ≤ k) :
    Sinks ⟨a.ptr, hs⟩ m pv ⟨k, 2 * k + 1, a.exchange s.mem k s.p⟩ := by
  have hgt := h.c_gt
  refine ⟨hk, ?_, ?_, h.moved.trans (Arr.exchange_rearranged (a := ⟨a.ptr, hs⟩) hk h.p_lt)⟩
  · dsimp only
    omega
  · dsimp only
    rw [Arr.exchange_left (by omega)]
    exact h.p_eq

/-- The first `hs` elements are a heap, but for the one that sinks. -/
structure SinksInHeap (le : α → α → Prop) (a : Arr) (hs : ℕ) (s : Sinking α) : Prop where
  /-- The first child is the one of the heap. -/
  first : s.c = 2 * s.p + 1
  /-- The others are in order. -/
  small : TooSmallAt le (slots a s.mem) hs s.p

section Sink

variable {cmp} {le : α → α → Prop} {hs : ℕ} {pv : α} {s : Sinking α}

/-- The child that is compared is the largest. -/
theorem le_slots_child (hle : Compares le cmp) {p k : ℕ} (hk0 : 0 < k) (hk : k < hs) (hkp : (k - 1) / 2 = p) :
    le (slots a m k) (slots a m (child cmp a hs m (2 * p + 1))) := by
  have hcases : k = 2 * p + 1 ∨ k = 2 * p + 1 + 1 := by omega
  unfold child slots
  split
  · rename_i hsecond
    rcases hcases with rfl | rfl
    · exact hle.of_not_cmp (by rw [hsecond.2]; exact Bool.false_ne_true)
    · exact hle.refl _
  · rename_i hfirst
    rcases hcases with rfl | rfl
    · exact hle.refl _
    · refine hle.of_cmp ?_
      by_contra hcmp
      exact hfirst ⟨hk, Bool.eq_false_of_not_eq_true hcmp⟩

theorem SinksInHeap.down (h : SinksInHeap le a hs s) (hle : Compares le cmp) (hsinks : Sinks ⟨a.ptr, hs⟩ m pv s)
    (hc : s.c < hs) (hcmp : ¬ cmp (s.mem (a.ptr + child cmp a hs s.mem s.c)) pv = true) :
    SinksInHeap le a hs ⟨child cmp a hs s.mem s.c, 2 * child cmp a hs s.mem s.c + 1,
      a.exchange s.mem (child cmp a hs s.mem s.c) s.p⟩ := by
  have hlt := child_lt cmp (a := a) (m := s.mem) hc
  have hp : (child cmp a hs s.mem s.c - 1) / 2 = s.p := by
    rw [child, h.first]
    split <;> omega
  have hmax : ∀ k, 0 < k → k < hs → (k - 1) / 2 = s.p →
      le (slots a s.mem k) (slots a s.mem (child cmp a hs s.mem s.c)) := by
    intro k hk0 hk hkp
    rw [h.first]
    exact le_slots_child hle hk0 hk hkp
  have hge : s.c ≤ child cmp a hs s.mem s.c := le_child cmp hs s.c
  have hgt := hsinks.c_gt
  generalize child cmp a hs s.mem s.c = k at hcmp hlt hp hmax hge ⊢
  have hk0 : 0 < k := by omega
  have hkp : k ≠ s.p := by omega
  refine ⟨rfl, h.small.sink hk0 hlt hp hmax ?_ (exchanged_slots hkp)⟩
  have hsmall := hle.of_not_cmp hcmp
  rwa [← hsinks.p_eq] at hsmall

theorem SinksInHeap.heaped (h : SinksInHeap le a hs s) (hle : Compares le cmp) (hsinks : Sinks ⟨a.ptr, hs⟩ m pv s)
    (hcmp : cmp (s.mem (a.ptr + child cmp a hs s.mem s.c)) pv = true) : Heaped le (slots a s.mem) hs := by
  refine h.small.heaped fun k hk0 hk hkp => ?_
  have hmax := le_slots_child hle (a := a) (m := s.mem) hk0 hk hkp
  rw [← h.first] at hmax
  have hlarge := hle.of_cmp hcmp
  rw [← hsinks.p_eq] at hlarge
  exact hle.trans hmax hlarge

theorem SinksInHeap.bottom (h : SinksInHeap le a hs s) (hc : ¬ s.c < hs) : Heaped le (slots a s.mem) hs := by
  have hfirst := h.first
  refine h.small.heaped fun k hk0 hk hkp => ?_
  omega

end Sink

/-- The way down ends, among the first `hs` elements, and makes a heap of them. -/
theorem siftDown_total {hs : ℕ} (hpos : 0 < hs) (hhs : hs < a.nb) (hw : 2 * a.nb ≤ 2 ^ w) (hf : a.nb < fuel) :
    ∃ m', loop (siftDownTurn cmp w a hs (m (a.ptr + 0))) fuel ⟨0, 1, m⟩ = .ok m' ∧
      Rearranged (Arr.cells ⟨a.ptr, hs⟩) m m' ∧
      ∀ le, Compares le cmp → TooSmallAt le (slots a m) hs 0 → Heaped le (slots a m') hs := by
  refine loop_total (fun s : Sinking α => hs - s.c) (I := fun s => Sinks ⟨a.ptr, hs⟩ m (m (a.ptr + 0)) s ∧
    ∀ le, Compares le cmp → TooSmallAt le (slots a m) hs 0 → SinksInHeap le a hs s) ?_
    ⟨⟨hpos, Nat.one_pos, rfl, Rearranged.refl _ _⟩, fun le _ hsmall => ⟨rfl, hsmall⟩⟩ (by dsimp only; omega)
  intro s hI
  obtain ⟨h, hin⟩ := hI
  by_cases hc : s.c < hs
  · have hle : s.c ≤ child cmp a hs s.mem s.c := le_child cmp hs s.c
    have hlt : child cmp a hs s.mem s.c < hs := child_lt cmp hc
    rw [siftDownTurn_eq cmp (h.widen hhs.le) hc hhs hw]
    split
    · rename_i hcmp
      exact .inr ⟨s.mem, rfl, h.moved, fun le hord hsmall => (hin le hord hsmall).heaped hord h hcmp⟩
    · rename_i hcmp
      refine .inl ⟨_, rfl, ⟨h.down hlt hle, fun le hord hsmall => (hin le hord hsmall).down hord h hc hcmp⟩, ?_⟩
      dsimp only
      omega
  · refine .inr ⟨s.mem, ?_, h.moved, fun le hord hsmall => (hin le hord hsmall).bottom hc⟩
    rw [siftDownTurn, if_neg hc]
    rfl

/-- The second loop, at `i`. -/
structure Popping (le : α → α → Prop) (a : Arr) (s : Cursor α) : Prop where
  /-- What is left of the heap. -/
  heap : Heaped le (slots a s.mem) (a.nb + 1 - s.idx)
  /-- What is behind it is in order with all that is before. -/
  tail : ∀ i j, a.nb + 1 - s.idx ≤ j → i < j → j < a.nb → le (s.mem (a.ptr + i)) (s.mem (a.ptr + j))

/-- The first element has gone to the end of the heap, and the others are in order again. -/
theorem Popping.pop {le : α → α → Prop} {s : Cursor α} (h : Popping le a s) (hrefl : ∀ x, le x x)
    (htrans : ∀ {x y z}, le x y → le y z → le x z) (hlt : s.idx < a.nb) {m' : Cells α}
    (hr : Rearranged (Arr.cells ⟨a.ptr, a.nb - s.idx⟩) (a.exchange s.mem (a.nb - s.idx) 0) m')
    (hheap : Heaped le (slots a m') (a.nb - s.idx)) : Popping le a ⟨s.idx + 1, m'⟩ := by
  have hleft : a.nb + 1 - (s.idx + 1) = a.nb - s.idx := by omega
  have hsize : a.nb + 1 - s.idx = a.nb - s.idx + 1 := by omega
  have hroot : ∀ k, k < a.nb - s.idx + 1 → le (s.mem (a.ptr + k)) (s.mem (a.ptr + 0)) := by
    intro k hk
    exact h.heap.root hrefl htrans (by omega)
  have htail := h.tail
  have hhs0 : a.nb - s.idx ≠ 0 := by omega
  rw [hsize] at htail
  constructor
  · dsimp only
    rw [hleft]
    exact hheap
  · dsimp only
    rw [hleft]
    generalize a.nb - s.idx = hs at hr htail hroot hhs0 ⊢
    -- What all the elements of the heap satisfy, those that are left still do.
    have hfront : ∀ P : α → Prop, (∀ k, k < hs + 1 → P (s.mem (a.ptr + k))) → ∀ k, k < hs → P (m' (a.ptr + k)) := by
      intro P hP k hk
      refine hr.forall_mem ?_ _ ⟨Nat.le_add_right _ _, Nat.add_lt_add_left hk _⟩
      intro c hc
      obtain ⟨j, rfl⟩ := Nat.exists_eq_add_of_le hc.1
      have hj := Nat.lt_of_add_lt_add_left hc.2
      dsimp only at hj
      rcases Nat.eq_zero_or_pos j with rfl | hj0
      · rw [Arr.exchange_right]
        exact hP hs (Nat.lt_succ_self hs)
      · rw [Arr.exchange_of_ne hj.ne hj0.ne']
        exact hP j (hj.trans (Nat.lt_succ_self hs))
    have hbehind : ∀ k, hs ≤ k → m' (a.ptr + k) = a.exchange s.mem hs 0 (a.ptr + k) := by
      intro k hk
      exact hr.frame fun hin => absurd hin.2 (by dsimp only; omega)
    intro i j hj hij hjn
    rcases Nat.lt_or_eq_of_le hj with hj | rfl
    · have hjeq : m' (a.ptr + j) = s.mem (a.ptr + j) := by
        rw [hbehind j hj.le, Arr.exchange_of_ne hj.ne' (by omega)]
      rw [hjeq]
      rcases Nat.lt_trichotomy i hs with hi | rfl | hi
      · exact hfront (fun x => le x (s.mem (a.ptr + j))) (fun k hk => htail k j hj (by omega) hjn) i hi
      · rw [hbehind i le_rfl, Arr.exchange_left hhs0]
        exact htail 0 j hj (by omega) hjn
      · rw [hbehind i hi.le, Arr.exchange_of_ne hi.ne' (by omega)]
        exact htail i j hj hij hjn
    · rw [hbehind hs le_rfl, Arr.exchange_left hhs0]
      exact hfront (fun x => le x (s.mem (a.ptr + 0))) hroot i hij

theorem popTurn_more {s : Cursor α} (hpos : 0 < s.idx) (hlt : s.idx < a.nb) (hw : 2 * a.nb ≤ 2 ^ w)
    (hf : a.nb < fuel) :
    ∃ m', popTurn cmp w fuel a s = .ok (.more ⟨s.idx + 1, m'⟩) ∧ Rearranged a.cells s.mem m' ∧
      ∀ le, Compares le cmp → Popping le a s → Popping le a ⟨s.idx + 1, m'⟩ := by
  have h0 : 0 < a.nb := by omega
  have hhs : a.nb - s.idx < a.nb := by omega
  obtain ⟨m', hm', hr, hheap⟩ :=
    siftDown_total cmp (m := a.exchange s.mem (a.nb - s.idx) 0) (show 0 < a.nb - s.idx by omega) hhs hw hf
  rw [Arr.exchange_right, Arr.exchange] at hm'
  have hpart : Arr.cells ⟨a.ptr, a.nb - s.idx⟩ ⊆ a.cells := Arr.cells_part (i := 0) (by omega)
  refine ⟨m', ?_, (Arr.exchange_rearranged hhs h0).trans (hr.mono hpart),
    fun le hord hs => hs.pop hord.refl hord.trans hlt hr (hheap le hord (hs.heap.pop (by omega) ?_))⟩
  · rw [popTurn, if_pos hlt, bind_of_ok (Idx.sub_of_le hlt.le), bind_of_ok (Arr.get_of_lt hhs),
      bind_of_ok (Arr.get_of_lt h0), bind_of_ok (Arr.set_of_lt hhs), bind_of_ok (Arr.set_of_lt h0), bind_of_ok hm',
      bind_of_ok (Idx.add_of_lt (by omega))]
    rfl
  · intro k hk0 hk
    exact Arr.exchange_of_ne hk.ne hk0.ne'

theorem pop_total (hw : 2 ≤ a.nb → 2 * a.nb ≤ 2 ^ w) (hf : a.nb < fuel) :
    ∃ m', loop (popTurn cmp w fuel a) fuel ⟨1, m⟩ = .ok m' ∧ Rearranged a.cells m m' ∧
      ∀ le, Compares le cmp → Heaped le (slots a m) a.nb → a.Sorted m' le := by
  refine loop_total (fun s : Cursor α => a.nb - s.idx)
    (I := fun s => 0 < s.idx ∧ Rearranged a.cells m s.mem ∧
      ∀ le, Compares le cmp → Heaped le (slots a m) a.nb → Popping le a s) ?_
    ⟨Nat.one_pos, Rearranged.refl _ _, fun le _ hheap => ⟨hheap, fun i j hj _ hjn => absurd hjn (Nat.not_lt_of_le hj)⟩⟩
    (by dsimp only; omega)
  intro s hs
  obtain ⟨hpos, hs, hin⟩ := hs
  by_cases hlt : s.idx < a.nb
  · obtain ⟨m', hm', hr, hpop⟩ := popTurn_more cmp hpos hlt (hw (by omega)) hf
    refine .inl ⟨⟨s.idx + 1, m'⟩, hm', ⟨Nat.succ_pos _, hs.trans hr,
      fun le hord hheap => hpop le hord (hin le hord hheap)⟩, ?_⟩
    dsimp only
    omega
  · refine .inr ⟨s.mem, ?_, hs, fun le hord hheap i j hij hj => (hin le hord hheap).tail i j (by omega) hij hj⟩
    rw [popTurn, if_neg hlt]
    rfl

theorem two_mul_le {n : ℕ} (hn : 2 ≤ n) (h : n ≤ 2 ^ (w - 1)) : 2 * n ≤ 2 ^ w := by
  cases w with
  | zero =>
    rw [Nat.zero_sub, Nat.pow_zero] at h
    omega
  | succ w =>
    rw [Nat.add_sub_cancel] at h
    rw [Nat.pow_succ]
    omega

/-- **Heap sort is safe**, whatever the comparator. For a comparator that is one for an order it sorts. -/
theorem copSortHeap_total (hw : a.nb ≤ 2 ^ (w - 1)) (hf : a.nb < fuel) :
    ∃ m', copSortHeap cmp w fuel a m = .ok m' ∧ Rearranged a.cells m m' ∧
      ∀ le, Compares le cmp → a.Sorted m' le := by
  have hfits : 2 ≤ a.nb → 2 * a.nb ≤ 2 ^ w := fun hn => two_mul_le hn hw
  obtain ⟨m₁, hbuild, h₁, hheap⟩ := build_total cmp (m := m) hfits hf
  obtain ⟨m₂, hpop, h₂, hsorted⟩ := pop_total cmp (m := m₁) hfits hf
  refine ⟨m₂, ?_, h₁.trans h₂, fun le hord => hsorted le hord (hheap le hord)⟩
  rw [copSortHeap, bind_of_ok hbuild, hpop]

/-! ### More fuel -/

theorem buildTurn_approx (h : fuel ≤ fuel') (s : Cursor α) :
    Approx (buildTurn cmp w fuel a s) (buildTurn cmp w fuel' a s) := by
  unfold buildTurn siftUp
  refine .ite (.bind ?_ fun mem => .refl _) (.refl _)
  refine .bind (.refl _) fun j => .bind (.refl _) fun p => .bind (.refl _) fun jv => .bind (.refl _) fun pv => ?_
  exact .loop (fun _ => .refl _) h _

theorem popTurn_approx (h : fuel ≤ fuel') (s : Cursor α) :
    Approx (popTurn cmp w fuel a s) (popTurn cmp w fuel' a s) := by
  unfold popTurn
  refine .ite (.bind (.refl _) fun hs => .bind (.refl _) fun pv => .bind (.refl _) fun top => ?_) (.refl _)
  refine .bind (.refl _) fun mem => .bind (.refl _) fun mem => .bind (.loop (fun _ => .refl _) h _) fun mem => ?_
  exact .refl _

theorem copSortHeap_approx (h : fuel ≤ fuel') : Approx (copSortHeap cmp w fuel a m) (copSortHeap cmp w fuel' a m) :=
  .bind (.loop (buildTurn_approx cmp h) h _) fun _ => .loop (popTurn_approx cmp h) h _

end Cop.Sort
