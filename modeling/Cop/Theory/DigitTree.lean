import Mathlib.Data.List.Basic
import Mathlib.Logic.Function.Basic
import Mathlib.Data.Finset.Lattice.Fold
import Mathlib.Data.Fintype.Basic
import Mathlib.Order.Lattice.Nat
import Mathlib.Order.Interval.Finset.Nat

/-!
# Digit trees

A digit tree keeps one item at *every* node, and under the child numbered `i` of
a node at depth `d` only items whose digit number `d` is `i`. An item may sit
anywhere along the path its digits spell, so that a search compares at each node
and descends by the next digit, an insertion puts a new leaf where the search
falls off, and a deletion fills the hole by moving items up, one level each,
along any chain of children down to a leaf.

## The model

* `DigitTree k α` — trees with `k` children a node, one item a node.
* `at? t π` and `sub π t` — the item, and the subtree, at the end of the path `π`.
* `Once` — no item occurs twice. `Laid dig d t` — the tree lies along the digits
  `dig`, its root at depth `d`.
* `searchPath`, `replace`, `pull` — where a search ends, the replacement of the
  subtree there, and the removal of a root by moving a chain up. Which child
  moves up is decided by a `Chooser`.

## What is proved

* `laid_iff` — the layout in terms of paths; `Once.at?_inj` — an item has one path.
* `Laid.length_lt` — how deep an item can be, by the number of the items that share digits with it.
* `mem_node_update` and its companions — a node with one child exchanged.
* `once_replace`, `laid_replace`, `mem_replace` — what a replacement preserves.
* `mem_pull`, `once_pull`, `laid_pull` — a `pull` removes the root and nothing
  else; `at?_pull_chain`, `at?_pull_off` — the items of one chain move up by one
  level, every other item stays where it was.
* `mem_insertAt`, `mem_removeAt` and their companions — the same for the whole tree, when
  an item is put in where a search fell off or taken out where it ended.
* `find_complete` — a search finds an item whose digits are the ones it follows.
-/

namespace Cop.Theory

universe u

/-- Trees with an item and `k` children at each node. -/
inductive DigitTree (k : ℕ) (α : Type u) where
  /-- The empty tree. -/
  | nil
  /-- An item and its children. -/
  | node (a : α) (kids : Fin k → DigitTree k α)

namespace DigitTree

variable {k : ℕ} {α : Type u}

/-- The item at the root. -/
def root? : DigitTree k α → Option α
  | nil => none
  | node a _ => some a

/-- The item at the end of a path. -/
def at? : DigitTree k α → List (Fin k) → Option α
  | nil, _ => none
  | node a _, [] => some a
  | node _ s, i :: π => (s i).at? π

/-- `b` is an item of the tree. -/
protected def Mem (b : α) : DigitTree k α → Prop
  | nil => False
  | node a s => b = a ∨ ∃ i, (s i).Mem b

instance : Membership α (DigitTree k α) := ⟨fun t b => t.Mem b⟩

@[simp] theorem root?_nil : (nil : DigitTree k α).root? = none := rfl
@[simp] theorem root?_node (a : α) (s : Fin k → DigitTree k α) : (node a s).root? = some a := rfl
@[simp] theorem at?_nil (π : List (Fin k)) : (nil : DigitTree k α).at? π = none := by cases π <;> rfl
@[simp] theorem at?_node_nil (a : α) (s : Fin k → DigitTree k α) : (node a s).at? [] = some a := rfl
@[simp] theorem at?_node_cons (a : α) (s : Fin k → DigitTree k α) (i : Fin k) (π : List (Fin k)) :
    (node a s).at? (i :: π) = (s i).at? π := rfl
@[simp] theorem not_mem_nil (b : α) : b ∉ (nil : DigitTree k α) := fun h => h
@[simp] theorem mem_node {b a : α} {s : Fin k → DigitTree k α} : b ∈ node a s ↔ b = a ∨ ∃ i, b ∈ s i := Iff.rfl

theorem at?_eq_root? (t : DigitTree k α) : t.at? [] = t.root? := by cases t <;> rfl

theorem mem_of_root? {t : DigitTree k α} {a : α} (h : t.root? = some a) : a ∈ t := by
  cases t with
  | nil => simp at h
  | node b s => simp only [root?_node, Option.some.injEq] at h; simp [h]

theorem mem_of_at? {t : DigitTree k α} {π : List (Fin k)} {b : α} (h : t.at? π = some b) : b ∈ t := by
  induction π generalizing t with
  | nil => exact mem_of_root? (t.at?_eq_root? ▸ h)
  | cons i π ih =>
    cases t with
    | nil => simp at h
    | node a s => exact mem_node.2 (.inr ⟨i, ih h⟩)

/-- The items are those at the end of some path. -/
theorem mem_iff_at? {t : DigitTree k α} {b : α} : b ∈ t ↔ ∃ π, t.at? π = some b := by
  refine ⟨fun h => ?_, fun ⟨π, h⟩ => mem_of_at? h⟩
  induction t with
  | nil => exact absurd h (not_mem_nil b)
  | node a s ih =>
    rcases mem_node.1 h with rfl | ⟨i, hi⟩
    · exact ⟨[], rfl⟩
    · obtain ⟨π, hπ⟩ := ih i hi
      exact ⟨i :: π, hπ⟩

/-- The number of levels. -/
def height : DigitTree k α → ℕ
  | nil => 0
  | node _ s => (Finset.univ.sup fun i => (s i).height) + 1

theorem height_kid_lt (a : α) (s : Fin k → DigitTree k α) (i : Fin k) : (s i).height < (node a s).height := by
  have h : (s i).height ≤ Finset.univ.sup fun j => (s j).height :=
    Finset.le_sup (f := fun j => (s j).height) (Finset.mem_univ i)
  simp only [height]
  omega

theorem height_node_le {a : α} {s : Fin k → DigitTree k α} {n : ℕ} (h : ∀ i, (s i).height ≤ n) :
    (node a s).height ≤ n + 1 := by
  simp only [height, Nat.add_le_add_iff_right]
  exact Finset.sup_le fun i _ => h i

/-! ### The invariants -/

/-- No item occurs twice. -/
def Once : DigitTree k α → Prop
  | nil => True
  | node a s => (∀ i, a ∉ s i) ∧ (∀ i j, i ≠ j → ∀ b ∈ s i, b ∉ s j) ∧ ∀ i, (s i).Once

/-- With the root at depth `d`, the items below child `i` of a node have the digit `i` at
the node's depth. -/
def Laid (dig : α → ℕ → Fin k) : ℕ → DigitTree k α → Prop
  | _, nil => True
  | d, node _ s => ∀ i, (∀ b ∈ s i, dig b d = i) ∧ (s i).Laid dig (d + 1)

/-- A tree is laid out along the digits when every path spells them. -/
theorem laid_iff {dig : α → ℕ → Fin k} {d : ℕ} {t : DigitTree k α} :
    t.Laid dig d ↔ ∀ π b, t.at? π = some b → ∀ j (hj : j < π.length), dig b (d + j) = π[j] := by
  induction t generalizing d with
  | nil => simp [Laid]
  | node a s ih =>
    constructor
    · intro h π b hπ j hj
      cases π with
      | nil => simp at hj
      | cons i π =>
        cases j with
        | zero => exact (h i).1 b (mem_of_at? hπ)
        | succ j =>
          have := (ih i).1 (h i).2 π b hπ j (by simpa using hj)
          simpa [Nat.add_assoc, Nat.add_comm 1 j] using this
    · refine fun h i => ⟨fun b hb => ?_, (ih i).2 fun π b hπ j hj => ?_⟩
      · obtain ⟨π, hπ⟩ := mem_iff_at?.1 hb
        exact h (i :: π) b hπ 0 (by simp)
      · have := h (i :: π) b hπ (j + 1) (by simpa using hj)
        simpa [Nat.add_assoc, Nat.add_comm 1 j] using this

/-- An item that occurs once stands at the end of one path. -/
theorem Once.at?_inj {t : DigitTree k α} (h : t.Once) {π σ : List (Fin k)} {b : α} (hπ : t.at? π = some b)
    (hσ : t.at? σ = some b) : π = σ := by
  induction t generalizing π σ with
  | nil => simp at hπ
  | node a s ih =>
    cases π with
    | nil =>
      obtain rfl : a = b := by simpa using hπ
      cases σ with
      | nil => rfl
      | cons j σ => exact absurd (mem_of_at? (t := s j) hσ) (h.1 j)
    | cons i π =>
      cases σ with
      | nil =>
        obtain rfl : a = b := by simpa using hσ
        exact absurd (mem_of_at? (t := s i) hπ) (h.1 i)
      | cons j σ =>
        by_cases hij : i = j
        · subst hij
          rw [ih i (h.2.2 i) hπ hσ]
        · exact absurd (mem_of_at? (t := s j) hσ) (h.2.1 i j hij b (mem_of_at? hπ))

/-- The tree is no higher than its paths are long. -/
theorem height_le_iff {t : DigitTree k α} {n : ℕ} : t.height ≤ n ↔ ∀ π b, t.at? π = some b → π.length < n := by
  induction t generalizing n with
  | nil => simp [height]
  | node a s ih =>
    constructor
    · intro h π b hπ
      cases π with
      | nil => exact lt_of_lt_of_le (Nat.zero_lt_succ _) h
      | cons i π =>
        have hi := height_kid_lt a s i
        have := (ih i (n := n - 1)).1 (by omega) π b hπ
        simp only [List.length_cons]
        omega
    · intro h
      have h0 : 0 < n := h [] a rfl
      obtain ⟨m, rfl⟩ : ∃ m, n = m + 1 := ⟨n - 1, by omega⟩
      refine height_node_le fun i => (ih i).2 fun π b hπ => ?_
      have := h (i :: π) b hπ
      simpa using this

/-- Whether a tree is laid out depends on the digits of its items only. -/
theorem Laid.congr {dig dig' : α → ℕ → Fin k} {d : ℕ} {t : DigitTree k α} (h : t.Laid dig d)
    (hd : ∀ b ∈ t, ∀ j, dig' b j = dig b j) : t.Laid dig' d :=
  laid_iff.2 fun π b hπ j hj => (hd b (mem_of_at? hπ) _).trans (laid_iff.1 h π b hπ j hj)

/-! ### One child exchanged -/

section Update

variable {a : α} {s : Fin k → DigitTree k α} {i : Fin k} {u : DigitTree k α}

theorem mem_node_update {b : α} :
    b ∈ node a (Function.update s i u) ↔ b = a ∨ b ∈ u ∨ ∃ j, j ≠ i ∧ b ∈ s j :=
  or_congr_right (Function.exists_update_iff s fun _ t => b ∈ t)

theorem once_node_update (hu : u.Once) (hs : ∀ j, j ≠ i → (s j).Once) (ha : a ∉ u) (has : ∀ j, j ≠ i → a ∉ s j)
    (hnew : ∀ b ∈ u, ∀ j, j ≠ i → b ∉ s j)
    (hold : ∀ j l, j ≠ i → l ≠ i → j ≠ l → ∀ b ∈ s j, b ∉ s l) : (node a (Function.update s i u)).Once := by
  refine ⟨(Function.forall_update_iff s fun _ t => a ∉ t).2 ⟨ha, has⟩, fun j l hjl b hbj hbl => ?_,
    (Function.forall_update_iff s fun _ t => t.Once).2 ⟨hu, hs⟩⟩
  by_cases hji : j = i
  · subst hji
    rw [Function.update_self] at hbj
    rw [Function.update_of_ne hjl.symm] at hbl
    exact hnew b hbj l hjl.symm hbl
  · rw [Function.update_of_ne hji] at hbj
    by_cases hli : l = i
    · subst hli
      rw [Function.update_self] at hbl
      exact hnew b hbl j hji hbj
    · rw [Function.update_of_ne hli] at hbl
      exact hold j l hji hli hjl b hbj hbl

theorem laid_node_update {dig : α → ℕ → Fin k} {d : ℕ} (hs : (node a s).Laid dig d) (hu : u.Laid dig (d + 1))
    (hdig : ∀ b ∈ u, dig b d = i) (c : α) : (node c (Function.update s i u)).Laid dig d :=
  (Function.forall_update_iff s fun j t => (∀ b ∈ t, dig b d = j) ∧ t.Laid dig (d + 1)).2
    ⟨⟨hdig, hu⟩, fun j _ => hs j⟩

theorem height_node_update_le {n : ℕ} (hu : u.height ≤ n) (hs : ∀ j, (s j).height ≤ n) :
    (node a (Function.update s i u)).height ≤ n + 1 :=
  height_node_le ((Function.forall_update_iff s fun _ t => t.height ≤ n).2 ⟨hu, fun j _ => hs j⟩)

end Update

/-! ### Subtrees and their replacement -/

/-- The subtree at the end of a path. -/
def sub : List (Fin k) → DigitTree k α → DigitTree k α
  | [], t => t
  | _ :: _, nil => nil
  | i :: π, node _ s => sub π (s i)

/-- Put `u` in place of the subtree at the end of a path. -/
def replace (u : DigitTree k α) : List (Fin k) → DigitTree k α → DigitTree k α
  | [], _ => u
  | _ :: _, nil => nil
  | i :: π, node a s => node a (Function.update s i (replace u π (s i)))

/-- The path runs over nodes of the tree up to its last step. -/
def Reaches : List (Fin k) → DigitTree k α → Prop
  | [], _ => True
  | _ :: _, nil => False
  | i :: π, node _ s => Reaches π (s i)

theorem sub_mem {π : List (Fin k)} {t : DigitTree k α} {b : α} (h : b ∈ sub π t) : b ∈ t := by
  induction π generalizing t with
  | nil => exact h
  | cons i π ih =>
    cases t with
    | nil => exact h
    | node a s => exact mem_node.2 (.inr ⟨i, ih h⟩)

theorem Once.sub {t : DigitTree k α} (h : t.Once) (π : List (Fin k)) : (DigitTree.sub π t).Once := by
  induction π generalizing t with
  | nil => exact h
  | cons i π ih =>
    cases t with
    | nil => exact h
    | node a s => exact ih (h.2.2 i)

theorem Laid.sub {dig : α → ℕ → Fin k} {d : ℕ} {t : DigitTree k α} (h : t.Laid dig d) (π : List (Fin k)) :
    (DigitTree.sub π t).Laid dig (d + π.length) := by
  induction π generalizing d t with
  | nil => exact h
  | cons i π ih =>
    cases t with
    | nil => exact trivial
    | node a s => simpa [DigitTree.sub, Nat.add_assoc, Nat.add_comm 1] using ih (h i).2

theorem at?_append (t : DigitTree k α) (π σ : List (Fin k)) : t.at? (π ++ σ) = (sub π t).at? σ := by
  induction π generalizing t with
  | nil => rfl
  | cons i π ih =>
    cases t with
    | nil => simp [sub]
    | node a s => exact ih (s i)

/-- Above an item there is one at every depth. -/
theorem exists_at?_take {t : DigitTree k α} {π : List (Fin k)} {b : α} (h : t.at? π = some b) (j : ℕ) :
    ∃ a, t.at? (π.take j) = some a := by
  rw [← List.take_append_drop j π, at?_append] at h
  rw [← List.append_nil (π.take j), at?_append, at?_eq_root?]
  cases hu : sub (π.take j) t with
  | nil => simp [hu] at h
  | node a s => exact ⟨a, rfl⟩

/-- **Depth**: an item stands no deeper than the number of digits that are looked at, but for items that share all
of these digits with it; the items above it that are deeper do. -/
theorem Laid.length_lt {dig : α → ℕ → Fin k} {t : DigitTree k α} (hl : t.Laid dig 0) (ho : t.Once) {π : List (Fin k)}
    {b : α} (hb : t.at? π = some b) {n : ℕ} {S : Finset α}
    (hS : ∀ a ∈ t, (∀ j < n, dig a j = dig b j) → a ∈ S) : π.length < n + S.card := by
  by_cases hlen : π.length < n
  · omega
  choose a ha using exists_at?_take hb
  have hdig : ∀ {j l}, n ≤ j → j ≤ π.length → l < n → dig (a j) l = dig b l := fun {j l} hj hjl hl' => by
    have h1 := laid_iff.1 hl _ _ (ha j) l (by rw [List.length_take]; omega)
    have h2 := laid_iff.1 hl _ _ hb l (by omega)
    rw [Nat.zero_add] at h1 h2
    rw [h1, h2, List.getElem_take]
  have hmaps : Set.MapsTo a (Finset.Icc n π.length) S := fun j hj => by
    obtain ⟨hj, hjl⟩ := Finset.mem_Icc.1 hj
    exact hS _ (mem_of_at? (ha j)) fun l hl' => hdig hj hjl hl'
  have hinj : Set.InjOn a (Finset.Icc n π.length) := fun j hj l hl' h => by
    have hjl := Finset.mem_Icc.1 hj
    have hll := Finset.mem_Icc.1 hl'
    have hpath := congrArg List.length (ho.at?_inj (ha j) (h ▸ ha l))
    rw [List.length_take, List.length_take] at hpath
    omega
  have hcard := Finset.card_le_card_of_injOn a hmaps hinj
  rw [Nat.card_Icc] at hcard
  omega

theorem height_sub_le (π : List (Fin k)) (t : DigitTree k α) : (sub π t).height ≤ t.height := by
  induction π generalizing t with
  | nil => exact le_rfl
  | cons i π ih =>
    cases t with
    | nil => exact le_rfl
    | node a s => exact (ih (s i)).trans (height_kid_lt a s i).le

theorem mem_replace_of {u t : DigitTree k α} {π : List (Fin k)} {b : α} (h : b ∈ replace u π t) :
    b ∈ u ∨ b ∈ t := by
  induction π generalizing t with
  | nil => exact .inl h
  | cons i π ih =>
    cases t with
    | nil => exact .inr h
    | node a s =>
      rcases mem_node_update.1 h with rfl | hi | ⟨j, -, hj⟩
      · exact .inr (mem_node.2 (.inl rfl))
      · exact (ih hi).imp_right fun h => mem_node.2 (.inr ⟨i, h⟩)
      · exact .inr (mem_node.2 (.inr ⟨j, hj⟩))

/-- A replacement trades the items of the old subtree for those of the new one. -/
theorem mem_replace {u t : DigitTree k α} {π : List (Fin k)} (hr : Reaches π t) (ho : t.Once) {b : α} :
    b ∈ replace u π t ↔ b ∈ u ∨ (b ∈ t ∧ b ∉ sub π t) := by
  induction π generalizing t with
  | nil => simp [replace, sub]
  | cons i π ih =>
    cases t with
    | nil => exact hr.elim
    | node a s =>
      have hi := ih (t := s i) hr (ho.2.2 i)
      rw [replace, sub, mem_node_update, mem_node, hi]
      constructor
      · rintro (rfl | (h | ⟨h, hn⟩) | ⟨j, hji, hj⟩)
        · exact .inr ⟨.inl rfl, fun h => ho.1 i (sub_mem h)⟩
        · exact .inl h
        · exact .inr ⟨.inr ⟨i, h⟩, hn⟩
        · exact .inr ⟨.inr ⟨j, hj⟩, fun h => ho.2.1 j i hji b hj (sub_mem h)⟩
      · rintro (h | ⟨rfl | ⟨j, hj⟩, hn⟩)
        · exact .inr (.inl (.inl h))
        · exact .inl rfl
        · by_cases hji : j = i
          · subst hji
            exact .inr (.inl (.inr ⟨hj, hn⟩))
          · exact .inr (.inr ⟨j, hji, hj⟩)

theorem once_replace {u t : DigitTree k α} {π : List (Fin k)} (ht : t.Once) (hu : u.Once)
    (hnew : ∀ b ∈ u, b ∈ sub π t ∨ b ∉ t) : (replace u π t).Once := by
  induction π generalizing t with
  | nil => exact hu
  | cons i π ih =>
    cases t with
    | nil => exact ht
    | node a s =>
      obtain ⟨ha, hs, hk⟩ := ht
      have hui : ∀ b ∈ u, b ∈ DigitTree.sub π (s i) ∨ b ∉ s i := fun b hb =>
        (hnew b hb).imp_right fun h hbi => h (mem_node.2 (.inr ⟨i, hbi⟩))
      -- an item of the new child is an item of the old one, or new to the whole tree
      have hmem : ∀ b ∈ replace u π (s i), b ∈ s i ∨ b ∉ node a s := fun b hb => by
        rcases mem_replace_of hb with h | h
        · exact (hnew b h).imp_left sub_mem
        · exact .inl h
      refine once_node_update (ih (hk i) hui) (fun j _ => hk j) (fun hau => ?_) (fun j _ => ha j)
        (fun b hb j hji hbj => ?_) fun j l _ _ hjl => hs j l hjl
      · rcases hmem a hau with h | h
        · exact ha i h
        · exact h (mem_node.2 (.inl rfl))
      · rcases hmem b hb with h | h
        · exact hs i j hji.symm b h hbj
        · exact h (mem_node.2 (.inr ⟨j, hbj⟩))

theorem laid_replace {dig : α → ℕ → Fin k} {d : ℕ} {u t : DigitTree k α} {π : List (Fin k)}
    (ht : t.Laid dig d) (hu : u.Laid dig (d + π.length))
    (hπ : ∀ b ∈ u, ∀ j (hj : j < π.length), dig b (d + j) = π[j]) : (replace u π t).Laid dig d := by
  induction π generalizing d t with
  | nil => exact hu
  | cons i π ih =>
    cases t with
    | nil => exact ht
    | node a s =>
      refine laid_node_update ht (ih (ht i).2 ?_ fun b hb l hl => ?_) (fun b hb => ?_) a
      · simpa [Nat.add_assoc, Nat.add_comm 1] using hu
      · have := hπ b hb (l + 1) (by simpa using hl)
        simpa only [List.getElem_cons_succ, Nat.add_assoc, Nat.add_comm 1] using this
      · rcases mem_replace_of hb with h | h
        · exact hπ b h 0 (by simp)
        · exact (ht i).1 b h

/-- Below the replaced subtree stands the new one. -/
theorem at?_replace_append {u t : DigitTree k α} {π : List (Fin k)} (hr : Reaches π t) (σ : List (Fin k)) :
    (replace u π t).at? (π ++ σ) = u.at? σ := by
  induction π generalizing t with
  | nil => rfl
  | cons i π ih =>
    cases t with
    | nil => exact hr.elim
    | node a s => simpa [replace] using ih hr

/-- Away from the replaced subtree nothing changes. -/
theorem at?_replace_of_not_prefix {u t : DigitTree k α} {π σ : List (Fin k)} (h : ¬ π <+: σ) :
    (replace u π t).at? σ = t.at? σ := by
  induction π generalizing t σ with
  | nil => exact absurd List.nil_prefix h
  | cons i π ih =>
    cases t with
    | nil => rfl
    | node a s =>
      cases σ with
      | nil => rfl
      | cons j σ =>
        by_cases hji : j = i
        · subst hji
          simpa [replace] using ih (t := s j) fun hp => h (List.cons_prefix_cons.2 ⟨rfl, hp⟩)
        · simp [replace, Function.update_of_ne hji]

theorem height_replace_le {u t : DigitTree k α} {π : List (Fin k)} {n : ℕ} (hr : Reaches π t)
    (hu : u.height ≤ (sub π t).height + n) : (replace u π t).height ≤ t.height + n := by
  induction π generalizing t with
  | nil => exact hu
  | cons i π ih =>
    cases t with
    | nil => exact hr.elim
    | node a s =>
      have hi := ih hr hu
      have hlt := height_kid_lt a s
      have hpos : 1 ≤ (node a s).height := by simp [height]
      have hle : (replace u (i :: π) (node a s)).height ≤ (node a s).height - 1 + n + 1 :=
        height_node_update_le (by have := hlt i; omega) fun j => by have := hlt j; omega
      omega

/-! ### Searching -/

/-- The path of a search for an item satisfying `p` along the digits `x`: it ends at
the first item it meets that satisfies `p`, or where it falls off the tree. -/
def searchPath (p : α → Bool) (x : ℕ → Fin k) : ℕ → DigitTree k α → List (Fin k)
  | _, nil => []
  | d, node a s => if p a then [] else x d :: searchPath p x (d + 1) (s (x d))

/-- The subtree at which the search ends. -/
def found (p : α → Bool) (x : ℕ → Fin k) (d : ℕ) (t : DigitTree k α) : DigitTree k α :=
  sub (searchPath p x d t) t

section Search

variable {p : α → Bool} {x : ℕ → Fin k}

theorem searchPath_node_pos {a : α} (ha : p a) (d : ℕ) (s : Fin k → DigitTree k α) :
    searchPath p x d (node a s) = [] := by simp [searchPath, ha]

theorem searchPath_node_neg {a : α} (ha : ¬ p a) (d : ℕ) (s : Fin k → DigitTree k α) :
    searchPath p x d (node a s) = x d :: searchPath p x (d + 1) (s (x d)) := by simp [searchPath, ha]

theorem reaches_searchPath (d : ℕ) (t : DigitTree k α) : Reaches (searchPath p x d t) t := by
  induction t generalizing d with
  | nil => trivial
  | node a s ih =>
    by_cases ha : p a
    · rw [searchPath_node_pos ha]
      trivial
    · rw [searchPath_node_neg ha]
      exact ih (x d) (d + 1)

theorem searchPath_getElem (d : ℕ) (t : DigitTree k α) (j : ℕ) (hj : j < (searchPath p x d t).length) :
    (searchPath p x d t)[j] = x (d + j) := by
  induction t generalizing d j with
  | nil => simp [searchPath] at hj
  | node a s ih =>
    by_cases ha : p a
    · simp [searchPath_node_pos ha] at hj
    · simp only [searchPath_node_neg ha] at hj ⊢
      cases j with
      | zero => rfl
      | succ j =>
        have := ih (x d) (d + 1) j (by simpa using hj)
        simpa [Nat.add_assoc, Nat.add_comm 1] using this

/-- A search ends at an item it looks for, if at an item at all. -/
theorem found_root {d : ℕ} {t : DigitTree k α} {a : α} (h : (found p x d t).root? = some a) : p a := by
  induction t generalizing d with
  | nil => simp [found, sub, searchPath] at h
  | node b s ih =>
    by_cases hb : p b
    · simp only [found, searchPath_node_pos hb, sub, root?_node, Option.some.injEq] at h
      exact h ▸ hb
    · simp only [found, searchPath_node_neg hb, sub] at h
      exact ih (x d) h

/-- **Completeness of the search**: it ends at an item when one that satisfies `p` lies
along the digits it follows. -/
theorem find_complete {dig : α → ℕ → Fin k} {d : ℕ} {t : DigitTree k α} {a : α} (hl : t.Laid dig d)
    (ha : a ∈ t) (hp : p a) (hx : ∀ j, dig a j = x j) : ∃ b, (found p x d t).root? = some b := by
  induction t generalizing d with
  | nil => exact absurd ha (not_mem_nil a)
  | node b s ih =>
    by_cases hb : p b
    · exact ⟨b, by simp [found, searchPath_node_pos hb, sub]⟩
    · rcases mem_node.1 ha with rfl | ⟨i, hi⟩
      · exact absurd hp hb
      · obtain rfl : x d = i := by rw [← hx d, (hl i).1 a hi]
        simpa [found, searchPath_node_neg hb, sub] using ih (x d) (hl (x d)).2 hi

end Search

/-! ### Removing a root -/

/-- Which child moves up into the place of a removed item: one that is not empty, as
long as there is one. -/
structure Chooser (k : ℕ) (α : Type u) where
  /-- The choice, at a depth and among children. -/
  pick : ℕ → (Fin k → DigitTree k α) → Option (Fin k)
  /-- No choice is made only when all children are empty. -/
  nil_of_none : ∀ {d s}, pick d s = none → ∀ i, s i = nil
  /-- A chosen child is not empty. -/
  ne_nil : ∀ {d s i}, pick d s = some i → s i ≠ nil

variable (c : Chooser k α)

/-- Remove the root of a tree at depth `d`: the root of the chosen child takes its place,
and is itself removed from the child. -/
def pull : ℕ → DigitTree k α → DigitTree k α
  | _, nil => nil
  | d, node _ s =>
    match c.pick d s with
    | none => nil
    | some i =>
      match (s i).root? with
      | none => nil
      | some b => node b (Function.update s i (pull (d + 1) (s i)))

/-- The path of the items that move up. -/
def chain : ℕ → DigitTree k α → List (Fin k)
  | _, nil => []
  | d, node _ s =>
    match c.pick d s with
    | none => []
    | some i => i :: chain (d + 1) (s i)

variable {c}

theorem pull_leaf {d : ℕ} {a : α} {s : Fin k → DigitTree k α} (h : c.pick d s = none) :
    pull c d (node a s) = nil := by simp [pull, h]

theorem pull_node {d : ℕ} {a b : α} {s r : Fin k → DigitTree k α} {i : Fin k} (h : c.pick d s = some i)
    (hi : s i = node b r) : pull c d (node a s) = node b (Function.update s i (pull c (d + 1) (s i))) := by
  simp [pull, h, hi]

/-- The root that is removed does not matter. -/
theorem pull_root (d : ℕ) (a b : α) (s : Fin k → DigitTree k α) : pull c d (node a s) = pull c d (node b s) := by
  rw [pull, pull]

theorem exists_node_of_pick {d : ℕ} {s : Fin k → DigitTree k α} {i : Fin k} (h : c.pick d s = some i) :
    ∃ b r, s i = node b r := by
  cases hi : s i with
  | nil => exact absurd hi (c.ne_nil h)
  | node b r => exact ⟨b, r, rfl⟩

/-- The items of a pulled tree are those below the root. -/
theorem mem_pull {d : ℕ} {a b : α} {s : Fin k → DigitTree k α} :
    b ∈ pull c d (node a s) ↔ ∃ i, b ∈ s i := by
  suffices h : ∀ (t : DigitTree k α) (d : ℕ) (a : α) (s : Fin k → DigitTree k α), t = node a s →
      (b ∈ pull c d t ↔ ∃ i, b ∈ s i) from h _ d a s rfl
  intro t
  induction t with
  | nil => simp
  | node a s ih =>
    rintro d _ _ ⟨⟩
    cases hp : c.pick d s with
    | none =>
      rw [pull_leaf hp]
      simp [c.nil_of_none hp]
    | some i =>
      obtain ⟨e, r, hi⟩ := exists_node_of_pick hp
      have hsub := ih i (d + 1) e r hi
      rw [pull_node hp hi, mem_node_update, hsub]
      constructor
      · rintro (rfl | hr | ⟨j, -, hj⟩)
        · exact ⟨i, by simp [hi]⟩
        · exact ⟨i, by rw [hi]; exact mem_node.2 (.inr hr)⟩
        · exact ⟨j, hj⟩
      · rintro ⟨j, hj⟩
        by_cases hji : j = i
        · subst hji
          rw [hi] at hj
          exact hj.imp_right .inl
        · exact .inr (.inr ⟨j, hji, hj⟩)

theorem once_pull {d : ℕ} {t : DigitTree k α} (h : t.Once) : (pull c d t).Once := by
  induction t generalizing d with
  | nil => exact h
  | node a s ih =>
    obtain ⟨-, hs, hk⟩ := h
    cases hp : c.pick d s with
    | none =>
      rw [pull_leaf hp]
      trivial
    | some i =>
      obtain ⟨e, r, hi⟩ := exists_node_of_pick hp
      have hei : e ∈ s i := by simp [hi]
      have hoi := hk i
      have hpull : ∀ b, b ∈ pull c (d + 1) (s i) → b ∈ s i ∧ b ≠ e := fun b hb => by
        rw [hi] at hoi hb ⊢
        obtain ⟨j, hj⟩ := mem_pull.1 hb
        exact ⟨mem_node.2 (.inr ⟨j, hj⟩), fun h => hoi.1 j (h ▸ hj)⟩
      rw [pull_node hp hi]
      exact once_node_update (ih i hoi) (fun j _ => hk j) (fun h => (hpull e h).2 rfl)
        (fun j hji => hs i j hji.symm e hei) (fun b hb j hji => hs i j hji.symm b (hpull b hb).1)
        fun j l _ _ hjl => hs j l hjl

theorem laid_pull {dig : α → ℕ → Fin k} {d : ℕ} {t : DigitTree k α} (h : t.Laid dig d) :
    (pull c d t).Laid dig d := by
  induction t generalizing d with
  | nil => exact h
  | node a s ih =>
    cases hp : c.pick d s with
    | none =>
      rw [pull_leaf hp]
      trivial
    | some i =>
      obtain ⟨e, r, hi⟩ := exists_node_of_pick hp
      rw [pull_node hp hi]
      refine laid_node_update h (ih i (h i).2) (fun b hb => ?_) e
      rw [hi] at hb
      obtain ⟨l, hl⟩ := mem_pull.1 hb
      exact (h i).1 b (by rw [hi]; exact mem_node.2 (.inr ⟨l, hl⟩))

theorem height_pull_le (d : ℕ) (t : DigitTree k α) : (pull c d t).height ≤ t.height := by
  induction t generalizing d with
  | nil => exact le_rfl
  | node a s ih =>
    cases hp : c.pick d s with
    | none =>
      rw [pull_leaf hp]
      exact Nat.zero_le _
    | some i =>
      obtain ⟨e, r, hi⟩ := exists_node_of_pick hp
      have hle : ∀ j, (s j).height ≤ Finset.univ.sup fun j => (s j).height := fun j =>
        Finset.le_sup (f := fun j => (s j).height) (Finset.mem_univ j)
      rw [pull_node hp hi]
      exact height_node_update_le ((ih i (d + 1)).trans (hle i)) hle

/-- The items along the chain move up by one level. -/
theorem at?_pull_chain {d : ℕ} {t : DigitTree k α} {j : ℕ} (hj : j < (chain c d t).length) :
    ∃ b, t.at? ((chain c d t).take (j + 1)) = some b ∧ (pull c d t).at? ((chain c d t).take j) = some b := by
  induction t generalizing d j with
  | nil => simp [chain] at hj
  | node a s ih =>
    cases hp : c.pick d s with
    | none => simp [chain, hp] at hj
    | some i =>
      obtain ⟨e, r, hi⟩ := exists_node_of_pick hp
      simp only [chain, hp, List.length_cons] at hj ⊢
      rw [pull_node hp hi]
      cases j with
      | zero => exact ⟨e, by simp [hi], rfl⟩
      | succ j =>
        obtain ⟨b, hb, hb'⟩ := ih i (d := d + 1) (j := j) (by omega)
        exact ⟨b, by simpa using hb, by simpa using hb'⟩

/-- The items off the chain stay where they are. -/
theorem at?_pull_off {d : ℕ} {t : DigitTree k α} {σ : List (Fin k)} {b : α} (hσ : t.at? σ = some b)
    (hne : σ ≠ []) (hoff : ∀ j < (chain c d t).length, σ ≠ (chain c d t).take (j + 1)) :
    (pull c d t).at? σ = some b := by
  induction t generalizing d σ with
  | nil => simp at hσ
  | node a s ih =>
    cases σ with
    | nil => exact absurd rfl hne
    | cons l σ =>
      cases hp : c.pick d s with
      | none => simp [c.nil_of_none hp] at hσ
      | some i =>
        obtain ⟨e, r, hi⟩ := exists_node_of_pick hp
        simp only [chain, hp, List.length_cons] at hoff
        rw [pull_node hp hi, at?_node_cons]
        by_cases hli : l = i
        · subst hli
          rw [Function.update_self]
          refine ih l hσ (fun h => ?_) fun j hj h => ?_
          · exact hoff 0 (by omega) (by simp [h])
          · exact hoff (j + 1) (by omega) (by simp [h])
        · rw [Function.update_of_ne hli]
          exact hσ

/-! ### Putting an item in and taking one out -/

/-- A tree of one item. -/
def leaf (a : α) : DigitTree k α := node a fun _ => nil

@[simp] theorem mem_leaf {a b : α} : b ∈ (leaf a : DigitTree k α) ↔ b = a := by simp [leaf]

/-- Take out the item at the end of a path, in a tree whose root is at depth `d`. -/
def removeAt (c : Chooser k α) (d : ℕ) (π : List (Fin k)) (t : DigitTree k α) : DigitTree k α :=
  replace (pull c (d + π.length) (sub π t)) π t

section Insert

variable {π : List (Fin k)} {t : DigitTree k α} {a : α}

theorem mem_insertAt (hr : Reaches π t) (ho : t.Once) (hnil : sub π t = nil) {b : α} :
    b ∈ replace (leaf a) π t ↔ b = a ∨ b ∈ t := by
  rw [mem_replace hr ho, hnil]
  simp

theorem once_insertAt (ho : t.Once) (ha : a ∉ t) : (replace (leaf a) π t).Once := by
  refine once_replace ho ?_ fun b hb => .inr ?_
  · simp [leaf, Once]
  · rw [mem_leaf.1 hb]
    exact ha

theorem laid_insertAt {dig : α → ℕ → Fin k} {d : ℕ} (hl : t.Laid dig d)
    (hπ : ∀ j (hj : j < π.length), π[j] = dig a (d + j)) : (replace (leaf a) π t).Laid dig d := by
  refine laid_replace hl ?_ fun b hb j hj => ?_
  · simp [leaf, Laid]
  · rw [mem_leaf.1 hb, hπ j hj]

theorem height_insertAt_le (hr : Reaches π t) (hnil : sub π t = nil) :
    (replace (leaf a) π t).height ≤ t.height + 1 := by
  apply height_replace_le hr
  rw [hnil]
  exact height_node_le fun _ => le_rfl

end Insert

section Remove

variable {d : ℕ} {π : List (Fin k)} {t : DigitTree k α} {a : α}

/-- Everything but the item taken out is left. -/
theorem mem_removeAt (hr : Reaches π t) (ho : t.Once) (ha : (sub π t).root? = some a) {b : α} :
    b ∈ removeAt c d π t ↔ b ∈ t ∧ b ≠ a := by
  have hos := ho.sub π
  have hsub : ∀ b, b ∈ sub π t → b ∈ t := fun b => sub_mem
  rw [removeAt, mem_replace hr ho]
  cases hu : sub π t with
  | nil => simp [hu] at ha
  | node e s =>
    rw [hu] at hos ha hsub
    obtain rfl : e = a := by simpa using ha
    rw [mem_pull, mem_node]
    constructor
    · rintro (⟨i, hi⟩ | ⟨hb, hn⟩)
      · refine ⟨hsub b (mem_node.2 (.inr ⟨i, hi⟩)), ?_⟩
        rintro rfl
        exact hos.1 i hi
      · exact ⟨hb, fun h => hn (.inl h)⟩
    · rintro ⟨hb, hne⟩
      by_cases hi : ∃ i, b ∈ s i
      · exact .inl hi
      · exact .inr ⟨hb, fun h => h.elim hne hi⟩

theorem once_removeAt (ho : t.Once) : (removeAt c d π t).Once := by
  refine once_replace ho (once_pull (ho.sub π)) fun b hb => .inl ?_
  cases hu : sub π t with
  | nil => rw [hu] at hb; exact hb
  | node e s =>
    rw [hu] at hb
    exact mem_node.2 (.inr (mem_pull.1 hb))

theorem laid_removeAt {dig : α → ℕ → Fin k} (hl : t.Laid dig d) : (removeAt c d π t).Laid dig d := by
  apply laid_replace hl (laid_pull (hl.sub π))
  intro b hb j hj
  -- what is left below the path was below it before
  have hsub : b ∈ sub π t := by
    cases hu : sub π t with
    | nil => rw [hu] at hb; exact hb
    | node e s =>
      rw [hu] at hb
      exact mem_node.2 (.inr (mem_pull.1 hb))
  obtain ⟨σ, hσ⟩ := mem_iff_at?.1 hsub
  rw [← at?_append] at hσ
  have := laid_iff.1 hl (π ++ σ) b hσ j (by rw [List.length_append]; omega)
  rwa [List.getElem_append_left hj] at this

theorem height_removeAt_le (hr : Reaches π t) : (removeAt c d π t).height ≤ t.height :=
  height_replace_le (n := 0) hr (height_pull_le _ _)

/-- The items of the chain below the path move up by one level. -/
theorem at?_removeAt_chain (hr : Reaches π t) {j : ℕ} (hj : j < (chain c (d + π.length) (sub π t)).length) :
    ∃ b, t.at? (π ++ (chain c (d + π.length) (sub π t)).take (j + 1)) = some b ∧
      (removeAt c d π t).at? (π ++ (chain c (d + π.length) (sub π t)).take j) = some b := by
  obtain ⟨b, hb, hb'⟩ := at?_pull_chain hj
  exact ⟨b, by rw [at?_append, hb], by rw [removeAt, at?_replace_append hr, hb']⟩

/-- Every other item stays where it is. -/
theorem at?_removeAt_off (hr : Reaches π t) (ha : t.at? π = some a) {σ : List (Fin k)} {b : α}
    (hσ : t.at? σ = some b) (hne : b ≠ a)
    (hoff : ∀ j < (chain c (d + π.length) (sub π t)).length,
      σ ≠ π ++ (chain c (d + π.length) (sub π t)).take (j + 1)) :
    (removeAt c d π t).at? σ = some b := by
  by_cases hp : π <+: σ
  · obtain ⟨τ, rfl⟩ := hp
    rw [removeAt, at?_replace_append hr]
    rw [at?_append] at hσ
    refine at?_pull_off hσ ?_ fun j hj h => hoff j hj (by rw [h])
    rintro rfl
    rw [← at?_append, List.append_nil, ha] at hσ
    exact hne (Option.some.inj hσ).symm
  · rw [removeAt, at?_replace_of_not_prefix hp, hσ]

end Remove

end DigitTree

end Cop.Theory
