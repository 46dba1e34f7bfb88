import Cop.Theory.Extents

/-!
# Columns of arrays

Arrays of equal length start at the places of a set, and the elements of all of them at one index are
a column. A loop whose turn at an index works on the column there only may do the turns in any order,
or many at a time: what it does is known from what it does to a column, and from the indices it has
dealt with.

## What is proved

* `acts_put` — writing one array at some indices, from the columns there.
* `Acts.comp`, `Acts.union` — one action after another: on the same columns, and on others.
* `Acts.unique` — what an action leaves.
-/

namespace Cop.Theory

universe u

variable {α : Type u} {ps : Set ℕ} {n : ℕ} {m m' m'' : ℕ → α} {F G : (ℕ → α) → ℕ → α} {s t : Set ℕ}

/-- The elements at index `i`, by the start of their array. -/
def column (m : ℕ → α) (i : ℕ) : ℕ → α := fun p => m (p + i)

/-- Two arrays of `n` elements are the same, or do not meet. -/
def Separate (ps : Set ℕ) (n : ℕ) : Prop := ∀ p ∈ ps, ∀ q ∈ ps, p = q ∨ Clear p n q n

/-- What is done to a column depends on its elements of the arrays. -/
def Reads (ps : Set ℕ) (F : (ℕ → α) → ℕ → α) : Prop :=
  ∀ σ τ, (∀ p ∈ ps, σ p = τ p) → ∀ p ∈ ps, F σ p = F τ p

/-- From `m` to `m'`, `F` was done to the columns of the arrays with an index in `s`, and to nothing else. -/
structure Acts (ps : Set ℕ) (n : ℕ) (F : (ℕ → α) → ℕ → α) (s : Set ℕ) (m m' : ℕ → α) : Prop where
  /-- The columns that were dealt with. -/
  done : ∀ p ∈ ps, ∀ i < n, i ∈ s → m' (p + i) = F (column m i) p
  /-- The others. -/
  left : ∀ p ∈ ps, ∀ i < n, i ∉ s → m' (p + i) = m (p + i)
  /-- All other places. -/
  frame : ∀ a, (∀ p ∈ ps, a ∉ extent p n) → m' a = m a

theorem Acts.column_eq (h : Acts ps n F s m m') {i : ℕ} (hi : i < n) (hs : i ∈ s) :
    ∀ p ∈ ps, column m' i p = F (column m i) p := fun p hp => h.done p hp i hi hs

theorem Acts.column_left (h : Acts ps n F s m m') {i : ℕ} (hi : i < n) (hs : i ∉ s) :
    ∀ p ∈ ps, column m' i p = column m i p := fun p hp => h.left p hp i hi hs

theorem acts_refl (ps : Set ℕ) (n : ℕ) (m : ℕ → α) : Acts ps n id s m m :=
  ⟨fun _ _ _ _ _ => rfl, fun _ _ _ _ _ => rfl, fun _ _ => rfl⟩

theorem acts_empty (ps : Set ℕ) (n : ℕ) (F : (ℕ → α) → ℕ → α) (m : ℕ → α) : Acts ps n F ∅ m m :=
  ⟨fun _ _ _ _ h => h.elim, fun _ _ _ _ _ => rfl, fun _ _ => rfl⟩

/-- **On the same columns**, two actions are one after the other. -/
theorem Acts.comp (hG : Reads ps G) (h : Acts ps n F s m m') (h' : Acts ps n G s m' m'') :
    Acts ps n (fun σ => G (F σ)) s m m'' := by
  refine ⟨fun p hp i hi hs => ?_, fun p hp i hi hs => ?_, fun a ha => ?_⟩
  · rw [h'.done p hp i hi hs]
    exact hG _ _ (h.column_eq hi hs) p hp
  · rw [h'.left p hp i hi hs, h.left p hp i hi hs]
  · rw [h'.frame a ha, h.frame a ha]

/-- **On other columns**, two actions are one. -/
theorem Acts.union (hF : Reads ps F) (h : Acts ps n F s m m') (h' : Acts ps n F t m' m'') (hdisj : ∀ i ∈ s, i ∉ t) :
    Acts ps n F (s ∪ t) m m'' := by
  refine ⟨fun p hp i hi hst => ?_, fun p hp i hi hst => ?_, fun a ha => ?_⟩
  · obtain hs | ht := hst
    · rw [h'.left p hp i hi (hdisj i hs), h.done p hp i hi hs]
    · rw [h'.done p hp i hi ht]
      exact hF _ _ (h.column_left hi fun hs => hdisj i hs ht) p hp
  · obtain ⟨hs, ht⟩ := not_or.1 hst
    rw [h'.left p hp i hi ht, h.left p hp i hi hs]
  · rw [h'.frame a ha, h.frame a ha]

/-- What an action leaves at the columns that it has dealt with. -/
theorem Acts.unique {n' : ℕ} {t : Set ℕ} (h : Acts ps n F s m m') (h' : Acts ps n' F t m m'') {p i : ℕ} (hp : p ∈ ps)
    (hi : i < n) (hs : i ∈ s) (hi' : i < n') (ht : i ∈ t) : m' (p + i) = m'' (p + i) := by
  rw [h.done p hp i hi hs, h'.done p hp i hi' ht]

/-- **Writing one array**: at the indices from `i` on, an element from each column. -/
theorem acts_put (hps : Separate ps n) {d : ℕ} (hd : d ∈ ps) (g : (ℕ → α) → α) {i W : ℕ} (hi : i + W ≤ n) {xs : List α}
    (hlen : xs.length = W) (hxs : ∀ l (h : l < xs.length), xs[l] = g (column m (i + l))) :
    Acts ps n (fun σ => Function.update σ d (g σ)) (extent i W) m (put m (d + i) xs) := by
  refine ⟨fun p hp j hj hs => ?_, fun p hp j hj hs => ?_, fun a ha => ?_⟩
  · obtain rfl | hclear := hps p hp d hd
    · obtain ⟨l, hl, rfl⟩ := exists_of_mem_extent hs
      rw [Function.update_self, ← Nat.add_assoc, put_add (by rwa [hlen]), hxs]
    · have hne : p ≠ d := by
        rintro rfl
        unfold Clear at hclear
        omega
      rw [Function.update_of_ne hne, put_of_notMem]
      · rfl
      · rw [hlen, mem_extent]
        unfold Clear at hclear
        omega
  · refine put_of_notMem ?_
    rw [hlen, mem_extent]
    rw [mem_extent] at hs
    obtain rfl | hclear := hps p hp d hd
    · omega
    · unfold Clear at hclear
      omega
  · refine put_of_notMem fun hin => ha d hd ?_
    rw [hlen, mem_extent] at hin
    rw [mem_extent]
    omega

end Cop.Theory
