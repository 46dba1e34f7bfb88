import Cop.Theory.DigitTree

/-!
# Trees of linked nodes

A program keeps a tree as nodes that point to their children, and a variable that
points to the root. It moves through the tree with a pointer to the *slot* it may
have to write: the variable, or one child pointer of a node. This module says when
the nodes below a pointer form a given tree, and what a program that writes only
below a slot has done to the tree the slot is in.

## The model

* `Links R P k` — root variables `R` and nodes `P` with `k` child pointers each;
  `Slot` — a place a pointer is kept.
* `Represents L q t` — the nodes below `q` form the tree `t`.
* `SameOutside L L' ℓ t` — from `L` to `L'` only the slot `ℓ` and child pointers of
  items of `t` were written.
* `Rotated` — a node and one of its children have changed places.

## What is proved

* `Represents.slotAt` and `Represents.replace` — a program may work on a subtree as if it were
  the whole tree: what it makes of the subtree takes its place in the tree.
* `Rotated.rep` and `Rotated.pulled` — removing a root by turning it down the tree.
-/

namespace Cop.Theory

universe u v

/-- Where pointers to nodes are kept: root variables, and child pointers of nodes. -/
structure Links (R : Type u) (P : Type v) (k : ℕ) where
  /-- The root variables. -/
  root : R → Option P
  /-- The child pointers. -/
  kid : P → Fin k → Option P

/-- A place where a pointer is kept. -/
inductive Slot (R : Type u) (P : Type v) (k : ℕ) where
  /-- A root variable. -/
  | root (r : R)
  /-- Child `i` of node `p`. -/
  | kid (p : P) (i : Fin k)
  deriving DecidableEq

variable {R : Type u} {P : Type v} {k : ℕ}

/-- What a slot holds. -/
def Links.get (L : Links R P k) : Slot R P k → Option P
  | .root r => L.root r
  | .kid p i => L.kid p i

@[simp] theorem Links.get_kid (L : Links R P k) (p : P) (i : Fin k) : L.get (.kid p i) = L.kid p i := rfl

/-- The nodes below pointer `q` form the tree `t`. -/
def Represents (L : Links R P k) : Option P → DigitTree k P → Prop
  | q, .nil => q = none
  | q, .node p s => q = some p ∧ ∀ i, Represents L (L.kid p i) (s i)

/-- The slot is not a child pointer of an item of the tree. -/
def Slot.Outside (t : DigitTree k P) : Slot R P k → Prop
  | .root _ => True
  | .kid p _ => p ∉ t

/-- Only the slot `ℓ` and child pointers of items of `t` differ. -/
def SameOutside (L L' : Links R P k) (ℓ : Slot R P k) (t : DigitTree k P) : Prop :=
  ∀ ℓ' : Slot R P k, ℓ' ≠ ℓ → ℓ'.Outside t → L'.get ℓ' = L.get ℓ'

namespace Represents

open DigitTree

variable {L L' : Links R P k} {q : Option P} {t : DigitTree k P}

theorem root?_eq (h : Represents L q t) : t.root? = q := by
  cases t with
  | nil => exact Eq.symm h
  | node p s => exact h.1.symm

/-- The pointer determines the tree. -/
theorem unique {t' : DigitTree k P} (h : Represents L q t) (h' : Represents L q t') : t = t' := by
  induction t generalizing q t' with
  | nil =>
    obtain rfl : q = none := h
    cases t' with
    | nil => rfl
    | node p s => simp [Represents] at h'
  | node p s ih =>
    obtain ⟨rfl, hs⟩ := h
    cases t' with
    | nil => simp [Represents] at h'
    | node p' s' =>
      obtain ⟨hp, hs'⟩ := h'
      obtain rfl : p = p' := Option.some.inj hp
      rw [funext fun i => ih i (hs i) (hs' i)]

/-- **Frame**: a tree is where it was when the child pointers of its items are. -/
theorem frame (h : Represents L q t) (hsame : ∀ p ∈ t, ∀ i, L'.kid p i = L.kid p i) : Represents L' q t := by
  induction t generalizing q with
  | nil => exact h
  | node p s ih =>
    refine ⟨h.1, fun i => ?_⟩
    rw [hsame p (mem_node.2 (.inl rfl)) i]
    exact ih i (h.2 i) fun p' hp' => hsame p' (mem_node.2 (.inr ⟨i, hp'⟩))

end Represents

/-- The slot that points to a tree is not inside it: its node would be below itself. -/
theorem Represents.outside {L : Links R P k} {ℓ : Slot R P k} {t : DigitTree k P} (h : Represents L (L.get ℓ) t) :
    ℓ.Outside t := by
  -- below an item of `t` stand trees of smaller height than `t`
  have hsmall : ∀ {u : DigitTree k P} {q : Option P}, Represents L q u → ∀ p ∈ u, ∀ i,
      ∃ v, Represents L (L.kid p i) v ∧ v.height < u.height := by
    intro u
    induction u with
    | nil => exact fun _ p hp => absurd hp (DigitTree.not_mem_nil p)
    | node a s ih =>
      intro q hq p hp i
      rcases DigitTree.mem_node.1 hp with rfl | ⟨j, hj⟩
      · exact ⟨s i, hq.2 i, DigitTree.height_kid_lt p s i⟩
      · obtain ⟨v, hv, hlt⟩ := ih j (hq.2 j) p hj i
        exact ⟨v, hv, hlt.trans (DigitTree.height_kid_lt a s j)⟩
  cases ℓ with
  | root r => trivial
  | kid p i =>
    intro hp
    obtain ⟨v, hv, hlt⟩ := hsmall h p hp i
    rw [hv.unique h] at hlt
    exact absurd hlt (lt_irrefl _)

/-- The slot at the end of a path from slot `ℓ` down the tree `t`. -/
def slotAt : Slot R P k → List (Fin k) → DigitTree k P → Slot R P k
  | ℓ, [], _ => ℓ
  | ℓ, _ :: _, .nil => ℓ
  | _, i :: π, .node p s => slotAt (.kid p i) π (s i)

open DigitTree

theorem slotAt_mem (ℓ : Slot R P k) (t : DigitTree k P) (π : List (Fin k)) :
    slotAt ℓ π t = ℓ ∨ ∃ p ∈ t, ∃ i, slotAt ℓ π t = .kid p i := by
  induction π generalizing ℓ t with
  | nil => exact .inl rfl
  | cons i π ih =>
    cases t with
    | nil => exact .inl rfl
    | node p s =>
      rcases ih (.kid p i) (s i) with h | ⟨p', hp', j, h⟩
      · exact .inr ⟨p, mem_node.2 (.inl rfl), i, h⟩
      · exact .inr ⟨p', mem_node.2 (.inr ⟨i, hp'⟩), j, h⟩

theorem Slot.Outside.mono {t t' : DigitTree k P} {ℓ : Slot R P k} (h : ℓ.Outside t)
    (hsub : ∀ p ∈ t', p ∈ t) : ℓ.Outside t' := by
  cases ℓ with
  | root r => trivial
  | kid p i => exact fun hp => h (hsub p hp)

/-- An outer slot is not the end of a path into the tree. -/
theorem Slot.Outside.ne_slotAt {ℓ ℓ' : Slot R P k} {t : DigitTree k P} (h : ℓ'.Outside t) (hne : ℓ' ≠ ℓ)
    (π : List (Fin k)) : ℓ' ≠ slotAt ℓ π t := by
  rintro rfl
  rcases slotAt_mem ℓ t π with he | ⟨p, hp, i, he⟩
  · exact hne he
  · rw [he] at h
    exact h hp

/-- The slot at the end of a path is outside the subtree below it. -/
theorem slotAt_outside {ℓ : Slot R P k} {t : DigitTree k P} (ho : t.Once) (hout : ℓ.Outside t)
    (π : List (Fin k)) : (slotAt ℓ π t).Outside (sub π t) := by
  induction π generalizing ℓ t with
  | nil => exact hout
  | cons i π ih =>
    cases t with
    | nil => exact hout
    | node p s =>
      have hin : Slot.Outside (s i) (.kid p i : Slot R P k) := ho.1 i
      exact ih (ho.2.2 i) hin

theorem Represents.slotAt {L : Links R P k} {ℓ : Slot R P k} {t : DigitTree k P} {π : List (Fin k)}
    (h : Represents L (L.get ℓ) t) (hr : Reaches π t) : Represents L (L.get (slotAt ℓ π t)) (sub π t) := by
  induction π generalizing ℓ t with
  | nil => exact h
  | cons i π ih =>
    cases t with
    | nil => exact hr.elim
    | node p s =>
      have hi : Represents L (L.get (.kid p i)) (s i) := h.2 i
      exact ih hi hr

/-- Work below the end of a path is work below its start. -/
theorem SameOutside.of_slotAt {L L' : Links R P k} {ℓ : Slot R P k} {t : DigitTree k P} {π : List (Fin k)}
    (h : SameOutside L L' (Theory.slotAt ℓ π t) (sub π t)) : SameOutside L L' ℓ t :=
  fun ℓ' hne hout => h ℓ' (hout.ne_slotAt hne π) (hout.mono fun _ => sub_mem)

/-- **Local work**: whoever turns the subtree at the end of a path into `u`, writing
nothing else, has replaced the subtree by `u` in the whole tree. -/
theorem Represents.replace {L L' : Links R P k} {ℓ : Slot R P k} {t u : DigitTree k P} {π : List (Fin k)}
    (h : Represents L (L.get ℓ) t) (ho : t.Once) (hout : ℓ.Outside t) (hr : Reaches π t)
    (hu : Represents L' (L'.get (Theory.slotAt ℓ π t)) u)
    (hsame : SameOutside L L' (Theory.slotAt ℓ π t) (sub π t)) :
    Represents L' (L'.get ℓ) (DigitTree.replace u π t) := by
  induction π generalizing ℓ t with
  | nil => exact hu
  | cons i π ih =>
    cases t with
    | nil => exact hr.elim
    | node p s =>
      have hin : Slot.Outside (s i) (.kid p i : Slot R P k) := ho.1 i
      have hkid : ∀ (p' : P) (j : Fin k), (p' = p → j ≠ i) → p' ∉ s i → L'.kid p' j = L.kid p' j :=
        fun p' j hne hp' => by
          have hslot : Slot.Outside (s i) (.kid p' j : Slot R P k) := hp'
          refine hsame (.kid p' j) (hslot.ne_slotAt (fun he => ?_) π) (hslot.mono fun _ => sub_mem (t := s i))
          cases he
          exact hne rfl rfl
      refine ⟨?_, fun j => ?_⟩
      · -- the outer slot still points to `p`
        have hne : ℓ ≠ Theory.slotAt (.kid p i) π (s i) := by
          refine (hout.mono fun b hb => mem_node.2 (.inr ⟨i, hb⟩)).ne_slotAt ?_ π
          rintro rfl
          exact hout (mem_node.2 (.inl rfl))
        rw [hsame ℓ hne (hout.mono fun b hb => sub_mem hb)]
        exact h.1
      · by_cases hji : j = i
        · subst hji
          rw [Function.update_self]
          have hj : Represents L (L.get (.kid p j)) (s j) := h.2 j
          exact ih hj (ho.2.2 j) hin hr hu hsame
        · rw [Function.update_of_ne hji, hkid p j (fun _ => hji) (ho.1 i)]
          refine (h.2 j).frame fun p' hp' l => hkid p' l ?_ (ho.2.1 j i hji p' hp')
          rintro rfl
          exact absurd hp' (ho.1 j)

/-! ### Turning a root down the tree -/

/-- `p`, to which `ℓ` pointed, and its child `q` in place `i` have changed places. -/
structure Rotated (L L' : Links R P k) (ℓ : Slot R P k) (p q : P) (i : Fin k) : Prop where
  /-- `ℓ` points to `q`. -/
  top : L'.get ℓ = some q
  /-- `q` has the children `p` had, and `p` in place of itself. -/
  up : ∀ j, L'.kid q j = if j = i then some p else L.kid p j
  /-- `p` has the children `q` had. -/
  down : ∀ j, L'.kid p j = L.kid q j
  /-- Nothing else was written. -/
  same : ∀ ℓ' : Slot R P k, ℓ' ≠ ℓ → (∀ j, ℓ' ≠ .kid p j) → (∀ j, ℓ' ≠ .kid q j) → L'.get ℓ' = L.get ℓ'

namespace Rotated

variable {L L' L'' : Links R P k} {ℓ : Slot R P k} {p q : P} {i : Fin k} {s r : Fin k → DigitTree k P}

theorem kid_eq (h : Rotated L L' ℓ p q i) (hout : ℓ.Outside (.node p s)) {p' : P} (hs : ∃ j, p' ∈ s j)
    (hp : p' ≠ p) (hq : p' ≠ q) (l : Fin k) : L'.kid p' l = L.kid p' l := by
  refine h.same (.kid p' l) ?_ (by simp [hp]) (by simp [hq])
  rintro rfl
  exact hout (mem_node.2 (.inr hs))

/-- After the turn, `p` stands where `q` stood, above the children of `q`; the other
children are below `q`. -/
theorem rep (h : Rotated L L' ℓ p q i) (hrep : Represents L (L.get ℓ) (.node p s)) (ho : (node p s).Once)
    (hout : ℓ.Outside (.node p s)) (hi : s i = .node q r) :
    Represents L' (L'.kid q i) (.node p r) ∧ (node p r).Once ∧
      (Slot.kid q i : Slot R P k).Outside (.node p r) ∧ ∀ j, j ≠ i → Represents L' (L'.kid q j) (s j) := by
  obtain ⟨hp, hs, hk⟩ := ho
  have hqi : q ∈ s i := by simp [hi]
  have hrs : ∀ j, ∀ b ∈ r j, b ∈ s i := fun j b hb => by rw [hi]; exact mem_node.2 (.inr ⟨j, hb⟩)
  have hor : (node q r).Once := hi ▸ hk i
  have hpq : q ≠ p := fun he => hp i (he ▸ hqi)
  have hrep_i : Represents L (L.kid p i) (.node q r) := hi ▸ hrep.2 i
  refine ⟨⟨by simp [h.up], fun j => ?_⟩, ⟨fun j hpj => hp i (hrs j p hpj), hor.2.1, hor.2.2⟩, ?_, fun j hj => ?_⟩
  · rw [h.down j]
    refine (hrep_i.2 j).frame fun p' hp' l => h.kid_eq hout ⟨i, hrs j p' hp'⟩ ?_ ?_ l
    · rintro rfl
      exact hp i (hrs j p' hp')
    · rintro rfl
      exact hor.1 j hp'
  · exact fun hq => (mem_node.1 hq).elim hpq fun ⟨j, hj⟩ => hor.1 j hj
  · rw [h.up j, if_neg hj]
    refine (hrep.2 j).frame fun p' hp' l => h.kid_eq hout ⟨j, hp'⟩ ?_ ?_ l
    · rintro rfl
      exact hp j hp'
    · rintro rfl
      exact hs i j (Ne.symm hj) p' hqi hp'

/-- If then the tree below `p` becomes `u`, the whole has `q` at its root and `u` in
the place `q` came from. -/
theorem pulled (h : Rotated L L' ℓ p q i) (hrep : Represents L (L.get ℓ) (.node p s)) (ho : (node p s).Once)
    (hout : ℓ.Outside (.node p s)) (hi : s i = .node q r) {u : DigitTree k P}
    (hu : Represents L'' (L''.kid q i) u) (hsame : SameOutside L' L'' (.kid q i) (.node p r)) :
    Represents L'' (L''.get ℓ) (.node q (Function.update s i u)) ∧ SameOutside L L'' ℓ (.node p s) := by
  obtain ⟨-, hor, -, hothers⟩ := h.rep hrep ho hout hi
  obtain ⟨hp, hs, hk⟩ := ho
  have hqi : q ∈ s i := by simp [hi]
  have hrs : ∀ b ∈ node p r, b = p ∨ b ∈ s i := fun b hb =>
    (mem_node.1 hb).imp_right fun ⟨j, hj⟩ => by rw [hi]; exact mem_node.2 (.inr ⟨j, hj⟩)
  have hsub : ∀ b ∈ node p r, b ∈ node p s := fun b hb =>
    mem_node.2 ((hrs b hb).imp_right fun h => ⟨i, h⟩)
  have hq_mem : q ∈ node p s := mem_node.2 (.inr ⟨i, hqi⟩)
  have hqr : q ∉ node p r := by
    rw [hi] at hqi
    have hoi := hi ▸ hk i
    exact fun hq => (mem_node.1 hq).elim (fun he => hp i (by rw [hi]; simp [he])) fun ⟨j, hj⟩ => hoi.1 j hj
  refine ⟨⟨?_, fun j => ?_⟩, fun ℓ' hne hout' => ?_⟩
  · rw [hsame ℓ ?_ (hout.mono hsub), h.top]
    rintro rfl
    exact hout hq_mem
  · by_cases hji : j = i
    · subst hji
      rw [Function.update_self]
      exact hu
    · rw [Function.update_of_ne hji, ← L''.get_kid q j, hsame (.kid q j) (by simp [hji]) hqr]
      refine (hothers j hji).frame fun p' hp' l => hsame (.kid p' l) ?_ fun hmem => ?_
      · rintro ⟨⟩
        exact hs i j (Ne.symm hji) q hqi hp'
      · rcases hrs p' hmem with rfl | hpi
        · exact hp j hp'
        · exact hs i j (Ne.symm hji) p' hpi hp'
  · have hne' : ∀ b ∈ node p s, ∀ j, ℓ' ≠ .kid b j := by
      rintro b hb j rfl
      exact hout' hb
    rw [hsame ℓ' (hne' q hq_mem i) (hout'.mono hsub)]
    exact h.same ℓ' hne (hne' p (mem_node.2 (.inl rfl))) (hne' q hq_mem)

end Rotated

end Cop.Theory
