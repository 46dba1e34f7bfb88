import Cop.Theory.Exec
import Mathlib.Algebra.BigOperators.Group.List.Basic
import Mathlib.Algebra.GroupWithZero.Nat
import Mathlib.Data.Finset.Card
import Mathlib.Order.Interval.Finset.Nat

/-!
# Memory from `malloc`

The regions that were taken and not given back yet are a list, the newest first. The
environment chooses where a new region is: anywhere in the address space, apart from all
regions that are taken. Giving back what is not taken is a fault.

## What is proved

* `malloc_ok`, `free_ok`, `free_of_mem` — what the two calls do.
* `Ledger.malloc`, `Ledger.free` — regions that are taken stay apart.
* `Ledger.sum_len_lt` — together they are smaller than the address space.
-/

namespace Cop.Theory

universe u

/-- A region of memory. -/
structure Region where
  /-- Where it starts. -/
  addr : ℕ
  /-- How long it is. -/
  len : ℕ
  deriving DecidableEq

/-- The regions are not the same, and have no address in common. -/
def Region.Apart (r q : Region) : Prop := r.addr ≠ q.addr ∧ (r.addr + r.len ≤ q.addr ∨ q.addr + q.len ≤ r.addr)

instance (r q : Region) : Decidable (r.Apart q) := inferInstanceAs (Decidable (_ ∧ _))

/-- A region that may be taken next, among addresses below `N`; address 0 is null. -/
def Fresh (N : ℕ) (L : List Region) (r : Region) : Prop :=
  (0 < r.addr ∧ r.addr + r.len < N) ∧ ∀ q ∈ L, r.Apart q

instance (N : ℕ) (L : List Region) (r : Region) : Decidable (Fresh N L r) := inferInstanceAs (Decidable (_ ∧ _))

variable {ε : Type u} {N : ℕ} {L : List Region}

/-- `malloc(n)`, where the environment answers with a null pointer or an address. -/
def malloc (N : ℕ) (L : List Region) (n : ℕ) : Option ℕ → Exec ε (Option ℕ × List Region)
  | none => .ok (none, L)
  | some a => (assume (Fresh N L ⟨a, n⟩)).map fun _ => (some a, ⟨a, n⟩ :: L)

/-- `free(a)`, with the fault `e` when nothing is taken at `a`. -/
def free (e : ε) (L : List Region) (a : ℕ) : Exec ε (List Region) :=
  (check e (a ∈ L.map Region.addr)).map fun _ => L.filter fun r => r.addr ≠ a

theorem malloc_some {n a : ℕ} (h : Fresh N L ⟨a, n⟩) :
    malloc (ε := ε) N L n (some a) = .ok (some a, ⟨a, n⟩ :: L) := by
  rw [malloc, assume_pos h]
  rfl

/-- A place that may not be taken is no answer. -/
theorem malloc_env {n a : ℕ} (h : ¬ Fresh N L ⟨a, n⟩) : malloc (ε := ε) N L n (some a) = .error .env := by
  rw [malloc, assume, if_neg h]
  rfl

theorem malloc_ok {n : ℕ} {env p : Option ℕ} {L' : List Region} (h : malloc (ε := ε) N L n env = .ok (p, L')) :
    p = env ∧ (env = none ∧ L' = L ∨ ∃ a, env = some a ∧ Fresh N L ⟨a, n⟩ ∧ L' = ⟨a, n⟩ :: L) := by
  cases env with
  | none =>
    cases h
    exact ⟨rfl, .inl ⟨rfl, rfl⟩⟩
  | some a =>
    by_cases hf : Fresh N L ⟨a, n⟩
    · rw [malloc_some hf] at h
      cases h
      exact ⟨rfl, .inr ⟨a, rfl, hf, rfl⟩⟩
    · rw [malloc_env hf] at h
      cases h

theorem free_ok {e : ε} {a : ℕ} {L' : List Region} (h : free e L a = .ok L') :
    a ∈ L.map Region.addr ∧ L' = L.filter fun r => r.addr ≠ a := by
  by_cases hm : a ∈ L.map Region.addr
  · rw [free, check_pos hm] at h
    cases h
    exact ⟨hm, rfl⟩
  · rw [free, check, if_neg hm] at h
    cases h

theorem free_of_mem (e : ε) {a : ℕ} (h : a ∈ L.map Region.addr) :
    free e L a = .ok (L.filter fun r => r.addr ≠ a) := by
  rw [free, check_pos h]
  rfl

/-- What the regions that are taken have in common. -/
structure Ledger (N : ℕ) (L : List Region) : Prop where
  /-- They are apart. -/
  apart : L.Pairwise Region.Apart
  /-- They are within the address space. -/
  within : ∀ r ∈ L, 0 < r.addr ∧ r.addr + r.len < N

theorem Ledger.nil (N : ℕ) : Ledger N [] := ⟨List.Pairwise.nil, fun r hr => by cases hr⟩

theorem Ledger.malloc (h : Ledger N L) {r : Region} (hr : Fresh N L r) : Ledger N (r :: L) := by
  refine ⟨List.Pairwise.cons hr.2 h.apart, ?_⟩
  intro q hq
  rcases List.mem_cons.1 hq with rfl | hq
  · exact hr.1
  · exact h.within q hq

theorem Ledger.sublist (h : Ledger N L) {L' : List Region} (hsub : L'.Sublist L) : Ledger N L' :=
  ⟨h.apart.sublist hsub, fun r hr => h.within r (hsub.subset hr)⟩

theorem Ledger.nodup (h : Ledger N L) : (L.map Region.addr).Nodup :=
  List.pairwise_map.2 (h.apart.imp fun hrq => hrq.1)

/-- The addresses of the regions. -/
def cover (L : List Region) : Finset ℕ := L.foldr (fun r s => Finset.Ico r.addr (r.addr + r.len) ∪ s) ∅

theorem mem_cover {x : ℕ} : x ∈ cover L ↔ ∃ r ∈ L, r.addr ≤ x ∧ x < r.addr + r.len := by
  induction L with
  | nil => simp [cover]
  | cons r L ih =>
    rw [cover, List.foldr_cons, ← cover, Finset.mem_union, ih, Finset.mem_Ico]
    simp

/-- There are as many addresses as the regions are long. -/
theorem card_cover (h : L.Pairwise Region.Apart) : (cover L).card = (L.map Region.len).sum := by
  induction L with
  | nil => rfl
  | cons r L ih =>
    obtain ⟨hr, hL⟩ := List.pairwise_cons.1 h
    have hdisj : Disjoint (Finset.Ico r.addr (r.addr + r.len)) (cover L) := by
      rw [Finset.disjoint_left]
      intro x hx hx'
      obtain ⟨q, hq, hle, hlt⟩ := mem_cover.1 hx'
      have hin := Finset.mem_Ico.1 hx
      have hapart := (hr q hq).2
      omega
    rw [cover, List.foldr_cons, ← cover, Finset.card_union_of_disjoint hdisj, ih hL, Nat.card_Ico]
    simp

/-- **Regions that are taken are together smaller than the address space.** -/
theorem Ledger.sum_len_lt (h : Ledger N L) (hN : 0 < N) : (L.map Region.len).sum < N := by
  rw [← card_cover h.apart]
  have hsub : cover L ⊆ Finset.Ico 1 N := by
    intro x hx
    obtain ⟨r, hr, hle, hlt⟩ := mem_cover.1 hx
    have hin := h.within r hr
    exact Finset.mem_Ico.2 ⟨by omega, by omega⟩
  have hcard := Finset.card_le_card hsub
  rw [Nat.card_Ico] at hcard
  omega

end Cop.Theory
