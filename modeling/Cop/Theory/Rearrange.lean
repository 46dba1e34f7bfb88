import Mathlib.Data.List.Nodup
import Mathlib.Data.List.Perm.Basic
import Mathlib.Data.Nat.Basic
import Mathlib.Logic.Equiv.Basic
import Mathlib.Order.Interval.Set.Defs

/-!
# Rearranging the values of a map

A memory is a map from places to values. `Rearranged S f g` says that `g` is `f` with
the values at the places of `S` exchanged among these places, and so that no other
place has changed. An algorithm that moves the values about one at a time keeps one of
them in a local variable meanwhile, and has a *hole* in the memory: a place whose value
is a copy of another one. It has lost nothing if the memory would be rearranged with
the hole filled.

## What is proved

* `Rearranged.swap`, `Rearranged.moveHole` — exchanging two values, and moving the hole.
* `Rearranged.perm` — the values of a list of places are permuted.
* `Rearranged.forall_mem` — what held of all of them still does.
* `Rearranged.window_perm` — the same for the values of consecutive places.
-/

namespace Cop.Theory

universe u v

variable {ι : Type u} {α : Type v} {S T : Set ι} {f g h : ι → α}

/-- `g` is `f` with the values at the places of `S` rearranged. -/
def Rearranged (S : Set ι) (f g : ι → α) : Prop := ∃ σ : Equiv.Perm ι, (∀ a, a ∉ S → σ a = a) ∧ g = f ∘ σ

namespace Rearranged

theorem refl (S : Set ι) (f : ι → α) : Rearranged S f f := ⟨Equiv.refl ι, fun _ _ => rfl, rfl⟩

theorem trans (hfg : Rearranged S f g) (hgh : Rearranged S g h) : Rearranged S f h := by
  obtain ⟨σ, hσ, rfl⟩ := hfg
  obtain ⟨τ, hτ, rfl⟩ := hgh
  refine ⟨τ.trans σ, fun a ha => ?_, rfl⟩
  rw [Equiv.trans_apply, hτ a ha, hσ a ha]

theorem mono (hST : S ⊆ T) (hfg : Rearranged S f g) : Rearranged T f g := by
  obtain ⟨σ, hσ, hg⟩ := hfg
  exact ⟨σ, fun a ha => hσ a fun haS => ha (hST haS), hg⟩

theorem frame (hfg : Rearranged S f g) {a : ι} (ha : a ∉ S) : g a = f a := by
  obtain ⟨σ, hσ, rfl⟩ := hfg
  rw [Function.comp_apply, hσ a ha]

/-- A permutation that leaves all other places alone takes no place of `S` outside. -/
theorem mem_of_mem {σ : Equiv.Perm ι} (hσ : ∀ a, a ∉ S → σ a = a) {a : ι} (ha : a ∈ S) : σ a ∈ S := by
  by_contra hout
  exact hout (by rwa [σ.injective (hσ _ hout)])

/-- What held of all values at the places of `S` still does. -/
theorem forall_mem (hfg : Rearranged S f g) {P : α → Prop} (hf : ∀ a ∈ S, P (f a)) : ∀ a ∈ S, P (g a) := by
  obtain ⟨σ, hσ, rfl⟩ := hfg
  exact fun a ha => hf (σ a) (mem_of_mem hσ ha)

/-- The values of a list of all places of `S` are permuted. -/
theorem perm (hfg : Rearranged S f g) {l : List ι} (hl : l.Nodup) (hS : ∀ a, a ∈ l ↔ a ∈ S) :
    (l.map g).Perm (l.map f) := by
  obtain ⟨σ, hσ, rfl⟩ := hfg
  rw [← List.map_map]
  apply List.Perm.map
  refine (List.subperm_of_subset (hl.map σ.injective) ?_).perm_of_length_le (by rw [List.length_map])
  intro b hb
  obtain ⟨a, ha, rfl⟩ := List.mem_map.1 hb
  exact (hS _).2 (mem_of_mem hσ ((hS a).1 ha))

section Hole

variable [DecidableEq ι] {a b : ι} {x : α}

theorem swap (ha : a ∈ S) (hb : b ∈ S) : Rearranged S f (Function.update (Function.update f b (f a)) a (f b)) := by
  refine ⟨Equiv.swap a b, fun c hc => ?_, (Equiv.comp_swap_eq_update a b f).symm⟩
  exact Equiv.swap_apply_of_ne_of_ne (fun h => hc (h ▸ ha)) fun h => hc (h ▸ hb)

/-- At first the hole is where the local variable was read. -/
theorem fill (S : Set ι) (f : ι → α) (a : ι) : Rearranged S f (Function.update f a (f a)) := by
  rw [Function.update_eq_self]
  exact refl S f

theorem moveHole (hfg : Rearranged S f (Function.update g a x)) (ha : a ∈ S) (hb : b ∈ S) :
    Rearranged S f (Function.update (Function.update g a (g b)) b x) := by
  have hswap := (hfg.trans (swap hb ha) : Rearranged S f _)
  rcases eq_or_ne b a with rfl | hba
  · simpa only [Function.update_self, Function.update_idem] using hswap
  · rwa [Function.update_self, Function.update_of_ne hba, Function.update_idem] at hswap

/-- Two values beside the hole are exchanged. -/
theorem swapBeside {c : ι} (hfg : Rearranged S f (Function.update g c x)) (ha : a ∈ S) (hb : b ∈ S)
    (hac : a ≠ c) (hbc : b ≠ c) :
    Rearranged S f (Function.update (Function.update (Function.update g b (g a)) a (g b)) c x) := by
  have hswap := hfg.trans (swap ha hb)
  rwa [Function.update_of_ne hac, Function.update_of_ne hbc, Function.update_comm hbc.symm,
    Function.update_comm hac.symm] at hswap

end Hole

end Rearranged

/-! ### Consecutive places -/

/-- The values at the `n` places from `p` on. -/
def window (f : ℕ → α) (p n : ℕ) : List α := (List.range n).map fun i => f (p + i)

section Window

variable {f g : ℕ → α}

@[simp] theorem length_window (f : ℕ → α) (p n : ℕ) : (window f p n).length = n := by simp [window]

@[simp] theorem getElem_window (f : ℕ → α) (p n : ℕ) {i : ℕ} (h : i < (window f p n).length) :
    (window f p n)[i] = f (p + i) := by
  simp [window]

@[simp] theorem window_zero (f : ℕ → α) (p : ℕ) : window f p 0 = [] := rfl

theorem window_succ (f : ℕ → α) (p n : ℕ) : window f p (n + 1) = window f p n ++ [f (p + n)] := by
  simp [window, List.range_succ]

theorem window_append (f : ℕ → α) (p m n : ℕ) : window f p (m + n) = window f p m ++ window f (p + m) n := by
  simp [window, List.range_add, Nat.add_assoc]

theorem window_cons (f : ℕ → α) (p n : ℕ) : window f p (n + 1) = f p :: window f (p + 1) n := by
  rw [Nat.add_comm, window_append]
  rfl

/-- Writing behind the last value. -/
theorem window_update_succ (f : ℕ → α) (p n : ℕ) (x : α) :
    window (Function.update f (p + n) x) p (n + 1) = window f p n ++ [x] := by
  rw [window_succ, Function.update_self]
  congr 1
  refine List.map_congr_left fun i hi => Function.update_of_ne ?_ _ _
  have hlt := List.mem_range.1 hi
  omega

theorem window_congr {p q n : ℕ} (h : ∀ i, i < n → f (p + i) = g (q + i)) : window f p n = window g q n :=
  List.map_congr_left fun i hi => h i (List.mem_range.1 hi)

theorem window_inj {p q n : ℕ} (h : window f p n = window g q n) (i : ℕ) (hi : i < n) : f (p + i) = g (q + i) :=
  List.map_inj_left.1 h i (List.mem_range.2 hi)

/-- The values at consecutive places are permuted. -/
theorem Rearranged.window_perm {p n : ℕ} (hfg : Rearranged (Set.Ico p (p + n)) f g) :
    (window g p n).Perm (window f p n) := by
  have hmap : ∀ f : ℕ → α, window f p n = ((List.range n).map (p + ·)).map f := by
    intro f
    rw [List.map_map]
    rfl
  rw [hmap f, hmap g]
  refine hfg.perm (List.nodup_range.map fun i j hij => Nat.add_left_cancel hij) fun a => ?_
  simp only [List.mem_map, List.mem_range, Set.mem_Ico]
  constructor
  · intro ⟨i, hi, hia⟩
    omega
  · intro ⟨hpa, han⟩
    exact ⟨a - p, by omega, by omega⟩

end Window

end Cop.Theory
