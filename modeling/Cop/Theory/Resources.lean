import Cop.Theory.Contract
import Cop.Theory.Ledger

/-!
# Resources of a system

Handles are taken from a system and given back. Which handle is given the environment chooses, among
those that are not taken; giving back what is not taken is a fault. An object owns the
handles that it was set up with.

`Gives Q x` is a triple: `x` has a result, which meets `Q`, unless the environment was said to do what
it cannot do.

## What is proved

* `gives_bind`, `gives_check_bind`, `gives_assume_bind` — the rules of sequence.
* `gives_take`, `gives_malloc`, `free_cons` — what the calls do.
* `gives_run` — refinement over runs, where the environment may stop a run.
* `Owned.push`, `Owned.erase` — what is taken is what the objects own, if a new object owns what was taken for
  it, and an object that is closed gives back what it owns.
-/

namespace Cop.Theory

universe u v w

variable {ε : Type u}

/-! ### Triples -/

section Gives

variable {α β : Type v}

/-- A result that meets `Q`, unless the environment was said to do what it cannot do. -/
def Gives (Q : α → Prop) : Exec ε α → Prop
  | .ok a => Q a
  | .error .env => True
  | .error _ => False

/-- **The rule of sequence.** -/
theorem gives_bind {Q : α → Prop} {R : β → Prop} {x : Exec ε α} {f : α → Exec ε β} (hx : Gives Q x)
    (hf : ∀ a, Q a → Gives R (f a)) : Gives R (x >>= f) := by
  cases x with
  | ok a => exact hf a hx
  | error e =>
    cases e with
    | env => trivial
    | fuel => exact hx
    | fault e => exact hx

theorem Gives.mono {Q R : α → Prop} {x : Exec ε α} (hx : Gives Q x) (h : ∀ a, Q a → R a) : Gives R x := by
  cases x with
  | ok a => exact h a hx
  | error e =>
    cases e with
    | env => trivial
    | fuel => exact hx
    | fault e => exact hx

theorem gives_check_bind {β : Type} {R : β → Prop} {e : ε} {p : Prop} [Decidable p] (h : p) {f : Unit → Exec ε β}
    (hf : Gives R (f ())) : Gives R (check e p >>= f) := by
  rw [check_pos h]
  exact hf

/-- What the environment may do. -/
theorem gives_assume_bind {β : Type} {R : β → Prop} {p : Prop} [Decidable p] {f : Unit → Exec ε β}
    (hf : p → Gives R (f ())) : Gives R (assume p >>= f) := by
  unfold assume
  split
  · rename_i h
    exact hf h
  · trivial

end Gives

/-- **Refinement over runs.** `R` relates abstract and concrete states; every legal call keeps it, and is answered as
the contract allows, unless the environment was said to do what it cannot do. -/
theorem gives_run {σ ι ο : Type v} {Δ : Type w} {C : Contract Δ ι ο} {step : σ → ι → Exec ε (ο × σ)}
    {R : Δ → σ → Prop} (hstep : ∀ D s c, R D s → C.Legal D c →
      Gives (fun x : ο × σ => C.Allows D c x.1 ∧ R (C.next D c) x.2) (step s c))
    {cs : List ι} {D : Δ} {s : σ} (hR : R D s) (hlegal : C.LegalRun D cs) :
    Gives (fun x : List ο × σ => C.AllowsRun D cs x.1 ∧ R (C.nextRun D cs) x.2) (run step s cs) := by
  induction cs generalizing D s with
  | nil => exact ⟨rfl, hR⟩
  | cons c cs ih =>
    obtain ⟨hc, hcs⟩ := hlegal
    refine gives_bind (hstep D s c hR hc) ?_
    rintro ⟨o, t⟩ ⟨ho, hRt⟩
    refine gives_bind (ih hRt hcs) ?_
    rintro ⟨os, u⟩ ⟨hos, hRu⟩
    exact ⟨⟨o, os, rfl, ho, hos⟩, hRu⟩


/-! ### Handles -/

section Handles

variable {ρ : Type v} [DecidableEq ρ] {L : List ρ}

/-- Take a handle that the environment chooses, if it chooses one. -/
def take (L : List ρ) : Option ρ → Exec ε (Option ρ × List ρ)
  | none => .ok (none, L)
  | some h => (assume (h ∉ L)).map fun _ => (some h, h :: L)

/-- Give a handle back, with the fault `e` when it is not taken. -/
def giveBack (e : ε) (L : List ρ) (h : ρ) : Exec ε (List ρ) := (check e (h ∈ L)).map fun _ => L.erase h

theorem take_some {h : ρ} (hh : h ∉ L) : take (ε := ε) L (some h) = .ok (some h, h :: L) := by
  rw [take, assume_pos hh]
  rfl

/-- A handle that is taken is no answer. -/
theorem take_env {h : ρ} (hh : h ∈ L) : take (ε := ε) L (some h) = .error .env := by
  rw [take, assume, if_neg (not_not.2 hh)]
  rfl

theorem gives_take (L : List ρ) (env : Option ρ) :
    Gives (fun x : Option ρ × List ρ => x.1 = env ∧ match env with
      | none => x.2 = L
      | some h => h ∉ L ∧ x.2 = h :: L) (take L env : Exec ε _) := by
  cases env with
  | none => exact ⟨rfl, rfl⟩
  | some h =>
    by_cases hh : h ∈ L
    · rw [take_env hh]
      trivial
    · rw [take_some hh]
      exact ⟨rfl, hh, rfl⟩

end Handles

/-! ### Memory -/

section Memory

variable {N : ℕ} {L : List Region}

theorem gives_malloc (n : ℕ) (env : Option ℕ) :
    Gives (fun x : Option ℕ × List Region => x.1 = env ∧ match env with
      | none => x.2 = L
      | some a => Fresh N L ⟨a, n⟩ ∧ x.2 = ⟨a, n⟩ :: L) (malloc N L n env : Exec ε _) := by
  cases env with
  | none => exact ⟨rfl, rfl⟩
  | some a =>
    by_cases hf : Fresh N L ⟨a, n⟩
    · rw [malloc_some hf]
      exact ⟨rfl, hf, rfl⟩
    · rw [malloc_env hf]
      trivial

/-- The region that was taken last is given back. -/
theorem free_cons (e : ε) {r : Region} (hr : Fresh N L r) : free e (r :: L) r.addr = .ok L := by
  rw [free_of_mem e (by simp), List.filter_cons_of_neg (by simp), List.filter_eq_self.2]
  intro q hq
  have := (hr.2 q hq).1
  simp [Ne.symm this]

/-- What is taken at an address is one region. -/
theorem Ledger.filter_addr (h : Ledger N L) {r : Region} (hr : r ∈ L) :
    (L.filter fun q => q.addr ≠ r.addr) = L.erase r := by
  have hnodup : L.Nodup := h.nodup.of_map
  rw [hnodup.erase_eq_filter]
  refine List.filter_congr fun q hq => ?_
  by_cases heq : q = r
  · simp [heq]
  · have haddr : q.addr ≠ r.addr := fun haddr => heq (List.inj_on_of_nodup_map h.nodup hq hr haddr)
    simp [heq, haddr]

end Memory

/-! ### Objects -/

section Owned

variable {ι : Type v} {ρ : Type w} {held : List ι} {res : ι → List ρ} {rest L : List ρ}

/-- What is taken is what the objects own, and the rest. -/
def Owned (held : List ι) (res : ι → List ρ) (rest L : List ρ) : Prop := L.Perm (held.flatMap res ++ rest)

theorem owned_nil (res : ι → List ρ) (L : List ρ) : Owned [] res L L := List.Perm.refl L

variable [DecidableEq ι]

/-- What an object that is not open owns does not matter. -/
theorem Owned.update (h : Owned held res rest L) {i : ι} (hi : i ∉ held) (rs : List ρ) :
    Owned held (Function.update res i rs) rest L := by
  have hsame : held.flatMap (Function.update res i rs) = held.flatMap res := by
    refine List.flatMap_congr fun j hj => ?_
    rw [Function.update_of_ne]
    rintro rfl
    exact hi hj
  rwa [Owned, hsame]

/-- A new object owns what was taken for it. -/
theorem Owned.push (h : Owned held res rest L) {i : ι} (hi : i ∉ held) (rs : List ρ) :
    Owned (i :: held) (Function.update res i rs) rest (rs ++ L) := by
  have hold := h.update hi rs
  rw [Owned] at hold ⊢
  rw [List.flatMap_cons, Function.update_self, List.append_assoc]
  exact hold.append_left rs

/-- What an object owns is taken. -/
theorem Owned.perm (h : Owned held res rest L) {i : ι} (hi : i ∈ held) :
    L.Perm (res i ++ ((held.erase i).flatMap res ++ rest)) := by
  rw [← List.append_assoc, ← List.flatMap_cons]
  exact h.trans (((List.perm_cons_erase hi).flatMap_right res).append_right rest)

theorem Owned.mem (h : Owned held res rest L) {i : ι} (hi : i ∈ held) {r : ρ} (hr : r ∈ res i) : r ∈ L :=
  (h.perm hi).mem_iff.2 (List.mem_append_left _ hr)

/-- What two objects own is related as all is that is taken. -/
theorem Owned.rel (h : Owned held res rest L) {R : ρ → ρ → Prop} [Std.Symm R] (hL : L.Pairwise R) {i j : ι}
    (hi : i ∈ held) (hj : j ∈ held) (hij : j ≠ i) {r q : ρ} (hr : r ∈ res i) (hq : q ∈ res j) : R r q := by
  have hpair := ((h.perm hi).pairwise_iff fun hab => Std.Symm.symm _ _ hab).1 hL
  refine (List.pairwise_append.1 hpair).2.2 r hr q (List.mem_append_left _ ?_)
  exact List.mem_flatMap.2 ⟨j, (List.mem_erase_of_ne hij).2 hj, hq⟩

variable [DecidableEq ρ]

/-- An object that owns one thing gives it back. -/
theorem Owned.erase (h : Owned held res rest L) {i : ι} (hi : i ∈ held) {r : ρ} (hr : res i = [r]) :
    Owned (held.erase i) res rest (L.erase r) := by
  have hperm := (h.perm hi).erase r
  rwa [hr, List.singleton_append, List.erase_cons_head] at hperm

/-- An object that owns two things gives them back. -/
theorem Owned.erase_two (h : Owned held res rest L) {i : ι} (hi : i ∈ held) {r q : ρ} (hr : res i = [r, q]) :
    q ∈ L.erase r ∧ Owned (held.erase i) res rest ((L.erase r).erase q) := by
  have hperm := (h.perm hi).erase r
  rw [hr, List.cons_append, List.singleton_append, List.erase_cons_head] at hperm
  refine ⟨hperm.mem_iff.2 List.mem_cons_self, ?_⟩
  have hperm' := hperm.erase q
  rwa [List.erase_cons_head] at hperm'

end Owned

end Cop.Theory
