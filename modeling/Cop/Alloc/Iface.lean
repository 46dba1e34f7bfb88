import Cop.Platform
import Cop.Theory.Levels
import Cop.Theory.Steps
import Cop.Theory.Word

/-!
# The allocator interface

`struct cop_salloc_iface` of `cop_alloc.h`: an allocator with `alloc`, `save` and
`restore`, "a stack-like allocator". Sizes and addresses are words of `w` bits, the
width of `size_t`.

## The model

* `Salloc σ α` is the interface of an allocator with state `σ`, where `α` is what the
  environment answers to a call (`mprotect`, `malloc`).
* `Salloc.step` is a step system of calls with any arguments.
* `Client` is a caller that keeps to the discipline of the interface: alignments are zero
  or powers of two, and it restores marks that it saved, last in first out. It remembers
  the blocks it holds, with the level (what `save` would return) they were given at.

## What is proved

* `aallocAlignoffset_eq` — the offset to an alignment is the padding to the next multiple.
* `Sound.run` — for an allocator whose calls each keep an invariant, raise the level by at
  least the size of the block they return, and leave the blocks below a level where they are
  when they go back to it: in every run of a client, the blocks held are stacked below the
  level, and are where they were placed.
-/

namespace Cop.Alloc

open Theory

/-- `aalloc_alignoffset`. -/
def aallocAlignoffset (w val alignMask : ℕ) : ℕ :=
  Word.sub w (Word.add w alignMask 1) (val &&& alignMask) &&& alignMask

/-- An alignment that a caller may ask for. -/
def AlignOk (w align : ℕ) : Prop := align = 0 ∨ align.isPowerOfTwo ∧ align < 2 ^ w

instance (w align : ℕ) : Decidable (AlignOk w align) := inferInstanceAs (Decidable (_ ∨ _))

theorem dvd_two_pow {w align : ℕ} (ha : align.isPowerOfTwo) (hlt : align < 2 ^ w) : align ∣ 2 ^ w := by
  obtain ⟨k, rfl⟩ := ha
  exact Nat.pow_dvd_pow 2 ((Nat.pow_lt_pow_iff_right (by decide)).1 hlt).le

/-- The offset to an alignment is the padding to the next multiple. -/
theorem aallocAlignoffset_eq {w align : ℕ} (ha : align.isPowerOfTwo) (hlt : align < 2 ^ w) (val : ℕ) :
    aallocAlignoffset w (val % 2 ^ w) (Word.sub w align 1) = padTo align val := by
  have hdvd := dvd_two_pow ha hlt
  obtain ⟨k, rfl⟩ := ha
  have hpos : 0 < 2 ^ k := Nat.two_pow_pos k
  have hmod : val % 2 ^ k < 2 ^ k := Nat.mod_lt _ hpos
  have hmask : Word.sub w (2 ^ k) 1 = 2 ^ k - 1 := Word.sub_of_le hpos hlt
  have hnext : Word.add w (2 ^ k - 1) 1 = 2 ^ k := by
    rw [Word.add_of_lt] <;> omega
  rw [aallocAlignoffset, hmask, hnext, Nat.and_two_pow_sub_one_eq_mod, Nat.and_two_pow_sub_one_eq_mod,
    Nat.mod_mod_of_dvd _ hdvd, Word.sub_of_le hmod.le hlt, padTo]

/-- `(align == 0) ? default_align : align`. -/
def orDefault (defaultAlign align : ℕ) : ℕ := if align = 0 then defaultAlign else align

/-- A default alignment that an allocator may be set up with. -/
structure DefaultOk (w defaultAlign : ℕ) : Prop where
  /-- It is a power of two. -/
  pow : defaultAlign.isPowerOfTwo
  /-- It is a word. -/
  lt : defaultAlign < 2 ^ w

theorem DefaultOk.orDefault {w defaultAlign align : ℕ} (h : DefaultOk w defaultAlign) (ha : AlignOk w align) :
    (Alloc.orDefault defaultAlign align).isPowerOfTwo ∧ Alloc.orDefault defaultAlign align < 2 ^ w := by
  unfold Alloc.orDefault
  split
  · exact ⟨h.pow, h.lt⟩
  · rename_i hne
    rcases ha with h0 | ha
    · exact absurd h0 hne
    · exact ha

theorem DefaultOk.orDefault_pos {w defaultAlign align : ℕ} (h : DefaultOk w defaultAlign) (ha : AlignOk w align) :
    0 < Alloc.orDefault defaultAlign align := by
  obtain ⟨k, hk⟩ := (h.orDefault ha).1
  rw [hk]
  exact Nat.two_pow_pos k

/-- `struct cop_salloc_iface`. -/
structure Salloc (σ α : Type) where
  /-- `alloc(a, size, align)`: the pointer that is returned, if it is not null. -/
  alloc : σ → ℕ → ℕ → α → Exec Fault (Option ℕ × σ)
  /-- `save(a)`. -/
  save : σ → ℕ
  /-- `restore(a, s)`. -/
  restore : σ → ℕ → α → Exec Fault σ

/-- A call, and what the environment answers. -/
inductive Request (α : Type) where
  /-- `cop_salloc(iface, size, align)`. -/
  | alloc (size align : ℕ) (env : α)
  /-- `cop_salloc_save(iface)`. -/
  | save
  /-- `cop_salloc_restore(iface, s)`. -/
  | restore (s : ℕ) (env : α)

variable {σ α : Type} {w : ℕ} {A : Salloc σ α}

/-- The state a call leads to. Arguments are words. -/
def Salloc.step (A : Salloc σ α) (w : ℕ) (s : σ) : Request α → Option σ
  | .alloc size align env =>
    if size < 2 ^ w ∧ align < 2 ^ w then (A.alloc s size align env).toOption.map Prod.snd else none
  | .save => some s
  | .restore m env => if m < 2 ^ w then (A.restore s m env).toOption else none

theorem toOption_some {x : Exec Fault σ} {s : σ} (h : x.toOption = some s) : x = .ok s := by
  cases x with
  | error e => cases h
  | ok t =>
    cases h
    rfl

theorem Salloc.step_alloc {s t : σ} {size align : ℕ} {env : α} (h : A.step w s (.alloc size align env) = some t) :
    size < 2 ^ w ∧ align < 2 ^ w ∧ ∃ p, A.alloc s size align env = .ok (p, t) := by
  simp only [Salloc.step] at h
  split at h
  · rename_i hlt
    obtain ⟨⟨p, t'⟩, hok, rfl⟩ := Option.map_eq_some_iff.1 h
    exact ⟨hlt.1, hlt.2, p, toOption_some hok⟩
  · cases h

theorem Salloc.step_restore {s t : σ} {m : ℕ} {env : α} (h : A.step w s (.restore m env) = some t) :
    m < 2 ^ w ∧ A.restore s m env = .ok t := by
  simp only [Salloc.step] at h
  split at h
  · rename_i hlt
    exact ⟨hlt, toOption_some h⟩
  · cases h

/-- A block: where it is, and what was asked for. -/
structure Block where
  /-- The address. -/
  addr : ℕ
  /-- The size that was asked for. -/
  size : ℕ
  /-- The alignment that was asked for. -/
  align : ℕ

/-- No address is in both blocks. -/
def Block.Apart (a b : Block) : Prop := a.addr + a.size ≤ b.addr ∨ b.addr + b.size ≤ a.addr

/-- A caller that keeps to the discipline of the interface. -/
structure Client (σ : Type) where
  /-- The state of the allocator. -/
  state : σ
  /-- The blocks and marks that are held, newest first. -/
  held : List (Held Block)

/-- What a client does. -/
inductive Use (α : Type) where
  /-- Ask for a block. -/
  | alloc (size align : ℕ) (env : α)
  /-- Save a mark. -/
  | save
  /-- Restore the `i`-th mark that is held, counted from the newest. -/
  | restore (i : ℕ) (env : α)

namespace Client

/-- The blocks that are live: returned, and not released by a restore to an older mark. -/
def live (c : Client σ) : List Block := (blocks c.held).map Prod.fst

/-- The call that a client makes. -/
def request (c : Client σ) : Use α → Option (Request α)
  | .alloc size align env => some (.alloc size align env)
  | .save => some .save
  | .restore i env => (dropTo c.held i).map fun d => .restore d.1 env

/-- The call that a client makes meets the condition. -/
def Calls (C : σ → Request α → Prop) (c : Client σ) (u : Use α) : Prop :=
  match c.request u with
  | some r => C c.state r
  | none => True

/-- A step of a client. -/
def step (w : ℕ) (A : Salloc σ α) (c : Client σ) : Use α → Option (Client σ)
  | .alloc size align env =>
    if size < 2 ^ w ∧ AlignOk w align then
      match A.alloc c.state size align env with
      | .ok (some p, s) => some ⟨s, .block ⟨p, size, align⟩ (A.save s) :: c.held⟩
      | .ok (none, s) => some ⟨s, c.held⟩
      | .error _ => none
    else none
  | .save => some ⟨c.state, .mark (A.save c.state) :: c.held⟩
  | .restore i env =>
    match dropTo c.held i with
    | some (m, held) => (A.restore c.state m env).toOption.map fun s => ⟨s, held⟩
    | none => none

end Client

/-- What the calls of an allocator keep, where they meet the condition `C`. -/
structure Sound (w : ℕ) (A : Salloc σ α) (C : σ → Request α → Prop) (I : σ → Prop) (Placed : σ → Block → ℕ → Prop) :
    Prop where
  /-- A call that returns a block places it, above the level, and moves no other. -/
  alloc : ∀ {s s' size align env p}, I s → size < 2 ^ w → AlignOk w align → C s (.alloc size align env) →
    A.alloc s size align env = .ok (some p, s') →
    I s' ∧ A.save s + size ≤ A.save s' ∧ Placed s' ⟨p, size, align⟩ (A.save s') ∧
      ∀ b e, e ≤ A.save s → Placed s b e → Placed s' b e
  /-- A call that returns no block changes nothing. -/
  alloc_null : ∀ {s s' size align env}, I s → size < 2 ^ w → AlignOk w align → C s (.alloc size align env) →
    A.alloc s size align env = .ok (none, s') → s' = s
  /-- A call of `restore` goes back to the level, and moves no block below it. -/
  restore : ∀ {s s' m env}, I s → C s (.restore m env) → m ≤ A.save s → A.restore s m env = .ok s' →
    I s' ∧ A.save s' = m ∧ ∀ b e, e ≤ m → Placed s b e → Placed s' b e

/-- The blocks a client holds are stacked below the level, and are where they were placed. -/
structure Holding (A : Salloc σ α) (I : σ → Prop) (Placed : σ → Block → ℕ → Prop) (c : Client σ) : Prop where
  /-- The invariant of the allocator. -/
  inv : I c.state
  /-- Blocks and marks are stacked. -/
  stacked : Stacked Block.size c.held (A.save c.state)
  /-- Blocks are where they were placed. -/
  placed : ∀ x ∈ blocks c.held, Placed c.state x.1 x.2

variable {C : σ → Request α → Prop} {I : σ → Prop} {Placed : σ → Block → ℕ → Prop}

theorem Sound.step (hA : Sound w A C I Placed) {c d : Client σ} {u : Use α} (hc : Holding A I Placed c)
    (hC : c.Calls C u) (h : c.step w A u = some d) : Holding A I Placed d := by
  cases u with
  | alloc size align env =>
    have hCr : C c.state (.alloc size align env) := hC
    simp only [Client.step] at h
    split at h
    · rename_i hwf
      split at h
      · rename_i p s hok
        cases h
        obtain ⟨hI, hlvl, hnew, hold⟩ := hA.alloc hc.inv hwf.1 hwf.2 hCr hok
        refine ⟨hI, hc.stacked.push_block hlvl, ?_⟩
        intro x hx
        rcases List.mem_cons.1 hx with rfl | hx
        · exact hnew
        · exact hold _ _ (hc.stacked.le_top hx).2 (hc.placed x hx)
      · rename_i s hok
        cases h
        obtain rfl := hA.alloc_null hc.inv hwf.1 hwf.2 hCr hok
        exact ⟨hc.inv, hc.stacked, hc.placed⟩
      · cases h
    · cases h
  | save =>
    cases h
    exact ⟨hc.inv, hc.stacked.push_mark, hc.placed⟩
  | restore i env =>
    simp only [Client.step] at h
    split at h
    · rename_i m held hd
      have hCr : C c.state (.restore m env) := by
        simpa only [Client.Calls, Client.request, hd, Option.map_some] using hC
      obtain ⟨s, hs, hdef⟩ := Option.map_eq_some_iff.1 h
      subst hdef
      obtain ⟨hm, hstacked⟩ := hc.stacked.dropTo hd
      obtain ⟨hI, hlvl, hkeep⟩ := hA.restore hc.inv hCr hm (toOption_some hs)
      refine ⟨hI, ?_, ?_⟩
      · rw [hlvl]
        exact hstacked
      · intro x hx
        exact hkeep _ _ (hstacked.le_top hx).2 (hc.placed x (mem_of_dropTo hd hx))
    · cases h

/-- **Runs of a client.** -/
theorem Sound.run (hA : Sound w A C I Placed) {s : σ} (hs : I s) {us : List (Use α)} {c : Client σ}
    (hC : Meets (Client.step w A) (Client.Calls C) us ⟨s, []⟩)
    (h : steps (Client.step w A) us ⟨s, []⟩ = some c) : Holding A I Placed c := by
  refine steps_inv_of_meets (fun c u d hc hCu hd => hA.step hc hCu hd) ?_ hC h
  exact ⟨hs, trivial, fun x hx => by cases hx⟩

theorem Holding.apart {c : Client σ} (hc : Holding A I Placed c)
    (hapart : ∀ a e b f, f ≤ e - a.size → a.size ≤ e → e ≤ A.save c.state → Placed c.state a e → Placed c.state b f →
      a.Apart b) : c.live.Pairwise Block.Apart := by
  refine List.pairwise_map.2 (List.Pairwise.imp_of_mem ?_ hc.stacked.pairwise)
  intro x y hx hy hle
  have hx' := hc.stacked.le_top hx
  exact hapart _ _ _ _ hle hx'.1 hx'.2 (hc.placed x hx) (hc.placed y hy)

end Cop.Alloc
