import Cop.Alloc.Virtual

/-!
# The sizes of the virtual allocator

`cop_alloc_virtual_init` rounds the sizes it is given up to whole pages. It adds the page
size before it divides, and near the top of `size_t` that sum wraps. A reservation that has
wrapped is empty, and `mmap` refuses it; a growth step that has wrapped is zero, and nothing
is called with it before the first block is asked for.

## What is proved

* `copAllocVirtualInit_sizes` — the two sizes that are stored, where the sums fit.
* `growSz_step` — no call changes the growth step.
* `rounded_iff` — the sizes are as they should be, and no call in any run divides by zero or
  asks `mprotect` for too little, exactly when the sum for the growth step does not wrap.
* `growth_step_zero` — a growth step that wraps.
-/

namespace Cop.Alloc.Virtual

open Theory

variable {w : ℕ} {s s₀ : Virtual}

/-- `cop_alloc_virtual_init` has set up `s₀` with sizes that are as they should be. -/
structure Rounded (w ps reserveSz growSz : ℕ) (s₀ : Virtual) : Prop where
  /-- The growth step is whole pages. -/
  grow_dvd : ps ∣ s₀.growSz
  /-- It is not zero. -/
  grow_pos : 0 < s₀.growSz
  /-- It is no smaller than the one asked for. -/
  grow_le : growSz ≤ s₀.growSz
  /-- The reservation is whole pages. -/
  reserve_dvd : ps ∣ s₀.reserveSz
  /-- It is not empty. -/
  reserve_pos : 0 < s₀.reserveSz
  /-- It is no smaller than the one asked for. -/
  reserve_le : reserveSz ≤ s₀.reserveSz
  /-- No call divides by zero, after any run. -/
  divides : ∀ rs s, steps ((iface w).step w) rs s₀ = some s →
    ∀ size align ok, aallocAlignAlloc w s size align ok ≠ .error (.fault .divByZero)
  /-- Where its sums do not wrap, a call never asks `mprotect` for less than the end of the block. -/
  covers : ∀ rs s, steps ((iface w).step w) rs s₀ = some s →
    ∀ size align ok out, align < 2 ^ w → aallocAlignAlloc w s size align ok = .ok out →
      s.endOf size align < 2 ^ w → s.endOf size align + s.growSz - 1 < 2 ^ w →
        ∀ p ∈ out.call, s.endOf size align ≤ p.2

theorem copAllocVirtualInit_sizes {ps reserveSz defaultAlign growSz : ℕ} {map : Option ℕ}
    (h : copAllocVirtualInit w ps reserveSz defaultAlign growSz map = .ok (some s)) :
    ps ≠ 0 ∧ 0 < s.reserveSz ∧ s.reserveSz = Word.mul w ps (Word.sub w (Word.add w reserveSz ps) 1 / ps) ∧
      s.growSz = Word.mul w ps (if growSz = 0 then 1 else Word.sub w (Word.add w growSz ps) 1 / ps) := by
  obtain ⟨_, -, h⟩ := bind_ok h
  obtain ⟨-, -, h⟩ := bind_ok h
  split at h
  · cases h
  · rename_i hps
    cases map with
    | none => cases h
    | some base =>
      obtain ⟨_, hmap, h⟩ := bind_ok h
      cases h
      exact ⟨hps, (assume_ok hmap).1, rfl, rfl⟩

/-- A growth step whose sum fits is rounded up, or is one page. -/
theorem storedGrow_eq {ps growSz : ℕ} (hps : ps ≠ 0) (hlt : ps < 2 ^ w) (h : growSz + ps ≤ 2 ^ w) :
    Word.mul w ps (if growSz = 0 then 1 else Word.sub w (Word.add w growSz ps) 1 / ps) =
      if growSz = 0 then ps else roundUp ps growSz := by
  split
  · rw [Word.mul_of_lt] <;> omega
  · exact Word.roundUp_eq hps h

theorem growSz_step {r : Request Bool} {t : Virtual} (hstep : (iface w).step w s r = some t) :
    t.growSz = s.growSz ∧ t.defaultAlign = s.defaultAlign := by
  obtain ⟨size, align, ok, out, rfl, -, hout, rfl⟩ | ⟨-, rfl⟩ | ⟨m, ok, -, -, rfl⟩ := step_cases hstep
  · obtain ⟨offset, hplace⟩ := aallocAlignAlloc_place hout
    rcases place_ok hplace with ⟨-, rfl⟩ | ⟨-, -, rfl⟩
    · exact ⟨rfl, rfl⟩
    · cases ok <;> exact ⟨rfl, rfl⟩
  · exact ⟨rfl, rfl⟩
  · exact ⟨rfl, rfl⟩

theorem growSz_run {rs : List (Request Bool)} (hrun : steps ((iface w).step w) rs s₀ = some s) :
    s.growSz = s₀.growSz ∧ s.defaultAlign = s₀.defaultAlign := by
  refine steps_inv (I := fun s => s.growSz = s₀.growSz ∧ s.defaultAlign = s₀.defaultAlign) ?_ ⟨rfl, rfl⟩ hrun
  intro s r t hs hstep
  obtain ⟨hgrow, hdef⟩ := growSz_step hstep
  exact ⟨hgrow.trans hs.1, hdef.trans hs.2⟩

theorem aallocAlignAlloc_divides {size align : ℕ} {ok : Bool} (hgrow : s.growSz ≠ 0) :
    aallocAlignAlloc w s size align ok ≠ .error (.fault .divByZero) := by
  intro h
  by_cases ha : alignAsserted w (s.alignOf align)
  · simp only [aallocAlignAlloc, check_pos ha, check_pos hgrow] at h
    split at h
    · cases ok <;> cases h
    · cases h
  · simp only [aallocAlignAlloc, check, if_neg ha] at h
    cases h

/-- A call whose sums do not wrap asks for the end of the block, rounded up. -/
theorem call_of_fits (hd : DefaultOk w s.defaultAlign) (hgrow : s.growSz ≠ 0) {size align : ℕ} (ha : AlignOk w align)
    {ok : Bool} {out : Outcome} (hout : aallocAlignAlloc w s size align ok = .ok out)
    (hend : s.endOf size align < 2 ^ w) (hround : s.endOf size align + s.growSz - 1 < 2 ^ w) :
    ∀ p ∈ out.call, p.2 = roundUp s.growSz (s.endOf size align) := by
  have hoff : Word.add w s.usedSz (s.pad align) = s.usedSz + s.pad align := Word.add_of_lt (by unfold endOf at hend; omega)
  have hsum : Word.add w (s.usedSz + s.pad align) size = s.endOf size align := Word.add_of_lt hend
  have hnew := newSz_eq (n := s.endOf size align) hgrow (w := w) (by omega)
  rw [aallocAlignAlloc_eq hd ha, hoff] at hout
  have hcases := place_ok hout
  rw [hsum, hnew] at hcases
  rcases hcases with ⟨-, rfl⟩ | ⟨-, -, rfl⟩
  · intro p hp
    cases hp
  · intro p hp
    cases ok <;> cases hp <;> rfl

/-- **The sizes are as they should be exactly when the growth step does not wrap.** An allocator that
`cop_alloc_virtual_init` has set up, for pages of any size, has a growth step and a reservation that
are whole pages and no smaller than what was asked for, and in every run from it no call divides by
zero or asks `mprotect` for too little, if and only if `grow_sz` and the page size add up to at most
`2 ^ w`. -/
theorem rounded_iff {ps reserveSz defaultAlign growSz : ℕ} {map : Option ℕ} (hlt : ps < 2 ^ w)
    (hreserve : 1 ≤ reserveSz ∧ reserveSz < 2 ^ w) (hgrow : growSz < 2 ^ w) (hd : defaultAlign < 2 ^ w)
    (hinit : copAllocVirtualInit w ps reserveSz defaultAlign growSz map = .ok (some s₀)) :
    Rounded w ps reserveSz growSz s₀ ↔ growSz + ps ≤ 2 ^ w := by
  obtain ⟨hne, hpos, hres, hstored⟩ := copAllocVirtualInit_sizes hinit
  constructor
  · intro h
    by_contra hwrap
    have hgrow₀ := h.grow_pos
    rw [hstored, if_neg (by omega), Word.roundUp_wrap hlt hgrow (by omega)] at hgrow₀
    omega
  · intro hfit
    -- a reservation that wraps would be empty
    have hfit' : reserveSz + ps ≤ 2 ^ w := by
      by_contra hwrap
      rw [hres, Word.roundUp_wrap hlt hreserve.2 (by omega)] at hpos
      omega
    rw [storedGrow_eq hne hlt hfit] at hstored
    rw [Word.roundUp_eq hne hfit'] at hres
    have hgrow_pos : 0 < s₀.growSz ∧ ps ∣ s₀.growSz ∧ growSz ≤ s₀.growSz := by
      rw [hstored]
      split
      · exact ⟨Nat.pos_of_ne_zero hne, Nat.dvd_refl ps, by omega⟩
      · have hle : growSz ≤ roundUp ps growSz := le_roundUp (Nat.pos_of_ne_zero hne)
        exact ⟨by omega, dvd_roundUp _ _, hle⟩
    have hdef := (copAllocVirtualInit_ok hd hinit).1
    refine ⟨hgrow_pos.2.1, hgrow_pos.1, hgrow_pos.2.2, ?_, hpos, ?_, ?_, ?_⟩
    · rw [hres]
      exact dvd_roundUp _ _
    · rw [hres]
      exact le_roundUp (Nat.pos_of_ne_zero hne)
    · intro rs s hs size align ok
      apply aallocAlignAlloc_divides
      rw [(growSz_run hs).1]
      omega
    · intro rs s hs size align ok out ha hout hend hround p hp
      obtain ⟨hsame, hdef'⟩ := growSz_run hs
      rw [← hdef'] at hdef
      rw [call_of_fits hdef (by omega) (alignOk_of_ok ha hout) hout hend hround p hp]
      exact le_roundUp (by omega)

theorem rounded_iff_sample : Rounded 64 4096 65536 5000 ⟨65536, 8192, 0, 0, 16, 1048576⟩ ↔ 5000 + 4096 ≤ 2 ^ 64 := by
  have hinit : copAllocVirtualInit 64 4096 65536 16 5000 (some 1048576) =
      .ok (some ⟨65536, 8192, 0, 0, 16, 1048576⟩) := rfl
  exact rounded_iff (by decide) (by decide) (by decide) (by decide) hinit

/-- The growth step of `SIZE_MAX` bytes becomes zero, and the first request divides by it. -/
theorem growth_step_zero :
    copAllocVirtualInit 64 4096 65536 16 (2 ^ 64 - 1) (some 1048576) = .ok (some ⟨65536, 0, 0, 0, 16, 1048576⟩) ∧
      aallocAlignAlloc 64 ⟨65536, 0, 0, 0, 16, 1048576⟩ 100 16 true = .error (.fault .divByZero) ∧
      ¬ Rounded 64 4096 65536 (2 ^ 64 - 1) ⟨65536, 0, 0, 0, 16, 1048576⟩ :=
  ⟨by decide, by decide, fun h => absurd h.grow_pos (by decide)⟩

end Cop.Alloc.Virtual
