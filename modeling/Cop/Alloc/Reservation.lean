import Cop.Alloc.Virtual

/-!
# The virtual allocator and its reservation

Whether the virtual allocator stays in the address space it has reserved, and whether it can
hand out all of it. The allocator keeps `reserve_sz`, but never compares anything with it: a
request that ends beyond the reservation is passed on to `mprotect`, which may well succeed
there; and for a request that ends before, `mprotect` is asked for a multiple of `grow_sz`,
which may end beyond, where it need not succeed.

## What is proved

* `inside_iff_fits` — at every state reached by calls that fit, the next call of `alloc`
  stays inside the reservation, whatever `mprotect` answers, exactly when it fits: `Fits`
  is a condition on the request and the state before the call.
* `reservation_left` — a request that does not fit, and what becomes of it.
* `served_iff_commitFits` — at every state reached, a request that ends in the reservation is
  served, if `mprotect` does its part, exactly when what has to be committed is in the
  reservation too: `CommitFits` is a condition on the request and the state before the call.
* `commitFits_of_dvd` — that is so for every request if the reservation is a multiple of `grow_sz`.
* `not_served` — a request that is not served, though the reservation is empty.
-/

namespace Cop.Alloc.Virtual

open Theory

variable {w : ℕ} {s s₀ : Virtual}

/-- The call of `mprotect`, if there was one, and the block, if one was returned, are in the
reservation of `s`. -/
structure Inside (s : Virtual) (size : ℕ) (out : Outcome) : Prop where
  /-- The range `mprotect` was called with. -/
  call : ∀ p ∈ out.call, s.base ≤ p.1 ∧ p.1 + p.2 ≤ s.base + s.reserveSz
  /-- The block. -/
  block : ∀ a ∈ out.ret, s.base ≤ a ∧ a + size ≤ s.base + s.reserveSz

/-- The request fits in the reservation: either its end, as a word, is accessible, and its end
is in the reservation; or `grow_sz` is zero, and the call divides by it before it calls
`mprotect`; or its end is in the reservation, and so is its end rounded up, unless the sum that
is rounded wraps. -/
def Fits (w : ℕ) (s : Virtual) (size align : ℕ) : Prop :=
  if s.endOf size align % 2 ^ w ≤ s.protectSz then s.endOf size align ≤ s.reserveSz
  else s.growSz = 0 ∨ s.endOf size align ≤ s.reserveSz ∧
    (roundUp s.growSz (s.endOf size align) ≤ s.reserveSz ∨ 2 ^ w < s.endOf size align + s.growSz)

instance (w : ℕ) (s : Virtual) (size align : ℕ) : Decidable (Fits w s size align) :=
  inferInstanceAs (Decidable (if s.endOf size align % 2 ^ w ≤ s.protectSz then s.endOf size align ≤ s.reserveSz
    else s.growSz = 0 ∨ s.endOf size align ≤ s.reserveSz ∧
      (roundUp s.growSz (s.endOf size align) ≤ s.reserveSz ∨ 2 ^ w < s.endOf size align + s.growSz)))

/-- The allocator is within its reservation, which is the one of `s₀`. -/
structure Within (w : ℕ) (s₀ s : Virtual) : Prop where
  /-- The default alignment is one. -/
  default : DefaultOk w s.defaultAlign
  /-- The reservation is a mapping. -/
  mapped : Mapped w s.base s.reserveSz
  /-- `grow_sz` is a word. -/
  grow_lt : s.growSz < 2 ^ w
  /-- What is handed out is reserved. -/
  used_le : s.usedSz ≤ s.reserveSz
  /-- What is accessible is reserved. -/
  protect_le : s.protectSz ≤ s.reserveSz
  /-- The reservation is where it was. -/
  base_eq : s.base = s₀.base
  /-- It is as large as it was. -/
  reserve_eq : s.reserveSz = s₀.reserveSz

/-- The padding never takes a block past the end of the address space. -/
theorem Within.offset_le (h : Within w s₀ s) {align : ℕ} (ha : AlignOk w align) :
    s.base + (s.usedSz + s.pad align) ≤ 2 ^ w := by
  obtain ⟨-, -, hmap⟩ := h.mapped
  have hused := h.used_le
  exact base_add_offset_le h.default ha (by omega)

theorem Within.alloc_eq (h : Within w s₀ s) {size align : ℕ} (ha : AlignOk w align) (ok : Bool) :
    aallocAlignAlloc w s size align ok = place w s (s.usedSz + s.pad align) size ok := by
  obtain ⟨-, hbase, -⟩ := h.mapped
  have hle := h.offset_le ha
  rw [aallocAlignAlloc_eq h.default ha, Word.add_of_lt (by omega)]

theorem Within.block_iff (h : Within w s₀ s) {align : ℕ} (ha : AlignOk w align) (size : ℕ) :
    s.base ≤ Word.add w s.base (s.usedSz + s.pad align) ∧
      Word.add w s.base (s.usedSz + s.pad align) + size ≤ s.base + s.reserveSz ↔ s.endOf size align ≤ s.reserveSz := by
  obtain ⟨-, hbase, hmap⟩ := h.mapped
  have hle := h.offset_le ha
  unfold endOf
  rcases Nat.lt_or_eq_of_le hle with hlt | heq
  · rw [Word.add_of_lt hlt]
    omega
  · -- the address would be null
    rw [Word.add, heq, Nat.mod_self]
    omega

theorem Within.inside (h : Within w s₀ s) {size align : ℕ} (ha : AlignOk w align) (hfits : Fits w s size align)
    {ok : Bool} {out : Outcome} (hout : aallocAlignAlloc w s size align ok = .ok out) :
    Inside s size out ∧ Within w s₀ out.state := by
  rw [h.alloc_eq ha] at hout
  have hend : Word.add w (s.usedSz + s.pad align) size = s.endOf size align % 2 ^ w := rfl
  have hblock := h.block_iff ha size
  have hmap := h.mapped
  have hcases := place_ok hout
  rw [hend] at hcases
  unfold Fits at hfits
  rcases hcases with ⟨hle, rfl⟩ | ⟨hgt, hgrow, rfl⟩
  · rw [if_pos hle] at hfits
    have hused : s.endOf size align % 2 ^ w ≤ s.reserveSz := le_trans hle h.protect_le
    refine ⟨⟨fun p hp => (by cases hp), ?_⟩, h.default, hmap, h.grow_lt, hused, h.protect_le, h.base_eq, h.reserve_eq⟩
    intro a hret
    cases hret
    exact hblock.2 hfits
  · rw [if_neg (by omega)] at hfits
    obtain ⟨hres, hround⟩ := hfits.resolve_left hgrow
    have hlt : s.endOf size align < 2 ^ w := by
      have := hmap.2.2
      omega
    rw [Nat.mod_eq_of_lt hlt]
    have hnew : s.newSz w (s.endOf size align) ≤ s.reserveSz := by
      by_cases hwrap : 2 ^ w < s.endOf size align + s.growSz
      · rw [newSz_wrap h.grow_lt hlt hwrap]
        exact Nat.zero_le _
      · rw [newSz_eq hgrow (by omega)]
        exact hround.resolve_right hwrap
    have hcall : ∀ p ∈ some (s.base, s.newSz w (s.endOf size align)), s.base ≤ p.1 ∧ p.1 + p.2 ≤ s.base + s.reserveSz := by
      intro p hp
      cases hp
      exact ⟨le_rfl, Nat.add_le_add_left hnew _⟩
    cases ok with
    | false => exact ⟨⟨hcall, fun a hret => (by cases hret)⟩, h⟩
    | true =>
      refine ⟨⟨hcall, ?_⟩, h.default, hmap, h.grow_lt, hres, hnew, h.base_eq, h.reserve_eq⟩
      intro a hret
      cases hret
      exact hblock.2 hres

/-- A call that does not fit leaves the reservation, for some answer of `mprotect`. -/
theorem Within.fits (h : Within w s₀ s) {size align : ℕ} (ha : AlignOk w align)
    (hin : ∀ ok out, aallocAlignAlloc w s size align ok = .ok out → Inside s size out) : Fits w s size align := by
  have hblock := h.block_iff ha size
  have hend : Word.add w (s.usedSz + s.pad align) size = s.endOf size align % 2 ^ w := rfl
  have htrue := hin true
  simp only [h.alloc_eq ha, place, hend] at htrue
  unfold Fits
  split
  · rename_i hle
    rw [if_neg (by omega)] at htrue
    exact hblock.1 ((htrue _ rfl).block _ rfl)
  · rename_i hgt
    rw [if_pos (by omega)] at htrue
    by_cases hgrow : s.growSz = 0
    · exact .inl hgrow
    · rw [check_pos hgrow] at htrue
      have hres : s.endOf size align ≤ s.reserveSz := hblock.1 ((htrue _ rfl).block _ rfl)
      refine .inr ⟨hres, ?_⟩
      by_cases hwrap : 2 ^ w < s.endOf size align + s.growSz
      · exact .inr hwrap
      · left
        have hmap := h.mapped.2.2
        have hcall := ((htrue _ rfl).call _ rfl).2
        rw [Nat.mod_eq_of_lt (by omega), newSz_eq hgrow (by omega)] at hcall
        dsimp only at hcall
        omega

/-- A call of `alloc` fits. -/
def FitsCall (w : ℕ) (s : Virtual) : Request Bool → Prop
  | .alloc size align _ => Fits w s size align
  | _ => True

theorem within_step {r : Request Bool} {t : Virtual} (h : Within w s₀ s) (hfits : FitsCall w s r)
    (hstep : (iface w).step w s r = some t) : Within w s₀ t := by
  obtain ⟨size, align, ok, out, rfl, ha, hout, rfl⟩ | ⟨rfl, rfl⟩ | ⟨m, ok, rfl, hle, rfl⟩ := step_cases hstep
  · exact (h.inside ha hfits hout).2
  · exact h
  · exact ⟨h.default, h.mapped, h.grow_lt, le_trans hle h.used_le, h.protect_le, h.base_eq, h.reserve_eq⟩

/-- **The allocator stays in its reservation exactly as long as the requests fit.** After any
run of calls from `cop_alloc_virtual_init` that all fit, the next call of `alloc` stays inside
the reservation, whatever `mprotect` answers, exactly when it fits. -/
theorem inside_iff_fits {ps reserveSz defaultAlign growSz : ℕ} {map : Option ℕ} (hd : defaultAlign < 2 ^ w)
    (hinit : copAllocVirtualInit w ps reserveSz defaultAlign growSz map = .ok (some s₀)) {rs : List (Request Bool)}
    (hfits : Meets ((iface w).step w) (FitsCall w) rs s₀) (hrun : steps ((iface w).step w) rs s₀ = some s)
    {size align : ℕ} (ha : AlignOk w align) :
    (∀ ok out, aallocAlignAlloc w s size align ok = .ok out → Inside s₀ size out) ↔ Fits w s size align := by
  obtain ⟨hdef, hmap, hused, hprot, hgrow⟩ := copAllocVirtualInit_ok hd hinit
  have h₀ : Within w s₀ s₀ := ⟨hdef, hmap, hgrow, by omega, by omega, rfl, rfl⟩
  have h : Within w s₀ s := steps_inv_of_meets (fun s r t => within_step) h₀ hfits hrun
  have hsame : ∀ out, Inside s₀ size out ↔ Inside s size out := by
    intro out
    constructor
    · intro hin
      exact ⟨by rw [h.base_eq, h.reserve_eq]; exact hin.call, by rw [h.base_eq, h.reserve_eq]; exact hin.block⟩
    · intro hin
      exact ⟨by rw [← h.base_eq, ← h.reserve_eq]; exact hin.call, by rw [← h.base_eq, ← h.reserve_eq]; exact hin.block⟩
  simp only [hsame]
  constructor
  · exact h.fits ha
  · intro hf ok out hout
    exact (h.inside ha hf hout).1

/-- A reservation of two pages of 4 KiB. -/
def twoPages : Virtual := ⟨8192, 4096, 0, 0, 16, 1048576⟩

theorem inside_iff_fits_twoPages : ∃ s, copAllocVirtualInit 64 4096 8192 16 0 (some 1048576) = .ok (some twoPages) ∧
    steps ((iface 64).step 64) [.alloc 5000 16 true] twoPages = some s ∧
    ((∀ ok out, aallocAlignAlloc 64 s 3000 16 ok = .ok out → Inside twoPages 3000 out) ↔ Fits 64 s 3000 16) := by
  have hinit : copAllocVirtualInit 64 4096 8192 16 0 (some 1048576) = .ok (some twoPages) := rfl
  have hfits : Meets ((iface 64).step 64) (FitsCall 64) [.alloc 5000 16 true] twoPages :=
    ⟨show Fits 64 twoPages 5000 16 by decide, trivial⟩
  exact ⟨_, hinit, rfl, inside_iff_fits (by decide) hinit hfits rfl (by decide)⟩

/-- Of two pages, three are asked of `mprotect`, and a block is returned that ends in the third. -/
theorem reservation_left : copAllocVirtualInit 64 4096 8192 16 0 (some 1048576) = .ok (some twoPages) ∧
    ∃ out, aallocAlignAlloc 64 twoPages 10000 16 true = .ok out ∧
      out.call = some (twoPages.base, 12288) ∧ out.ret = some twoPages.base ∧ ¬ Inside twoPages 10000 out := by
  refine ⟨rfl, ⟨some 1048576, some (1048576, 12288), { twoPages with protectSz := 12288, usedSz := 10000 }⟩,
    by decide, rfl, rfl, ?_⟩
  intro hin
  have hblock : 1048576 + 10000 ≤ 1048576 + 8192 := (hin.block 1048576 rfl).2
  omega

/-! ### What can be handed out -/

/-- `mprotect` succeeds if the range it is called with is in the reservation. -/
def Obliging (w : ℕ) (s : Virtual) (size align : ℕ) (ok : Bool) : Prop :=
  ∀ out, aallocAlignAlloc w s size align ok = .ok out →
    ∀ p ∈ out.call, s.base ≤ p.1 → p.1 + p.2 ≤ s.base + s.reserveSz → ok = true

/-- The call returns a block. -/
def Served (w : ℕ) (s : Virtual) (size align : ℕ) (ok : Bool) : Prop :=
  ∃ out a, aallocAlignAlloc w s size align ok = .ok out ∧ out.ret = some a ∧ a ≠ 0

/-- What has to be committed for the request is in the reservation: its end is accessible already;
or its end rounded up is in the reservation, or the sum that is rounded wraps. -/
def CommitFits (w : ℕ) (s : Virtual) (size align : ℕ) : Prop :=
  s.endOf size align ≤ s.protectSz ∨ s.growSz ≠ 0 ∧
    (roundUp s.growSz (s.endOf size align) ≤ s.reserveSz ∨ 2 ^ w < s.endOf size align + s.growSz)

/-- The allocator has the reservation of `s₀`. -/
structure Reserved (w : ℕ) (s₀ s : Virtual) : Prop where
  /-- The default alignment is one. -/
  default : DefaultOk w s.defaultAlign
  /-- The reservation is a mapping. -/
  mapped : Mapped w s.base s.reserveSz
  /-- `grow_sz` is a word. -/
  grow_lt : s.growSz < 2 ^ w
  /-- The reservation is as large as it was. -/
  reserve_eq : s.reserveSz = s₀.reserveSz

theorem reserved_step {r : Request Bool} {t : Virtual} (h : Reserved w s₀ s)
    (hstep : (iface w).step w s r = some t) : Reserved w s₀ t := by
  obtain ⟨size, align, ok, out, rfl, -, hout, rfl⟩ | ⟨rfl, rfl⟩ | ⟨m, ok, rfl, -, rfl⟩ := step_cases hstep
  · obtain ⟨offset, hplace⟩ := aallocAlignAlloc_place hout
    rcases place_ok hplace with ⟨-, rfl⟩ | ⟨-, -, rfl⟩
    · exact ⟨h.default, h.mapped, h.grow_lt, h.reserve_eq⟩
    · cases ok with
      | false => exact h
      | true => exact ⟨h.default, h.mapped, h.grow_lt, h.reserve_eq⟩
  · exact h
  · exact ⟨h.default, h.mapped, h.grow_lt, h.reserve_eq⟩

theorem reserved_run {ps reserveSz defaultAlign growSz : ℕ} {map : Option ℕ} (hd : defaultAlign < 2 ^ w)
    (hinit : copAllocVirtualInit w ps reserveSz defaultAlign growSz map = .ok (some s₀)) {rs : List (Request Bool)}
    (hrun : steps ((iface w).step w) rs s₀ = some s) : Reserved w s₀ s := by
  obtain ⟨hdef, hmap, -, -, hgrow⟩ := copAllocVirtualInit_ok hd hinit
  exact steps_inv (fun s r t => reserved_step) ⟨hdef, hmap, hgrow, rfl⟩ hrun

theorem Reserved.alloc_eq (h : Reserved w s₀ s) {size align : ℕ} (ha : AlignOk w align)
    (hend : s.endOf size align ≤ s.reserveSz) (ok : Bool) :
    aallocAlignAlloc w s size align ok =
      if s.protectSz < s.endOf size align then do
        check .divByZero (s.growSz ≠ 0)
        if ok then
          return ⟨some (s.base + (s.usedSz + s.pad align)), some (s.base, s.newSz w (s.endOf size align)),
            { s with protectSz := s.newSz w (s.endOf size align), usedSz := s.endOf size align }⟩
        else return ⟨none, some (s.base, s.newSz w (s.endOf size align)), s⟩
      else return ⟨some (s.base + (s.usedSz + s.pad align)), none, { s with usedSz := s.endOf size align }⟩ := by
  obtain ⟨-, -, hmap⟩ := h.mapped
  have hle : s.usedSz + s.pad align + size ≤ s.reserveSz := hend
  have hsum : Word.add w (s.usedSz + s.pad align) size = s.endOf size align := Word.add_of_lt (by omega)
  rw [aallocAlignAlloc_eq h.default ha, Word.add_of_lt (by omega), place, hsum, Word.add_of_lt (by omega)]

theorem newSz_le_iff (h : Reserved w s₀ s) {n : ℕ} (hn : n ≤ s.reserveSz) (hgrow : s.growSz ≠ 0) :
    s.newSz w n ≤ s.reserveSz ↔ roundUp s.growSz n ≤ s.reserveSz ∨ 2 ^ w < n + s.growSz := by
  obtain ⟨-, -, hmap⟩ := h.mapped
  by_cases hwrap : 2 ^ w < n + s.growSz
  · rw [newSz_wrap h.grow_lt (by omega) hwrap]
    exact ⟨fun _ => .inr hwrap, fun _ => Nat.zero_le _⟩
  · rw [newSz_eq hgrow (Nat.le_of_not_lt hwrap)]
    exact ⟨.inl, fun hle => hle.resolve_right hwrap⟩

/-- Past the accessible part a `grow_sz` of 0 divides by zero, whatever `mprotect` would answer. -/
theorem Reserved.alloc_zero (h : Reserved w s₀ s) {size align : ℕ} (ha : AlignOk w align)
    (hend : s.endOf size align ≤ s.reserveSz) (hgt : s.protectSz < s.endOf size align) (hgrow : s.growSz = 0) (ok : Bool) :
    aallocAlignAlloc w s size align ok = .error (.fault .divByZero) := by
  rw [h.alloc_eq ha hend, if_pos hgt, check, if_neg (not_not.2 hgrow)]
  rfl

/-- Past the accessible part any other `grow_sz` asks `mprotect`, which decides. -/
theorem Reserved.alloc_grow (h : Reserved w s₀ s) {size align : ℕ} (ha : AlignOk w align)
    (hend : s.endOf size align ≤ s.reserveSz) (hgt : s.protectSz < s.endOf size align) (hgrow : s.growSz ≠ 0) (ok : Bool) :
    ∃ out, aallocAlignAlloc w s size align ok = .ok out ∧ out.call = some (s.base, s.newSz w (s.endOf size align)) ∧
      out.ret = if ok then some (s.base + (s.usedSz + s.pad align)) else none := by
  rw [h.alloc_eq ha hend, if_pos hgt, check_pos hgrow]
  cases ok with
  | false => exact ⟨_, rfl, rfl, rfl⟩
  | true => exact ⟨_, rfl, rfl, rfl⟩

theorem Reserved.served_iff (h : Reserved w s₀ s) {size align : ℕ} (ha : AlignOk w align)
    (hend : s.endOf size align ≤ s.reserveSz) :
    (∀ ok, Obliging w s size align ok → Served w s size align ok) ↔ CommitFits w s size align := by
  have hbase := h.mapped.2.1
  have haddr : s.base + (s.usedSz + s.pad align) ≠ 0 := by omega
  unfold CommitFits
  by_cases hgt : s.protectSz < s.endOf size align
  · rw [← Nat.not_lt, or_iff_right (not_not.2 hgt)]
    by_cases hgrow : s.growSz = 0
    · constructor
      · intro hserved
        have herr := h.alloc_zero ha hend hgt hgrow false
        have hob : Obliging w s size align false := by
          intro out hout
          rw [herr] at hout
          cases hout
        obtain ⟨out, a, hout, -⟩ := hserved false hob
        rw [herr] at hout
        cases hout
      · intro hfits
        exact absurd hgrow hfits.1
    · rw [← newSz_le_iff h hend hgrow]
      constructor
      · intro hserved
        refine ⟨hgrow, ?_⟩
        by_contra hnew
        -- `mprotect` may fail
        obtain ⟨out, hout, hcall, hret⟩ := h.alloc_grow ha hend hgt hgrow false
        have hob : Obliging w s size align false := by
          intro out' hout' p hp _ hin
          rw [hout] at hout'
          cases hout'
          rw [hcall] at hp
          cases hp
          dsimp only at hin
          omega
        obtain ⟨out', a, hout', hret', -⟩ := hserved false hob
        rw [hout] at hout'
        cases hout'
        rw [hret] at hret'
        cases hret'
      · rintro ⟨-, hnew⟩ ok hob
        obtain ⟨out, hout, hcall, hret⟩ := h.alloc_grow ha hend hgt hgrow ok
        have hok : ok = true := hob out hout _ hcall le_rfl (by dsimp only; omega)
        rw [if_pos hok] at hret
        exact ⟨out, _, hout, hret, haddr⟩
  · constructor
    · intro _
      exact .inl (Nat.le_of_not_lt hgt)
    · intro _ ok _
      have heq := h.alloc_eq ha hend ok
      rw [if_neg hgt] at heq
      exact ⟨_, _, heq, rfl, haddr⟩

/-- Where the reservation is a multiple of `grow_sz`, what has to be committed is in it. -/
theorem commitFits_of_dvd {size align : ℕ} (hgrow : s.growSz ≠ 0) (hdvd : s.growSz ∣ s.reserveSz)
    (hend : s.endOf size align ≤ s.reserveSz) : CommitFits w s size align :=
  .inr ⟨hgrow, .inl (roundUp_le (Nat.pos_of_ne_zero hgrow) hdvd hend)⟩

/-- **A request that ends in the reservation is served exactly if what has to be committed is in
it.** That is so after any run of calls from `cop_alloc_virtual_init`, if `mprotect` succeeds on
every range that is in the reservation, and may fail on others. -/
theorem served_iff_commitFits {ps reserveSz defaultAlign growSz : ℕ} {map : Option ℕ} (hd : defaultAlign < 2 ^ w)
    (hinit : copAllocVirtualInit w ps reserveSz defaultAlign growSz map = .ok (some s₀)) {rs : List (Request Bool)}
    (hrun : steps ((iface w).step w) rs s₀ = some s) {size align : ℕ} (ha : AlignOk w align)
    (hend : s.endOf size align ≤ s₀.reserveSz) :
    (∀ ok, Obliging w s size align ok → Served w s size align ok) ↔ CommitFits w s size align := by
  have h : Reserved w s₀ s := reserved_run hd hinit hrun
  rw [← h.reserve_eq] at hend
  exact h.served_iff ha hend

theorem served_iff_commitFits_twoPages : ∃ s, steps ((iface 64).step 64) [.alloc 5000 16 true] twoPages = some s ∧
    ((∀ ok, Obliging 64 s 3000 16 ok → Served 64 s 3000 16 ok) ↔ CommitFits 64 s 3000 16) := by
  have hinit : copAllocVirtualInit 64 4096 8192 16 0 (some 1048576) = .ok (some twoPages) := rfl
  have hrun : steps ((iface 64).step 64) [.alloc 5000 16 true] twoPages =
      some { twoPages with protectSz := 8192, usedSz := 5000 } := rfl
  exact ⟨_, hrun, served_iff_commitFits (by decide) hinit hrun (by decide) (by decide)⟩

/-- A reservation of two pages, of which three are committed at a time. -/
def threeAtATime : Virtual := ⟨8192, 12288, 0, 0, 16, 1048576⟩

/-- Of two pages, 100 bytes cannot be had: `mprotect` is asked for three. -/
theorem not_served : copAllocVirtualInit 64 4096 8192 16 12288 (some 1048576) = .ok (some threeAtATime) ∧
    threeAtATime.endOf 100 16 ≤ threeAtATime.reserveSz ∧ Obliging 64 threeAtATime 100 16 false ∧
    ¬ Served 64 threeAtATime 100 16 false := by
  have hcall : aallocAlignAlloc 64 threeAtATime 100 16 false = .ok ⟨none, some (1048576, 12288), threeAtATime⟩ := by decide
  refine ⟨rfl, by decide, ?_, ?_⟩
  · intro out hout p hp _ hin
    obtain rfl := Except.ok.inj (hcall.symm.trans hout)
    cases hp
    exact absurd hin (by decide)
  · rintro ⟨out, a, hout, hret, -⟩
    obtain rfl := Except.ok.inj (hcall.symm.trans hout)
    cases hret

end Cop.Alloc.Virtual
