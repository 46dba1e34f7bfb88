import Cop.Alloc.Reservation
import Cop.Theory.Tiling

/-!
# The virtual allocator on both platforms

Where `_WIN32` is defined, `cop_alloc.c` reserves address space with `VirtualAlloc`, and when more of
it is to be accessible, commits what is behind the accessible part. Elsewhere it calls `mprotect`
on all that is to be accessible, from the start.

## The model

* `aallocAlignAllocOn` is `aalloc_align_alloc` with the call of either platform; what the system
  answers to a range is an argument.
* `Os.Grants` is what the systems answer, as long as they have memory. `VirtualAlloc` commits nothing that is
  not reserved, and no empty range. `mprotect` grants what is mapped, an empty range too; nothing else is
  mapped behind the reservation here.
* A `Space` is an allocator and the ranges that the system made accessible.

## What is proved

* `aallocAlignAllocOn_posix` — without `_WIN32` it is the model of `Cop.Alloc.Virtual`.
* `os_sound` — what the calls keep on either platform, in runs that are `Exact`.
* `windows_blocks_safe` — on Windows, it is enough that no end of a block wraps: a request that does not
  fit, or whose rounding wraps, is refused.
* `platforms_agree` — where the rounding does not wrap either, both platforms answer every call the
  same, and make the same memory accessible.
* `platforms_differ` — a request whose rounding wraps.
-/

namespace Cop.Alloc.Virtual

open Theory

/-- Whether `_WIN32` is defined. -/
inductive Os where
  /-- It is not. -/
  | posix
  /-- It is. -/
  | windows
  deriving DecidableEq

variable {w : ℕ} {s s₀ : Virtual} {os : Os}

/-! ### The calls -/

/-- The range that the system is called with: `mprotect(s->base, new_sz, ..)`, or
`VirtualAlloc(s->base + s->protect_sz, new_sz - s->protect_sz, MEM_COMMIT, ..)`. -/
def Os.growCall (w : ℕ) (s : Virtual) (newSz : ℕ) : Os → ℕ × ℕ
  | .posix => (s.base, newSz)
  | .windows => (Word.add w s.base s.protectSz, Word.sub w newSz s.protectSz)

/-- `aalloc_align_alloc`, where the system grants a range if `answer`. -/
def aallocAlignAllocOn (os : Os) (w : ℕ) (s : Virtual) (size align : ℕ) (answer : ℕ × ℕ → Bool) : Exec Fault Outcome := do
  let align := s.alignOf align
  check .assertion (alignAsserted w align)
  let csz := s.usedSz
  let offset := Word.add w csz (aallocAlignoffset w (Word.add w s.base csz) (Word.sub w align 1))
  if Word.add w offset size > s.protectSz then
    let newSz := Word.add w offset size
    check .divByZero (s.growSz ≠ 0)
    let newSz := Word.mul w s.growSz (Word.sub w (Word.add w newSz s.growSz) 1 / s.growSz)
    let call := os.growCall w s newSz
    if answer call then
      let s := { s with protectSz := newSz, usedSz := Word.add w offset size }
      return ⟨some (Word.add w s.base offset), some call, s⟩
    else return ⟨none, some call, s⟩
  else
    let s := { s with usedSz := Word.add w offset size }
    return ⟨some (Word.add w s.base offset), none, s⟩

/-- What `cop_alloc_virtual_free` calls the system with: `munmap(s->base, s->reserve_sz)`, or
`VirtualFree(s->base, 0, MEM_RELEASE)`. -/
def copAllocVirtualFree (s : Virtual) : Os → ℕ × ℕ
  | .posix => (s.base, s.reserveSz)
  | .windows => (s.base, 0)

/-- Without `_WIN32` it is the model of `Cop.Alloc.Virtual`. -/
theorem aallocAlignAllocOn_posix (w : ℕ) (s : Virtual) (size align : ℕ) (ok : Bool) :
    aallocAlignAllocOn .posix w s size align (fun _ => ok) = aallocAlignAlloc w s size align ok := rfl

/-! ### The systems -/

/-- The range is one that the system makes accessible, if it has memory. -/
def Os.Grants (s : Virtual) (call : ℕ × ℕ) : Os → Prop
  | .posix => call.1 + call.2 ≤ s.base + s.reserveSz
  | .windows => 0 < call.2 ∧ s.base ≤ call.1 ∧ call.1 + call.2 ≤ s.base + s.reserveSz

instance (os : Os) (s : Virtual) (call : ℕ × ℕ) : Decidable (os.Grants s call) := by
  cases os
  · exact inferInstanceAs (Decidable (_ ≤ _))
  · exact inferInstanceAs (Decidable (_ ∧ _))

/-- An allocator, and what the system made accessible for it. -/
structure Space where
  /-- The allocator. -/
  state : Virtual
  /-- The ranges that were granted, newest first. -/
  granted : List (ℕ × ℕ)

/-- The interface, on a system that has memory if `mem`. -/
def spaceIface (os : Os) (w : ℕ) : Salloc Space Bool where
  alloc sp size align mem := do
    let out ← aallocAlignAllocOn os w sp.state size align fun call => decide (os.Grants sp.state call) && mem
    let granted := if out.ret = none then [] else out.call.toList
    return (out.ret, ⟨out.state, granted ++ sp.granted⟩)
  save sp := aallocSave sp.state
  restore sp m _ := do
    let s ← aallocRestore sp.state m
    return { sp with state := s }

/-! ### One call -/

/-- What `aalloc_align_alloc` does after it has found the offset of the block. -/
def placeOn (os : Os) (w : ℕ) (s : Virtual) (offset size : ℕ) (answer : ℕ × ℕ → Bool) : Exec Fault Outcome :=
  if Word.add w offset size > s.protectSz then do
    check .divByZero (s.growSz ≠ 0)
    if answer (os.growCall w s (s.newSz w (Word.add w offset size))) then
      return ⟨some (Word.add w s.base offset), some (os.growCall w s (s.newSz w (Word.add w offset size))),
        { s with protectSz := s.newSz w (Word.add w offset size), usedSz := Word.add w offset size }⟩
    else return ⟨none, some (os.growCall w s (s.newSz w (Word.add w offset size))), s⟩
  else return ⟨some (Word.add w s.base offset), none, { s with usedSz := Word.add w offset size }⟩

theorem aallocAlignAllocOn_eq (h : DefaultOk w s.defaultAlign) {size align : ℕ} (ha : AlignOk w align)
    (answer : ℕ × ℕ → Bool) :
    aallocAlignAllocOn os w s size align answer = placeOn os w s (Word.add w s.usedSz (s.pad align)) size answer := by
  obtain ⟨hpow, hlt⟩ := h.orDefault ha
  have hassert : check Fault.assertion (alignAsserted w (s.alignOf align)) = .ok () :=
    check_pos ((alignAsserted_iff hlt).2 hpow)
  have hoff : aallocAlignoffset w (Word.add w s.base s.usedSz) (Word.sub w (s.alignOf align) 1) = s.pad align :=
    aallocAlignoffset_eq hpow hlt _
  simp only [aallocAlignAllocOn, hassert, hoff]
  rfl

/-- What the calls keep: the allocator is in its reservation, and what is accessible is what was granted. -/
structure Backed (os : Os) (w : ℕ) (s₀ : Virtual) (sp : Space) : Prop where
  /-- What is handed out is accessible. -/
  used_le : sp.state.usedSz ≤ sp.state.protectSz
  /-- The allocator is within its reservation. -/
  within : Within w s₀ sp.state
  /-- What was granted. -/
  granted : match os with
    | .posix => Nested s₀.base sp.granted sp.state.protectSz
    | .windows => Tiles s₀.base sp.granted sp.state.protectSz

/-- No end of a block wraps; and on POSIX, neither does the sum that is rounded, if more is to be accessible. -/
def Exact (os : Os) (w : ℕ) (sp : Space) : Request Bool → Prop
  | .alloc size align _ => sp.state.endOf size align < 2 ^ w ∧
      (os = .posix → sp.state.protectSz < sp.state.endOf size align → sp.state.endOf size align + sp.state.growSz ≤ 2 ^ w)
  | _ => True

theorem grants_iff (h : Within w s₀ s) {n : ℕ} (hn : n < 2 ^ w) (hpos : s.protectSz < n) (hgrow : s.growSz ≠ 0)
    (hround : os = .posix → n + s.growSz ≤ 2 ^ w) :
    os.Grants s (os.growCall w s (s.newSz w n)) ↔ n + s.growSz ≤ 2 ^ w ∧ roundUp s.growSz n ≤ s.reserveSz := by
  obtain ⟨-, -, hmap⟩ := h.mapped
  have hprot := h.protect_le
  by_cases hwrap : n + s.growSz ≤ 2 ^ w
  · have hle : n ≤ roundUp s.growSz n := le_roundUp (Nat.pos_of_ne_zero hgrow)
    have hlt : roundUp s.growSz n < 2 ^ w := by
      have := roundUp_lt (n := n) (Nat.pos_of_ne_zero hgrow)
      omega
    rw [newSz_eq hgrow hwrap]
    cases os with
    | posix =>
      change s.base + roundUp s.growSz n ≤ s.base + s.reserveSz ↔ _
      omega
    | windows =>
      change 0 < Word.sub w _ _ ∧ s.base ≤ Word.add w _ _ ∧ Word.add w _ _ + Word.sub w _ _ ≤ _ ↔ _
      rw [Word.sub_of_le (by omega) hlt, Word.add_of_lt (by omega)]
      omega
  · -- the size that is rounded is zero
    rw [newSz_wrap h.grow_lt hn (by omega)]
    cases os with
    | posix => exact absurd (hround rfl) hwrap
    | windows =>
      change 0 < Word.sub w _ _ ∧ s.base ≤ Word.add w _ _ ∧ Word.add w _ _ + Word.sub w _ _ ≤ _ ↔ _
      rw [Word.add_of_lt (by omega)]
      have hsub : Word.sub w 0 s.protectSz = 0 ∨ Word.sub w 0 s.protectSz + s.protectSz = 2 ^ w := by
        rcases Nat.eq_zero_or_pos s.protectSz with h0 | h0
        · left
          rw [h0, Word.sub_of_le le_rfl (by omega)]
        · right
          rw [Word.sub, Nat.zero_add, Nat.mod_eq_of_lt (by omega)]
          omega
      omega

/-- The range by which the accessible part grows to `n`. -/
def Os.growth (s : Virtual) (n : ℕ) : Os → ℕ × ℕ
  | .posix => (s.base, roundUp s.growSz n)
  | .windows => (s.base + s.protectSz, roundUp s.growSz n - s.protectSz)

variable {sp : Space} {size align : ℕ}

/-- **A call of `alloc`, in exact arithmetic.** -/
theorem Backed.alloc_eq (h : Backed os w s₀ sp) (ha : AlignOk w align) {mem : Bool} (hE : Exact os w sp (.alloc size align mem)) :
    (spaceIface os w).alloc sp size align mem =
      if sp.state.endOf size align ≤ sp.state.protectSz then
        .ok (some (sp.state.base + (sp.state.usedSz + sp.state.pad align)),
          ⟨{ sp.state with usedSz := sp.state.endOf size align }, sp.granted⟩)
      else if sp.state.growSz = 0 then .error (.fault .divByZero)
      else if (sp.state.endOf size align + sp.state.growSz ≤ 2 ^ w ∧
          roundUp sp.state.growSz (sp.state.endOf size align) ≤ sp.state.reserveSz) ∧ mem then
        .ok (some (sp.state.base + (sp.state.usedSz + sp.state.pad align)),
          ⟨{ sp.state with
              protectSz := roundUp sp.state.growSz (sp.state.endOf size align)
              usedSz := sp.state.endOf size align },
            os.growth sp.state (sp.state.endOf size align) :: sp.granted⟩)
      else .ok (none, sp) := by
  obtain ⟨hend, hround⟩ := hE
  obtain ⟨-, -, hmap⟩ := h.within.mapped
  have hprot := h.within.protect_le
  have hblock : sp.state.usedSz + sp.state.pad align ≤ sp.state.endOf size align := Nat.le_add_right _ _
  have hoff : Word.add w sp.state.usedSz (sp.state.pad align) = sp.state.usedSz + sp.state.pad align :=
    Word.add_of_lt (by omega)
  have hsum : Word.add w (sp.state.usedSz + sp.state.pad align) size = sp.state.endOf size align := Word.add_of_lt hend
  change (aallocAlignAllocOn os w sp.state size align _ >>= _) = _
  rw [aallocAlignAllocOn_eq h.within.default ha, hoff, placeOn, hsum]
  by_cases hle : sp.state.endOf size align ≤ sp.state.protectSz
  · rw [if_pos hle, if_neg (by omega), Word.add_of_lt (by omega)]
    rfl
  · rw [if_neg hle, if_pos (by omega)]
    by_cases hgrow : sp.state.growSz = 0
    · rw [if_pos hgrow, check, if_neg (not_not.2 hgrow)]
      rfl
    · rw [if_neg hgrow, check_pos hgrow]
      have hgrants : os.Grants sp.state _ ↔ _ := grants_iff h.within hend (by omega) hgrow fun hos => hround hos (by omega)
      have hanswer : (decide (os.Grants sp.state (os.growCall w sp.state (sp.state.newSz w (sp.state.endOf size align)))) &&
          mem) = true ↔ (sp.state.endOf size align + sp.state.growSz ≤ 2 ^ w ∧
            roundUp sp.state.growSz (sp.state.endOf size align) ≤ sp.state.reserveSz) ∧ mem := by
        rw [Bool.and_eq_true, decide_eq_true_iff, hgrants]
      by_cases hyes : (sp.state.endOf size align + sp.state.growSz ≤ 2 ^ w ∧
          roundUp sp.state.growSz (sp.state.endOf size align) ≤ sp.state.reserveSz) ∧ mem
      · have hle' := le_roundUp (n := sp.state.endOf size align) (Nat.pos_of_ne_zero hgrow)
        have hcall : os.growCall w sp.state (roundUp sp.state.growSz (sp.state.endOf size align)) =
            os.growth sp.state (sp.state.endOf size align) := by
          cases os with
          | posix => rfl
          | windows =>
            change (Word.add w _ _, Word.sub w _ _) = _
            rw [Word.add_of_lt (by omega), Word.sub_of_le (by omega) (by omega)]
            rfl
        rw [if_pos hyes, if_pos (hanswer.2 hyes), newSz_eq hgrow hyes.1.1, Word.add_of_lt (by omega), hcall]
        rfl
      · rw [if_neg hyes, if_neg (mt hanswer.1 hyes)]
        rfl

theorem Backed.alloc_cases (h : Backed os w s₀ sp) (ha : AlignOk w align) {mem : Bool}
    (hE : Exact os w sp (.alloc size align mem)) {p : Option ℕ} {sp' : Space}
    (hcall : (spaceIface os w).alloc sp size align mem = .ok (p, sp')) :
    p = none ∧ sp' = sp ∨
      p = some (sp.state.base + (sp.state.usedSz + sp.state.pad align)) ∧ Backed os w s₀ sp' ∧
        ∃ protectSz, sp'.state = { sp.state with protectSz := protectSz, usedSz := sp.state.endOf size align } := by
  obtain ⟨-, -, hmap⟩ := h.within.mapped
  rw [h.alloc_eq ha hE] at hcall
  split at hcall
  · rename_i hle
    cases hcall
    have hprot := h.within.protect_le
    exact .inr ⟨rfl, ⟨hle, { h.within with used_le := hle.trans hprot }, h.granted⟩, _, rfl⟩
  · rename_i hgt
    split at hcall
    · cases hcall
    · rename_i hgrow
      split at hcall
      · rename_i hyes
        cases hcall
        have hle := le_roundUp (n := sp.state.endOf size align) (Nat.pos_of_ne_zero hgrow)
        have hreserve := hyes.1.2
        have hgranted := h.granted
        have hbase := h.within.base_eq
        refine .inr ⟨rfl, ⟨hle, { h.within with used_le := hle.trans hreserve, protect_le := hreserve }, ?_⟩, _, rfl⟩
        cases os with
        | posix => exact ⟨sp.state.protectSz, hgranted, hbase, show _ < roundUp _ _ by omega, rfl⟩
        | windows =>
          have hsum : roundUp sp.state.growSz (sp.state.endOf size align) =
              sp.state.protectSz + (roundUp sp.state.growSz (sp.state.endOf size align) - sp.state.protectSz) := by omega
          exact ⟨sp.state.protectSz, hgranted, congrArg (· + sp.state.protectSz) hbase,
            show 0 < roundUp _ _ - _ by omega, hsum⟩
      · cases hcall
        exact .inl ⟨rfl, rfl⟩

theorem spaceIface_restore {sp' : Space} {m : ℕ} {mem : Bool} (h : (spaceIface os w).restore sp m mem = .ok sp') :
    m ≤ sp.state.usedSz ∧ sp' = { sp with state := { sp.state with usedSz := m } } := by
  obtain ⟨s, hs, h⟩ := bind_ok h
  obtain ⟨_, hle, hs⟩ := bind_ok hs
  cases hs
  cases h
  exact ⟨check_ok hle, rfl⟩

/-- **The calls keep their invariant**, on either platform, and blocks stay where they were placed. -/
theorem os_sound (os : Os) (w : ℕ) (s₀ : Virtual) :
    Sound w (spaceIface os w) (Exact os w) (Backed os w s₀) fun sp b e => Placed sp.state b e := by
  constructor
  · intro sp sp' size align mem p hs _ ha hE hcall
    obtain ⟨hnone, -⟩ | ⟨hp, hkeeps, protectSz, hstate⟩ := hs.alloc_cases ha hE hcall
    · cases hnone
    · obtain rfl := Option.some.inj hp
      change _ ∧ sp.state.usedSz + size ≤ sp'.state.usedSz ∧ Placed sp'.state _ sp'.state.usedSz ∧ _
      rw [hstate]
      exact ⟨hkeeps, usedSz_add_le_endOf size align, placed_next hs.within.default ha rfl rfl,
        fun b e _ hb => hb.congr rfl rfl⟩
  · intro sp sp' size align mem hs _ ha hE hcall
    obtain ⟨-, rfl⟩ | ⟨hsome, -⟩ := hs.alloc_cases ha hE hcall
    · rfl
    · cases hsome
  · intro sp sp' m mem hs _ hm hcall
    obtain ⟨hle, rfl⟩ := spaceIface_restore hcall
    exact ⟨⟨hle.trans hs.used_le, { hs.within with used_le := hle.trans hs.within.used_le }, hs.granted⟩, rfl,
      fun b e _ hb => hb.congr rfl rfl⟩

theorem backed_init (os : Os) {ps reserveSz defaultAlign growSz : ℕ} {map : Option ℕ} (hd : defaultAlign < 2 ^ w)
    (hinit : copAllocVirtualInit w ps reserveSz defaultAlign growSz map = .ok (some s₀)) : Backed os w s₀ ⟨s₀, []⟩ := by
  obtain ⟨hdef, hmap, hused, hprot, hgrow⟩ := copAllocVirtualInit_ok hd hinit
  have hused' : s₀.usedSz ≤ s₀.reserveSz := by omega
  have hprot' : s₀.protectSz ≤ s₀.reserveSz := by omega
  refine ⟨show s₀.usedSz ≤ s₀.protectSz by omega, ⟨hdef, hmap, hgrow, hused', hprot', rfl, rfl⟩, ?_⟩
  cases os
  · exact hprot
  · exact hprot

/-- What is accessible is what the allocator says. -/
theorem Backed.covered_iff (h : Backed os w s₀ sp) (a : ℕ) :
    Covered sp.granted a ↔ s₀.base ≤ a ∧ a < s₀.base + sp.state.protectSz := by
  have hgranted := h.granted
  cases os with
  | posix => exact Nested.covered_iff hgranted
  | windows => exact Tiles.covered_iff hgranted

/-! ### Runs on Windows -/

/-- What a client on Windows relies on. -/
structure Safe (w : ℕ) (s₀ : Virtual) (c : Client Space) : Prop where
  /-- The accessible part is in the reservation. -/
  reserved : c.state.state.protectSz ≤ s₀.reserveSz
  /-- It was committed a piece at a time. -/
  tiles : Tiles s₀.base c.state.granted c.state.state.protectSz
  /-- Nothing was committed twice. -/
  once : c.state.granted.Pairwise fun newer older => older.1 + older.2 ≤ newer.1
  /-- Every byte of a block is accessible. -/
  accessible : ∀ b ∈ c.live, ∀ a, b.addr ≤ a → a < b.addr + b.size → Covered c.state.granted a
  /-- Blocks are aligned. -/
  aligned : ∀ b ∈ c.live, c.state.state.alignOf b.align ∣ b.addr
  /-- Blocks are apart. -/
  apart : c.live.Pairwise Block.Apart
  /-- What is released is what was reserved. -/
  released : copAllocVirtualFree c.state.state .windows = (s₀.base, 0)
  /-- A request that does not fit in the reservation, or whose rounding wraps, is refused and changes nothing. -/
  refused : c.state.state.growSz ≠ 0 → ∀ size align mem, AlignOk w align → c.state.state.endOf size align < 2 ^ w →
    c.state.state.protectSz < c.state.state.endOf size align →
    2 ^ w < c.state.state.endOf size align + c.state.state.growSz ∨
      s₀.reserveSz < roundUp c.state.state.growSz (c.state.state.endOf size align) →
    (spaceIface .windows w).alloc c.state size align mem = .ok (none, c.state)

/-- A request that the system does not grant is refused. -/
theorem Backed.alloc_refused (h : Backed .windows w s₀ sp) (hgrow : sp.state.growSz ≠ 0) (ha : AlignOk w align)
    (hend : sp.state.endOf size align < 2 ^ w) (hprotect : sp.state.protectSz < sp.state.endOf size align)
    (hno : 2 ^ w < sp.state.endOf size align + sp.state.growSz ∨
      s₀.reserveSz < roundUp sp.state.growSz (sp.state.endOf size align)) (mem : Bool) :
    (spaceIface .windows w).alloc sp size align mem = .ok (none, sp) := by
  rw [← h.within.reserve_eq] at hno
  rw [h.alloc_eq ha ⟨hend, fun hos => by cases hos⟩, if_neg (by omega), if_neg hgrow, if_neg]
  rintro ⟨⟨hwrap, hfits⟩, -⟩
  omega

theorem Backed.of_holding {c : Client Space}
    (hc : Holding (spaceIface os w) (Backed os w s₀) (fun sp b e => Placed sp.state b e) c) :
    (∀ b ∈ c.live, (∀ a, b.addr ≤ a → a < b.addr + b.size → Covered c.state.granted a) ∧
      c.state.state.alignOf b.align ∣ b.addr) ∧ c.live.Pairwise Block.Apart := by
  constructor
  · intro b hb
    obtain ⟨⟨b', e⟩, hx, rfl⟩ := List.mem_map.1 hb
    have hplaced := hc.placed _ hx
    have htop : e ≤ c.state.state.usedSz := (hc.stacked.le_top hx).2
    have haddr := hplaced.addr
    have hle := hplaced.le
    have hused := hc.inv.used_le
    have hbase := hc.inv.within.base_eq
    dsimp only at haddr hle
    refine ⟨fun a ha ha' => (hc.inv.covered_iff a).2 ?_, hplaced.aligned⟩
    dsimp only at ha ha'
    omega
  · apply hc.apart
    intro a e b f hfe hle _ ha hb
    have haddr := ha.addr
    have haddr' := hb.addr
    right
    omega

/-- **On Windows, live blocks are safe in every run in which no end of a block wraps**, whatever is asked for and
whenever memory runs out. A request that does not fit in the reservation, or where rounding the size up wraps, is
refused wherever the run has come to, if `grow_sz` is not 0 (it is divided by). -/
theorem windows_blocks_safe {ps reserveSz defaultAlign growSz : ℕ} {map : Option ℕ} (hd : defaultAlign < 2 ^ w)
    (hinit : copAllocVirtualInit w ps reserveSz defaultAlign growSz map = .ok (some s₀)) {us : List (Use Bool)}
    {c : Client Space}
    (hE : Meets (Client.step w (spaceIface .windows w)) (Client.Calls (Exact .windows w)) us ⟨⟨s₀, []⟩, []⟩)
    (h : steps (Client.step w (spaceIface .windows w)) us ⟨⟨s₀, []⟩, []⟩ = some c) : Safe w s₀ c := by
  have hc := (os_sound .windows w s₀).run (backed_init .windows hd hinit) hE h
  obtain ⟨hblocks, hapart⟩ := Backed.of_holding hc
  have hwithin := hc.inv.within
  have htiles : Tiles s₀.base c.state.granted c.state.state.protectSz := hc.inv.granted
  refine ⟨?_, htiles, htiles.pairwise, fun b hb => (hblocks b hb).1, fun b hb => (hblocks b hb).2, hapart, ?_,
    fun hgrow size align mem ha hend hprotect hno => hc.inv.alloc_refused hgrow ha hend hprotect hno mem⟩
  · rw [← hwithin.reserve_eq]
    exact hwithin.protect_le
  · rw [copAllocVirtualFree, hwithin.base_eq]

/-- Three requests: the second does not fit in two pages, and the rounding of the third wraps. -/
def greedyUses : List (Use Bool) := [.alloc 5000 16 true, .alloc 10000 16 true, .alloc (2 ^ 64 - 6000) 16 true]

theorem windows_blocks_safe_greedy :
    ∃ c, steps (Client.step 64 (spaceIface .windows 64)) greedyUses ⟨⟨twoPages, []⟩, []⟩ = some c ∧
      c.live.length = 1 ∧ Safe 64 twoPages c := by
  have hinit : copAllocVirtualInit 64 4096 8192 16 0 (some 1048576) = .ok (some twoPages) := rfl
  have hE : Meets (Client.step 64 (spaceIface .windows 64)) (Client.Calls (Exact .windows 64)) greedyUses
      ⟨⟨twoPages, []⟩, []⟩ :=
    ⟨⟨by decide, by decide⟩, ⟨by decide, by decide⟩, ⟨by decide, by decide⟩, trivial⟩
  exact ⟨_, rfl, rfl, windows_blocks_safe (by decide) hinit hE rfl⟩

/-! ### Both platforms -/

/-- What can be seen of a client: the allocator, what is held, and what is accessible. -/
def seen (c : Client Space) : Virtual × List (Held Block) × (ℕ → Prop) := (c.state.state, c.held, Covered c.state.granted)

/-- Two clients, one on either platform, that cannot be told apart. -/
structure Alike (w : ℕ) (s₀ : Virtual) (c d : Client Space) : Prop where
  /-- Their allocators are the same. -/
  state_eq : d.state.state = c.state.state
  /-- They hold the same. -/
  held_eq : d.held = c.held
  /-- What is held on POSIX is where it was placed. -/
  posix : Holding (spaceIface .posix w) (Backed .posix w s₀) (fun sp b e => Placed sp.state b e) c
  /-- What is held on Windows is where it was placed. -/
  windows : Holding (spaceIface .windows w) (Backed .windows w s₀) (fun sp b e => Placed sp.state b e) d

theorem Alike.seen_eq {c d : Client Space} (h : Alike w s₀ c d) : seen c = seen d := by
  have hcovered : Covered c.state.granted = Covered d.state.granted := by
    funext a
    rw [eq_iff_iff, h.posix.inv.covered_iff, h.windows.inv.covered_iff, h.state_eq]
  rw [seen, seen, h.state_eq, h.held_eq, hcovered]

/-- A call that is exact on POSIX is exact on Windows. -/
theorem Exact.windows {sp sp' : Space} (hstate : sp'.state = sp.state) {r : Request Bool} (h : Exact .posix w sp r) :
    Exact .windows w sp' r := by
  cases r with
  | alloc size align mem =>
    refine ⟨?_, fun hos => by cases hos⟩
    rw [hstate]
    exact h.1
  | save => trivial
  | restore m mem => trivial

theorem alloc_same {sp' : Space} (h : Backed .posix w s₀ sp) (h' : Backed .windows w s₀ sp') (hstate : sp'.state = sp.state)
    (ha : AlignOk w align) {mem : Bool} (hE : Exact .posix w sp (.alloc size align mem)) :
    ((spaceIface .posix w).alloc sp size align mem).map (fun x => (x.1, x.2.state)) =
      ((spaceIface .windows w).alloc sp' size align mem).map fun x => (x.1, x.2.state) := by
  rw [h.alloc_eq ha hE, h'.alloc_eq ha (hE.windows hstate), hstate]
  split
  · rfl
  · split
    · rfl
    · split
      · rfl
      · exact congrArg (fun s => Except.ok (none, s)) hstate.symm

theorem alike_step {c d : Client Space} (h : Alike w s₀ c d) {u : Use Bool} (hE : c.Calls (Exact .posix w) u) :
    (c.step w (spaceIface .posix w) u = none ∧ d.step w (spaceIface .windows w) u = none) ∨
      ∃ c' d', c.step w (spaceIface .posix w) u = some c' ∧ d.step w (spaceIface .windows w) u = some d' ∧
        Alike w s₀ c' d' := by
  have hE' : d.Calls (Exact .windows w) u := by
    unfold Client.Calls at hE ⊢
    have hreq : d.request u = c.request u := by cases u <;> simp [Client.request, h.held_eq]
    rw [hreq]
    cases hr : c.request u with
    | none => trivial
    | some r =>
      rw [hr] at hE
      exact Exact.windows h.state_eq hE
  -- the steps are alike if what they lead to looks alike
  suffices hlook : (c.step w (spaceIface .posix w) u).map (fun c => (c.state.state, c.held)) =
      (d.step w (spaceIface .windows w) u).map fun c => (c.state.state, c.held) by
    cases hc : c.step w (spaceIface .posix w) u with
    | none =>
      rw [hc] at hlook
      exact .inl ⟨rfl, Option.map_eq_none_iff.1 hlook.symm⟩
    | some c' =>
      rw [hc] at hlook
      obtain ⟨d', hd, heq⟩ := Option.map_eq_some_iff.1 hlook.symm
      obtain ⟨hstate, hheld⟩ := Prod.mk.inj heq
      exact .inr ⟨c', d', rfl, hd, hstate, hheld, (os_sound .posix w s₀).step h.posix hE hc,
        (os_sound .windows w s₀).step h.windows hE' hd⟩
  cases u with
  | alloc size align mem =>
    simp only [Client.step]
    split
    · rename_i hwf
      have hsame : ((spaceIface .posix w).alloc c.state size align mem).map (fun x => (x.1, x.2.state)) =
          ((spaceIface .windows w).alloc d.state size align mem).map fun x => (x.1, x.2.state) :=
        alloc_same h.posix.inv h.windows.inv h.state_eq hwf.2 hE
      revert hsame
      generalize (spaceIface .posix w).alloc c.state size align mem = x
      generalize (spaceIface .windows w).alloc d.state size align mem = y
      intro hsame
      cases x with
      | error e =>
        cases y with
        | error e' => rfl
        | ok q => cases hsame
      | ok q =>
        cases y with
        | error e' => cases hsame
        | ok q' =>
          obtain ⟨p, sp⟩ := q
          obtain ⟨p', sp'⟩ := q'
          obtain ⟨rfl, hstate⟩ := Prod.mk.inj (Except.ok.inj hsame)
          dsimp only at hstate
          cases p with
          | none => exact congrArg some (Prod.ext hstate h.held_eq.symm)
          | some p =>
            refine congrArg some (Prod.ext hstate ?_)
            change Held.block _ (aallocSave sp.state) :: c.held = Held.block _ (aallocSave sp'.state) :: d.held
            rw [h.held_eq, hstate]
    · rfl
  | save =>
    refine congrArg some (Prod.ext h.state_eq.symm ?_)
    change Held.mark (aallocSave c.state.state) :: c.held = Held.mark (aallocSave d.state.state) :: d.held
    rw [h.held_eq, h.state_eq]
  | restore i mem =>
    simp only [Client.step, h.held_eq]
    cases hd : dropTo c.held i with
    | none => rfl
    | some x =>
      obtain ⟨m, held⟩ := x
      dsimp only
      change (((aallocRestore c.state.state m >>= _ : Exec Fault Space)).toOption.map _).map _ =
        (((aallocRestore d.state.state m >>= _ : Exec Fault Space)).toOption.map _).map _
      rw [h.state_eq]
      cases aallocRestore c.state.state m <;> rfl

/-- **Both platforms do the same.** In every run in which no end of a block wraps and no sum that is rounded does, on
systems that grant what is reserved, both give the same answer to every call, whenever memory runs out,
leave the allocator in the same state, and make the same addresses accessible. -/
theorem platforms_agree {ps reserveSz defaultAlign growSz : ℕ} {map : Option ℕ} (hd : defaultAlign < 2 ^ w)
    (hinit : copAllocVirtualInit w ps reserveSz defaultAlign growSz map = .ok (some s₀)) {us : List (Use Bool)}
    (hE : Meets (Client.step w (spaceIface .posix w)) (Client.Calls (Exact .posix w)) us ⟨⟨s₀, []⟩, []⟩) :
    (steps (Client.step w (spaceIface .posix w)) us ⟨⟨s₀, []⟩, []⟩).map seen =
      (steps (Client.step w (spaceIface .windows w)) us ⟨⟨s₀, []⟩, []⟩).map seen := by
  have halike : Alike w s₀ ⟨⟨s₀, []⟩, []⟩ ⟨⟨s₀, []⟩, []⟩ :=
    ⟨rfl, rfl, ⟨backed_init .posix hd hinit, trivial, fun x hx => by cases hx⟩,
      ⟨backed_init .windows hd hinit, trivial, fun x hx => by cases hx⟩⟩
  have hlook : ∀ c d, Alike w s₀ c d → seen c = seen d := fun c d h => h.seen_eq
  have hstep : ∀ c d u, Alike w s₀ c d → c.Calls (Exact .posix w) u →
      (c.step w (spaceIface .posix w) u = none ∧ d.step w (spaceIface .windows w) u = none) ∨
        ∃ c' d', c.step w (spaceIface .posix w) u = some c' ∧ d.step w (spaceIface .windows w) u = some d' ∧
          Alike w s₀ c' d' := fun c d u h hEu => alike_step h hEu
  exact steps_lockstep hlook hstep halike hE

theorem platforms_agree_sample :
    (steps (Client.step 64 (spaceIface .posix 64)) sampleUses ⟨⟨sampleReservation, []⟩, []⟩).map seen =
      (steps (Client.step 64 (spaceIface .windows 64)) sampleUses ⟨⟨sampleReservation, []⟩, []⟩).map seen := by
  have hinit : copAllocVirtualInit 64 4096 65536 16 0 (some 1048576) = .ok (some sampleReservation) := rfl
  have hE : Meets (Client.step 64 (spaceIface .posix 64)) (Client.Calls (Exact .posix 64)) sampleUses
      ⟨⟨sampleReservation, []⟩, []⟩ :=
    ⟨⟨by decide, by decide⟩, trivial, ⟨by decide, by decide⟩, ⟨by decide, by decide⟩, trivial,
      ⟨by decide, by decide⟩, trivial⟩
  exact platforms_agree (by decide) hinit hE

/-- **Where the sum that is rounded wraps, the platforms differ.** POSIX is asked for nothing, and a block is
returned of which nothing is accessible; Windows refuses, and nothing changes. -/
theorem platforms_differ (h : Backed .posix w s₀ sp) {sp' : Space} (h' : Backed .windows w s₀ sp') (hstate : sp'.state = sp.state)
    (ha : AlignOk w align) (hend : sp.state.endOf size align < 2 ^ w)
    (hwrap : 2 ^ w < sp.state.endOf size align + sp.state.growSz) (hgt : sp.state.protectSz < sp.state.endOf size align)
    (hgrow : sp.state.growSz ≠ 0) :
    (∃ p t, (spaceIface .posix w).alloc sp size align true = .ok (some p, t) ∧ t.state.protectSz = 0 ∧
      t.granted = (sp.state.base, 0) :: sp.granted) ∧
    (spaceIface .windows w).alloc sp' size align true = .ok (none, sp') := by
  have hoff : Word.add w sp.state.usedSz (sp.state.pad align) = sp.state.usedSz + sp.state.pad align :=
    Word.add_of_lt (lt_of_le_of_lt (Nat.le_add_right _ _) hend)
  have hsum : Word.add w (sp.state.usedSz + sp.state.pad align) size = sp.state.endOf size align := Word.add_of_lt hend
  have hnew : sp.state.newSz w (sp.state.endOf size align) = 0 := newSz_wrap h.within.grow_lt hend hwrap
  constructor
  · refine ⟨Word.add w sp.state.base (sp.state.usedSz + sp.state.pad align),
      ⟨{ sp.state with protectSz := 0, usedSz := sp.state.endOf size align }, (sp.state.base, 0) :: sp.granted⟩,
      ?_, rfl, rfl⟩
    change (aallocAlignAllocOn .posix w sp.state size align _ >>= _) = _
    have hgrants : Os.posix.Grants sp.state (sp.state.base, 0) := Nat.le_add_right _ _
    rw [aallocAlignAllocOn_eq h.within.default ha, hoff, placeOn, hsum, if_pos hgt, check_pos hgrow, hnew,
      if_pos (by rw [Bool.and_true]; exact decide_eq_true hgrants)]
    rfl
  · have hE : Exact .windows w sp' (.alloc size align true) := ⟨hstate ▸ hend, fun hos => by cases hos⟩
    rw [h'.alloc_eq ha hE, hstate, if_neg (by omega), if_neg hgrow, if_neg (by omega)]

end Cop.Alloc.Virtual
