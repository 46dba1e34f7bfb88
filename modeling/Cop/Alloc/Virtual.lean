import Cop.Alloc.Iface

/-!
# The virtual allocator

`cop_alloc_virtual` of `cop_alloc.c`, on the platforms with `mmap` and `mprotect`. The
allocator reserves `reserve_sz` bytes of address space from `base` on, and hands out
blocks by raising `used_sz`; memory up to `protect_sz` is accessible, and when a block
ends beyond it the allocator asks `mprotect` for more, in multiples of `grow_sz`.

## What is proved

* `copAllocVirtualInit_ok` — what an allocator that was set up looks like.
* `aallocAlignAlloc_eq` — a call of `alloc` with an alignment that may be asked for, with
  the padding in place of the bit arithmetic.
* `step_cases` — what a call of the interface did.
* `virtual_sound` — where no sum wraps, the calls keep `used_sz ≤ protect_sz`, and blocks
  are where they were placed.
* `virtual_blocks_safe` — what that means for the blocks that are live after any run.
-/

namespace Cop.Alloc

open Theory

/-- `struct cop_alloc_virtual`. -/
structure Virtual where
  /-- The size of the reservation. -/
  reserveSz : ℕ
  /-- By what `protect_sz` grows. -/
  growSz : ℕ
  /-- The size of the part that is accessible. -/
  protectSz : ℕ
  /-- The size of the part that is handed out. -/
  usedSz : ℕ
  /-- The alignment of blocks that ask for none. -/
  defaultAlign : ℕ
  /-- The address of the reservation. -/
  base : ℕ
  deriving DecidableEq

/-- What a call of `aalloc_align_alloc` did. -/
structure Outcome where
  /-- The pointer that was returned, if it is not null. -/
  ret : Option ℕ
  /-- The address and the length that `mprotect` was called with, if it was called. -/
  call : Option (ℕ × ℕ)
  /-- The allocator after the call. -/
  state : Virtual
  deriving DecidableEq

/-- `align && (((align - 1) & align) == 0)`, "must be positive and a power of two". -/
def alignAsserted (w align : ℕ) : Prop := align ≠ 0 ∧ Word.sub w align 1 &&& align = 0

instance (w align : ℕ) : Decidable (alignAsserted w align) := inferInstanceAs (Decidable (_ ∧ _))

namespace Virtual

/-- `(align == 0) ? s->default_align : align`. -/
def alignOf (s : Virtual) (align : ℕ) : ℕ := orDefault s.defaultAlign align

/-- `aalloc_align_alloc`, where `mprotect` succeeds if `ok`. -/
def aallocAlignAlloc (w : ℕ) (s : Virtual) (size align : ℕ) (ok : Bool) : Exec Fault Outcome := do
  let align := s.alignOf align
  check .assertion (alignAsserted w align)
  let csz := s.usedSz
  let offset := Word.add w csz (aallocAlignoffset w (Word.add w s.base csz) (Word.sub w align 1))
  if Word.add w offset size > s.protectSz then
    let newSz := Word.add w offset size
    check .divByZero (s.growSz ≠ 0)
    let newSz := Word.mul w s.growSz (Word.sub w (Word.add w newSz s.growSz) 1 / s.growSz)
    if ok then
      let s := { s with protectSz := newSz, usedSz := Word.add w offset size }
      return ⟨some (Word.add w s.base offset), some (s.base, newSz), s⟩
    else return ⟨none, some (s.base, newSz), s⟩
  else
    let s := { s with usedSz := Word.add w offset size }
    return ⟨some (Word.add w s.base offset), none, s⟩

/-- `aalloc_save`. -/
def aallocSave (s : Virtual) : ℕ := s.usedSz

/-- `aalloc_restore`. -/
def aallocRestore (s : Virtual) (m : ℕ) : Exec Fault Virtual := do
  check .assertion (m ≤ s.usedSz)
  return { s with usedSz := m }

/-- What `mmap` promises of a mapping: it is not empty, its address is not null, and the address
one past its end is a word. -/
def Mapped (w base n : ℕ) : Prop := 0 < n ∧ 0 < base ∧ base + n < 2 ^ w

instance (w base n : ℕ) : Decidable (Mapped w base n) := inferInstanceAs (Decidable (_ ∧ _))

/-- `cop_alloc_virtual_init`, where the page size is `ps` and `mmap` returns `map`; the
allocator, if it returns 0. -/
def copAllocVirtualInit (w ps reserveSz defaultAlign growSz : ℕ) (map : Option ℕ) : Exec Fault (Option Virtual) := do
  check .assertion (alignAsserted w defaultAlign)
  check .assertion (reserveSz ≠ 0)
  if ps = 0 then return none
  let reserveSz := Word.mul w ps (Word.sub w (Word.add w reserveSz ps) 1 / ps)
  let growSz := Word.mul w ps (if growSz = 0 then 1 else Word.sub w (Word.add w growSz ps) 1 / ps)
  match map with
  | none => return none
  | some base =>
    assume (Mapped w base reserveSz)
    return some {
      reserveSz := reserveSz
      growSz := growSz
      protectSz := 0
      usedSz := 0
      defaultAlign := defaultAlign
      base := base }

/-- The interface that `cop_alloc_virtual_init` sets up. -/
def iface (w : ℕ) : Salloc Virtual Bool where
  alloc s size align ok := do
    let out ← aallocAlignAlloc w s size align ok
    return (out.ret, out.state)
  save := aallocSave
  restore s m _ := aallocRestore s m

/-! ### One call -/

/-- The padding before the next block. -/
def pad (s : Virtual) (align : ℕ) : ℕ := padTo (s.alignOf align) (s.base + s.usedSz)

/-- Where the next block ends, in exact arithmetic. -/
def endOf (s : Virtual) (size align : ℕ) : ℕ := s.usedSz + s.pad align + size

/-- The block lies between what was handed out and its end. -/
theorem usedSz_add_le_endOf {s : Virtual} (size align : ℕ) : s.usedSz + size ≤ s.endOf size align := by
  unfold endOf
  omega

end Virtual

/-- What is asserted of an alignment is that it is a power of two. -/
theorem alignAsserted_iff {w align : ℕ} (h : align < 2 ^ w) : alignAsserted w align ↔ align.isPowerOfTwo := by
  rw [← Nat.ne_zero_and_sub_one_eq_zero_iff_isPowerOfTwo, alignAsserted]
  apply and_congr_right
  intro hne
  rw [Word.sub_of_le (by omega) h, Nat.and_comm]

namespace Virtual

variable {w : ℕ} {s : Virtual}

/-- The size that `mprotect` is asked for to make the first `n` bytes accessible. -/
def newSz (w : ℕ) (s : Virtual) (n : ℕ) : ℕ := Word.mul w s.growSz (Word.sub w (Word.add w n s.growSz) 1 / s.growSz)

/-- What `aalloc_align_alloc` does after it has found the offset of the block. -/
def place (w : ℕ) (s : Virtual) (offset size : ℕ) (ok : Bool) : Exec Fault Outcome :=
  if Word.add w offset size > s.protectSz then do
    check .divByZero (s.growSz ≠ 0)
    if ok then
      return ⟨some (Word.add w s.base offset), some (s.base, s.newSz w (Word.add w offset size)),
        { s with protectSz := s.newSz w (Word.add w offset size), usedSz := Word.add w offset size }⟩
    else return ⟨none, some (s.base, s.newSz w (Word.add w offset size)), s⟩
  else return ⟨some (Word.add w s.base offset), none, { s with usedSz := Word.add w offset size }⟩

theorem aallocAlignAlloc_eq (h : DefaultOk w s.defaultAlign) {size align : ℕ} (ha : AlignOk w align) (ok : Bool) :
    aallocAlignAlloc w s size align ok = place w s (Word.add w s.usedSz (s.pad align)) size ok := by
  obtain ⟨hpow, hlt⟩ := h.orDefault ha
  have hassert : check Fault.assertion (alignAsserted w (s.alignOf align)) = .ok () :=
    check_pos ((alignAsserted_iff hlt).2 hpow)
  have hoff : aallocAlignoffset w (Word.add w s.base s.usedSz) (Word.sub w (s.alignOf align) 1) = s.pad align :=
    aallocAlignoffset_eq hpow hlt _
  simp only [aallocAlignAlloc, hassert, hoff]
  rfl

theorem place_ok {offset size : ℕ} {ok : Bool} {out : Outcome} (h : place w s offset size ok = .ok out) :
    Word.add w offset size ≤ s.protectSz ∧
        out = ⟨some (Word.add w s.base offset), none, { s with usedSz := Word.add w offset size }⟩ ∨
      s.protectSz < Word.add w offset size ∧ s.growSz ≠ 0 ∧
        out = if ok then
          ⟨some (Word.add w s.base offset), some (s.base, s.newSz w (Word.add w offset size)),
            { s with protectSz := s.newSz w (Word.add w offset size), usedSz := Word.add w offset size }⟩
        else ⟨none, some (s.base, s.newSz w (Word.add w offset size)), s⟩ := by
  unfold place at h
  split at h
  · rename_i hgt
    obtain ⟨_, hgrow, h⟩ := bind_ok h
    refine .inr ⟨hgt, check_ok hgrow, ?_⟩
    cases ok <;> exact (Except.ok.inj h).symm
  · rename_i hle
    exact .inl ⟨Nat.le_of_not_lt hle, (Except.ok.inj h).symm⟩

/-- Whatever the arguments, `aalloc_align_alloc` ends with `place`. -/
theorem aallocAlignAlloc_place {size align : ℕ} {ok : Bool} {out : Outcome}
    (h : aallocAlignAlloc w s size align ok = .ok out) : ∃ offset, place w s offset size ok = .ok out := by
  obtain ⟨_, -, h⟩ := bind_ok h
  exact ⟨_, h⟩

/-- A call that gets past the assertion asked for a proper alignment. -/
theorem alignOk_of_ok {size align : ℕ} {ok : Bool} {out : Outcome} (hlt : align < 2 ^ w)
    (h : aallocAlignAlloc w s size align ok = .ok out) : AlignOk w align := by
  obtain ⟨_, hassert, -⟩ := bind_ok h
  have halign := check_ok hassert
  unfold alignOf orDefault at halign
  split at halign
  · rename_i h0
    exact .inl h0
  · exact .inr ⟨(alignAsserted_iff hlt).1 halign, hlt⟩

theorem aallocAlignAlloc_null {size align : ℕ} {ok : Bool} {out : Outcome}
    (h : aallocAlignAlloc w s size align ok = .ok out) (hnull : out.ret = none) : out.state = s := by
  obtain ⟨offset, h⟩ := aallocAlignAlloc_place h
  rcases place_ok h with ⟨-, rfl⟩ | ⟨-, -, rfl⟩
  · cases hnull
  · cases ok with
    | false => rfl
    | true => cases hnull

/-! ### What a call through the interface did -/

theorem iface_alloc {t : Virtual} {size align : ℕ} {ok : Bool} {p : Option ℕ}
    (h : (iface w).alloc s size align ok = .ok (p, t)) :
    ∃ out, aallocAlignAlloc w s size align ok = .ok out ∧ out.ret = p ∧ out.state = t := by
  obtain ⟨out, hout, h⟩ := bind_ok h
  obtain ⟨hret, hstate⟩ := Prod.mk.inj (Except.ok.inj h)
  exact ⟨out, hout, hret, hstate⟩

theorem iface_alloc_null {t : Virtual} {size align : ℕ} {ok : Bool}
    (h : (iface w).alloc s size align ok = .ok (none, t)) : t = s := by
  obtain ⟨out, hout, hret, rfl⟩ := iface_alloc h
  exact aallocAlignAlloc_null hout hret

theorem iface_restore {t : Virtual} {m : ℕ} {ok : Bool} (h : (iface w).restore s m ok = .ok t) :
    m ≤ s.usedSz ∧ t = { s with usedSz := m } := by
  obtain ⟨_, hle, h⟩ := bind_ok h
  exact ⟨check_ok hle, (Except.ok.inj h).symm⟩

theorem step_cases {r : Request Bool} {t : Virtual} (h : (iface w).step w s r = some t) :
    (∃ size align ok out, r = .alloc size align ok ∧ AlignOk w align ∧
        aallocAlignAlloc w s size align ok = .ok out ∧ t = out.state) ∨
      (r = .save ∧ t = s) ∨ ∃ m ok, r = .restore m ok ∧ m ≤ s.usedSz ∧ t = { s with usedSz := m } := by
  cases r with
  | alloc size align ok =>
    obtain ⟨-, hlt, p, hcall⟩ := Salloc.step_alloc h
    obtain ⟨out, hout, -, hstate⟩ := iface_alloc hcall
    exact .inl ⟨size, align, ok, out, rfl, alignOk_of_ok hlt hout, hout, hstate.symm⟩
  | save => exact .inr (.inl ⟨rfl, (Option.some.inj h).symm⟩)
  | restore m ok =>
    obtain ⟨hle, ht⟩ := iface_restore (Salloc.step_restore h).2
    exact .inr (.inr ⟨m, ok, rfl, hle, ht⟩)

/-! ### The size that `mprotect` is asked for -/

/-- Where the sum does not wrap, the size asked for is the one rounded up. -/
theorem newSz_eq {n : ℕ} (hgrow : s.growSz ≠ 0) (h : n + s.growSz ≤ 2 ^ w) : s.newSz w n = roundUp s.growSz n :=
  Word.roundUp_eq hgrow h

/-- Where the sum that is rounded wraps, `mprotect` is asked for nothing. -/
theorem newSz_wrap {n : ℕ} (hgrow : s.growSz < 2 ^ w) (hn : n < 2 ^ w) (h : 2 ^ w < n + s.growSz) :
    s.newSz w n = 0 := Word.roundUp_wrap hgrow hn h

/-- The padding never takes a block past the end of the address space. -/
theorem base_add_offset_le (hd : DefaultOk w s.defaultAlign) {align : ℕ} (ha : AlignOk w align)
    (h : s.base + s.usedSz ≤ 2 ^ w) : s.base + (s.usedSz + s.pad align) ≤ 2 ^ w := by
  obtain ⟨hpow, hlt⟩ := hd.orDefault ha
  rw [← Nat.add_assoc]
  exact add_padTo_le (hd.orDefault_pos ha) (dvd_two_pow hpow hlt) h

theorem copAllocVirtualInit_ok {ps reserveSz defaultAlign growSz : ℕ} {map : Option ℕ} (hd : defaultAlign < 2 ^ w)
    (h : copAllocVirtualInit w ps reserveSz defaultAlign growSz map = .ok (some s)) :
    DefaultOk w s.defaultAlign ∧ Mapped w s.base s.reserveSz ∧ s.usedSz = 0 ∧ s.protectSz = 0 ∧ s.growSz < 2 ^ w := by
  obtain ⟨_, hassert, h⟩ := bind_ok h
  obtain ⟨-, -, h⟩ := bind_ok h
  split at h
  · cases h
  · cases map with
    | none => cases h
    | some base =>
      obtain ⟨_, hmap, h⟩ := bind_ok h
      cases h
      exact ⟨⟨(alignAsserted_iff hd).1 (check_ok hassert), hd⟩, assume_ok hmap, rfl, rfl, Word.mul_lt⟩

/-! ### Runs without wrapping -/

/-- No sum of `base`, `used_sz`, the padding, the size and `grow_sz` wraps. -/
structure NoWrap (w : ℕ) (s : Virtual) (size align : ℕ) : Prop where
  /-- The address of the block. -/
  addr : s.base + s.usedSz + s.pad align < 2 ^ w
  /-- Its end. -/
  fits : s.endOf size align < 2 ^ w
  /-- The sum that is rounded. -/
  round : s.protectSz < s.endOf size align → s.endOf size align + s.growSz < 2 ^ w

/-- What the calls keep. -/
structure Inv (w : ℕ) (s : Virtual) : Prop where
  /-- The default alignment is one. -/
  default : DefaultOk w s.defaultAlign
  /-- What is handed out is accessible. -/
  used_le : s.usedSz ≤ s.protectSz
  /-- The accessible part grew by `grow_sz`. -/
  grow_dvd : s.growSz ∣ s.protectSz

/-- The block is where the level says, at an address of its alignment. -/
structure Placed (s : Virtual) (b : Block) (e : ℕ) : Prop where
  /-- It ends at the level. -/
  addr : b.addr + b.size = s.base + e
  /-- It does not start before the reservation. -/
  le : b.size ≤ e
  /-- It is aligned as requested. -/
  aligned : s.alignOf b.align ∣ b.addr

/-- Restoring does not move blocks, nor does `mprotect`. -/
theorem Placed.congr {t : Virtual} {b : Block} {e : ℕ} (h : Placed s b e) (hbase : t.base = s.base)
    (hdef : t.defaultAlign = s.defaultAlign) : Placed t b e := by
  refine ⟨by rw [h.addr, hbase], h.le, ?_⟩
  rw [alignOf, hdef]
  exact h.aligned

theorem placed_next (hd : DefaultOk w s.defaultAlign) {size align : ℕ} (ha : AlignOk w align) {t : Virtual}
    (hbase : t.base = s.base) (hdef : t.defaultAlign = s.defaultAlign) :
    Placed t ⟨s.base + (s.usedSz + s.pad align), size, align⟩ (s.endOf size align) := by
  refine ⟨?_, Nat.le_add_left _ _, ?_⟩
  · rw [hbase, endOf]
    exact Nat.add_assoc _ _ _
  · rw [alignOf, hdef, ← Nat.add_assoc]
    exact dvd_add_padTo (hd.orDefault_pos ha)

theorem aallocAlignAlloc_ok (h : Inv w s) {size align : ℕ} (ha : AlignOk w align) (hw : NoWrap w s size align) {ok : Bool}
    {out : Outcome} (hout : aallocAlignAlloc w s size align ok = .ok out) :
    out.ret = none ∧ out.state = s ∨
      ∃ protectSz, out.ret = some (s.base + (s.usedSz + s.pad align)) ∧
        out.state = { s with protectSz := protectSz, usedSz := s.endOf size align } ∧
        s.endOf size align ≤ protectSz ∧ s.growSz ∣ protectSz := by
  have haddr := hw.addr
  have hfits := hw.fits
  have hround := hw.round
  unfold endOf at hfits hround ⊢
  have hoff : Word.add w s.usedSz (s.pad align) = s.usedSz + s.pad align := Word.add_of_lt (by omega)
  have hend : Word.add w (s.usedSz + s.pad align) size = s.usedSz + s.pad align + size := Word.add_of_lt hfits
  have hret : Word.add w s.base (s.usedSz + s.pad align) = s.base + (s.usedSz + s.pad align) :=
    Word.add_of_lt (by omega)
  rw [aallocAlignAlloc_eq h.default ha, hoff] at hout
  have hcases := place_ok hout
  rw [hend, hret] at hcases
  rcases hcases with ⟨hle, rfl⟩ | ⟨hgt, hgrow, rfl⟩
  · exact .inr ⟨s.protectSz, rfl, rfl, hle, h.grow_dvd⟩
  · cases ok with
    | false => exact .inl ⟨rfl, rfl⟩
    | true =>
      have hnew := newSz_eq hgrow (hround hgt).le
      refine .inr ⟨s.newSz w (s.usedSz + s.pad align + size), rfl, rfl, ?_, ?_⟩
      · rw [hnew]
        exact le_roundUp (Nat.pos_of_ne_zero hgrow)
      · rw [hnew]
        exact dvd_roundUp _ _

/-- The condition of the runs that are considered. -/
def NoWrapCall (w : ℕ) (s : Virtual) : Request Bool → Prop
  | .alloc size align _ => NoWrap w s size align
  | _ => True

theorem virtual_sound (w : ℕ) : Sound w (iface w) (NoWrapCall w) (Inv w) Placed := by
  constructor
  · intro s s' size align ok p hs _ ha hC hcall
    obtain ⟨out, hout, hret, rfl⟩ := iface_alloc hcall
    rcases aallocAlignAlloc_ok hs ha hC hout with ⟨hnone, -⟩ | ⟨protectSz, haddr, hstate, hle, hdvd⟩
    · rw [hnone] at hret
      cases hret
    · obtain rfl := Option.some.inj (haddr.symm.trans hret)
      rw [hstate]
      exact ⟨⟨hs.default, hle, hdvd⟩, usedSz_add_le_endOf size align, placed_next hs.default ha rfl rfl,
        fun b e _ hb => hb.congr rfl rfl⟩
  · exact fun _ _ _ _ hcall => iface_alloc_null hcall
  · intro s s' m ok hs _ hm hcall
    obtain ⟨-, rfl⟩ := iface_restore hcall
    refine ⟨⟨hs.default, le_trans hm hs.used_le, hs.grow_dvd⟩, rfl, ?_⟩
    intro b e _ hb
    exact hb.congr rfl rfl

/-- **Live blocks are safe.** After any run of a client from `cop_alloc_virtual_init` in which
no sum wraps, whenever `mprotect` fails, what is handed out is accessible and the accessible
part is a multiple of `grow_sz`; every live block is aligned as requested, and lies between
`base` and what is handed out; live blocks are apart; and a call of `alloc` that returns null
changes nothing. -/
theorem virtual_blocks_safe {ps reserveSz defaultAlign growSz : ℕ} {map : Option ℕ} (hd : defaultAlign < 2 ^ w)
    {s₀ : Virtual} (hinit : copAllocVirtualInit w ps reserveSz defaultAlign growSz map = .ok (some s₀))
    {us : List (Use Bool)} {c : Client Virtual}
    (hC : Meets (Client.step w (iface w)) (Client.Calls (NoWrapCall w)) us ⟨s₀, []⟩)
    (h : steps (Client.step w (iface w)) us ⟨s₀, []⟩ = some c) :
    c.state.usedSz ≤ c.state.protectSz ∧ c.state.growSz ∣ c.state.protectSz ∧
      (∀ b ∈ c.live, c.state.alignOf b.align ∣ b.addr ∧ c.state.base ≤ b.addr ∧
        b.addr + b.size ≤ c.state.base + c.state.protectSz ∧ b.addr + b.size ≤ c.state.base + c.state.usedSz) ∧
      c.live.Pairwise Block.Apart ∧
      ∀ size align ok out, aallocAlignAlloc w c.state size align ok = .ok out → out.ret = none → out.state = c.state := by
  obtain ⟨hdef, -, hused, hprot, -⟩ := copAllocVirtualInit_ok hd hinit
  have hc := (virtual_sound w).run ⟨hdef, by omega, by rw [hprot]; exact Nat.dvd_zero _⟩ hC h
  refine ⟨hc.inv.used_le, hc.inv.grow_dvd, ?_, ?_, fun _ _ _ _ hout hnull => aallocAlignAlloc_null hout hnull⟩
  · intro b hb
    obtain ⟨⟨b', e⟩, hx, rfl⟩ := List.mem_map.1 hb
    have hplaced := hc.placed _ hx
    have htop : e ≤ c.state.usedSz := (hc.stacked.le_top hx).2
    have haddr := hplaced.addr
    have hle := hplaced.le
    have hused := hc.inv.used_le
    dsimp only at haddr hle ⊢
    exact ⟨hplaced.aligned, by omega, by omega, by omega⟩
  · apply hc.apart
    intro a e b f hfe hle _ ha hb
    have haddr := ha.addr
    have haddr' := hb.addr
    right
    omega

/-- A reservation of 64 KiB, with pages of 4 KiB. -/
def sampleReservation : Virtual := ⟨65536, 4096, 0, 0, 16, 1048576⟩

/-- Blocks are taken, some of them are released, and `mprotect` fails once. -/
def sampleUses : List (Use Bool) :=
  [.alloc 100 64 true, .save, .alloc 5000 0 true, .alloc 9000 0 false, .restore 0 true, .alloc 10 8 true]

theorem virtual_blocks_safe_sample : ∃ c, steps (Client.step 64 (iface 64)) sampleUses ⟨sampleReservation, []⟩ = some c ∧
    c.live.length = 2 ∧ c.live.Pairwise Block.Apart := by
  have hinit : copAllocVirtualInit 64 4096 65536 16 0 (some 1048576) = .ok (some sampleReservation) := rfl
  have hC : Meets (Client.step 64 (iface 64)) (Client.Calls (NoWrapCall 64)) sampleUses ⟨sampleReservation, []⟩ :=
    ⟨⟨by decide, by decide, by decide⟩, trivial, ⟨by decide, by decide, by decide⟩,
      ⟨by decide, by decide, by decide⟩, trivial, ⟨by decide, by decide, by decide⟩, trivial⟩
  exact ⟨_, rfl, rfl, (virtual_blocks_safe (by decide) hinit hC rfl).2.2.2.1⟩

end Virtual

end Cop.Alloc
