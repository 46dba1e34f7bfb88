import Cop.Alloc.VirtualInit
import Cop.Alloc.Reservation
import Cop.Strdict.Rebuild
import Cop.Tests.Strdict
import Mathlib.Tactic.IntervalCases

/-!
# The test program with the virtual allocator

`test_main` of `cop_strdict_tests.c` sets up a virtual allocator, and runs `runtests` with
its interface. So what the program comes to depends on the dictionary, on the hash
of the keys, on the allocator, and on what `mmap` and `mprotect` answer.

## The model

* `virtualSetup` is the program of `Cop.Tests.Strdict` with the virtual allocator.
* A `Machine` is what the program is compiled for and runs on. `mprotect i` is the answer to the
  `i`-th call of `make_node`, if that call asks.
* `runtests` is the list of lines of the function of that name, and `testMain` returns no exit code if
  the program aborts. What it prints is not modelled, nor is `cop_alloc_virtual_free` after the last line.

## What is proved

* `supplies_virtual` — where no request comes within `grow_sz` of the end of the reservation, the
  virtual allocator gives blocks that are apart.
* `runTests_virtual` — with any lines that the reservation has room for, the program has the verdict that
  `Spec` gives.
* `testMain_ok` — the test program exits with success, unless `mprotect` fails when it is first asked.
-/

namespace Cop.Tests

open Theory Strdict Alloc Alloc.Virtual

variable {w : ℕ} {s s₀ : Virtual}

/-! ### The virtual allocator, for a program that releases nothing -/

/-- The program with the virtual allocator. -/
def virtualSetup (T : Target) (w nodeSz keystr keystrSz : ℕ) : Setup Virtual Bool :=
  ⟨T, w, iface w, nodeSz, keystr, keystrSz⟩

/-- The block ends at least `grow_sz` before the end of the reservation. -/
def Roomy (s : Virtual) (size : ℕ) (_ : Bool) : Prop := s.endOf size 0 + s.growSz ≤ s.reserveSz

/-- What the virtual allocator keeps, with the blocks that it returned. -/
structure Serves (w : ℕ) (s₀ s : Virtual) (live : List Block) : Prop where
  /-- What is handed out is accessible. -/
  inv : Inv w s
  /-- What is accessible is reserved. -/
  within : Within w s₀ s
  /-- `grow_sz` is what it was. -/
  grow_eq : s.growSz = s₀.growSz
  /-- So is the default alignment. -/
  default_eq : s.defaultAlign = s₀.defaultAlign
  /-- Blocks are in what is handed out. -/
  placed : ∀ b ∈ live, s.base ≤ b.addr ∧ b.addr + b.size ≤ s.base + s.usedSz

theorem serves_init {ps reserveSz defaultAlign growSz : ℕ} {map : Option ℕ} (hd : defaultAlign < 2 ^ w)
    (hinit : copAllocVirtualInit w ps reserveSz defaultAlign growSz map = .ok (some s₀)) : Serves w s₀ s₀ [] := by
  obtain ⟨hdef, hmap, hused, hprot, hgrow⟩ := copAllocVirtualInit_ok hd hinit
  exact ⟨⟨hdef, by omega, by rw [hprot]; exact Nat.dvd_zero _⟩, ⟨hdef, hmap, hgrow, by omega, by omega, rfl, rfl⟩, rfl, rfl,
    fun b hb => by cases hb⟩

theorem endOf_lt (h : DefaultOk w s.defaultAlign) (size : ℕ) : s.endOf size 0 < s.usedSz + size + s.defaultAlign := by
  have hpad : padTo s.defaultAlign (s.base + s.usedSz) < s.defaultAlign := padTo_lt (h.orDefault_pos (.inl rfl))
  change s.usedSz + padTo s.defaultAlign (s.base + s.usedSz) + size < _
  omega

namespace Serves

variable {live : List Block} {size : ℕ} {ok : Bool}

theorem noWrap (h : Serves w s₀ s live) (hr : Roomy s size ok) : NoWrap w s size 0 := by
  obtain ⟨-, -, hmap⟩ := h.within.mapped
  unfold Roomy at hr
  unfold endOf at hr
  refine ⟨by omega, ?_, fun _ => ?_⟩
  · unfold endOf
    omega
  · unfold endOf
    omega

theorem fits (h : Serves w s₀ s live) (hr : Roomy s size ok) : Fits w s size 0 := by
  have hlt := (h.noWrap hr).fits
  unfold Roomy at hr
  rw [Fits, Nat.mod_eq_of_lt hlt]
  split
  · omega
  · by_cases hgrow : s.growSz = 0
    · exact .inl hgrow
    · have hround := roundUp_lt (n := s.endOf size 0) (Nat.pos_of_ne_zero hgrow)
      exact .inr ⟨by omega, .inl (by omega)⟩

theorem answered (h : Serves w s₀ s live) (hgrow : s₀.growSz ≠ 0) (size : ℕ) (ok : Bool) :
    ∃ r, (iface w).alloc s size 0 ok = .ok r := by
  have hgrow' : s.growSz ≠ 0 := by rwa [h.grow_eq]
  have halloc : ∃ out, aallocAlignAlloc w s size 0 ok = .ok out := by
    rw [aallocAlignAlloc_eq h.inv.default (.inl rfl), place]
    split
    · rw [check_pos hgrow']
      cases ok <;> exact ⟨_, rfl⟩
    · exact ⟨_, rfl⟩
  obtain ⟨out, hout⟩ := halloc
  exact ⟨(out.ret, out.state), bind_of_ok hout _⟩

theorem block (h : Serves w s₀ s live) (hr : Roomy s size ok) {p : ℕ} {s' : Virtual}
    (hcall : (iface w).alloc s size 0 ok = .ok (some p, s')) :
    Serves w s₀ s' (⟨p, size, 0⟩ :: live) ∧ s'.usedSz = s.endOf size 0 ∧ s.base + s.usedSz ≤ p ∧
      p + size ≤ s₀.base + s₀.reserveSz := by
  obtain ⟨out, hout, hret, rfl⟩ := iface_alloc hcall
  obtain ⟨-, hwithin⟩ := h.within.inside (.inl rfl) (h.fits hr) hout
  rcases aallocAlignAlloc_ok h.inv (.inl rfl) (h.noWrap hr) hout with ⟨hnone, -⟩ | ⟨protectSz, haddr, hstate, hle, hdvd⟩
  · rw [hnone] at hret
    cases hret
  · obtain rfl := Option.some.inj (haddr.symm.trans hret)
    rw [hstate] at hwithin ⊢
    have hlower := usedSz_add_le_endOf (s := s) size 0
    have hend : s.base + (s.usedSz + s.pad 0) + size = s.base + s.endOf size 0 := by
      unfold endOf
      omega
    have hin := hwithin.used_le
    dsimp only at hin
    have hbase := h.within.base_eq
    have hreserve := h.within.reserve_eq
    refine ⟨⟨⟨h.inv.default, hle, hdvd⟩, hwithin, h.grow_eq, h.default_eq, fun b hb => ?_⟩, rfl, by omega, by omega⟩
    rcases List.mem_cons.1 hb with rfl | hb
    · dsimp only
      omega
    · have hold := h.placed b hb
      dsimp only
      omega

end Serves

/-- **The virtual allocator supplies a program that releases nothing** with blocks that are apart, as long as
no request comes within `grow_sz` of the end of the reservation. -/
theorem supplies_virtual {T : Target} {nodeSz keystr keystrSz : ℕ} (hgrow : s₀.growSz ≠ 0)
    (hkeystr : Block.Apart ⟨s₀.base, s₀.reserveSz, 0⟩ ⟨keystr, keystrSz, 0⟩) :
    Supplies (virtualSetup T w nodeSz keystr keystrSz) Roomy (Serves w s₀) := by
  refine ⟨fun hI _ _ => hI.answered hgrow _ _, fun {s live size env p s'} hI _ _ hC hcall => ?_⟩
  obtain ⟨hserves, -, hlower, hupper⟩ := hI.block hC hcall
  refine ⟨hserves, fun b hb => .inr ?_, ?_⟩
  · have hb := (hI.placed b hb).2
    dsimp only
    omega
  · have hbase := hI.within.base_eq
    change p + size ≤ keystr ∨ keystr + keystrSz ≤ p
    change s₀.base + s₀.reserveSz ≤ keystr ∨ keystr + keystrSz ≤ s₀.base at hkeystr
    omega

/-! ### Lines that the reservation has room for -/

/-- What a line takes of the reservation at most, where `pad` bytes may be left out before a block. -/
def cost {σ α : Type} (P : Setup σ α) (pad : ℕ) (l : Line α) : ℕ :=
  match l.expect with
  | .insertOk _ => P.nodeSz + (l.key.length + 1) + pad
  | _ => 0

/-- What the lines take at most. -/
def demand {σ α : Type} (P : Setup σ α) (pad : ℕ) (ls : List (Line α)) : ℕ := (ls.map (cost P pad)).sum

theorem demand_cons {σ α : Type} (P : Setup σ α) (pad : ℕ) (l : Line α) (ls : List (Line α)) :
    demand P pad (l :: ls) = cost P pad l + demand P pad ls := by simp [demand]

theorem demand_append {σ α : Type} (P : Setup σ α) (pad : ℕ) (ls ls' : List (Line α)) :
    demand P pad (ls ++ ls') = demand P pad ls + demand P pad ls' := by simp [demand]

section Room

variable {T : Target} {nodeSz keystr keystrSz : ℕ} {live : List Block} {l : Line Bool}

theorem Serves.asks (h : Serves w s₀ s live)
    (hroom : s.usedSz + cost (virtualSetup T w nodeSz keystr keystrSz) s₀.defaultAlign l + s₀.growSz ≤ s₀.reserveSz) :
    Asks (virtualSetup T w nodeSz keystr keystrSz) Roomy s l := by
  obtain ⟨key, expect⟩ := l
  cases expect with
  | insertOk ok =>
    have hend := endOf_lt h.inv.default (nodeSz + (key.length + 1))
    have hcost : s.usedSz + (nodeSz + (key.length + 1) + s₀.defaultAlign) + s₀.growSz ≤ s₀.reserveSz := hroom
    rw [h.default_eq] at hend
    change s.endOf (nodeSz + (key.length + 1)) 0 + s.growSz ≤ s.reserveSz
    rw [h.grow_eq, h.within.reserve_eq]
    omega
  | _ => trivial

/-- What a line takes is no more than it costs. -/
theorem Serves.allocated (h : Serves w s₀ s live) {s' : Virtual}
    (hasks : Asks (virtualSetup T w nodeSz keystr keystrSz) Roomy s l)
    (hcall : Spec.allocated (virtualSetup T w nodeSz keystr keystrSz) s l = .ok (some s')) :
    (∃ live', Serves w s₀ s' live') ∧
      s'.usedSz ≤ s.usedSz + cost (virtualSetup T w nodeSz keystr keystrSz) s₀.defaultAlign l := by
  obtain ⟨key, expect⟩ := l
  cases expect with
  | insertOk ok =>
    have hend := endOf_lt h.inv.default (nodeSz + (key.length + 1))
    rw [h.default_eq] at hend
    obtain ⟨⟨q, t⟩, halloc, hret⟩ := bind_ok hcall
    obtain ⟨p, hp, hstate⟩ := Option.map_eq_some_iff.1 (Except.ok.inj hret)
    subst hp hstate
    obtain ⟨hserves, hused, -⟩ := h.block hasks halloc
    refine ⟨⟨_, hserves⟩, ?_⟩
    rw [hused]
    exact (by omega : s.endOf (nodeSz + (key.length + 1)) 0 ≤ s.usedSz + (nodeSz + (key.length + 1) + s₀.defaultAlign))
  | _ =>
    cases hcall
    exact ⟨⟨live, h⟩, Nat.le_add_right _ _⟩

/-- Lines that the reservation has room for ask for blocks that it has room for. -/
theorem Serves.asksAll (h : Serves w s₀ s live) {ls : List (Line Bool)}
    (hroom : s.usedSz + demand (virtualSetup T w nodeSz keystr keystrSz) s₀.defaultAlign ls + s₀.growSz ≤ s₀.reserveSz) :
    AsksAll (virtualSetup T w nodeSz keystr keystrSz) Roomy ls s := by
  induction ls generalizing s live with
  | nil => trivial
  | cons l ls ih =>
    rw [demand_cons] at hroom
    have hasks : Asks (virtualSetup T w nodeSz keystr keystrSz) Roomy s l := h.asks (by omega)
    refine ⟨hasks, fun s' hcall => ?_⟩
    obtain ⟨⟨live', hserves⟩, hused⟩ := h.allocated hasks hcall
    exact ih hserves (by omega)

end Room

theorem Serves.runTests_ok {T : Target} {nodeSz keystr keystrSz : ℕ} (h : Serves w s₀ s₀ []) (hused : s₀.usedSz = 0)
    (hgrow : s₀.growSz ≠ 0) (hkeystr : Block.Apart ⟨s₀.base, s₀.reserveSz, 0⟩ ⟨keystr, keystrSz, 0⟩)
    (hok : (virtualSetup T w nodeSz keystr keystrSz).Ok) {ls : List (Line Bool)}
    (hls : ∀ l ∈ ls, l.Fits (virtualSetup T w nodeSz keystr keystrSz))
    (hroom : demand (virtualSetup T w nodeSz keystr keystrSz) s₀.defaultAlign ls + s₀.growSz ≤ s₀.reserveSz) {fuel : ℕ}
    (hf : keystrSz ≤ fuel) (hn : 5 * ls.length < fuel) {world : World ℕ} (hroot : world.store.get World.root = none) :
    ∃ v, runTests (virtualSetup T w nodeSz keystr keystrSz) fuel ls ⟨s₀, world⟩ = .ok v ∧
      Spec.run (virtualSetup T w nodeSz keystr keystrSz) ls s₀ ∅ = .ok v := by
  have hgood : Good (virtualSetup T w nodeSz keystr keystrSz) (Serves w s₀) 0 ∅ ⟨s₀, world⟩ := by
    refine ⟨[], _, fun _ => 0, h, ⟨_, holds_empty hroot⟩, ?_, ?_, ?_, ?_, ?_, ?_⟩
    · simp [Dict.empty]
    all_goals simp
  refine Tests.runTests_ok (supplies_virtual hgrow hkeystr) hok hls hgood (h.asksAll (by omega)) hf ?_
  omega

/-- **The test program with any lines, and the virtual allocator.** After any answers of the operating system
to `cop_alloc_virtual_init`, for lines that leave `grow_sz` of the reservation, the program runs without a fault
and has the verdict that the specification gives, whatever `mprotect` answers. Its `grow_sz` must not have been
rounded up to zero: then the first request would divide by it. -/
theorem runTests_virtual (T : Target) {nodeSz keystr keystrSz ps reserveSz defaultAlign growSz : ℕ} {map : Option ℕ}
    (hd : defaultAlign < 2 ^ w) (hinit : copAllocVirtualInit w ps reserveSz defaultAlign growSz map = .ok (some s₀))
    (hgrow : s₀.growSz ≠ 0) (hkeystr : Block.Apart ⟨s₀.base, s₀.reserveSz, 0⟩ ⟨keystr, keystrSz, 0⟩)
    (hok : (virtualSetup T w nodeSz keystr keystrSz).Ok) {ls : List (Line Bool)}
    (hls : ∀ l ∈ ls, l.Fits (virtualSetup T w nodeSz keystr keystrSz))
    (hroom : demand (virtualSetup T w nodeSz keystr keystrSz) s₀.defaultAlign ls + s₀.growSz ≤ s₀.reserveSz) {fuel : ℕ}
    (hf : keystrSz ≤ fuel) (hn : 5 * ls.length < fuel) (world : World ℕ) (hroot : world.store.get World.root = none) :
    ∃ v, runTests (virtualSetup T w nodeSz keystr keystrSz) fuel ls ⟨s₀, world⟩ = .ok v ∧
      Spec.run (virtualSetup T w nodeSz keystr keystrSz) ls s₀ ∅ = .ok v := by
  obtain ⟨-, -, hused, -⟩ := copAllocVirtualInit_ok hd hinit
  exact (serves_init hd hinit).runTests_ok hused hgrow hkeystr hok hls hroom hf hn hroot

/-- A key is inserted, found, deleted and not found. -/
def sampleLines : List (Line Bool) :=
  [⟨[97], .insertOk true⟩, ⟨[97], .exists⟩, ⟨[98], .removed⟩, ⟨[97], .update⟩, ⟨[97], .deleteOk⟩, ⟨[97], .deleteOk⟩]

theorem runTests_virtual_sample :
    runTests (virtualSetup lp64 64 64 4096 32) 32 sampleLines ⟨sampleReservation, emptyWorld⟩ = .ok .failed := by
  have hinit : copAllocVirtualInit 64 4096 65536 16 0 (some 1048576) = .ok (some sampleReservation) := rfl
  have hfits : ∀ l ∈ sampleLines, l.Fits (virtualSetup lp64 64 64 4096 32) := by
    intro l hl
    simp only [sampleLines, List.mem_cons, List.not_mem_nil, or_false] at hl
    rcases hl with rfl | rfl | rfl | rfl | rfl | rfl
    all_goals exact ⟨by simp [IsText], show 2 ≤ 32 by decide⟩
  obtain ⟨v, hrun, hspec⟩ := runTests_virtual lp64 (by decide) hinit (by decide) (.inr (by decide)) ⟨by decide, by decide⟩
    hfits (by decide) le_rfl (by decide) emptyWorld rfl
  cases hspec
  exact hrun

/-! ### The lines of the test program -/

/-- `get_id`. -/
def getId (T : Target) (x : ℕ) : ℕ :=
  if x < 64 then (526746 + x) % 2 ^ T.fast32 else (1456900 + (x - 64)) % 2 ^ T.fast32 &&& 0xFFFFFFFF

/-- What `makekey` writes before the terminator. -/
def makekey (T : Target) (key : ℕ) : List UInt8 :=
  [10000000, 1000000, 100000, 10000, 1000, 100, 10, 1].map fun d => UInt8.ofNat (48 + getId T key / d % 10)

/-- `ALLOCATIONS`. -/
def allocations : ℕ := 128

/-- What the program is compiled for and runs on. -/
structure Machine where
  /-- The compiler. -/
  target : Target
  /-- The width of `size_t`. -/
  w : ℕ
  /-- `sizeof(struct cop_strdict_node)`. -/
  nodeSz : ℕ
  /-- The address of `keystr`. -/
  keystr : ℕ
  /-- The size of a page. -/
  pageSz : ℕ
  /-- What `mmap` returns. -/
  map : Option ℕ
  /-- Whether `mprotect` succeeds, if the `i`-th call of `make_node` leads to it. -/
  mprotect : ℕ → Bool

/-- `for (i = lo; i < hi; i++)`, with `makekey` and one function. -/
def forKeys (T : Target) (lo hi : ℕ) (f : ℕ → Expect Bool) : List (Line Bool) :=
  (List.range' lo (hi - lo)).map fun i => ⟨makekey T i, f i⟩

/-- `runtests`. -/
def runtests (M : Machine) : List (Line Bool) :=
  forKeys M.target 0 allocations (fun i => .insertOk (M.mprotect i)) ++
  forKeys M.target 0 allocations (fun _ => .exists) ++
  forKeys M.target 3 14 (fun _ => .deleteOk) ++
  forKeys M.target 0 2 (fun _ => .exists) ++
  forKeys M.target 3 14 (fun _ => .removed) ++
  forKeys M.target 14 allocations (fun _ => .exists) ++
  forKeys M.target 5 11 (fun i => .insertOk (M.mprotect (allocations + (i - 5)))) ++
  forKeys M.target 0 2 (fun _ => .exists) ++
  forKeys M.target 3 5 (fun _ => .removed) ++
  forKeys M.target 5 11 (fun _ => .exists) ++
  forKeys M.target 11 14 (fun _ => .removed) ++
  forKeys M.target 14 allocations (fun _ => .exists) ++
  forKeys M.target 20 54 (fun _ => .update)

/-- The program as it is set up on a machine. -/
def Machine.setup (M : Machine) : Setup Virtual Bool := virtualSetup M.target M.w M.nodeSz M.keystr 32

/-- `test_main`; no exit code if it aborts. -/
def testMain (M : Machine) (fuel : ℕ) (world : World ℕ) : Exec Fault (Option ℤ) := do
  match ← copAllocVirtualInit M.w M.pageSz (1024 * 1024 * 512) 16 (1024 * 1024) M.map with
  | none => return none
  | some mem =>
    let world := { world with store := world.store.set World.root copStrdictInit }
    match ← runTests M.setup fuel (runtests M) ⟨mem, world⟩ with
    | .aborted => return none
    | .failed => return some 1
    | .passed => return some 0

/-! ### The keys are different -/

section Keys

variable {T : Target} {x y : ℕ}

theorem getId_eq (hx : x < allocations) : getId T x = if x < 64 then 526746 + x else 1456836 + x := by
  have hpow := T.two_pow_le
  unfold allocations at hx
  have hsmall : 526746 + x < 2 ^ T.fast32 := by omega
  have hlarge : 1456900 + (x - 64) < 2 ^ T.fast32 := by omega
  rw [getId, Nat.mod_eq_of_lt hsmall, Nat.mod_eq_of_lt hlarge,
    show (0xFFFFFFFF : ℕ) = 2 ^ 32 - 1 from rfl, Nat.and_two_pow_sub_one_eq_mod]
  split <;> omega

theorem digit_inj {a b : ℕ} (h : UInt8.ofNat (48 + a % 10) = UInt8.ofNat (48 + b % 10)) : a % 10 = b % 10 := by
  have hnat := congrArg UInt8.toNat h
  simp only [UInt8.toNat_ofNat'] at hnat
  omega

/-- **The keys of the test program are different.** -/
theorem makekey_inj (hx : x < allocations) (hy : y < allocations) (h : makekey T x = makekey T y) : x = y := by
  have hid : getId T x = getId T y := by
    have hlt : ∀ {z}, z < allocations → getId T z < 10 ^ 8 := fun {z} hz => by
      rw [getId_eq hz]
      unfold allocations at hz
      split <;> omega
    simp only [makekey, List.map_cons, List.map_nil, List.cons.injEq, and_true] at h
    obtain ⟨h7, h6, h5, h4, h3, h2, h1, h0⟩ := h
    refine Theory.eq_of_digits (hlt hx) (hlt hy) fun j hj => ?_
    interval_cases j
    · exact digit_inj h0
    · exact digit_inj h1
    · exact digit_inj h2
    · exact digit_inj h3
    · exact digit_inj h4
    · exact digit_inj h5
    · exact digit_inj h6
    · exact digit_inj h7
  rw [getId_eq hx, getId_eq hy] at hid
  unfold allocations at hx hy
  split at hid <;> split at hid <;> omega

theorem isText_makekey (T : Target) (x : ℕ) : IsText (makekey T x) := by
  intro b hb
  obtain ⟨d, -, rfl⟩ := List.mem_map.1 hb
  intro hzero
  have hnat := congrArg UInt8.toNat hzero
  rw [UInt8.toNat_ofNat', UInt8.toNat_zero] at hnat
  omega

theorem length_makekey (T : Target) (x : ℕ) : (makekey T x).length = 8 := rfl

end Keys

/-! ### What the specification says of the test program -/

namespace Spec

variable {σ α : Type}

/-- What becomes of the set of keys, if every expectation is met. -/
def final : List (Line α) → Finset (List UInt8) → Option (Finset (List UInt8))
  | [], keys => some keys
  | l :: ls, keys => (expected keys l.key l.expect).bind (final ls)

end Spec

/-- The keys with these numbers. -/
def keysOf (T : Target) (S : Finset ℕ) : Finset (List UInt8) := S.image (makekey T)

section Final

variable {T : Target} {S : Finset ℕ} {lo hi x : ℕ}

theorem mem_keysOf (hS : S ⊆ Finset.range allocations) (hx : x < allocations) : makekey T x ∈ keysOf T S ↔ x ∈ S := by
  constructor
  · intro h
    obtain ⟨y, hy, heq⟩ := Finset.mem_image.1 h
    rwa [← makekey_inj (Finset.mem_range.1 (hS hy)) hx heq]
  · exact Finset.mem_image_of_mem _

theorem keysOf_erase (hS : S ⊆ Finset.range allocations) (hx : x < allocations) :
    (keysOf T S).erase (makekey T x) = keysOf T (S.erase x) := by
  ext k
  simp only [keysOf, Finset.mem_erase, Finset.mem_image]
  constructor
  · rintro ⟨hne, y, hy, rfl⟩
    exact ⟨y, ⟨fun heq => hne (heq ▸ rfl), hy⟩, rfl⟩
  · rintro ⟨y, ⟨hne, hy⟩, rfl⟩
    exact ⟨fun heq => hne (makekey_inj (Finset.mem_range.1 (hS hy)) hx heq), y, hy, rfl⟩

/-- A loop is its first turn and the others. -/
theorem forKeys_step (T : Target) (h : lo < hi) (f : ℕ → Expect Bool) :
    forKeys T lo hi f = ⟨makekey T lo, f lo⟩ :: forKeys T (lo + 1) hi f := by
  rw [forKeys, forKeys, show hi - lo = hi - (lo + 1) + 1 by omega, List.range'_succ, List.map_cons]

theorem forKeys_nil (T : Target) (h : hi ≤ lo) (f : ℕ → Expect Bool) : forKeys T lo hi f = [] := by
  rw [forKeys, Nat.sub_eq_zero_of_le h, List.range'_zero, List.map_nil]

/-- A loop that changes nothing. -/
theorem final_keep {f : ℕ → Expect Bool} (ls : List (Line Bool)) {keys : Finset (List UInt8)}
    (h : ∀ i, lo ≤ i → i < hi → Spec.expected keys (makekey T i) (f i) = some keys) :
    Spec.final (forKeys T lo hi f ++ ls) keys = Spec.final ls keys := by
  obtain ⟨n, hn⟩ : ∃ n, hi - lo = n := ⟨_, rfl⟩
  induction n generalizing lo with
  | zero => rw [forKeys_nil T (by omega), List.nil_append]
  | succ n ih =>
    rw [forKeys_step T (by omega), List.cons_append, Spec.final, h lo le_rfl (by omega), Option.bind_some]
    exact ih (fun i hi => h i (by omega)) (by omega)

/-- Keys that are there are found and can be updated. -/
theorem final_found (ls : List (Line Bool)) {e : Expect Bool} (he : e = .exists ∨ e = .update)
    (h : ∀ i, lo ≤ i → i < hi → i ∈ S) :
    Spec.final (forKeys T lo hi (fun _ => e) ++ ls) (keysOf T S) = Spec.final ls (keysOf T S) := by
  refine final_keep ls fun i hi hlt => ?_
  have hmem : makekey T i ∈ keysOf T S := Finset.mem_image_of_mem _ (h i hi hlt)
  rcases he with rfl | rfl <;> simp [Spec.expected, hmem]

/-- Keys that are not there are not found. -/
theorem final_removed (hS : S ⊆ Finset.range allocations) (hhi : hi ≤ allocations) (ls : List (Line Bool))
    (h : ∀ i, lo ≤ i → i < hi → i ∉ S) :
    Spec.final (forKeys T lo hi (fun _ => .removed) ++ ls) (keysOf T S) = Spec.final ls (keysOf T S) := by
  refine final_keep ls fun i hi hlt => ?_
  have hmem : makekey T i ∉ keysOf T S := (mem_keysOf hS (by omega)).not.2 (h i hi hlt)
  simp [Spec.expected, hmem]

/-- Keys that are not there are inserted. -/
theorem final_insertOk (hS : S ⊆ Finset.range allocations) (hhi : hi ≤ allocations) (f : ℕ → Bool) (ls : List (Line Bool))
    (h : ∀ i, lo ≤ i → i < hi → i ∉ S) :
    Spec.final (forKeys T lo hi (fun i => .insertOk (f i)) ++ ls) (keysOf T S) =
      Spec.final ls (keysOf T (S ∪ Finset.Ico lo hi)) := by
  obtain ⟨n, hn⟩ : ∃ n, hi - lo = n := ⟨_, rfl⟩
  induction n generalizing lo S with
  | zero => rw [forKeys_nil T (by omega), List.nil_append, Finset.Ico_eq_empty (by omega), Finset.union_empty]
  | succ n ih =>
    have hlo : lo < allocations := by omega
    have hmem : makekey T lo ∉ keysOf T S := (mem_keysOf hS hlo).not.2 (h lo le_rfl (by omega))
    have hins : insert (makekey T lo) (keysOf T S) = keysOf T (insert lo S) := (Finset.image_insert _ _ _).symm
    have hsets : insert lo S ∪ Finset.Ico (lo + 1) hi = S ∪ Finset.Ico lo hi := by
      ext i
      simp only [Finset.mem_union, Finset.mem_insert, Finset.mem_Ico]
      grind
    rw [forKeys_step T (by omega), List.cons_append, Spec.final, Spec.expected, if_neg hmem, Option.bind_some, hins,
      ih (Finset.insert_subset (Finset.mem_range.2 hlo) hS), hsets]
    · intro i hi hlt hmem
      rcases Finset.mem_insert.1 hmem with rfl | hmem
      · omega
      · exact h i (by omega) hlt hmem
    · omega

/-- Keys that are there are deleted. -/
theorem final_deleteOk (hS : S ⊆ Finset.range allocations) (hhi : hi ≤ allocations) (ls : List (Line Bool))
    (h : ∀ i, lo ≤ i → i < hi → i ∈ S) :
    Spec.final (forKeys T lo hi (fun _ => .deleteOk) ++ ls) (keysOf T S) =
      Spec.final ls (keysOf T (S \ Finset.Ico lo hi)) := by
  obtain ⟨n, hn⟩ : ∃ n, hi - lo = n := ⟨_, rfl⟩
  induction n generalizing lo S with
  | zero => rw [forKeys_nil T (by omega), List.nil_append, Finset.Ico_eq_empty (by omega), Finset.sdiff_empty]
  | succ n ih =>
    have hlo : lo < allocations := by omega
    have hmem : makekey T lo ∈ keysOf T S := (mem_keysOf hS hlo).2 (h lo le_rfl (by omega))
    have hsets : S.erase lo \ Finset.Ico (lo + 1) hi = S \ Finset.Ico lo hi := by
      ext i
      simp only [Finset.mem_sdiff, Finset.mem_erase, Finset.mem_Ico]
      grind
    rw [forKeys_step T (by omega), List.cons_append, Spec.final, Spec.expected, if_pos hmem, Option.bind_some,
      keysOf_erase hS hlo, ih ((Finset.erase_subset _ _).trans hS), hsets]
    · intro i hi hlt
      exact Finset.mem_erase.2 ⟨by omega, h i (by omega) hlt⟩
    · omega

end Final

/-- **Every expectation of the test program is met**, by the specification. -/
theorem final_runtests (M : Machine) :
    Spec.final (runtests M) ∅ = some (keysOf M.target ((Finset.Ico 0 allocations \ Finset.Ico 3 14) ∪ Finset.Ico 5 11)) := by
  have hall : Finset.Ico 0 allocations ⊆ Finset.range allocations := by simp
  have hdeleted : Finset.Ico 0 allocations \ Finset.Ico 3 14 ⊆ Finset.range allocations := Finset.sdiff_subset.trans hall
  have hlast : (Finset.Ico 0 allocations \ Finset.Ico 3 14) ∪ Finset.Ico 5 11 ⊆ Finset.range allocations := by
    refine Finset.union_subset hdeleted fun i hi => ?_
    rw [Finset.mem_Ico] at hi
    exact Finset.mem_range.2 (lt_trans hi.2 (by decide))
  rw [← List.append_nil (runtests M), runtests]
  simp only [List.append_assoc]
  rw [show (∅ : Finset (List UInt8)) = keysOf M.target ∅ from rfl,
    final_insertOk (Finset.empty_subset _) le_rfl _ _ (by simp), Finset.empty_union,
    final_found _ (.inl rfl), final_deleteOk hall (by decide), final_found _ (.inl rfl), final_removed hdeleted (by decide),
    final_found _ (.inl rfl), final_insertOk hdeleted (by decide), final_found _ (.inl rfl), final_removed hlast (by decide),
    final_found _ (.inl rfl), final_removed hlast (by decide), final_found _ (.inl rfl), final_found _ (.inr rfl), Spec.final]
  all_goals
    intro i hi hlt
    simp only [allocations, Finset.mem_union, Finset.mem_sdiff, Finset.mem_Ico] at *
    omega

/-- A line for which there is room in what is accessible does not lead to `mprotect`. -/
theorem Serves.accessible {T : Target} {nodeSz keystr keystrSz : ℕ} {live : List Block} (h : Serves w s₀ s live) {l : Line Bool}
    (hasks : Asks (virtualSetup T w nodeSz keystr keystrSz) Roomy s l)
    (hcommit : s.usedSz + cost (virtualSetup T w nodeSz keystr keystrSz) s₀.defaultAlign l ≤ s.protectSz) :
    ∃ s', Spec.allocated (virtualSetup T w nodeSz keystr keystrSz) s l = .ok (some s') ∧ s'.protectSz = s.protectSz := by
  obtain ⟨key, expect⟩ := l
  cases expect with
  | insertOk ok =>
    have hend := endOf_lt h.inv.default (nodeSz + (key.length + 1))
    have hcost : s.usedSz + (nodeSz + (key.length + 1) + s₀.defaultAlign) ≤ s.protectSz := hcommit
    have hroomy : Roomy s (nodeSz + (key.length + 1)) ok := hasks
    have haddr := (h.noWrap hroomy).addr
    have hoff : Word.add w s.usedSz (s.pad 0) = s.usedSz + s.pad 0 := Word.add_of_lt (by omega)
    have hsum : Word.add w (s.usedSz + s.pad 0) (nodeSz + (key.length + 1)) = s.endOf (nodeSz + (key.length + 1)) 0 :=
      Word.add_of_lt (h.noWrap hroomy).fits
    rw [h.default_eq] at hend
    refine ⟨{ s with usedSz := s.endOf (nodeSz + (key.length + 1)) 0 }, ?_, rfl⟩
    change ((aallocAlignAlloc w s (nodeSz + (key.length + 1)) 0 ok >>= _) >>= _) = _
    rw [aallocAlignAlloc_eq h.inv.default (.inl rfl), hoff, place, hsum, if_neg (by omega)]
    rfl
  | _ => exact ⟨s, rfl, rfl⟩

/-- Lines that are met by the specification pass, if there is room for all in what is accessible. -/
theorem run_passed {T : Target} {nodeSz keystr keystrSz : ℕ} {live : List Block} (h : Serves w s₀ s live)
    {ls : List (Line Bool)} {keys : Finset (List UInt8)} (hfinal : Spec.final ls keys ≠ none)
    (hroom : s.usedSz + demand (virtualSetup T w nodeSz keystr keystrSz) s₀.defaultAlign ls + s₀.growSz ≤ s₀.reserveSz)
    (hcommit : s.usedSz + demand (virtualSetup T w nodeSz keystr keystrSz) s₀.defaultAlign ls ≤ s.protectSz) :
    Spec.run (virtualSetup T w nodeSz keystr keystrSz) ls s keys = .ok .passed := by
  induction ls generalizing s live keys with
  | nil => rfl
  | cons l ls ih =>
    rw [demand_cons] at hroom hcommit
    have hasks : Asks (virtualSetup T w nodeSz keystr keystrSz) Roomy s l := h.asks (by omega)
    obtain ⟨s', hcall, hprotect⟩ := h.accessible hasks (by omega)
    obtain ⟨⟨live', hserves⟩, hused⟩ := h.allocated hasks hcall
    rw [Spec.run, bind_of_ok hcall]
    rw [Spec.final] at hfinal
    cases hexp : Spec.expected keys l.key l.expect with
    | none => exact absurd (by rw [hexp]; rfl) hfinal
    | some keys' =>
      rw [hexp, Option.bind_some] at hfinal
      exact ih hserves hfinal (by omega) (by omega)

/-! ### The test program -/

/-- The machine is one that the program was written for. -/
structure Machine.Ok (M : Machine) (base : ℕ) : Prop where
  /-- A `size_t` has at least 32 bits. -/
  word : 32 ≤ M.w
  /-- A node has less than a page. -/
  node : M.nodeSz ≤ 4096
  /-- The size of a page is known. -/
  page_pos : 0 < M.pageSz
  /-- It is less than the reservation. -/
  page_le : M.pageSz ≤ 2 ^ 28
  /-- `mmap` returns a mapping. -/
  map_eq : M.map = some base
  /-- The mapping is one. -/
  mapped : Mapped M.w base (roundUp M.pageSz (2 ^ 29))
  /-- `keystr` is not in it. -/
  apart : Block.Apart ⟨base, roundUp M.pageSz (2 ^ 29), 0⟩ ⟨M.keystr, 32, 0⟩

/-- The allocator that `test_main` sets up. -/
def Machine.mem (M : Machine) (base : ℕ) : Virtual := ⟨roundUp M.pageSz (2 ^ 29), roundUp M.pageSz (2 ^ 20), 0, 0, 16, base⟩

section Main

variable {M : Machine} {base : ℕ}

theorem Machine.Ok.init (h : M.Ok base) :
    copAllocVirtualInit M.w M.pageSz (1024 * 1024 * 512) 16 (1024 * 1024) M.map = .ok (some (M.mem base)) := by
  have hpow : 2 ^ 32 ≤ 2 ^ M.w := Nat.pow_le_pow_right (by decide) h.word
  have hpage := h.page_pos
  have hle := h.page_le
  have halign : check Fault.assertion (alignAsserted M.w 16) = .ok () :=
    check_pos ((alignAsserted_iff (by omega)).2 ⟨4, rfl⟩)
  have hreserve : Word.mul M.w M.pageSz (Word.sub M.w (Word.add M.w (1024 * 1024 * 512) M.pageSz) 1 / M.pageSz) =
      roundUp M.pageSz (2 ^ 29) := Word.roundUp_eq (by omega) (by omega)
  have hgrow : Word.mul M.w M.pageSz (Word.sub M.w (Word.add M.w (1024 * 1024) M.pageSz) 1 / M.pageSz) =
      roundUp M.pageSz (2 ^ 20) := Word.roundUp_eq (by omega) (by omega)
  have hassume : assume (Mapped M.w base (roundUp M.pageSz (2 ^ 29))) = (.ok () : Exec Fault Unit) := assume_pos h.mapped
  rw [copAllocVirtualInit, bind_of_ok halign, bind_of_ok (check_pos (by decide)), if_neg (by omega), h.map_eq, hreserve]
  dsimp only
  rw [bind_of_ok hassume, if_neg (by decide), hgrow]
  rfl

/-- The lines of the test program take less than is committed at once. -/
theorem Machine.Ok.demand_le (h : M.Ok base) : demand M.setup 16 (runtests M) ≤ 2 ^ 20 := by
  have hnode := h.node
  have hinsert : ∀ (lo hi : ℕ) (f : ℕ → Bool),
      demand M.setup 16 (forKeys M.target lo hi fun i => .insertOk (f i)) = (hi - lo) * (M.nodeSz + 25) := fun lo hi f => by
    simp [demand, forKeys, cost, Machine.setup, virtualSetup, makekey, Function.comp_def]
  have hother : ∀ (lo hi : ℕ) (e : Expect Bool), (∀ ok, e ≠ .insertOk ok) →
      demand M.setup 16 (forKeys M.target lo hi fun _ => e) = 0 := fun lo hi e he => by
    cases e with
    | insertOk ok => exact absurd rfl (he ok)
    | _ => simp [demand, forKeys, cost, Function.comp_def]
  simp only [runtests, demand_append, hinsert]
  rw [hother, hother, hother, hother, hother, hother, hother, hother, hother]
  · unfold allocations
    omega
  all_goals
    intro ok he
    cases he

theorem fits_runtests (M : Machine) : ∀ l ∈ runtests M, l.Fits M.setup := by
  have hforKeys : ∀ (lo hi : ℕ) (f : ℕ → Expect Bool), ∀ l ∈ forKeys M.target lo hi f, l.Fits M.setup := by
    intro lo hi f l hl
    obtain ⟨i, -, rfl⟩ := List.mem_map.1 hl
    exact ⟨isText_makekey _ i, show 9 ≤ 32 by decide⟩
  simp only [runtests, List.forall_mem_append]
  refine ⟨⟨⟨⟨⟨⟨⟨⟨⟨⟨⟨⟨?_, ?_⟩, ?_⟩, ?_⟩, ?_⟩, ?_⟩, ?_⟩, ?_⟩, ?_⟩, ?_⟩, ?_⟩, ?_⟩, ?_⟩
  all_goals exact hforKeys _ _ _

theorem length_runtests (M : Machine) : (runtests M).length = 561 := by simp [runtests, forKeys, allocations]

theorem Machine.Ok.serves (h : M.Ok base) : Serves M.w (M.mem base) (M.mem base) [] :=
  serves_init (lt_of_lt_of_le (by decide) (Nat.pow_le_pow_right (by decide) h.word)) h.init

/-- The reservation is much larger than what is committed at once. -/
theorem Machine.Ok.sizes (h : M.Ok base) : 2 ^ 20 ≤ (M.mem base).growSz ∧
    2 ^ 20 + (M.mem base).growSz ≤ (M.mem base).reserveSz := by
  have hlt : roundUp M.pageSz (2 ^ 20) < 2 ^ 20 + M.pageSz := roundUp_lt h.page_pos
  have hgrow : 2 ^ 20 ≤ roundUp M.pageSz (2 ^ 20) := le_roundUp h.page_pos
  have hreserve : 2 ^ 29 ≤ roundUp M.pageSz (2 ^ 29) := le_roundUp h.page_pos
  have hpage := h.page_le
  refine ⟨hgrow, ?_⟩
  change 2 ^ 20 + roundUp M.pageSz (2 ^ 20) ≤ roundUp M.pageSz (2 ^ 29)
  omega

/-- The first line leads to `mprotect`. -/
theorem Machine.Ok.first (h : M.Ok base) :
    ∃ s, Spec.allocated M.setup (M.mem base) ⟨makekey M.target 0, .insertOk (M.mprotect 0)⟩ =
        .ok (if M.mprotect 0 then some s else none) ∧ 2 ^ 20 ≤ s.protectSz := by
  obtain ⟨hgrow, hreserve⟩ := h.sizes
  have hnode := h.node
  have hserves := h.serves
  have hend : (M.mem base).endOf (M.nodeSz + 9) 0 < 0 + (M.nodeSz + 9) + 16 := endOf_lt hserves.inv.default _
  have hlower : 0 + (M.nodeSz + 9) ≤ (M.mem base).endOf (M.nodeSz + 9) 0 :=
    usedSz_add_le_endOf (s := M.mem base) _ _
  have hroomy : Roomy (M.mem base) (M.nodeSz + 9) (M.mprotect 0) := by
    unfold Roomy
    omega
  have hnowrap := hserves.noWrap hroomy
  have haddr := hnowrap.addr
  have hoff : Word.add M.w (M.mem base).usedSz ((M.mem base).pad 0) = (M.mem base).usedSz + (M.mem base).pad 0 :=
    Word.add_of_lt (by omega)
  have hsum : Word.add M.w ((M.mem base).usedSz + (M.mem base).pad 0) (M.nodeSz + 9) = (M.mem base).endOf (M.nodeSz + 9) 0 :=
    Word.add_of_lt hnowrap.fits
  have hprotect : (M.mem base).protectSz = 0 := rfl
  have hnew : (M.mem base).newSz M.w ((M.mem base).endOf (M.nodeSz + 9) 0) =
      roundUp (M.mem base).growSz ((M.mem base).endOf (M.nodeSz + 9) 0) :=
    newSz_eq (by omega) (hnowrap.round (by omega)).le
  have hlarge : 2 ^ 20 ≤ roundUp (M.mem base).growSz ((M.mem base).endOf (M.nodeSz + 9) 0) :=
    hgrow.trans (Nat.le_of_dvd (lt_of_lt_of_le (by omega) (le_roundUp (by omega))) (dvd_roundUp _ _))
  have halloc : aallocAlignAlloc M.w (M.mem base) (M.nodeSz + 9) 0 (M.mprotect 0) = _ :=
    aallocAlignAlloc_eq hserves.inv.default (.inl rfl) _
  rw [hoff, place, hsum, if_pos (by omega), check_pos (by omega), hnew] at halloc
  refine ⟨{ M.mem base with
    protectSz := roundUp (M.mem base).growSz ((M.mem base).endOf (M.nodeSz + 9) 0)
    usedSz := (M.mem base).endOf (M.nodeSz + 9) 0 }, ?_, hlarge⟩
  change ((aallocAlignAlloc M.w (M.mem base) (M.nodeSz + 9) 0 (M.mprotect 0) >>= _) >>= _) = _
  rw [halloc]
  cases M.mprotect 0 <;> rfl

theorem Machine.Ok.verdict (h : M.Ok base) :
    Spec.run M.setup (runtests M) (M.mem base) ∅ = .ok (if M.mprotect 0 then .passed else .aborted) := by
  obtain ⟨hgrow, hreserve⟩ := h.sizes
  have hdemand := h.demand_le
  have hfinal := final_runtests M
  obtain ⟨s, hfirst, hprotect⟩ := h.first
  obtain ⟨ls, hls⟩ : ∃ ls, runtests M = ⟨makekey M.target 0, .insertOk (M.mprotect 0)⟩ :: ls := ⟨_, rfl⟩
  rw [hls, demand_cons] at hdemand
  rw [hls, Spec.final] at hfinal
  have hused : (M.mem base).usedSz = 0 := rfl
  rw [hls, Spec.run, bind_of_ok hfirst]
  cases hanswer : M.mprotect 0 with
  | false => rfl
  | true =>
    rw [hanswer] at hdemand hfinal hfirst
    have hasks : Asks M.setup Roomy (M.mem base) ⟨makekey M.target 0, .insertOk true⟩ :=
      h.serves.asks (show _ + cost M.setup 16 _ + _ ≤ _ by omega)
    obtain ⟨⟨live, hserves⟩, hused'⟩ := h.serves.allocated hasks hfirst
    change s.usedSz ≤ _ + cost M.setup 16 _ at hused'
    rw [Spec.expected, if_neg (Finset.notMem_empty _), Option.bind_some] at hfinal
    refine run_passed hserves (by rw [hfinal]; exact Option.some_ne_none _) ?_ ?_
    · change s.usedSz + demand M.setup 16 ls + _ ≤ _
      omega
    · change s.usedSz + demand M.setup 16 ls ≤ _
      omega

/-- **The test program exits with success, unless `mprotect` fails when it is first asked.** -/
theorem testMain_ok (h : M.Ok base) {fuel : ℕ} (hf : 2805 < fuel) (world : World ℕ) :
    testMain M fuel world = .ok (if M.mprotect 0 then some 0 else none) := by
  obtain ⟨hgrow, hreserve⟩ := h.sizes
  have hdemand := h.demand_le
  have hnode := h.node
  have hpow : 2 ^ 32 ≤ 2 ^ M.w := Nat.pow_le_pow_right (by decide) h.word
  have hok : M.setup.Ok := ⟨show M.nodeSz + 32 < 2 ^ M.w by omega, show 32 < 2 ^ 32 by decide⟩
  have hroot : ({ world with store := world.store.set World.root copStrdictInit } : World ℕ).store.get World.root = none :=
    Store.get_set_self _ _ _
  obtain ⟨v, hrun, hspec⟩ := h.serves.runTests_ok rfl (by omega) h.apart hok (fits_runtests M)
    (show demand M.setup 16 (runtests M) + _ ≤ _ by omega) (show 32 ≤ fuel by omega) (by rw [length_runtests]; omega) hroot
  cases hspec.symm.trans h.verdict
  rw [testMain, bind_of_ok h.init]
  change (runTests (virtualSetup M.target M.w M.nodeSz M.keystr 32) fuel (runtests M) _ >>= _) = _
  rw [bind_of_ok hrun]
  cases M.mprotect 0 <;> rfl

/-- A machine with pages of 4 KiB. -/
def sampleMachine : Machine := ⟨lp64, 64, 64, 4096, 4096, some 1048576, fun _ => true⟩

theorem testMain_ok_sample : testMain sampleMachine 3000 emptyWorld = .ok (some 0) := by
  have hok : sampleMachine.Ok 1048576 :=
    ⟨by decide, by decide, by decide, by decide, rfl, by decide, .inr (by decide)⟩
  exact testMain_ok hok (by decide) emptyWorld

end Main

end Cop.Tests
