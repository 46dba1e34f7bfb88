import Cop.Alloc.GrpTemps
import Mathlib.Algebra.Order.BigOperators.Group.List
import Mathlib.Algebra.Order.Ring.Nat

/-!
# Live blocks of the group-temporaries allocator

Where no size wraps, every buffer is as large as it says, and blocks stay in the buffer
they were placed in. A block is found by its level: the sizes of the older buffers come
before it, and `restore` frees a buffer only when those alone are more than the mark.

## What is proved

* `accepts_iff_fits` — at every state reached by requests that fit, a request that `malloc`
  can answer is answered as promised, with a null pointer and nothing changed or with a
  block that is all there, exactly when it fits: `SizesFit` is a condition on the request
  and the state before it.
* `wrapped_request_accepted` — a request that does not fit, and what becomes of it.
* `grpTemps_sound`, `grpTemps_blocks_safe` — live blocks are aligned, in a buffer that is not
  freed, and apart, after any run.
-/

namespace Cop.Alloc.GrpTemps

open Theory

variable {w : ℕ} {s t : GrpTemps}

/-- What the calls keep where no size wraps. -/
structure Sized (w : ℕ) (s : GrpTemps) : Prop where
  /-- Sizes, links and the heap belong together. -/
  linked : Linked w s
  /-- No more is handed out of a buffer than it has. -/
  size_le : ∀ b ∈ s.chain, b.size ≤ b.allocSz
  /-- A buffer with its fields has a size. -/
  alloc_lt : ∀ b ∈ s.chain, sizeofBuf w + b.allocSz < 2 ^ w
  /-- The default alignment is one. -/
  default : DefaultOk w s.defaultAlign

/-- The region of a buffer is as large as the buffer with its fields. -/
theorem region_eq {b : Buf} (h : sizeofBuf w + b.allocSz < 2 ^ w) : region w b = ⟨b.addr, sizeofBuf w + b.allocSz⟩ := by
  rw [region, Word.add_of_lt h]

theorem Sized.region_mem (h : Sized w s) {b : Buf} (hb : b ∈ s.chain) :
    (⟨b.addr, sizeofBuf w + b.allocSz⟩ : Region) ∈ s.heap := by
  rw [← region_eq (h.alloc_lt b hb)]
  exact h.linked.regions.subset (List.mem_map_of_mem hb)

theorem Sized.within (h : Sized w s) {b : Buf} (hb : b ∈ s.chain) :
    0 < b.addr ∧ b.addr + (sizeofBuf w + b.allocSz) < 2 ^ w :=
  h.linked.ledger.within _ (h.region_mem hb)

theorem Sized.data_eq (h : Sized w s) {b : Buf} (hb : b ∈ s.chain) : b.data w = b.addr + sizeofBuf w := by
  have hin := h.within hb
  rw [Buf.data, Word.add_of_lt (by omega)]

theorem new_lt {size align a : ℕ} (hmalloc : sizeofBuf w + s.actualAlloc w size (s.alignOf align) < 2 ^ w)
    (hfresh : Fresh (2 ^ w) s.heap (region w (s.newBuf w size align a))) :
    a + (sizeofBuf w + s.actualAlloc w size (s.alignOf align)) < 2 ^ w := by
  have hin := hfresh.1.2
  rw [region_eq (b := s.newBuf w size align a) hmalloc] at hin
  exact hin

theorem Sized.sizes_lt (h : Sized w s) : sizeofBuf w + sizes s.chain < 2 ^ w := by
  have hledger := h.linked.ledger.sublist h.linked.regions
  have hsum := hledger.sum_len_lt (Nat.two_pow_pos w)
  -- each region is as large as the bytes of the buffer, and one of them has fields too
  have hle : ∀ bs : List Buf, (∀ b ∈ bs, b.size ≤ b.allocSz) → (∀ b ∈ bs, sizeofBuf w + b.allocSz < 2 ^ w) →
      sizes bs ≤ ((bs.map (region w)).map Region.len).sum := by
    intro bs hsize halloc
    rw [sizes, List.map_map]
    apply List.sum_le_sum
    intro b hb
    have hlen : (region w b).len = sizeofBuf w + b.allocSz := congrArg Region.len (region_eq (halloc b hb))
    have := hsize b hb
    simp only [Function.comp, hlen]
    omega
  have hprev := hle s.prev (fun b hb => h.size_le b (List.mem_cons_of_mem _ hb))
    fun b hb => h.alloc_lt b (List.mem_cons_of_mem _ hb)
  have hhead := h.size_le s.head List.mem_cons_self
  have hlen : (region w s.head).len = sizeofBuf w + s.head.allocSz :=
    congrArg Region.len (region_eq (h.alloc_lt s.head List.mem_cons_self))
  rw [chain, List.map_cons, List.map_cons, List.sum_cons, hlen] at hsum
  rw [chain, sizes_cons]
  omega

/-- What `save` returns is the sum of all sizes. -/
theorem Sized.save_eq (h : Sized w s) : s.copAllocGrpTempsSave w = sizes s.chain := by
  have hlt := h.sizes_lt
  rw [h.linked.save_eq, Nat.mod_eq_of_lt (by omega)]

/-! ### Requests that fit -/

/-- The padding before the next block of the newest buffer. -/
def pad (w : ℕ) (s : GrpTemps) (align : ℕ) : ℕ := padTo (s.alignOf align) (s.head.addr + sizeofBuf w + s.head.size)

/-- The sums of the request that are used do not wrap: `start + size`, if the request is met
from the newest buffer, and otherwise `size + align - 1` and `sizeof(*nb) + actual_alloc`. -/
def SizesFit (w : ℕ) (s : GrpTemps) (size align : ℕ) : Prop :=
  if s.Grows w size align then
    size + s.alignOf align - 1 < 2 ^ w ∧ sizeofBuf w + s.actualAlloc w size (s.alignOf align) < 2 ^ w
  else s.startOf w align + size < 2 ^ w

instance (w : ℕ) (s : GrpTemps) (size align : ℕ) : Decidable (SizesFit w s size align) :=
  inferInstanceAs (Decidable (if s.Grows w size align then
    size + s.alignOf align - 1 < 2 ^ w ∧ sizeofBuf w + s.actualAlloc w size (s.alignOf align) < 2 ^ w
    else s.startOf w align + size < 2 ^ w))

/-- The request fits, or `malloc` fails. -/
def Fits (w : ℕ) (s : GrpTemps) (size align : ℕ) (env : Option ℕ) : Prop :=
  SizesFit w s size align ∨ s.Grows w size align ∧ env = none

theorem Fits.of_reuse {size align : ℕ} {env : Option ℕ} (h : Fits w s size align env)
    (hreuse : ¬ s.Grows w size align) : s.startOf w align + size < 2 ^ w := by
  rcases h with h | ⟨hgrow, -⟩
  · rwa [SizesFit, if_neg hreuse] at h
  · exact absurd hgrow hreuse

theorem Fits.of_grows {size align a : ℕ} (h : Fits w s size align (some a)) (hgrow : s.Grows w size align) :
    size + s.alignOf align - 1 < 2 ^ w ∧ sizeofBuf w + s.actualAlloc w size (s.alignOf align) < 2 ^ w := by
  rcases h with h | ⟨-, hnone⟩
  · rwa [SizesFit, if_pos hgrow] at h
  · cases hnone

section Request

variable (h : Sized w s) {size align : ℕ} (ha : AlignOk w align)

include h ha

theorem Sized.pad_lt : s.pad w align < s.alignOf align := padTo_lt (h.default.orDefault_pos ha)

theorem Sized.startOf_eq : s.startOf w align = s.head.size + s.pad w align := by
  obtain ⟨hpow, hlt⟩ := h.default.orDefault ha
  have hpos := h.default.orDefault_pos ha
  have hin := h.within (b := s.head) List.mem_cons_self
  have hsize := h.size_le s.head List.mem_cons_self
  have hoff : aallocAlignoffset w (Word.add w (s.head.data w) s.head.size) (Word.sub w (s.alignOf align) 1) =
      s.pad w align := by
    rw [h.data_eq List.mem_cons_self]
    exact aallocAlignoffset_eq hpow hlt _
  -- the padding ends within the address space
  have hle : s.head.addr + sizeofBuf w + s.head.size + s.pad w align ≤ 2 ^ w :=
    add_padTo_le hpos (dvd_two_pow hpow hlt) (by omega)
  rw [startOf, hoff, Word.add_of_lt (by omega)]

theorem Sized.addr_eq : (s.startOf w align + size < 2 ^ w) → ¬ s.Grows w size align →
    Word.add w (s.head.data w) (s.startOf w align) = s.head.addr + sizeofBuf w + (s.head.size + s.pad w align) ∧
      s.head.size + s.pad w align + size ≤ s.head.allocSz := by
  intro hfit hreuse
  have hin := h.within (b := s.head) List.mem_cons_self
  unfold Grows at hreuse
  rw [Word.add_of_lt hfit] at hreuse
  have hstart := h.startOf_eq ha
  rw [hstart] at hreuse ⊢
  rw [h.data_eq List.mem_cons_self, Word.add_of_lt (by omega)]
  omega

/-- A new buffer has room for the request, wherever it is. -/
theorem Sized.le_actualAlloc (hfit : size + s.alignOf align - 1 < 2 ^ w) :
    size + s.alignOf align - 1 ≤ s.actualAlloc w size (s.alignOf align) := by
  have hpos := h.default.orDefault_pos ha
  have hpos' : 0 < s.alignOf align := hpos
  have hmin : Word.sub w (Word.add w size (s.alignOf align)) 1 = size + s.alignOf align - 1 := by
    rw [Word.sub_add_one (by omega), Nat.mod_eq_of_lt hfit]
  simp only [actualAlloc, hmin]
  generalize (if Word.mul w s.head.size 2 > s.maxGrow then s.maxGrow else Word.mul w s.head.size 2) = doubled
  split <;> omega

theorem Sized.newStart_eq {a : ℕ} (hin : a + (sizeofBuf w + s.actualAlloc w size (s.alignOf align)) < 2 ^ w) :
    (s.newBuf w size align a).data w = a + sizeofBuf w ∧
      s.newStart w size align a = padTo (s.alignOf align) (a + sizeofBuf w) := by
  obtain ⟨hpow, hlt⟩ := h.default.orDefault ha
  have hdata : (s.newBuf w size align a).data w = (a + sizeofBuf w) % 2 ^ w := rfl
  constructor
  · rw [hdata, Nat.mod_eq_of_lt (by omega)]
  · rw [newStart, hdata]
    exact aallocAlignoffset_eq hpow hlt _

/-- Where a new buffer has room, the sum that is compared first does not wrap either. -/
theorem Sized.start_add_lt (hgrow : s.Grows w size align) (hsize : size < 2 ^ w)
    (hfit : size + s.alignOf align - 1 < 2 ^ w) : s.startOf w align + size < 2 ^ w := by
  have hpad := h.pad_lt ha
  have hstart := h.startOf_eq ha
  have hle := h.size_le s.head List.mem_cons_self
  by_contra hwrap
  have hlt : s.startOf w align < 2 ^ w := Word.add_lt
  unfold Grows at hgrow
  rw [Word.add_of_ge hlt hsize (by omega), hstart] at hgrow
  omega

end Request

/-! ### What is promised of a request -/

/-- The block of `size` bytes at `p` is in the bytes of the newest buffer, after the first
`skip` of them, and that buffer is taken. -/
structure InHead (w : ℕ) (t : GrpTemps) (p size skip : ℕ) : Prop where
  /-- The buffer is all of a region that is taken. -/
  region : (⟨t.head.addr, sizeofBuf w + t.head.allocSz⟩ : Region) ∈ t.heap
  /-- The block starts after the bytes that are skipped. -/
  lower : t.head.addr + sizeofBuf w + skip ≤ p
  /-- It ends where the bytes of the buffer end, or before. -/
  upper : p + size ≤ t.head.addr + sizeofBuf w + t.head.allocSz

/-- None of the sums on the path that returns a block wraps. -/
structure SumsFit (w : ℕ) (s : GrpTemps) (size align : ℕ) : Prop where
  /-- `start + size`, for the newest buffer. -/
  start : s.startOf w align + size < 2 ^ w
  /-- `size + align - 1`, for a new buffer. -/
  minAlloc : s.Grows w size align → size + s.alignOf align - 1 < 2 ^ w
  /-- `sizeof(*nb) + actual_alloc`, for a new buffer. -/
  malloc : s.Grows w size align → sizeofBuf w + s.actualAlloc w size (s.alignOf align) < 2 ^ w

/-- What is promised of a call of `alloc` that returned: a null pointer and nothing changed, or a
block past what the buffer had handed out, and no sum that wrapped. -/
def Accepts (w : ℕ) (s : GrpTemps) (size align : ℕ) : Option ℕ × GrpTemps → Prop
  | (none, t) => t = s
  | (some p, t) => InHead w t p size (if s.Grows w size align then 0 else s.head.size) ∧ SumsFit w s size align

theorem Sized.alloc_eq (h : Sized w s) {size align : ℕ} (ha : AlignOk w align) (env : Option ℕ) :
    allocGrpTemps w s size align env =
      if s.Grows w size align then s.grow w size (s.alignOf align) env
      else .ok (some (Word.add w (s.head.data w) (s.startOf w align)), s.reused w size align) := by
  have hpos : 0 < s.alignOf align := h.default.orDefault_pos ha
  have hassert : check Fault.assertion (s.alignOf align ≠ 0) = .ok () := check_pos (Nat.ne_of_gt hpos)
  simp only [allocGrpTemps, hassert]
  rfl

theorem grow_some {size align a : ℕ}
    (hmalloc : sizeofBuf w + s.actualAlloc w size (s.alignOf align) < 2 ^ w)
    (hfresh : Fresh (2 ^ w) s.heap (region w (s.newBuf w size align a))) :
    s.grow w size (s.alignOf align) (some a) =
      .ok (some (Word.add w ((s.newBuf w size align a).data w) (s.newStart w size align a)), s.grown w size align a) := by
  have hcheck : check Fault.outOfBounds (sizeofBuf w ≤ Word.add w (sizeofBuf w) (s.actualAlloc w size (s.alignOf align))) =
      .ok () := check_pos (by rw [Word.add_of_lt hmalloc]; omega)
  have hm : malloc (2 ^ w) s.heap (Word.add w (sizeofBuf w) (s.actualAlloc w size (s.alignOf align))) (some a) =
      .ok (some a, region w (s.newBuf w size align a) :: s.heap) := malloc_some (ε := Fault) hfresh
  rw [grow, hm]
  change (check _ _ >>= _) = _
  rw [hcheck]
  rfl

theorem Sized.alloc_ok (h : Sized w s) {size align : ℕ} {env : Option ℕ} (ha : AlignOk w align)
    (hfits : Fits w s size align env) (henv : allocGrpTemps w s size align env ≠ .error .env) :
    ∃ r, allocGrpTemps w s size align env = .ok r := by
  rw [h.alloc_eq ha] at henv ⊢
  split
  · rename_i hgrow
    rw [if_pos hgrow] at henv
    cases env with
    | none => exact ⟨_, rfl⟩
    | some a =>
      have hmalloc := (hfits.of_grows hgrow).2
      by_cases hfresh : Fresh (2 ^ w) s.heap (region w (s.newBuf w size align a))
      · exact ⟨_, grow_some hmalloc hfresh⟩
      · refine absurd ?_ henv
        have hm : malloc (2 ^ w) s.heap (Word.add w (sizeofBuf w) (s.actualAlloc w size (s.alignOf align))) (some a) =
            .error .env := malloc_env (ε := Fault) hfresh
        rw [grow, hm]
        rfl
  · exact ⟨_, rfl⟩

theorem Sized.accepts (h : Sized w s) {size align : ℕ} {env : Option ℕ} (hsize : size < 2 ^ w) (ha : AlignOk w align)
    (hfits : Fits w s size align env) {r : Option ℕ × GrpTemps} (hr : allocGrpTemps w s size align env = .ok r) :
    Accepts w s size align r := by
  obtain ⟨p, t⟩ := r
  rcases allocGrpTemps_ok hr with ⟨hreuse, rfl, rfl⟩ | ⟨hgrow, ⟨-, rfl, rfl⟩ | ⟨a, rfl, hfresh, rfl, rfl⟩⟩
  · have hfit := hfits.of_reuse hreuse
    obtain ⟨haddr, hle⟩ := h.addr_eq ha hfit hreuse
    have hregion := h.region_mem (b := s.head) List.mem_cons_self
    refine ⟨⟨hregion, ?_, ?_⟩, ⟨hfit, fun hg => absurd hg hreuse, fun hg => absurd hg hreuse⟩⟩
    · rw [haddr, if_neg hreuse]
      change s.head.addr + _ + _ ≤ _
      omega
    · rw [haddr]
      change _ ≤ s.head.addr + _ + s.head.allocSz
      omega
  · rfl
  · obtain ⟨hmin, hmalloc⟩ := hfits.of_grows hgrow
    have hregion : region w (s.newBuf w size align a) = ⟨a, sizeofBuf w + s.actualAlloc w size (s.alignOf align)⟩ :=
      region_eq hmalloc
    have hin := new_lt hmalloc hfresh
    obtain ⟨hdata, hstart⟩ := h.newStart_eq ha hin
    have hroom := h.le_actualAlloc ha hmin
    have hpad : padTo (s.alignOf align) (a + sizeofBuf w) < s.alignOf align := padTo_lt (h.default.orDefault_pos ha)
    have haddr : Word.add w (a + sizeofBuf w) (padTo (s.alignOf align) (a + sizeofBuf w)) =
        a + sizeofBuf w + padTo (s.alignOf align) (a + sizeofBuf w) := Word.add_of_lt (by omega)
    refine ⟨⟨?_, ?_, ?_⟩, ⟨h.start_add_lt ha hgrow hsize hmin, fun _ => hmin, fun _ => hmalloc⟩⟩
    · exact hregion ▸ List.mem_cons_self
    · rw [hdata, hstart, haddr, if_pos hgrow]
      change a + sizeofBuf w + 0 ≤ _
      omega
    · rw [hdata, hstart, haddr]
      change _ ≤ a + sizeofBuf w + s.actualAlloc w size (s.alignOf align)
      omega

theorem fits_of_accepts {size align : ℕ} {env : Option ℕ} {r : Option ℕ × GrpTemps}
    (hr : allocGrpTemps w s size align env = .ok r) (hacc : Accepts w s size align r) : Fits w s size align env := by
  obtain ⟨p, t⟩ := r
  rcases allocGrpTemps_ok hr with ⟨hreuse, rfl, -⟩ | ⟨hgrow, ⟨rfl, -, -⟩ | ⟨a, -, -, rfl, -⟩⟩
  · left
    rw [SizesFit, if_neg hreuse]
    exact hacc.2.start
  · exact .inr ⟨hgrow, rfl⟩
  · left
    rw [SizesFit, if_pos hgrow]
    exact ⟨hacc.2.minAlloc hgrow, hacc.2.malloc hgrow⟩

/-! ### What requests that fit keep -/

/-- A request is proper, and fits. -/
def FitsCall (w : ℕ) (s : GrpTemps) : Request (Option ℕ) → Prop
  | .alloc size align env => AlignOk w align ∧ Fits w s size align env
  | _ => True

theorem Sized.reused (h : Sized w s) {size align : ℕ} (ha : AlignOk w align) (hfit : s.startOf w align + size < 2 ^ w)
    (hreuse : ¬ s.Grows w size align) : Sized w (s.reused w size align) := by
  obtain ⟨-, hle⟩ := h.addr_eq ha hfit hreuse
  have hstart := h.startOf_eq ha
  refine ⟨h.linked.reused size align, ?_, ?_, h.default⟩
  · intro b hb
    rcases List.mem_cons.1 hb with rfl | hb
    · change Word.add w (s.startOf w align) size ≤ s.head.allocSz
      rw [Word.add_of_lt hfit, hstart]
      exact hle
    · exact h.size_le b (List.mem_cons_of_mem _ hb)
  · intro b hb
    rcases List.mem_cons.1 hb with rfl | hb
    · exact h.alloc_lt s.head List.mem_cons_self
    · exact h.alloc_lt b (List.mem_cons_of_mem _ hb)

theorem Sized.newSize_eq (h : Sized w s) {size align a : ℕ} (ha : AlignOk w align)
    (hmin : size + s.alignOf align - 1 < 2 ^ w)
    (hin : a + (sizeofBuf w + s.actualAlloc w size (s.alignOf align)) < 2 ^ w) :
    Word.add w (s.newStart w size align a) size = padTo (s.alignOf align) (a + sizeofBuf w) + size ∧
      padTo (s.alignOf align) (a + sizeofBuf w) + size ≤ s.actualAlloc w size (s.alignOf align) := by
  have hpad : padTo (s.alignOf align) (a + sizeofBuf w) < s.alignOf align := padTo_lt (h.default.orDefault_pos ha)
  have hroom := h.le_actualAlloc ha hmin
  rw [(h.newStart_eq ha hin).2, Word.add_of_lt (by omega)]
  omega

theorem Sized.grown (h : Sized w s) {size align a : ℕ} (ha : AlignOk w align)
    (hmin : size + s.alignOf align - 1 < 2 ^ w) (hmalloc : sizeofBuf w + s.actualAlloc w size (s.alignOf align) < 2 ^ w)
    (hfresh : Fresh (2 ^ w) s.heap (region w (s.newBuf w size align a))) : Sized w (s.grown w size align a) := by
  have hin := new_lt hmalloc hfresh
  obtain ⟨hsize, hle⟩ := h.newSize_eq ha hmin hin
  refine ⟨h.linked.grown hfresh, ?_, ?_, h.default⟩
  · intro b hb
    rcases List.mem_cons.1 hb with rfl | hb
    · exact hsize.trans_le hle
    · exact h.size_le b hb
  · intro b hb
    rcases List.mem_cons.1 hb with rfl | hb
    · exact hmalloc
    · exact h.alloc_lt b hb

theorem Sized.stopped (h : Sized w s) {newer : List Buf} {buf : Buf} {older : List Buf}
    (hsplit : s.chain = newer ++ buf :: older) (d : ℕ) : Sized w (s.stopped w newer buf older d) := by
  have hmem : ∀ b ∈ buf :: older, b ∈ s.chain := by
    intro b hb
    rw [hsplit]
    exact List.mem_append_right _ hb
  refine ⟨h.linked.stopped hsplit d, ?_, ?_, h.default⟩
  · intro b hb
    rcases List.mem_cons.1 hb with rfl | hb
    · exact (Nat.sub_le _ _).trans (h.size_le buf (hmem buf List.mem_cons_self))
    · exact h.size_le b (hmem b (List.mem_cons_of_mem _ hb))
  · intro b hb
    rcases List.mem_cons.1 hb with rfl | hb
    · exact h.alloc_lt buf (hmem buf List.mem_cons_self)
    · exact h.alloc_lt b (hmem b (List.mem_cons_of_mem _ hb))

theorem Sized.exchanged (h : Sized w s) {totalSize a : ℕ} (hex : s.Exchanges totalSize)
    (hlt : sizeofBuf w + totalSize < 2 ^ w) (hfresh : Fresh (2 ^ w) s.heap (region w ⟨a, 0, totalSize⟩)) :
    Sized w (s.exchanged w totalSize a) := by
  refine ⟨h.linked.exchanged hex hfresh, ?_, ?_, h.default⟩
  · intro b hb
    obtain rfl := List.mem_singleton.1 hb
    exact Nat.zero_le _
  · intro b hb
    obtain rfl := List.mem_singleton.1 hb
    exact hlt

theorem Sized.restored (h : Sized w s) {m : ℕ} {env : Option ℕ} (hcall : s.copAllocGrpTempsRestore w m env = .ok t) :
    Sized w t := by
  obtain ⟨newer, buf, older, hsplit, -, -, -, hcases⟩ := restore_ok h.linked hcall
  have hu := h.stopped hsplit (s.copAllocGrpTempsSave w - m)
  rcases hcases with ⟨rfl, -⟩ | ⟨hex, a, -, hfresh, rfl⟩
  · exact hu
  · have hlt := h.sizes_lt
    rw [← h.save_eq] at hlt
    exact hu.exchanged hex hlt hfresh

theorem sized_step (h : Sized w s) {r : Request (Option ℕ)} (hfits : FitsCall w s r)
    (hstep : (iface w).step w s r = some t) : Sized w t := by
  cases r with
  | alloc size align env =>
    obtain ⟨ha, hfits⟩ := hfits
    obtain ⟨hsize, -, p, hcall⟩ := Salloc.step_alloc hstep
    have hacc := h.accepts hsize ha hfits hcall
    rcases allocGrpTemps_ok hcall with ⟨hreuse, rfl, rfl⟩ | ⟨hgrow, ⟨-, -, rfl⟩ | ⟨a, -, hfresh, rfl, rfl⟩⟩
    · exact h.reused ha hacc.2.start hreuse
    · exact h
    · exact h.grown ha (hacc.2.minAlloc hgrow) (hacc.2.malloc hgrow) hfresh
  | save =>
    cases hstep
    exact h
  | restore m env =>
    obtain ⟨-, hcall⟩ := Salloc.step_restore hstep
    exact h.restored hcall

theorem defaultOk_init {defaultAlign : ℕ} (hw : 5 ≤ w) (hd : AlignOk w defaultAlign) :
    DefaultOk w (if defaultAlign = 0 then 16 else defaultAlign) := by
  split
  · exact ⟨⟨4, rfl⟩, show 2 ^ 4 < 2 ^ w from Nat.pow_lt_pow_right (by decide) hw⟩
  · rename_i hne
    have hd := hd.resolve_left hne
    exact ⟨hd.1, hd.2⟩

theorem sized_init {ps initialSz maxGrow defaultAlign : ℕ} {env : Option ℕ} (hw : 5 ≤ w) (hd : AlignOk w defaultAlign)
    (hfit : sizeofBuf w + initialBytes ps initialSz < 2 ^ w)
    (hinit : copAllocGrpTempsInit w ps initialSz maxGrow defaultAlign env = .ok (some s)) : Sized w s := by
  obtain ⟨-, hprev, hsize, -, -, halloc, hdefault⟩ := copAllocGrpTempsInit_ok hinit
  refine ⟨linked_init hinit, ?_, ?_, hdefault ▸ defaultOk_init hw hd⟩
  · intro b hb
    rw [chain, hprev] at hb
    obtain rfl := List.mem_singleton.1 hb
    rw [hsize]
    exact Nat.zero_le _
  · intro b hb
    rw [chain, hprev] at hb
    obtain rfl := List.mem_singleton.1 hb
    rwa [halloc]

/-- **Requests are answered as promised exactly as long as they fit.** After any run of calls from
`cop_alloc_grp_temps_init` whose requests all fit, with any answers of `malloc`, a request of any
size is answered as promised exactly when it fits. -/
theorem accepts_iff_fits (hw : 5 ≤ w) {ps initialSz maxGrow defaultAlign : ℕ} {env₀ : Option ℕ} {s₀ : GrpTemps}
    (hd : AlignOk w defaultAlign) (hfit : sizeofBuf w + initialBytes ps initialSz < 2 ^ w)
    (hinit : copAllocGrpTempsInit w ps initialSz maxGrow defaultAlign env₀ = .ok (some s₀))
    {rs : List (Request (Option ℕ))} (hfits : Meets ((iface w).step w) (FitsCall w) rs s₀)
    (hrun : steps ((iface w).step w) rs s₀ = some s) {size align : ℕ} {env : Option ℕ} (hsize : size < 2 ^ w)
    (ha : AlignOk w align) (henv : allocGrpTemps w s size align env ≠ .error .env) :
    (∃ r, allocGrpTemps w s size align env = .ok r ∧ Accepts w s size align r) ↔ Fits w s size align env := by
  have h : Sized w s := steps_inv_of_meets (fun s r t hs hC hstep => sized_step hs hC hstep)
    (sized_init hw hd hfit hinit) hfits hrun
  constructor
  · rintro ⟨r, hr, hacc⟩
    exact fits_of_accepts hr hacc
  · intro hf
    obtain ⟨r, hr⟩ := h.alloc_ok ha hf henv
    exact ⟨r, hr, h.accepts hsize ha hf hr⟩

/-- An allocator whose first buffer has 1000 bytes. -/
def thousandBytes : GrpTemps := ⟨16, 2000, 0, ⟨4096, 0, 1000⟩, [], [⟨4096, 1024⟩]⟩

theorem init_thousandBytes : copAllocGrpTempsInit 64 4096 1000 0 0 (some 4096) = .ok (some thousandBytes) := rfl

/-- It has handed out 108 bytes. -/
def thousandBytesUsed : GrpTemps := { thousandBytes with head := ⟨4096, 108, 1000⟩ }

theorem run_thousandBytes : steps ((iface 64).step 64) [.alloc 100 16 none] thousandBytes = some thousandBytesUsed := rfl

theorem accepts_iff_fits_thousandBytes :
    (∃ r, allocGrpTemps 64 thousandBytesUsed 5000 16 (some 8192) = .ok r ∧ Accepts 64 thousandBytesUsed 5000 16 r) ↔
      Fits 64 thousandBytesUsed 5000 16 (some 8192) := by
  have hfits : Meets ((iface 64).step 64) (FitsCall 64) [.alloc 100 16 none] thousandBytes :=
    ⟨⟨by decide, .inl (show SizesFit 64 thousandBytes 100 16 by decide)⟩, trivial⟩
  exact accepts_iff_fits (by decide) (by decide) (by decide) init_thousandBytes hfits run_thousandBytes (by decide)
    (by decide) (by decide)

/-- A request of all but 100 bytes of the address space is met from a buffer of 1000 bytes, and
what that buffer has handed out shrinks from 108 bytes to 20. -/
theorem wrapped_request_accepted :
    copAllocGrpTempsInit 64 4096 1000 0 0 (some 4096) = .ok (some thousandBytes) ∧
      steps ((iface 64).step 64) [.alloc 100 16 none] thousandBytes = some thousandBytesUsed ∧
      ∃ t, allocGrpTemps 64 thousandBytesUsed (2 ^ 64 - 100) 16 none = .ok (some 4240, t) ∧ t.head.size = 20 ∧
        ¬ Accepts 64 thousandBytesUsed (2 ^ 64 - 100) 16 (some 4240, t) := by
  refine ⟨rfl, rfl, { thousandBytes with head := ⟨4096, 20, 1000⟩ }, by decide, rfl, ?_⟩
  intro hacc
  have hupper : 4240 + (2 ^ 64 - 100) ≤ 4096 + 24 + 1000 := hacc.1.upper
  omega

/-! ### Where blocks are -/

/-- A block that is not empty is in the bytes of a buffer, at the offset that its level has over
the sizes of the older buffers, and is aligned. -/
structure PlacedIn (w : ℕ) (s : GrpTemps) (b : Block) (e : ℕ) (buf : Buf) (older : List Buf) : Prop where
  /-- The older buffers end below the block. -/
  lower : sizes older + b.size ≤ e
  /-- The buffer ends above it. -/
  upper : e ≤ sizes older + buf.size
  /-- Its address. -/
  addr : b.addr + b.size + sizes older = buf.addr + sizeofBuf w + e
  /-- It is aligned as requested. -/
  aligned : s.alignOf b.align ∣ b.addr

/-- Where the blocks are that are not empty. -/
def Placed (w : ℕ) (s : GrpTemps) (b : Block) (e : ℕ) : Prop :=
  b.size ≠ 0 → ∃ newer buf older, s.chain = newer ++ buf :: older ∧ PlacedIn w s b e buf older

theorem Sized.placed_reused (h : Sized w s) {size align : ℕ} (ha : AlignOk w align)
    (hfit : s.startOf w align + size < 2 ^ w) (hreuse : ¬ s.Grows w size align) :
    let t := s.reused w size align
    s.copAllocGrpTempsSave w + size ≤ t.copAllocGrpTempsSave w ∧
      Placed w t ⟨Word.add w (s.head.data w) (s.startOf w align), size, align⟩ (t.copAllocGrpTempsSave w) ∧
      ∀ b e, e ≤ s.copAllocGrpTempsSave w → Placed w s b e → Placed w t b e := by
  intro t
  have ht : Sized w t := h.reused ha hfit hreuse
  obtain ⟨haddr, -⟩ := h.addr_eq ha hfit hreuse
  have hstart := h.startOf_eq ha
  have hsize : t.head.size = s.head.size + s.pad w align + size := by
    change Word.add w (s.startOf w align) size = _
    rw [Word.add_of_lt hfit, hstart]
  have hsave : t.copAllocGrpTempsSave w = s.head.size + s.pad w align + size + sizes s.prev := by
    rw [ht.save_eq, chain, sizes_cons, hsize]
    rfl
  rw [h.save_eq, hsave, haddr, chain, sizes_cons]
  refine ⟨by omega, ?_, ?_⟩
  · intro _
    have hdvd : s.alignOf align ∣ s.head.addr + sizeofBuf w + s.head.size + s.pad w align :=
      dvd_add_padTo (h.default.orDefault_pos ha)
    rw [Nat.add_assoc] at hdvd
    refine ⟨[], t.head, s.prev, rfl, ⟨?_, ?_, ?_, hdvd⟩⟩
    · dsimp only
      omega
    · rw [hsize]
      omega
    · change _ = s.head.addr + sizeofBuf w + _
      dsimp only
      omega
  · intro b e _ hb hne
    obtain ⟨newer, buf, older, hsplit, hplaced⟩ := hb hne
    cases newer with
    | nil =>
      -- the block is in the newest buffer, which grows
      cases hsplit
      refine ⟨[], t.head, s.prev, rfl, ⟨hplaced.lower, ?_, hplaced.addr, hplaced.aligned⟩⟩
      have := hplaced.upper
      omega
    | cons x newer =>
      rw [chain, List.cons_append, List.cons.injEq] at hsplit
      obtain ⟨rfl, hprev⟩ := hsplit
      refine ⟨t.head :: newer, buf, older, ?_, ⟨hplaced.lower, hplaced.upper, hplaced.addr, hplaced.aligned⟩⟩
      rw [chain, List.cons_append, ← hprev]
      rfl

theorem Sized.placed_grown (h : Sized w s) {size align a : ℕ} (ha : AlignOk w align)
    (hmin : size + s.alignOf align - 1 < 2 ^ w) (hmalloc : sizeofBuf w + s.actualAlloc w size (s.alignOf align) < 2 ^ w)
    (hfresh : Fresh (2 ^ w) s.heap (region w (s.newBuf w size align a))) :
    let t := s.grown w size align a
    s.copAllocGrpTempsSave w + size ≤ t.copAllocGrpTempsSave w ∧
      Placed w t ⟨Word.add w ((s.newBuf w size align a).data w) (s.newStart w size align a), size, align⟩
        (t.copAllocGrpTempsSave w) ∧
      ∀ b e, e ≤ s.copAllocGrpTempsSave w → Placed w s b e → Placed w t b e := by
  intro t
  have ht : Sized w t := h.grown ha hmin hmalloc hfresh
  have hin := new_lt hmalloc hfresh
  obtain ⟨hsize, hle⟩ := h.newSize_eq ha hmin hin
  obtain ⟨hdata, hstart⟩ := h.newStart_eq ha hin
  have hhead : t.head.size = padTo (s.alignOf align) (a + sizeofBuf w) + size := hsize
  have hsave : t.copAllocGrpTempsSave w = padTo (s.alignOf align) (a + sizeofBuf w) + size + sizes s.chain := by
    rw [ht.save_eq, chain, sizes_cons, hhead]
    rfl
  rw [h.save_eq, hsave, hdata, hstart, Word.add_of_lt (by omega)]
  refine ⟨by omega, ?_, ?_⟩
  · intro _
    have hdvd : s.alignOf align ∣ a + sizeofBuf w + padTo (s.alignOf align) (a + sizeofBuf w) :=
      dvd_add_padTo (h.default.orDefault_pos ha)
    refine ⟨[], t.head, s.chain, rfl, ⟨?_, ?_, ?_, hdvd⟩⟩
    · dsimp only
      omega
    · rw [hhead]
      omega
    · change _ = a + sizeofBuf w + _
      dsimp only
      omega
  · intro b e _ hb hne
    obtain ⟨newer, buf, older, hsplit, hplaced⟩ := hb hne
    refine ⟨t.head :: newer, buf, older, ?_, ⟨hplaced.lower, hplaced.upper, hplaced.addr, hplaced.aligned⟩⟩
    change t.head :: s.chain = _
    rw [hsplit]
    rfl

/-- **Going back to a mark** leaves the blocks below it where they are: a buffer is freed only
when the older ones alone are more than the mark. -/
theorem Sized.placed_restore (h : Sized w s) {m : ℕ} {env : Option ℕ} (hcall : s.copAllocGrpTempsRestore w m env = .ok t)
    {b : Block} {e : ℕ} (he : e ≤ m) (hb : Placed w s b e) : Placed w t b e := by
  intro hne
  obtain ⟨newer, buf, older, hsplit, hm, hstop, hsave, hcases⟩ := restore_ok h.linked hcall
  have hu := h.stopped hsplit (s.copAllocGrpTempsSave w - m)
  obtain ⟨newer', buf', older', hsplit', hplaced⟩ := hb hne
  have hlower := hplaced.lower
  have hupper := hplaced.upper
  rcases hcases with ⟨rfl, -⟩ | ⟨hex, a, -, -, rfl⟩
  · rw [hu.save_eq] at hsave
    rcases split_cases (hsplit.symm.trans hsplit') with ⟨rfl, rfl, rfl⟩ | ⟨k, rfl, rfl⟩ | ⟨k, rfl, rfl⟩
    · -- the block is in the buffer that the loop stops at
      refine ⟨[], _, older, rfl, ⟨hlower, ?_, hplaced.addr, hplaced.aligned⟩⟩
      rw [chain, sizes_cons] at hsave
      have hsame : (s.stopped w newer buf older (s.copAllocGrpTempsSave w - m)).prev = older := rfl
      rw [hsame] at hsave
      omega
    · exact ⟨_ :: k, buf', older', rfl, ⟨hlower, hupper, hplaced.addr, hplaced.aligned⟩⟩
    · -- a buffer that is freed has older ones that are more than the mark
      exfalso
      have hlt := hstop.lt (by simp)
      have htotal := h.save_eq
      rw [hsplit] at htotal
      rw [sizes_append, sizes_cons] at hlt htotal hlower
      rw [sizes_append, sizes_cons] at htotal
      omega
  · -- nothing was handed out below the mark
    exfalso
    have hzero : (Cop.Alloc.GrpTemps.exchanged w (s.stopped w newer buf older (s.copAllocGrpTempsSave w - m))
        (s.copAllocGrpTempsSave w) a).copAllocGrpTempsSave w = 0 := by
      rw [copAllocGrpTempsSave]
      change Word.add w (s.stopped w newer buf older (s.copAllocGrpTempsSave w - m)).preHeadSize 0 = 0
      rw [hex.1, Word.add_of_lt (Nat.two_pow_pos w)]
    rw [hzero] at hsave
    omega

/-- The calls of the group-temporaries allocator keep its invariant and its blocks. -/
theorem grpTemps_sound (w : ℕ) : Sound w (iface w) (FitsCall w) (Sized w) (Placed w) := by
  constructor
  · intro s t size align env p h hsize ha hC hcall
    have hacc := h.accepts hsize ha hC.2 hcall
    rcases allocGrpTemps_ok hcall with ⟨hreuse, hp, rfl⟩ | ⟨hgrow, ⟨-, hnone, -⟩ | ⟨a, -, hfresh, hp, rfl⟩⟩
    · cases hp
      exact ⟨h.reused ha hacc.2.start hreuse, h.placed_reused ha hacc.2.start hreuse⟩
    · cases hnone
    · cases hp
      exact ⟨h.grown ha (hacc.2.minAlloc hgrow) (hacc.2.malloc hgrow) hfresh,
        h.placed_grown ha (hacc.2.minAlloc hgrow) (hacc.2.malloc hgrow) hfresh⟩
  · intro s t size align env h hsize ha hC hcall
    exact h.accepts hsize ha hC.2 hcall
  · intro s t m env h _ _ hcall
    obtain ⟨-, -, -, -, -, -, hsave, -⟩ := restore_ok h.linked hcall
    exact ⟨h.restored hcall, hsave, fun b e he hb => h.placed_restore hcall he hb⟩

theorem Sized.in_buffer (h : Sized w s) {b : Block} {e : ℕ} {buf : Buf} {older : List Buf} (hbuf : buf ∈ s.chain)
    (hb : PlacedIn w s b e buf older) :
    buf.addr + sizeofBuf w ≤ b.addr ∧ b.addr + b.size ≤ buf.addr + sizeofBuf w + buf.allocSz := by
  have hle := h.size_le buf hbuf
  have hlower := hb.lower
  have hupper := hb.upper
  have haddr := hb.addr
  omega

theorem Sized.apart_of_buffers (h : Sized w s) {a b : Block} {e f : ℕ} {x y : Buf} {older older' : List Buf}
    (hx : x ∈ s.chain) (hy : y ∈ s.chain) (hxy : (region w x).Apart (region w y) ∨ (region w y).Apart (region w x))
    (ha : PlacedIn w s a e x older) (hb : PlacedIn w s b f y older') : a.Apart b := by
  obtain ⟨hal, hau⟩ := h.in_buffer hx ha
  obtain ⟨hbl, hbu⟩ := h.in_buffer hy hb
  rw [region_eq (h.alloc_lt x hx), region_eq (h.alloc_lt y hy)] at hxy
  unfold Block.Apart
  rcases hxy with ⟨-, hxy⟩ | ⟨-, hxy⟩
  · dsimp only at hxy
    omega
  · dsimp only at hxy
    omega

/-- Blocks that are placed by levels that do not overlap are apart. -/
theorem Sized.apart (h : Sized w s) {a b : Block} {e f : ℕ} (hfe : f ≤ e - a.size) (hle : a.size ≤ e)
    (ha : Placed w s a e) (hb : Placed w s b f) (hane : a.size ≠ 0) (hbne : b.size ≠ 0) : a.Apart b := by
  obtain ⟨n₁, x, o₁, hsplit₁, hx⟩ := ha hane
  obtain ⟨n₂, y, o₂, hsplit₂, hy⟩ := hb hbne
  have hxm : x ∈ s.chain := by simp [hsplit₁]
  have hym : y ∈ s.chain := by simp [hsplit₂]
  have hpair := (h.linked.ledger.sublist h.linked.regions).apart
  rcases split_cases (hsplit₁.symm.trans hsplit₂) with ⟨rfl, rfl, rfl⟩ | ⟨k, rfl, rfl⟩ | ⟨k, rfl, rfl⟩
  · -- in one buffer, the older block ends where the newer starts, or before
    have haddr := hx.addr
    have haddr' := hy.addr
    right
    omega
  · rw [hsplit₁, List.map_append, List.map_cons, List.pairwise_append, List.pairwise_cons] at hpair
    exact h.apart_of_buffers hxm hym (.inl (hpair.2.1.1 _ (List.mem_map_of_mem (by simp)))) hx hy
  · rw [hsplit₂, List.map_append, List.map_cons, List.pairwise_append, List.pairwise_cons] at hpair
    exact h.apart_of_buffers hxm hym (.inr (hpair.2.1.1 _ (List.mem_map_of_mem (by simp)))) hx hy

/-- **Live blocks are safe.** After any run of a client from `cop_alloc_grp_temps_init` in which no
size wraps, with any answers of `malloc`, every live block that is not empty is aligned as
requested and lies in the bytes of a buffer that is not freed, and live blocks that are not empty
are apart. -/
theorem grpTemps_blocks_safe (hw : 5 ≤ w) {ps initialSz maxGrow defaultAlign : ℕ} {env : Option ℕ} {s₀ : GrpTemps}
    (hd : AlignOk w defaultAlign) (hfit : sizeofBuf w + initialBytes ps initialSz < 2 ^ w)
    (hinit : copAllocGrpTempsInit w ps initialSz maxGrow defaultAlign env = .ok (some s₀))
    {us : List (Use (Option ℕ))} {c : Client GrpTemps}
    (hC : Meets (Client.step w (iface w)) (Client.Calls (FitsCall w)) us ⟨s₀, []⟩)
    (h : steps (Client.step w (iface w)) us ⟨s₀, []⟩ = some c) :
    (∀ b ∈ c.live, b.size ≠ 0 → c.state.alignOf b.align ∣ b.addr ∧
      ∃ buf ∈ c.state.chain, (⟨buf.addr, sizeofBuf w + buf.allocSz⟩ : Region) ∈ c.state.heap ∧
        buf.addr + sizeofBuf w ≤ b.addr ∧ b.addr + b.size ≤ buf.addr + sizeofBuf w + buf.allocSz) ∧
      c.live.Pairwise fun a b => a.size ≠ 0 → b.size ≠ 0 → a.Apart b := by
  have hc := (grpTemps_sound w).run (sized_init hw hd hfit hinit) hC h
  constructor
  · intro b hb hne
    obtain ⟨⟨b', e⟩, hx, rfl⟩ := List.mem_map.1 hb
    obtain ⟨newer, buf, older, hsplit, hplaced⟩ := hc.placed _ hx hne
    have hbuf : buf ∈ c.state.chain := by simp [hsplit]
    exact ⟨hplaced.aligned, buf, hbuf, hc.inv.region_mem hbuf, hc.inv.in_buffer hbuf hplaced⟩
  · refine List.pairwise_map.2 (List.Pairwise.imp_of_mem ?_ hc.stacked.pairwise)
    intro x y hx hy hle hxne hyne
    exact hc.inv.apart hle (hc.stacked.le_top hx).1 (hc.placed x hx) (hc.placed y hy) hxne hyne

/-- Blocks are taken from two buffers, and the newer buffer is freed. -/
def twoBuffers : List (Use (Option ℕ)) :=
  [.alloc 100 16 none, .save, .alloc 5000 0 (some 8192), .save, .alloc 200 8 (some 16384), .restore 1 none,
    .alloc 50 64 none]

theorem grpTemps_blocks_safe_twoBuffers : ∃ c, steps (Client.step 64 (iface 64)) twoBuffers ⟨thousandBytes, []⟩ = some c ∧
    c.live.length = 2 ∧ c.live.Pairwise fun a b => a.size ≠ 0 → b.size ≠ 0 → a.Apart b := by
  have hfit : ∀ s size align env, AlignOk 64 align → SizesFit 64 s size align →
      FitsCall 64 s (.alloc size align env) := fun s size align env ha hs => ⟨ha, .inl hs⟩
  have hC : Meets (Client.step 64 (iface 64)) (Client.Calls (FitsCall 64)) twoBuffers ⟨thousandBytes, []⟩ :=
    ⟨hfit _ 100 16 _ (by decide) (by decide), trivial, hfit _ 5000 0 _ (by decide) (by decide), trivial,
      hfit _ 200 8 _ (by decide) (by decide), trivial, hfit _ 50 64 _ (by decide) (by decide), trivial⟩
  exact ⟨_, rfl, rfl, (grpTemps_blocks_safe (by decide) (by decide) (by decide) init_thousandBytes hC rfl).2⟩

end Cop.Alloc.GrpTemps
