import Cop.Alloc.Iface
import Cop.Theory.Ledger

/-!
# The group-temporaries allocator

`cop_alloc_grp_temps` of `cop_alloc.c`. The allocator takes buffers from `malloc`, each
larger than what came before, and hands out blocks of the newest; older buffers are behind
it, linked by `prev`. A mark is the number of bytes handed out so far, over all buffers.
Going back to a mark frees the buffers that were begun after it, and when nothing is left
exchanges the last buffer for one as large as all of them were together.

## The model

* The buffers behind the newest one are a list, which ends where `prev` is null.
* The regions that `malloc` returned and that were not freed yet are kept in `heap`; the
  answer of `malloc` is an argument. The fields of a buffer are at the start of its region,
  and its bytes follow them.
* Subtractions whose operands the code has just compared are those of natural numbers.

## What is proved

* `restoreLoop_ok` — the loop of `restore` ends at the buffer that the mark is in, having
  freed the newer ones.
* `allocGrpTemps_ok`, `restore_ok` — what the two calls do.
* `linked_step` — sizes, links and the heap belong together after every call, whether or not
  sums wrap.
-/

namespace Cop.Alloc

open Theory

/-- `struct cop_alloc_grp_temps_buf`, and where it is. -/
structure Buf where
  /-- The address of the buffer. -/
  addr : ℕ
  /-- How many of its bytes are handed out. -/
  size : ℕ
  /-- How many bytes it has. -/
  allocSz : ℕ
  deriving DecidableEq

/-- `sizeof(struct cop_alloc_grp_temps_buf)`: two sizes and a pointer. -/
def sizeofBuf (w : ℕ) : ℕ := 3 * (w / 8)

/-- `buf + 1`, the address of the bytes of a buffer. -/
def Buf.data (w : ℕ) (b : Buf) : ℕ := Word.add w b.addr (sizeofBuf w)

/-- `struct cop_alloc_grp_temps`, and the memory it has taken. -/
structure GrpTemps where
  /-- The alignment of blocks that ask for none. -/
  defaultAlign : ℕ
  /-- The size beyond which buffers are not doubled. -/
  maxGrow : ℕ
  /-- Sum of size members of all buffers before head. -/
  preHeadSize : ℕ
  /-- The newest buffer. -/
  head : Buf
  /-- The buffers behind it. -/
  prev : List Buf
  /-- The regions that `malloc` returned, and that were not freed. -/
  heap : List Region
  deriving DecidableEq

/-- The sum of the sizes of buffers. -/
def sizes (bs : List Buf) : ℕ := (bs.map Buf.size).sum

namespace GrpTemps

/-- The buffers from head through prev. -/
def chain (s : GrpTemps) : List Buf := s.head :: s.prev

/-- `(align == 0) ? ctx->default_align : align`. -/
def alignOf (s : GrpTemps) (align : ℕ) : ℕ := orDefault s.defaultAlign align

/-- The size of a new buffer: twice what is handed out of the newest one, but no more than
`max_grow`, and no less than what is needed. -/
def actualAlloc (w : ℕ) (ctx : GrpTemps) (size align : ℕ) : ℕ :=
  let minAlloc := Word.sub w (Word.add w size align) 1
  let actualAlloc := Word.mul w ctx.head.size 2
  let actualAlloc := if actualAlloc > ctx.maxGrow then ctx.maxGrow else actualAlloc
  if actualAlloc < minAlloc then minAlloc else actualAlloc

/-- The part of `alloc_grp_temps` that takes a new buffer. -/
def grow (w : ℕ) (ctx : GrpTemps) (size align : ℕ) (env : Option ℕ) : Exec Fault (Option ℕ × GrpTemps) := do
  let actualAlloc := ctx.actualAlloc w size align
  let (nb, heap) ← malloc (2 ^ w) ctx.heap (Word.add w (sizeofBuf w) actualAlloc) env
  match nb with
  | none => return (none, ctx)
  | some nb =>
    -- the fields of the buffer are written to the region
    check .outOfBounds (sizeofBuf w ≤ Word.add w (sizeofBuf w) actualAlloc)
    let nb : Buf := { addr := nb, size := 0, allocSz := actualAlloc }
    let start := aallocAlignoffset w (nb.data w) (Word.sub w align 1)
    return (some (Word.add w (nb.data w) start), { ctx with
      preHeadSize := Word.add w ctx.preHeadSize ctx.head.size
      head := { nb with size := Word.add w start size }
      prev := ctx.chain
      heap := heap })

/-- `alloc_grp_temps`. -/
def allocGrpTemps (w : ℕ) (ctx : GrpTemps) (size align : ℕ) (env : Option ℕ) : Exec Fault (Option ℕ × GrpTemps) := do
  let align := ctx.alignOf align
  check .assertion (align ≠ 0)
  let start := Word.add w ctx.head.size
    (aallocAlignoffset w (Word.add w (ctx.head.data w) ctx.head.size) (Word.sub w align 1))
  if Word.add w start size > ctx.head.allocSz then ctx.grow w size align env
  else
    return (some (Word.add w (ctx.head.data w) start),
      { ctx with head := { ctx.head with size := Word.add w start size } })

/-- `cop_alloc_grp_temps_save`. -/
def copAllocGrpTempsSave (w : ℕ) (gat : GrpTemps) : ℕ := Word.add w gat.preHeadSize gat.head.size

/-- The loop of `cop_alloc_grp_temps_restore`, on the buffers from `buf` on, `pre_head_size`,
`deallocate` and the heap. -/
def restoreLoop (w : ℕ) : List Buf → ℕ → ℕ → List Region → Exec Fault (List Buf × ℕ × ℕ × List Region)
  | [], preHeadSize, deallocate, heap => .ok ([], preHeadSize, deallocate, heap)
  | buf :: prev, preHeadSize, deallocate, heap =>
    if deallocate > buf.size then do
      let heap ← free .badFree heap buf.addr
      match prev with
      | [] => do
        check .assertion (preHeadSize = 0)
        return ([], preHeadSize, deallocate - buf.size, heap)
      | b :: _ => restoreLoop w prev (Word.sub w preHeadSize b.size) (deallocate - buf.size) heap
    else .ok (buf :: prev, preHeadSize, deallocate, heap)

/-- The exchange of the last buffer at the end of `cop_alloc_grp_temps_restore`. -/
def exchange (w : ℕ) (gat : GrpTemps) (totalSize : ℕ) (env : Option ℕ) : Exec Fault GrpTemps :=
  let buf := gat.head
  if gat.preHeadSize = 0 ∧ buf.size = 0 ∧ totalSize > buf.allocSz then do
    let (head, heap) ← malloc (2 ^ w) gat.heap (Word.add w (sizeofBuf w) totalSize) env
    match head with
    | none => return gat
    | some head =>
      check .outOfBounds (sizeofBuf w ≤ Word.add w (sizeofBuf w) totalSize)
      let heap ← free .badFree heap buf.addr
      return { gat with head := { addr := head, size := 0, allocSz := totalSize }, prev := [], heap := heap }
  else .ok gat

/-- `cop_alloc_grp_temps_restore`. -/
def copAllocGrpTempsRestore (w : ℕ) (gat : GrpTemps) (s : ℕ) (env : Option ℕ) : Exec Fault GrpTemps := do
  let totalSize := gat.copAllocGrpTempsSave w
  check .assertion (s ≤ totalSize)
  let (chain, preHeadSize, deallocate, heap) ←
    restoreLoop w gat.chain gat.preHeadSize (totalSize - s) gat.heap
  match chain with
  | [] => .error (.fault .nullDeref)
  | buf :: prev =>
    check .assertion (deallocate ≤ buf.size)
    let buf := { buf with size := buf.size - deallocate }
    let gat := { gat with preHeadSize := preHeadSize, head := buf, prev := prev, heap := heap }
    let gat ← gat.exchange w totalSize env
    check .assertion (s = gat.copAllocGrpTempsSave w)
    return gat

/-- `initial_sz`, or the page size, or 1024. -/
def initialBytes (ps initialSz : ℕ) : ℕ :=
  let initialSz := if initialSz = 0 then ps else initialSz
  if initialSz = 0 then 1024 else initialSz

/-- `cop_alloc_grp_temps_init`, where the page size is `ps`; the allocator, if it returns 0. -/
def copAllocGrpTempsInit (w ps initialSz maxGrow defaultAlign : ℕ) (env : Option ℕ) :
    Exec Fault (Option GrpTemps) := do
  let initialSz := initialBytes ps initialSz
  let (head, heap) ← malloc (2 ^ w) [] (Word.add w (sizeofBuf w) initialSz) env
  match head with
  | none => return none
  | some head =>
    check .outOfBounds (sizeofBuf w ≤ Word.add w (sizeofBuf w) initialSz)
    return some {
      defaultAlign := if defaultAlign = 0 then 16 else defaultAlign
      maxGrow := if maxGrow = 0 then Word.mul w initialSz 2 else maxGrow
      preHeadSize := 0
      head := { addr := head, size := 0, allocSz := initialSz }
      prev := []
      heap := heap }

/-- The loop of `cop_alloc_grp_temps_free`: what is left of the heap. -/
def freeLoop : List Buf → List Region → Exec Fault (List Region)
  | [], heap => .ok heap
  | tmp :: prev, heap => do
    let heap ← free .badFree heap tmp.addr
    freeLoop prev heap

/-- `cop_alloc_grp_temps_free`. -/
def copAllocGrpTempsFree (gat : GrpTemps) : Exec Fault (List Region) := freeLoop gat.chain gat.heap

/-- The interface that `cop_alloc_grp_temps_init` sets up. -/
def iface (w : ℕ) : Salloc GrpTemps (Option ℕ) where
  alloc := allocGrpTemps w
  save := copAllocGrpTempsSave w
  restore := copAllocGrpTempsRestore w

end GrpTemps

/-! ### Sizes and addresses of buffers -/

@[simp] theorem sizes_nil : sizes [] = 0 := rfl

@[simp] theorem sizes_cons (b : Buf) (bs : List Buf) : sizes (b :: bs) = b.size + sizes bs := rfl

@[simp] theorem sizes_append (bs cs : List Buf) : sizes (bs ++ cs) = sizes bs + sizes cs := by
  simp [sizes]

/-- Two places in a list are the same, or one is before the other. -/
theorem split_cases {α : Type} {n₁ n₂ o₁ o₂ : List α} {b₁ b₂ : α} (h : n₁ ++ b₁ :: o₁ = n₂ ++ b₂ :: o₂) :
    (n₁ = n₂ ∧ b₁ = b₂ ∧ o₁ = o₂) ∨ (∃ k, n₂ = n₁ ++ b₁ :: k ∧ o₁ = k ++ b₂ :: o₂) ∨
      ∃ k, n₁ = n₂ ++ b₂ :: k ∧ o₂ = k ++ b₁ :: o₁ := by
  rcases List.append_eq_append_iff.1 h with ⟨k, hk, hk'⟩ | ⟨k, hk, hk'⟩
  · cases k with
    | nil =>
      cases hk'
      exact .inl ⟨by rw [hk, List.append_nil], rfl, rfl⟩
    | cons x k =>
      cases hk'
      exact .inr (.inl ⟨k, hk, rfl⟩)
  · cases k with
    | nil =>
      cases hk'
      exact .inl ⟨by rw [hk, List.append_nil], rfl, rfl⟩
    | cons x k =>
      cases hk'
      exact .inr (.inr ⟨k, hk, rfl⟩)

namespace GrpTemps

variable {w : ℕ} {s : GrpTemps}

/-- The regions of the heap that are not buffers of the list. -/
def without (bs : List Buf) (heap : List Region) : List Region := heap.filter fun r => ∀ b ∈ bs, r.addr ≠ b.addr

theorem without_nil (heap : List Region) : without [] heap = heap := by simp [without]

theorem without_cons (b : Buf) (bs : List Buf) (heap : List Region) :
    without (b :: bs) heap = without bs (heap.filter fun r => r.addr ≠ b.addr) := by
  simp only [without, List.filter_filter, List.forall_mem_cons]
  apply List.filter_congr
  intro r _
  simp [Bool.and_comm]

/-- A sum of sizes, taken modulo `2 ^ w`, less its first summand. -/
theorem sub_sizes {b : Buf} {bs : List Buf} (hb : b.size < 2 ^ w) :
    Word.sub w (sizes (b :: bs) % 2 ^ w) b.size = sizes bs % 2 ^ w := by
  rw [Word.sub, Nat.mod_add_mod, sizes_cons, show b.size + sizes bs + (2 ^ w - b.size) = sizes bs + 2 ^ w by omega,
    Nat.add_mod_right]

/-- Where the loop of `restore` stops: at the buffer `buf`, behind the buffers `newer`, which
are smaller together than what is to be deallocated. -/
structure StopsAt (newer : List Buf) (buf : Buf) (deallocate : ℕ) : Prop where
  /-- What is left to be deallocated is not negative. -/
  le : sizes newer ≤ deallocate
  /-- It is in this buffer. -/
  stop : deallocate - sizes newer ≤ buf.size
  /-- It was more than the newer buffers hold. -/
  lt : newer ≠ [] → sizes newer < deallocate

/-- **The loop of `restore`.** As long as no more is to be deallocated than the buffers hold, and
the buffers are in the heap, the loop ends at the buffer that it stops at, having freed the
newer ones. -/
theorem restoreLoop_ok {bs : List Buf} {d : ℕ} {heap : List Region} (hne : bs ≠ []) (hsize : ∀ b ∈ bs, b.size < 2 ^ w)
    (hd : d ≤ sizes bs) (hheap : ∀ b ∈ bs, b.addr ∈ heap.map Region.addr) (hnodup : (bs.map Buf.addr).Nodup) :
    ∃ newer buf older, bs = newer ++ buf :: older ∧ StopsAt newer buf d ∧
      restoreLoop w bs (sizes bs.tail % 2 ^ w) d heap =
        .ok (buf :: older, sizes older % 2 ^ w, d - sizes newer, without newer heap) := by
  induction bs generalizing d heap with
  | nil => exact absurd rfl hne
  | cons buf prev ih =>
    by_cases hgt : d > buf.size
    · have hfree := free_of_mem Fault.badFree (hheap buf List.mem_cons_self)
      obtain ⟨hnot, hnodup'⟩ := List.nodup_cons.1 hnodup
      cases prev with
      | nil =>
        rw [sizes_cons, sizes_nil] at hd
        omega
      | cons b prev =>
        -- the buffer is freed, and the loop goes on with the next one
        have hheap' : ∀ c ∈ b :: prev, c.addr ∈ (heap.filter fun r => r.addr ≠ buf.addr).map Region.addr := by
          intro c hc
          obtain ⟨r, hr, hra⟩ := List.mem_map.1 (hheap c (List.mem_cons_of_mem _ hc))
          have hne : r.addr ≠ buf.addr := by
            rw [hra]
            intro heq
            exact hnot (heq ▸ List.mem_map_of_mem hc)
          exact List.mem_map.2 ⟨r, List.mem_filter.2 ⟨hr, by simpa using hne⟩, hra⟩
        rw [sizes_cons] at hd
        obtain ⟨newer, buf', older, hsplit, hstop, hloop⟩ := ih (List.cons_ne_nil b prev)
          (fun c hc => hsize c (List.mem_cons_of_mem _ hc)) (d := d - buf.size) (by omega) hheap' hnodup'
        have hpre : Word.sub w (sizes (b :: prev) % 2 ^ w) b.size = sizes prev % 2 ^ w :=
          sub_sizes (hsize b (List.mem_cons_of_mem _ List.mem_cons_self))
        have hle := hstop.le
        have hin := hstop.stop
        refine ⟨buf :: newer, buf', older, by rw [hsplit]; rfl, ⟨?_, ?_, ?_⟩, ?_⟩
        · rw [sizes_cons]
          omega
        · rw [sizes_cons]
          omega
        · intro _
          rw [sizes_cons]
          by_cases hnil : newer = []
          · rw [hnil, sizes_nil]
            omega
          · have := hstop.lt hnil
            omega
        · rw [restoreLoop, if_pos hgt, hfree, List.tail_cons]
          change restoreLoop w (b :: prev) (Word.sub w (sizes (b :: prev) % 2 ^ w) b.size) (d - buf.size) _ = _
          rw [hpre, without_cons, sizes_cons, ← Nat.sub_sub]
          exact hloop
    · refine ⟨[], buf, prev, rfl, ⟨Nat.zero_le d, by rw [sizes_nil]; omega, fun h => absurd rfl h⟩, ?_⟩
      rw [restoreLoop, if_neg hgt, without_nil]
      rfl

/-! ### What the calls do -/

/-- Where the next block of the newest buffer starts. -/
def startOf (w : ℕ) (s : GrpTemps) (align : ℕ) : ℕ :=
  Word.add w s.head.size
    (aallocAlignoffset w (Word.add w (s.head.data w) s.head.size) (Word.sub w (s.alignOf align) 1))

/-- A request goes to a new buffer. -/
def Grows (w : ℕ) (s : GrpTemps) (size align : ℕ) : Prop := Word.add w (s.startOf w align) size > s.head.allocSz

instance (w : ℕ) (s : GrpTemps) (size align : ℕ) : Decidable (s.Grows w size align) := Nat.decLt _ _

/-- The newest buffer, after a block of it was handed out. -/
def reused (w : ℕ) (s : GrpTemps) (size align : ℕ) : GrpTemps :=
  { s with head := { s.head with size := Word.add w (s.startOf w align) size } }

/-- A new buffer at `a`, nothing of which is handed out. -/
def newBuf (w : ℕ) (s : GrpTemps) (size align a : ℕ) : Buf := ⟨a, 0, s.actualAlloc w size (s.alignOf align)⟩

/-- Where the first block of a new buffer starts. -/
def newStart (w : ℕ) (s : GrpTemps) (size align a : ℕ) : ℕ :=
  aallocAlignoffset w ((s.newBuf w size align a).data w) (Word.sub w (s.alignOf align) 1)

/-- The region of a buffer. -/
def region (w : ℕ) (b : Buf) : Region := ⟨b.addr, Word.add w (sizeofBuf w) b.allocSz⟩

/-- The allocator, after a block of a new buffer at `a` was handed out. -/
def grown (w : ℕ) (s : GrpTemps) (size align a : ℕ) : GrpTemps :=
  { s with
    preHeadSize := Word.add w s.preHeadSize s.head.size
    head := { s.newBuf w size align a with size := Word.add w (s.newStart w size align a) size }
    prev := s.chain
    heap := region w (s.newBuf w size align a) :: s.heap }

theorem allocGrpTemps_ok {size align : ℕ} {env p : Option ℕ} {t : GrpTemps}
    (h : allocGrpTemps w s size align env = .ok (p, t)) :
    (¬ s.Grows w size align ∧ p = some (Word.add w (s.head.data w) (s.startOf w align)) ∧ t = s.reused w size align) ∨
      s.Grows w size align ∧ (env = none ∧ p = none ∧ t = s ∨
        ∃ a, env = some a ∧ Fresh (2 ^ w) s.heap (region w (s.newBuf w size align a)) ∧
          p = some (Word.add w ((s.newBuf w size align a).data w) (s.newStart w size align a)) ∧
          t = s.grown w size align a) := by
  obtain ⟨_, -, h⟩ := bind_ok h
  change (if s.Grows w size align then _ else _) = _ at h
  split at h
  · rename_i hgrow
    refine .inr ⟨hgrow, ?_⟩
    obtain ⟨⟨nb, heap⟩, hmalloc, h⟩ := bind_ok h
    obtain ⟨rfl, hmalloc⟩ := malloc_ok hmalloc
    rcases hmalloc with ⟨rfl, -⟩ | ⟨a, rfl, hfresh, rfl⟩
    · cases h
      exact .inl ⟨rfl, rfl, rfl⟩
    · obtain ⟨_, -, h⟩ := bind_ok h
      cases h
      exact .inr ⟨a, rfl, hfresh, rfl, rfl⟩
  · rename_i hreuse
    cases h
    exact .inl ⟨hreuse, rfl, rfl⟩

/-- Sizes, links and the heap belong together. -/
structure Linked (w : ℕ) (s : GrpTemps) : Prop where
  /-- `pre_head_size` is the sum of the sizes behind the newest buffer. -/
  pre : s.preHeadSize = sizes s.prev % 2 ^ w
  /-- Sizes are words. -/
  size_lt : ∀ b ∈ s.chain, b.size < 2 ^ w
  /-- The buffers are in the heap. -/
  regions : (s.chain.map (region w)).Sublist s.heap
  /-- The regions of the heap are apart. -/
  ledger : Ledger (2 ^ w) s.heap

/-- What `save` returns is the sum of all sizes. -/
theorem Linked.save_eq (h : Linked w s) : s.copAllocGrpTempsSave w = sizes s.chain % 2 ^ w := by
  rw [copAllocGrpTempsSave, Word.add, h.pre, Nat.mod_add_mod, chain, sizes_cons, Nat.add_comm]

theorem Linked.addr_mem (h : Linked w s) {b : Buf} (hb : b ∈ s.chain) : b.addr ∈ s.heap.map Region.addr :=
  List.mem_map.2 ⟨region w b, h.regions.subset (List.mem_map_of_mem hb), rfl⟩

theorem Linked.nodup (h : Linked w s) : (s.chain.map Buf.addr).Nodup := by
  have hsub : ((s.chain.map (region w)).map Region.addr).Sublist (s.heap.map Region.addr) := h.regions.map _
  rw [List.map_map] at hsub
  exact h.ledger.nodup.sublist hsub

/-- The allocator after the loop of `restore` has stopped at `buf`. -/
def stopped (w : ℕ) (s : GrpTemps) (newer : List Buf) (buf : Buf) (older : List Buf) (d : ℕ) : GrpTemps :=
  { s with
    preHeadSize := sizes older % 2 ^ w
    head := { buf with size := buf.size - (d - sizes newer) }
    prev := older
    heap := without newer s.heap }

/-- The allocator after its last buffer was exchanged for a new one at `a`. -/
def exchanged (w : ℕ) (s : GrpTemps) (totalSize a : ℕ) : GrpTemps :=
  { s with
    head := ⟨a, 0, totalSize⟩
    prev := []
    heap := (region w ⟨a, 0, totalSize⟩ :: s.heap).filter fun r => r.addr ≠ s.head.addr }

/-- `restore` exchanges the buffer it ends with. -/
def Exchanges (s : GrpTemps) (totalSize : ℕ) : Prop :=
  s.preHeadSize = 0 ∧ s.head.size = 0 ∧ totalSize > s.head.allocSz

instance (s : GrpTemps) (totalSize : ℕ) : Decidable (s.Exchanges totalSize) := inferInstanceAs (Decidable (_ ∧ _))

theorem exchange_keeps {totalSize : ℕ} {env : Option ℕ} (h : ¬ s.Exchanges totalSize) :
    s.exchange w totalSize env = .ok s :=
  if_neg h

theorem exchange_ok {totalSize : ℕ} {env : Option ℕ} {t : GrpTemps} (h : s.exchange w totalSize env = .ok t) :
    t = s ∧ (s.Exchanges totalSize → env = none) ∨
      s.Exchanges totalSize ∧ ∃ a, env = some a ∧ Fresh (2 ^ w) s.heap (region w ⟨a, 0, totalSize⟩) ∧
        t = s.exchanged w totalSize a := by
  change (if s.Exchanges totalSize then _ else _) = _ at h
  split at h
  · rename_i hex
    obtain ⟨⟨head, heap⟩, hmalloc, h⟩ := bind_ok h
    obtain ⟨rfl, hmalloc⟩ := malloc_ok hmalloc
    rcases hmalloc with ⟨rfl, -⟩ | ⟨a, rfl, hfresh, rfl⟩
    · cases h
      exact .inl ⟨rfl, fun _ => rfl⟩
    · obtain ⟨_, -, h⟩ := bind_ok h
      obtain ⟨heap, hfree, h⟩ := bind_ok h
      obtain ⟨-, rfl⟩ := free_ok hfree
      cases h
      exact .inr ⟨hex, a, rfl, hfresh, rfl⟩
  · rename_i hex
    cases h
    exact .inl ⟨rfl, fun hex' => absurd hex' hex⟩

/-- A buffer is exchanged only for one that has a size. -/
theorem exchange_room {totalSize a : ℕ} {t : GrpTemps} (h : s.exchange w totalSize (some a) = .ok t)
    (hex : s.Exchanges totalSize) : sizeofBuf w ≤ Word.add w (sizeofBuf w) totalSize := by
  have heq : s.exchange w totalSize (some a) = if s.Exchanges totalSize then _ else .ok s := rfl
  rw [heq, if_pos hex] at h
  obtain ⟨⟨head, heap⟩, hmalloc, h⟩ := bind_ok h
  obtain ⟨rfl, -⟩ := malloc_ok hmalloc
  obtain ⟨_, hcheck, -⟩ := bind_ok h
  exact check_ok hcheck

/-- `restore` ends with the exchange, after its loop has stopped. What `malloc` answers matters for
the exchange only. -/
theorem restore_eq (hs : Linked w s) {m : ℕ} (hm : m ≤ s.copAllocGrpTempsSave w) :
    ∃ newer buf older, s.chain = newer ++ buf :: older ∧ StopsAt newer buf (s.copAllocGrpTempsSave w - m) ∧
      ∀ env, s.copAllocGrpTempsRestore w m env =
        (do
          let gat ← (s.stopped w newer buf older (s.copAllocGrpTempsSave w - m)).exchange w (s.copAllocGrpTempsSave w) env
          check .assertion (m = gat.copAllocGrpTempsSave w)
          return gat) := by
  have hle : s.copAllocGrpTempsSave w - m ≤ sizes s.chain := by
    rw [hs.save_eq]
    exact (Nat.sub_le _ _).trans (Nat.mod_le _ _)
  obtain ⟨newer, buf, older, hsplit, hstop, hloop⟩ := restoreLoop_ok (List.cons_ne_nil s.head s.prev) hs.size_lt hle
    (fun b hb => hs.addr_mem hb) hs.nodup
  rw [List.tail_cons, ← hs.pre] at hloop
  refine ⟨newer, buf, older, hsplit, hstop, fun env => ?_⟩
  rw [copAllocGrpTempsRestore, chain, hloop, check_pos hm]
  change (check Fault.assertion (_ ≤ buf.size) >>= fun _ => _) = _
  rw [check_pos hstop.stop]
  rfl

theorem restore_ok (hs : Linked w s) {m : ℕ} {env : Option ℕ} {t : GrpTemps}
    (h : s.copAllocGrpTempsRestore w m env = .ok t) :
    ∃ newer buf older, s.chain = newer ++ buf :: older ∧ m ≤ s.copAllocGrpTempsSave w ∧
      StopsAt newer buf (s.copAllocGrpTempsSave w - m) ∧ t.copAllocGrpTempsSave w = m ∧
      let u := s.stopped w newer buf older (s.copAllocGrpTempsSave w - m)
      (t = u ∧ (u.Exchanges (s.copAllocGrpTempsSave w) → env = none) ∨
        u.Exchanges (s.copAllocGrpTempsSave w) ∧ ∃ a, env = some a ∧
          Fresh (2 ^ w) u.heap (region w ⟨a, 0, s.copAllocGrpTempsSave w⟩) ∧
          t = u.exchanged w (s.copAllocGrpTempsSave w) a) := by
  obtain ⟨_, hm, -⟩ := bind_ok h
  obtain ⟨newer, buf, older, hsplit, hstop, heq⟩ := restore_eq hs (check_ok hm)
  rw [heq] at h
  obtain ⟨v, hex, h⟩ := bind_ok h
  obtain ⟨_, hsave, h⟩ := bind_ok h
  cases h
  exact ⟨newer, buf, older, hsplit, check_ok hm, hstop, (check_ok hsave).symm, exchange_ok hex⟩

/-! ### What the calls keep -/

theorem Linked.reused (h : Linked w s) (size align : ℕ) : Linked w (s.reused w size align) := by
  refine ⟨h.pre, ?_, h.regions, h.ledger⟩
  intro b hb
  rcases List.mem_cons.1 hb with rfl | hb
  · exact Word.add_lt
  · exact h.size_lt b (List.mem_cons_of_mem _ hb)

theorem Linked.grown (h : Linked w s) {size align a : ℕ}
    (hfresh : Fresh (2 ^ w) s.heap (region w (s.newBuf w size align a))) : Linked w (s.grown w size align a) := by
  refine ⟨?_, ?_, h.regions.cons_cons _, h.ledger.malloc hfresh⟩
  · exact h.save_eq
  · intro b hb
    rcases List.mem_cons.1 hb with rfl | hb
    · exact Word.add_lt
    · exact h.size_lt b hb

/-- The buffers that are left are not among those that were freed. -/
theorem Linked.sublist_without (h : Linked w s) {newer : List Buf} {buf : Buf} {older : List Buf}
    (hsplit : s.chain = newer ++ buf :: older) :
    ((buf :: older).map (region w)).Sublist (without newer s.heap) := by
  have hnodup := h.nodup
  have hregions := h.regions
  rw [hsplit, List.map_append] at hnodup hregions
  have hself : ((buf :: older).map (region w)).filter (fun r => ∀ b ∈ newer, r.addr ≠ b.addr) =
      (buf :: older).map (region w) := by
    apply List.filter_eq_self.2
    intro r hr
    obtain ⟨c, hc, rfl⟩ := List.mem_map.1 hr
    rw [decide_eq_true_eq]
    intro b hb heq
    exact (List.nodup_append.1 hnodup).2.2 _ (List.mem_map_of_mem hb) _ (List.mem_map_of_mem hc) heq.symm
  rw [← hself]
  exact ((List.sublist_append_right _ _).trans hregions).filter _

theorem Linked.stopped (h : Linked w s) {newer : List Buf} {buf : Buf} {older : List Buf}
    (hsplit : s.chain = newer ++ buf :: older) (d : ℕ) : Linked w (s.stopped w newer buf older d) := by
  have hsub := h.sublist_without hsplit
  refine ⟨rfl, ?_, hsub, h.ledger.sublist List.filter_sublist⟩
  intro b hb
  rcases List.mem_cons.1 hb with rfl | hb
  · exact (Nat.sub_le _ _).trans_lt (h.size_lt buf (by simp [hsplit]))
  · have hb : b ∈ older := hb
    exact h.size_lt b (by simp [hsplit, hb])

theorem Linked.fresh_ne (h : Linked w s) {r : Region} (hfresh : Fresh (2 ^ w) s.heap r) : r.addr ≠ s.head.addr := by
  obtain ⟨q, hq, hqa⟩ := List.mem_map.1 (h.addr_mem (b := s.head) List.mem_cons_self)
  rw [← hqa]
  exact (hfresh.2 q hq).1

theorem Linked.exchanged (h : Linked w s) {totalSize a : ℕ} (hex : s.Exchanges totalSize)
    (hfresh : Fresh (2 ^ w) s.heap (region w ⟨a, 0, totalSize⟩)) : Linked w (s.exchanged w totalSize a) := by
  have hne : a ≠ s.head.addr := h.fresh_ne hfresh
  refine ⟨?_, ?_, ?_, (h.ledger.malloc hfresh).sublist List.filter_sublist⟩
  · exact hex.1.trans (Nat.zero_mod _).symm
  · intro b hb
    obtain rfl := List.mem_singleton.1 hb
    exact Nat.two_pow_pos w
  · refine List.singleton_sublist.2 (List.mem_filter.2 ⟨List.mem_cons_self, ?_⟩)
    exact decide_eq_true hne

/-- **Sizes, links and the heap belong together** after every call, whether or not sums wrap. -/
theorem linked_step (h : Linked w s) {r : Request (Option ℕ)} {t : GrpTemps} (hstep : (iface w).step w s r = some t) :
    Linked w t := by
  cases r with
  | alloc size align env =>
    obtain ⟨-, -, p, hcall⟩ := Salloc.step_alloc hstep
    rcases allocGrpTemps_ok hcall with ⟨-, -, rfl⟩ | ⟨-, ⟨-, -, rfl⟩ | ⟨a, -, hfresh, -, rfl⟩⟩
    · exact h.reused size align
    · exact h
    · exact h.grown hfresh
  | save =>
    cases hstep
    exact h
  | restore m env =>
    obtain ⟨-, hcall⟩ := Salloc.step_restore hstep
    obtain ⟨newer, buf, older, hsplit, -, -, -, hcases⟩ := restore_ok h hcall
    have hu := h.stopped hsplit (s.copAllocGrpTempsSave w - m)
    rcases hcases with ⟨rfl, -⟩ | ⟨hex, a, -, hfresh, rfl⟩
    · exact hu
    · exact hu.exchanged hex hfresh

/-- What an allocator that was set up looks like: one buffer, which is all it has taken. -/
theorem copAllocGrpTempsInit_ok {ps initialSz maxGrow defaultAlign : ℕ} {env : Option ℕ}
    (h : copAllocGrpTempsInit w ps initialSz maxGrow defaultAlign env = .ok (some s)) :
    s.preHeadSize = 0 ∧ s.prev = [] ∧ s.head.size = 0 ∧ s.heap = [region w s.head] ∧ Ledger (2 ^ w) s.heap ∧
      s.head.allocSz = initialBytes ps initialSz ∧ s.defaultAlign = if defaultAlign = 0 then 16 else defaultAlign := by
  obtain ⟨⟨head, heap⟩, hmalloc, h⟩ := bind_ok h
  obtain ⟨rfl, hmalloc⟩ := malloc_ok hmalloc
  rcases hmalloc with ⟨rfl, -⟩ | ⟨a, rfl, hfresh, rfl⟩
  · cases h
  · obtain ⟨_, -, h⟩ := bind_ok h
    cases h
    exact ⟨rfl, rfl, rfl, rfl, (Ledger.nil _).malloc hfresh, rfl, rfl⟩

theorem linked_init {ps initialSz maxGrow defaultAlign : ℕ} {env : Option ℕ}
    (h : copAllocGrpTempsInit w ps initialSz maxGrow defaultAlign env = .ok (some s)) : Linked w s := by
  obtain ⟨hpre, hprev, hsize, hheap, hledger, -⟩ := copAllocGrpTempsInit_ok h
  refine ⟨?_, ?_, ?_, hledger⟩
  · rw [hpre, hprev]
    exact (Nat.zero_mod _).symm
  · intro b hb
    rw [chain, hprev] at hb
    obtain rfl := List.mem_singleton.1 hb
    rw [hsize]
    exact Nat.two_pow_pos w
  · rw [chain, hprev, hheap]
    exact List.Sublist.refl _

end GrpTemps

end Cop.Alloc
