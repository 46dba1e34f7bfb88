import Cop.Alloc.GrpTemps
import Mathlib.Data.List.Perm.Subperm

/-!
# What the group-temporaries allocator gives back

`cop_alloc_grp_temps_free` frees the buffers from head through prev, so nothing is lost as
long as those are all that was taken. `restore` may break that: when it exchanges the last
buffer it sets `prev` to null, having tested only that the sizes behind that buffer add up
to zero. Buffers of size zero may be behind it (the first one, say, when the first request
did not fit in it), and nothing points to them any more.

## What is proved

* `kept_iff_free` — what `free` gives back is all of it exactly when the buffers from head
  through prev are all that is taken.
* `kept_step` — after a call, they are so exactly when the call does not lose buffers:
  `Loses` is a condition on the call and the state before it.
* `nothing_lost_iff` — after any run of calls that lose nothing.
* `first_buffer_lost` — a run after which `free` leaves the first buffer.
-/

namespace Cop.Alloc.GrpTemps

open Theory

variable {w : ℕ} {s t : GrpTemps}

/-- The buffers from head through prev are all that is taken. -/
def Kept (w : ℕ) (s : GrpTemps) : Prop := s.heap = s.chain.map (region w)

/-- `restore m` exchanges a buffer that others are behind: the loop stops at a buffer that it
empties, all sizes behind it add up to zero but there are buffers there, all buffers together
were larger than it, and `malloc` returns another one. -/
structure Loses (w : ℕ) (s : GrpTemps) (m : ℕ) (env : Option ℕ) : Prop where
  /-- `malloc` returns a buffer. -/
  malloc : env ≠ none
  /-- Where the loop stops. -/
  stops : ∃ newer buf older, s.chain = newer ++ buf :: older ∧ StopsAt newer buf (s.copAllocGrpTempsSave w - m) ∧
    s.copAllocGrpTempsSave w - m - sizes newer = buf.size ∧ sizes older % 2 ^ w = 0 ∧
    s.copAllocGrpTempsSave w > buf.allocSz ∧ older ≠ []

/-- A call loses buffers. -/
def LosesCall (w : ℕ) (s : GrpTemps) : Request (Option ℕ) → Prop
  | .restore m env => Loses w s m env
  | _ => False

/-! ### Giving everything back -/

theorem freeLoop_ok {bs : List Buf} {heap : List Region} (hheap : ∀ b ∈ bs, b.addr ∈ heap.map Region.addr)
    (hnodup : (bs.map Buf.addr).Nodup) : freeLoop bs heap = .ok (without bs heap) := by
  induction bs generalizing heap with
  | nil => rw [freeLoop, without_nil]
  | cons b bs ih =>
    obtain ⟨hnot, hnodup'⟩ := List.nodup_cons.1 hnodup
    rw [freeLoop, free_of_mem _ (hheap b List.mem_cons_self), without_cons]
    refine ih ?_ hnodup'
    intro c hc
    obtain ⟨r, hr, hra⟩ := List.mem_map.1 (hheap c (List.mem_cons_of_mem _ hc))
    have hne : r.addr ≠ b.addr := by
      rw [hra]
      intro heq
      exact hnot (heq ▸ List.mem_map_of_mem hc)
    exact List.mem_map.2 ⟨r, List.mem_filter.2 ⟨hr, by simpa using hne⟩, hra⟩

/-- `free` gives back the buffers from head through prev, each of them once. -/
theorem Linked.free_eq (h : Linked w s) : s.copAllocGrpTempsFree = .ok (without s.chain s.heap) :=
  freeLoop_ok (fun _ hb => h.addr_mem hb) h.nodup

theorem Linked.kept_of_subset (h : Linked w s) (hsub : ∀ r ∈ s.heap, ∃ b ∈ s.chain, r.addr = b.addr) : Kept w s := by
  have hsubset : s.heap.map Region.addr ⊆ s.chain.map Buf.addr := by
    intro a ha
    obtain ⟨r, hr, rfl⟩ := List.mem_map.1 ha
    obtain ⟨b, hb, heq⟩ := hsub r hr
    rw [heq]
    exact List.mem_map_of_mem hb
  have hlen := (h.ledger.nodup.subperm hsubset).length_le
  rw [List.length_map, List.length_map] at hlen
  exact (h.regions.eq_of_length_le (by rwa [List.length_map])).symm

/-- **Nothing is left after `free` exactly when the buffers from head through prev are all that
is taken.** -/
theorem kept_iff_free (h : Linked w s) : Kept w s ↔ s.copAllocGrpTempsFree = .ok [] := by
  rw [h.free_eq]
  constructor
  · intro hk
    refine congrArg Except.ok (List.filter_eq_nil_iff.2 ?_)
    intro r hr
    rw [hk] at hr
    obtain ⟨b, hb, rfl⟩ := List.mem_map.1 hr
    simp only [decide_eq_true_eq]
    intro hall
    exact hall b hb rfl
  · intro hfree
    have hnil : without s.chain s.heap = [] := Except.ok.inj hfree
    apply h.kept_of_subset
    intro r hr
    have hr' := List.filter_eq_nil_iff.1 hnil r hr
    simpa using hr'

/-! ### One call -/

/-- The loop of `restore` stops at one place only. -/
theorem StopsAt.unique {n₁ n₂ o₁ o₂ : List Buf} {b₁ b₂ : Buf} {d : ℕ} (heq : n₁ ++ b₁ :: o₁ = n₂ ++ b₂ :: o₂)
    (h₁ : StopsAt n₁ b₁ d) (h₂ : StopsAt n₂ b₂ d) : n₁ = n₂ ∧ b₁ = b₂ ∧ o₁ = o₂ := by
  -- a loop that goes past `b` has more to deallocate than `b` and what is before it hold
  have hpast : ∀ {n m : List Buf} {b c : Buf}, StopsAt n b d → StopsAt (n ++ b :: m) c d → False := by
    intro n m b c hb hc
    have hlt := hc.lt (by simp)
    have hstop := hb.stop
    rw [sizes_append, sizes_cons] at hlt
    omega
  rcases split_cases heq with hsame | ⟨k, rfl, -⟩ | ⟨k, rfl, -⟩
  · exact hsame
  · exact (hpast h₁ h₂).elim
  · exact (hpast h₂ h₁).elim

theorem Kept.stopped (hk : Kept w s) (h : Linked w s) {newer : List Buf} {buf : Buf} {older : List Buf}
    (hsplit : s.chain = newer ++ buf :: older) (d : ℕ) : Kept w (s.stopped w newer buf older d) := by
  have hu := h.stopped hsplit d
  apply hu.kept_of_subset
  intro r hr
  obtain ⟨hr, hnew⟩ := List.mem_filter.1 hr
  rw [hk, hsplit] at hr
  obtain ⟨b, hb, rfl⟩ := List.mem_map.1 hr
  rcases List.mem_append.1 hb with hb | hb
  · exact absurd rfl (of_decide_eq_true hnew b hb)
  · rcases List.mem_cons.1 hb with rfl | hb
    · exact ⟨_, List.mem_cons_self, rfl⟩
    · exact ⟨b, List.mem_cons_of_mem _ hb, rfl⟩

/-- After the exchange of the last buffer, all that is taken is the new one exactly when no
buffers were behind. -/
theorem Kept.exchanged_iff (hk : Kept w s) (h : Linked w s) {totalSize a : ℕ} (hex : s.Exchanges totalSize)
    (hfresh : Fresh (2 ^ w) s.heap (region w ⟨a, 0, totalSize⟩)) : Kept w (s.exchanged w totalSize a) ↔ s.prev = [] := by
  have hu := h.exchanged hex hfresh
  constructor
  · intro hkept
    rw [List.eq_nil_iff_forall_not_mem]
    intro b hb
    -- it is still taken, and is not the new buffer
    have hne : b.addr ≠ s.head.addr := by
      intro heq
      exact (List.nodup_cons.1 h.nodup).1 (heq ▸ List.mem_map_of_mem hb)
    have hin : region w b ∈ s.heap := by
      rw [hk]
      exact List.mem_map_of_mem (List.mem_cons_of_mem _ hb)
    have hleft : region w b ∈ (s.exchanged w totalSize a).heap :=
      List.mem_filter.2 ⟨List.mem_cons_of_mem _ hin, decide_eq_true hne⟩
    rw [hkept] at hleft
    have heq : region w b = region w ⟨a, 0, totalSize⟩ := List.mem_singleton.1 hleft
    have haddr : b.addr = a := congrArg Region.addr heq
    exact (hfresh.2 _ hin).1 haddr.symm
  · intro hprev
    apply hu.kept_of_subset
    intro r hr
    obtain ⟨hr, hne⟩ := List.mem_filter.1 hr
    rcases List.mem_cons.1 hr with rfl | hr
    · exact ⟨_, List.mem_cons_self, rfl⟩
    · rw [hk, chain, hprev] at hr
      obtain rfl := List.mem_singleton.1 hr
      exact absurd rfl (of_decide_eq_true hne)

/-- **One call**: afterwards nothing is lost exactly when the call loses nothing. -/
theorem kept_step (hk : Kept w s) (h : Linked w s) {r : Request (Option ℕ)} (hstep : (iface w).step w s r = some t) :
    Kept w t ↔ ¬ LosesCall w s r := by
  cases r with
  | alloc size align env =>
    obtain ⟨-, -, p, hcall⟩ := Salloc.step_alloc hstep
    refine iff_of_true ?_ (fun hl => hl)
    rcases allocGrpTemps_ok hcall with ⟨-, -, rfl⟩ | ⟨-, ⟨-, -, rfl⟩ | ⟨a, -, hfresh, -, rfl⟩⟩
    · exact hk
    · exact hk
    · exact congrArg (region w (s.newBuf w size align a) :: ·) hk
  | save =>
    cases hstep
    exact iff_of_true hk (fun hl => hl)
  | restore m env =>
    obtain ⟨-, hcall⟩ := Salloc.step_restore hstep
    obtain ⟨newer, buf, older, hsplit, -, hstop, -, hcases⟩ := restore_ok h hcall
    have hu := hk.stopped h hsplit (s.copAllocGrpTempsSave w - m)
    have hlu := h.stopped hsplit (s.copAllocGrpTempsSave w - m)
    rcases hcases with ⟨rfl, hnone⟩ | ⟨hex, a, rfl, hfresh, rfl⟩
    · apply iff_of_true hu
      intro hl
      obtain ⟨henv, newer', buf', older', hsplit', hstop', hempty, hzero, hlarge, -⟩ := hl
      obtain ⟨rfl, rfl, rfl⟩ := StopsAt.unique (hsplit.symm.trans hsplit') hstop hstop'
      exact henv (hnone ⟨hzero, Nat.sub_eq_zero_of_le hempty.ge, hlarge⟩)
    · rw [hu.exchanged_iff hlu hex hfresh]
      obtain ⟨hzero, hempty, hlarge⟩ := hex
      constructor
      · intro hprev hl
        obtain ⟨-, newer', buf', older', hsplit', hstop', -, -, -, hne⟩ := hl
        obtain ⟨rfl, rfl, rfl⟩ := StopsAt.unique (hsplit.symm.trans hsplit') hstop hstop'
        exact hne hprev
      · intro hl
        by_contra hne
        refine hl ⟨Option.some_ne_none a, newer, buf, older, hsplit, hstop, ?_, hzero, hlarge, hne⟩
        exact le_antisymm hstop.stop (Nat.le_of_sub_eq_zero hempty)

/-- **Nothing is lost as long as no call loses buffers.** After any run of calls from
`cop_alloc_grp_temps_init` that lose nothing, with any answers of `malloc`, the buffers from
head through prev are all that is taken, and `cop_alloc_grp_temps_free` frees each of them once
and leaves nothing; and after one more call the same is so exactly when that call loses nothing. -/
theorem nothing_lost_iff {ps initialSz maxGrow defaultAlign : ℕ} {env : Option ℕ} {s₀ : GrpTemps}
    (hinit : copAllocGrpTempsInit w ps initialSz maxGrow defaultAlign env = .ok (some s₀))
    {rs : List (Request (Option ℕ))} (hkeeps : Meets ((iface w).step w) (fun s r => ¬ LosesCall w s r) rs s₀)
    (hrun : steps ((iface w).step w) rs s₀ = some s) :
    Kept w s ∧ s.copAllocGrpTempsFree = .ok [] ∧
      ∀ r t, (iface w).step w s r = some t →
        (Kept w t ↔ ¬ LosesCall w s r) ∧ (t.copAllocGrpTempsFree = .ok [] ↔ ¬ LosesCall w s r) := by
  have hkept₀ : Kept w s₀ := by
    obtain ⟨-, hprev, -, hheap, -⟩ := copAllocGrpTempsInit_ok hinit
    rw [Kept, hheap, chain, hprev]
    rfl
  have hboth : Kept w s ∧ Linked w s := by
    refine steps_inv_of_meets (I := fun s => Kept w s ∧ Linked w s) ?_ ⟨hkept₀, linked_init hinit⟩ hkeeps hrun
    intro s r t hs hC hstep
    exact ⟨(kept_step hs.1 hs.2 hstep).2 hC, linked_step hs.2 hstep⟩
  obtain ⟨hk, hl⟩ := hboth
  refine ⟨hk, (kept_iff_free hl).1 hk, ?_⟩
  intro r t hstep
  have ht := linked_step hl hstep
  exact ⟨kept_step hk hl hstep, (kept_iff_free ht).symm.trans (kept_step hk hl hstep)⟩

/-- An allocator whose first buffer has 10 bytes. -/
def tenBytes : GrpTemps := ⟨16, 20, 0, ⟨4096, 0, 10⟩, [], [⟨4096, 34⟩]⟩

theorem nothing_lost_iff_tenBytes : ∃ s, copAllocGrpTempsInit 64 4096 10 0 0 (some 4096) = .ok (some tenBytes) ∧
    steps ((iface 64).step 64) [.alloc 100 16 (some 8192), .alloc 300 0 (some 12288), .restore 108 none] tenBytes = some s ∧
    Kept 64 s ∧ s.copAllocGrpTempsFree = .ok [] := by
  have hinit : copAllocGrpTempsInit 64 4096 10 0 0 (some 4096) = .ok (some tenBytes) := rfl
  have hkeeps : Meets ((iface 64).step 64) (fun s r => ¬ LosesCall 64 s r)
      [.alloc 100 16 (some 8192), .alloc 300 0 (some 12288), .restore 108 none] tenBytes :=
    ⟨fun hl => hl, fun hl => hl, fun hl => hl.malloc rfl, trivial⟩
  obtain ⟨hk, hfree, -⟩ := nothing_lost_iff hinit hkeeps rfl
  exact ⟨_, hinit, rfl, hk, hfree⟩

/-- Two requests do not fit in the first buffer; going back to before them exchanges the second
buffer, and the first one is lost. -/
theorem first_buffer_lost : ∃ s, copAllocGrpTempsInit 64 4096 10 0 0 (some 4096) = .ok (some tenBytes) ∧
    steps ((iface 64).step 64)
      [.save, .alloc 100 16 (some 8192), .alloc 100 16 (some 12288), .restore 0 (some 16384)] tenBytes = some s ∧
    s.chain = [⟨16384, 0, 216⟩] ∧ s.copAllocGrpTempsFree = .ok [⟨4096, 34⟩] :=
  ⟨_, rfl, rfl, rfl, rfl⟩

end Cop.Alloc.GrpTemps
