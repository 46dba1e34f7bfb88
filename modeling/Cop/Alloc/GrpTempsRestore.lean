import Cop.Alloc.GrpTempsSafety

/-!
# The marks of the group-temporaries allocator

What `save` returns is kept in two places, the size of the newest buffer and `pre_head_size`,
and `restore` moves it between them while it frees buffers. Where no size wraps the two are
exact, so the loop of `restore` stops at a buffer before it runs out of them, and the
assertions hold.

## What is proved

* `Sized.pre_eq` — `pre_head_size` is the sum of the sizes behind the newest buffer.
* `Sized.loop_stops` — where the loop of `restore` stops.
* `Sized.restore_total` — `restore` returns, and `save` returns the mark afterwards.
* `restore_bookkeeping` — all of this at every state reached by requests that fit.
-/

namespace Cop.Alloc.GrpTemps

open Theory

variable {w : ℕ} {s t : GrpTemps}

/-- `pre_head_size` is the sum of the sizes behind the newest buffer. -/
theorem Sized.pre_eq (h : Sized w s) : s.preHeadSize = sizes s.prev := by
  have hlt := h.sizes_lt
  rw [chain, sizes_cons] at hlt
  rw [h.linked.pre, Nat.mod_eq_of_lt (by omega)]

/-- Where the loop of `restore` stops: at the buffer `buf`, with `older` behind it. -/
theorem Sized.loop_stops (h : Sized w s) {m : ℕ} (hm : m ≤ s.copAllocGrpTempsSave w) :
    ∃ newer buf older, s.chain = newer ++ buf :: older ∧ StopsAt newer buf (s.copAllocGrpTempsSave w - m) ∧
      m = sizes older + (buf.size - (s.copAllocGrpTempsSave w - m - sizes newer)) ∧
      restoreLoop w s.chain s.preHeadSize (s.copAllocGrpTempsSave w - m) s.heap =
        .ok (buf :: older, sizes older, s.copAllocGrpTempsSave w - m - sizes newer, without newer s.heap) := by
  have hle : s.copAllocGrpTempsSave w - m ≤ sizes s.chain := by
    rw [h.save_eq]
    exact Nat.sub_le _ _
  have hne : s.chain ≠ [] := List.cons_ne_nil s.head s.prev
  have htail : s.chain.tail = s.prev := rfl
  obtain ⟨newer, buf, older, hsplit, hstop, hloop⟩ := restoreLoop_ok hne h.linked.size_lt hle (fun b hb => h.linked.addr_mem hb) h.linked.nodup
  have htotal : sizes s.chain = sizes newer + (buf.size + sizes older) := by rw [hsplit, sizes_append, sizes_cons]
  have hlt := h.sizes_lt
  have hin := hstop.stop
  have hfrom := hstop.le
  rw [htail, ← h.linked.pre, Nat.mod_eq_of_lt (show sizes older < 2 ^ w by omega)] at hloop
  refine ⟨newer, buf, older, hsplit, hstop, ?_, hloop⟩
  rw [h.save_eq] at hm hin hfrom ⊢
  omega

/-- The exchange of the last buffer returns, unless `malloc` was said to answer what it cannot, and
does not change what `save` returns. -/
theorem Sized.exchange_total (h : Sized w s) {totalSize : ℕ} (hlt : sizeofBuf w + totalSize < 2 ^ w) {env : Option ℕ}
    (henv : s.exchange w totalSize env ≠ .error .env) :
    ∃ t, s.exchange w totalSize env = .ok t ∧ t.copAllocGrpTempsSave w = s.copAllocGrpTempsSave w := by
  have hsave : ∀ t, s.exchange w totalSize env = .ok t → t.copAllocGrpTempsSave w = s.copAllocGrpTempsSave w := by
    intro t ht
    rcases exchange_ok ht with ⟨rfl, -⟩ | ⟨hex, a, -, -, rfl⟩
    · rfl
    · rw [copAllocGrpTempsSave, copAllocGrpTempsSave, hex.2.1]
      rfl
  suffices hok : ∃ t, s.exchange w totalSize env = .ok t by
    obtain ⟨t, ht⟩ := hok
    exact ⟨t, ht, hsave t ht⟩
  have heq : s.exchange w totalSize env = if s.Exchanges totalSize then _ else .ok s := rfl
  by_cases hex : s.Exchanges totalSize
  · cases env with
    | none =>
      rw [heq, if_pos hex]
      exact ⟨s, rfl⟩
    | some a =>
      by_cases hfresh : Fresh (2 ^ w) s.heap ⟨a, Word.add w (sizeofBuf w) totalSize⟩
      · have hcheck : check Fault.outOfBounds (sizeofBuf w ≤ Word.add w (sizeofBuf w) totalSize) = .ok () :=
          check_pos (by rw [Word.add_of_lt hlt]; omega)
        have hfree : free Fault.badFree (⟨a, Word.add w (sizeofBuf w) totalSize⟩ :: s.heap) s.head.addr = .ok _ :=
          free_of_mem _ (List.mem_cons_of_mem _ (h.linked.addr_mem List.mem_cons_self))
        refine ⟨s.exchanged w totalSize a, ?_⟩
        rw [heq, if_pos hex, bind_of_ok (malloc_some hfresh)]
        dsimp only
        rw [bind_of_ok hcheck, bind_of_ok hfree]
        rfl
      · refine absurd ?_ henv
        rw [heq, if_pos hex, malloc_env hfresh]
        rfl
  · rw [heq, if_neg hex]
    exact ⟨s, rfl⟩

/-- **`restore` returns**: its loop does not run out of buffers, its assertions hold, and `save`
returns the mark afterwards. -/
theorem Sized.restore_total (h : Sized w s) {m : ℕ} (hm : m ≤ s.copAllocGrpTempsSave w) {env : Option ℕ}
    (henv : s.copAllocGrpTempsRestore w m env ≠ .error .env) :
    ∃ t, s.copAllocGrpTempsRestore w m env = .ok t ∧ t.copAllocGrpTempsSave w = m := by
  obtain ⟨newer, buf, older, hsplit, hstop, hmark, hloop⟩ := h.loop_stops hm
  have hlt : sizeofBuf w + s.copAllocGrpTempsSave w < 2 ^ w := by
    rw [h.save_eq]
    exact h.sizes_lt
  have hu : Sized w (s.stopped w newer buf older (s.copAllocGrpTempsSave w - m)) := h.stopped hsplit _
  have husave : (s.stopped w newer buf older (s.copAllocGrpTempsSave w - m)).copAllocGrpTempsSave w = m :=
    hu.save_eq.trans ((Nat.add_comm _ _).trans hmark.symm)
  have heq : s.copAllocGrpTempsRestore w m env =
      ((s.stopped w newer buf older (s.copAllocGrpTempsSave w - m)).exchange w (s.copAllocGrpTempsSave w) env >>=
        fun gat => check .assertion (m = gat.copAllocGrpTempsSave w) >>= fun _ => pure gat) := by
    have hold : sizes older % 2 ^ w = sizes older := Nat.mod_eq_of_lt (by omega)
    rw [copAllocGrpTempsRestore, bind_of_ok (check_pos hm), bind_of_ok hloop]
    dsimp only
    rw [bind_of_ok (check_pos hstop.stop), GrpTemps.stopped, hold]
  have hex : (s.stopped w newer buf older (s.copAllocGrpTempsSave w - m)).exchange w (s.copAllocGrpTempsSave w) env ≠
      .error .env := by
    intro hno
    rw [heq, hno] at henv
    exact henv rfl
  obtain ⟨t, ht, hsame⟩ := hu.exchange_total hlt hex
  rw [husave] at hsame
  refine ⟨t, ?_, hsame⟩
  rw [heq, bind_of_ok ht, bind_of_ok (check_pos hsame.symm)]
  rfl

/-- **Bookkeeping and assertions.** After any run of calls from `cop_alloc_grp_temps_init` whose
requests fit, with any answers of `malloc`: there is a buffer, no more is handed out of a buffer
than it has, and `pre_head_size` is the sum of the sizes behind the newest one. For every mark that
is not above what `save` returns, the loop of `restore` stops at a buffer from which no more is to
be deallocated than it holds; `restore` meets no fault, and `save` returns the mark afterwards; and
going back in two steps leaves the same `save` as going back in one. -/
theorem restore_bookkeeping (hw : 5 ≤ w) {ps initialSz maxGrow defaultAlign : ℕ} {env₀ : Option ℕ} {s₀ : GrpTemps}
    (hd : AlignOk w defaultAlign) (hfit : sizeofBuf w + initialBytes ps initialSz < 2 ^ w)
    (hinit : copAllocGrpTempsInit w ps initialSz maxGrow defaultAlign env₀ = .ok (some s₀))
    {rs : List (Request (Option ℕ))} (hfits : Meets ((iface w).step w) (FitsCall w) rs s₀)
    (hrun : steps ((iface w).step w) rs s₀ = some s) :
    s.chain ≠ [] ∧ (∀ b ∈ s.chain, 0 < b.addr ∧ b.size ≤ b.allocSz) ∧ s.preHeadSize = sizes s.prev ∧
      (∀ m, m ≤ s.copAllocGrpTempsSave w →
        (∃ newer buf older, s.chain = newer ++ buf :: older ∧
          restoreLoop w s.chain s.preHeadSize (s.copAllocGrpTempsSave w - m) s.heap =
            .ok (buf :: older, sizes older, s.copAllocGrpTempsSave w - m - sizes newer, without newer s.heap) ∧
          sizes newer ≤ s.copAllocGrpTempsSave w - m ∧ s.copAllocGrpTempsSave w - m - sizes newer ≤ buf.size) ∧
        ∀ env, s.copAllocGrpTempsRestore w m env ≠ .error .env →
          ∃ t, s.copAllocGrpTempsRestore w m env = .ok t ∧ t.copAllocGrpTempsSave w = m) ∧
      ∀ m₁ m₂ env₁ env₂ env t₁ t, m₂ ≤ m₁ → m₁ ≤ s.copAllocGrpTempsSave w →
        s.copAllocGrpTempsRestore w m₁ env₁ = .ok t₁ → s.copAllocGrpTempsRestore w m₂ env = .ok t →
        t₁.copAllocGrpTempsRestore w m₂ env₂ ≠ .error .env →
          ∃ t₂, t₁.copAllocGrpTempsRestore w m₂ env₂ = .ok t₂ ∧
            t₂.copAllocGrpTempsSave w = t.copAllocGrpTempsSave w := by
  have h : Sized w s := steps_inv_of_meets (fun s r t hs hC hstep => sized_step hs hC hstep)
    (sized_init hw hd hfit hinit) hfits hrun
  refine ⟨List.cons_ne_nil s.head s.prev, fun b hb => ⟨(h.within hb).1, h.size_le b hb⟩, h.pre_eq,
    fun m hm => ⟨?_, fun env henv => h.restore_total hm henv⟩, ?_⟩
  · obtain ⟨newer, buf, older, hsplit, hstop, -, hloop⟩ := h.loop_stops hm
    exact ⟨newer, buf, older, hsplit, hloop, hstop.le, hstop.stop⟩
  · intro m₁ m₂ env₁ env₂ env t₁ t hle hm h₁ ht henv
    obtain ⟨-, -, -, -, -, -, hsave₁, -⟩ := restore_ok h.linked h₁
    obtain ⟨-, -, -, -, -, -, hsave, -⟩ := restore_ok h.linked ht
    have ht₁ : Sized w t₁ := h.restored h₁
    obtain ⟨t₂, ht₂, hsave₂⟩ := ht₁.restore_total (hle.trans hsave₁.ge) henv
    exact ⟨t₂, ht₂, hsave₂.trans hsave.symm⟩

theorem restore_bookkeeping_thousandBytes :
    thousandBytesUsed.preHeadSize = sizes thousandBytesUsed.prev ∧
      ∃ t, thousandBytesUsed.copAllocGrpTempsRestore 64 8 none = .ok t ∧ t.copAllocGrpTempsSave 64 = 8 := by
  have hfits : Meets ((iface 64).step 64) (FitsCall 64) [.alloc 100 16 none] thousandBytes :=
    ⟨⟨by decide, .inl (show SizesFit 64 thousandBytes 100 16 by decide)⟩, trivial⟩
  obtain ⟨-, -, hpre, hmarks, -⟩ := restore_bookkeeping (by decide) (by decide) (by decide) init_thousandBytes hfits
    run_thousandBytes
  exact ⟨hpre, (hmarks 8 (by decide)).2 none (by decide)⟩

end Cop.Alloc.GrpTemps
