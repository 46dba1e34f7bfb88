import Cop.Alloc.Virtual

/-!
# The sizes the virtual allocator accepts

Which sizes `aalloc_align_alloc` may be called with. The end of the block, and the sum that is
rounded up to a multiple of `grow_sz`, are computed as words. Where one of them wraps, a request
that can never be met may be accepted: the end of the block then lies before its start, or
`mprotect` is asked for nothing, which it grants, and nothing is accessible any more.

## What is proved

* `Bounded.answered_iff` — a call is answered as it should be exactly when the sums it needs do
  not wrap: `SumsFit` is a condition on the request, the state before the call, and what
  `mprotect` answers.
* `answered_iff_sumsFit` — that is so at every state reached by calls that meet the condition, and
  the blocks live after such a run are apart.
* `wrapped_size_accepted` — a size that wraps, and what becomes of the block before.
-/

namespace Cop.Alloc.Virtual

open Theory

variable {w : ℕ} {s s₀ : Virtual}

/-- The call is answered as it should be: with null, and nothing is changed; or with a block that
starts above what was handed out, ends where what is handed out ends now, and is accessible. -/
def Answered (s : Virtual) (size : ℕ) (out : Outcome) : Prop :=
  out.ret = none ∧ out.state = s ∨
    ∃ offset, out.ret = some (s.base + offset) ∧ s.usedSz ≤ offset ∧ offset + size ≤ out.state.protectSz ∧
      out.state.usedSz = offset + size

/-- The sums that the call needs do not wrap: the end of the block, if it is accessible as a word;
otherwise the sum that is rounded, unless `mprotect` fails. Then `grow_sz` must not be zero either. -/
def SumsFit (w : ℕ) (s : Virtual) (size align : ℕ) (ok : Bool) : Prop :=
  if s.endOf size align % 2 ^ w ≤ s.protectSz then s.endOf size align < 2 ^ w
  else s.growSz ≠ 0 ∧ (ok = false ∨ s.endOf size align + s.growSz ≤ 2 ^ w)

instance (w : ℕ) (s : Virtual) (size align : ℕ) (ok : Bool) : Decidable (SumsFit w s size align ok) :=
  inferInstanceAs (Decidable (if s.endOf size align % 2 ^ w ≤ s.protectSz then s.endOf size align < 2 ^ w
    else s.growSz ≠ 0 ∧ (ok = false ∨ s.endOf size align + s.growSz ≤ 2 ^ w)))

/-- `mprotect` succeeds only for pages that are mapped: the address one past them is a word. -/
def Granted (w : ℕ) (s : Virtual) (size align : ℕ) (ok : Bool) : Prop :=
  ok = true → ∀ out, aallocAlignAlloc w s size align ok = .ok out → ∀ p ∈ out.call, p.1 + p.2 < 2 ^ w

theorem granted_of_ok {size align : ℕ} {ok : Bool} (out : Outcome) (hout : aallocAlignAlloc w s size align ok = .ok out)
    (hcall : ∀ p ∈ out.call, p.1 + p.2 < 2 ^ w) : Granted w s size align ok := by
  intro _ out' hout'
  obtain rfl : out = out' := Except.ok.inj (hout.symm.trans hout')
  exact hcall

theorem alloc_of_sumsFit (hd : DefaultOk w s.defaultAlign) {size align : ℕ} (ha : AlignOk w align) {ok : Bool}
    (hfit : SumsFit w s size align ok) :
    ∃ out, aallocAlignAlloc w s size align ok = .ok out ∧
      (out.ret = none ∧ out.state = s ∨
        ∃ protectSz, out.ret = some (Word.add w s.base (s.usedSz + s.pad align)) ∧
          out.state = { s with protectSz := protectSz, usedSz := s.endOf size align } ∧
          (out.call = none ∧ protectSz = s.protectSz ∨ ok = true ∧ out.call = some (s.base, protectSz)) ∧
          s.protectSz ≤ protectSz ∧ s.endOf size align ≤ protectSz) := by
  have hend : Word.add w (Word.add w s.usedSz (s.pad align)) size = s.endOf size align % 2 ^ w := Nat.mod_add_mod ..
  have hexact : s.endOf size align < 2 ^ w → Word.add w s.usedSz (s.pad align) = s.usedSz + s.pad align := by
    intro hlt
    unfold endOf at hlt
    exact Word.add_of_lt (by omega)
  rw [aallocAlignAlloc_eq hd ha, place, hend]
  unfold SumsFit at hfit
  split
  · rename_i hgt
    rw [if_neg (Nat.not_le_of_lt hgt)] at hfit
    obtain ⟨hgrow, hfit⟩ := hfit
    rw [bind_of_ok (check_pos hgrow)]
    cases ok with
    | false => exact ⟨_, rfl, .inl ⟨rfl, rfl⟩⟩
    | true =>
      have hround := hfit.resolve_left Bool.noConfusion
      have hlt : s.endOf size align < 2 ^ w := by omega
      rw [hexact hlt, Nat.mod_eq_of_lt hlt, newSz_eq hgrow hround]
      rw [Nat.mod_eq_of_lt hlt] at hgt
      have hle : s.endOf size align ≤ roundUp s.growSz (s.endOf size align) := le_roundUp (Nat.pos_of_ne_zero hgrow)
      exact ⟨_, rfl, .inr ⟨_, rfl, rfl, .inr ⟨rfl, rfl⟩, by omega, hle⟩⟩
  · rename_i hle
    rw [if_pos (Nat.le_of_not_lt hle)] at hfit
    rw [Nat.mod_eq_of_lt hfit] at hle
    rw [hexact hfit, Nat.mod_eq_of_lt hfit]
    exact ⟨_, rfl, .inr ⟨s.protectSz, rfl, rfl, .inl ⟨rfl, rfl⟩, le_rfl, Nat.le_of_not_lt hle⟩⟩

/-- What calls keep whose sums fit. -/
structure Bounded (w : ℕ) (s : Virtual) : Prop where
  /-- The default alignment is one. -/
  default : DefaultOk w s.defaultAlign
  /-- The reservation is not at the null address. -/
  base_pos : 0 < s.base
  /-- `grow_sz` is a word. -/
  grow_lt : s.growSz < 2 ^ w
  /-- What is handed out is accessible. -/
  used_le : s.usedSz ≤ s.protectSz
  /-- What is accessible is in the address space. -/
  end_lt : s.base + s.protectSz < 2 ^ w

theorem Bounded.alloc (h : Bounded w s) {size align : ℕ} (ha : AlignOk w align) {ok : Bool}
    (hgrant : Granted w s size align ok) (hfit : SumsFit w s size align ok) :
    ∃ out, aallocAlignAlloc w s size align ok = .ok out ∧
      (out.ret = none ∧ out.state = s ∨
        ∃ protectSz, out.ret = some (s.base + (s.usedSz + s.pad align)) ∧
          out.state = { s with protectSz := protectSz, usedSz := s.endOf size align } ∧
          s.endOf size align ≤ protectSz ∧ s.base + protectSz < 2 ^ w) := by
  obtain ⟨out, hout, hnull | ⟨protectSz, hret, hstate, hcall, -, hle⟩⟩ := alloc_of_sumsFit h.default ha hfit
  · exact ⟨out, hout, .inl hnull⟩
  · have hlt : s.base + protectSz < 2 ^ w := by
      rcases hcall with ⟨-, rfl⟩ | ⟨rfl, hcall⟩
      · exact h.end_lt
      · exact hgrant rfl out hout _ hcall
    have haddr : s.base + (s.usedSz + s.pad align) < 2 ^ w := by
      unfold endOf at hle
      omega
    rw [Word.add_of_lt haddr] at hret
    exact ⟨out, hout, .inr ⟨protectSz, hret, hstate, hle, hlt⟩⟩

theorem Bounded.sumsFit (h : Bounded w s) {size align : ℕ} (ha : AlignOk w align) {ok : Bool} {out : Outcome}
    (hout : aallocAlignAlloc w s size align ok = .ok out) (hans : Answered s size out) : SumsFit w s size align ok := by
  have hused := h.used_le
  have hbase := h.base_pos
  have hlt := h.end_lt
  have hoff : s.base + (s.usedSz + s.pad align) ≤ 2 ^ w := base_add_offset_le h.default ha (by omega)
  have hend : Word.add w (s.usedSz + s.pad align) size = s.endOf size align % 2 ^ w := rfl
  have hmod : s.endOf size align % 2 ^ w < 2 ^ w := Nat.mod_lt _ (Nat.two_pow_pos w)
  -- If the end that is stored is the one of the block, it has not wrapped.
  have hexact : ∀ offset, Word.add w s.base (s.usedSz + s.pad align) = s.base + offset →
      s.endOf size align % 2 ^ w = offset + size → s.endOf size align < 2 ^ w := by
    intro offset haddr hsum
    rcases Nat.lt_or_eq_of_le hoff with hoff | heq
    · rw [Word.add_of_lt hoff] at haddr
      have heq : s.endOf size align % 2 ^ w = s.endOf size align := by
        rw [hsum, endOf]
        omega
      rwa [← heq]
    · rw [Word.add, heq, Nat.mod_self] at haddr
      omega
  rw [aallocAlignAlloc_eq h.default ha, Word.add_of_lt (by omega)] at hout
  have hcases := place_ok hout
  rw [hend] at hcases
  unfold SumsFit
  rcases hcases with ⟨hle, rfl⟩ | ⟨hgt, hgrow, rfl⟩
  · rw [if_pos hle]
    rcases hans with ⟨hnull, -⟩ | ⟨offset, hret, -, -, hsum⟩
    · cases hnull
    · exact hexact offset (Option.some.inj hret) hsum
  · rw [if_neg (Nat.not_le_of_lt hgt)]
    refine ⟨hgrow, ?_⟩
    cases ok with
    | false => exact .inl rfl
    | true =>
      right
      rcases hans with ⟨hnull, -⟩ | ⟨offset, hret, -, hle, hsum⟩
      · cases hnull
      · have hfits := hexact offset (Option.some.inj hret) hsum
        by_contra hwrap
        -- `mprotect` would have been asked for nothing
        have hzero := newSz_wrap h.grow_lt hmod (by rw [Nat.mod_eq_of_lt hfits]; omega)
        rw [if_pos rfl] at hle hsum
        dsimp only at hle hsum
        omega

theorem Bounded.answered_iff (h : Bounded w s) {size align : ℕ} (ha : AlignOk w align) {ok : Bool}
    (hgrant : Granted w s size align ok) :
    (∃ out, aallocAlignAlloc w s size align ok = .ok out ∧ Answered s size out) ↔ SumsFit w s size align ok := by
  constructor
  · rintro ⟨out, hout, hans⟩
    exact h.sumsFit ha hout hans
  · intro hfit
    obtain ⟨out, hout, hnull | ⟨protectSz, hret, hstate, hle, -⟩⟩ := h.alloc ha hgrant hfit
    · exact ⟨out, hout, .inl hnull⟩
    · rw [endOf] at hle
      refine ⟨out, hout, .inr ⟨s.usedSz + s.pad align, hret, Nat.le_add_right _ _, ?_, ?_⟩⟩
      · rw [hstate]
        exact hle
      · rw [hstate]
        rfl

/-! ### Runs -/

/-- The condition on a call. -/
def SumsFitCall (w : ℕ) (s : Virtual) : Request Bool → Prop
  | .alloc size align ok => Granted w s size align ok ∧ SumsFit w s size align ok
  | _ => True

theorem Bounded.alloc_state (h : Bounded w s) {size align : ℕ} (ha : AlignOk w align) {ok : Bool}
    (hC : SumsFitCall w s (.alloc size align ok)) {out : Outcome} (hout : aallocAlignAlloc w s size align ok = .ok out) :
    Bounded w out.state := by
  obtain ⟨out', hout', hcases⟩ := h.alloc ha hC.1 hC.2
  obtain rfl : out' = out := Except.ok.inj (hout'.symm.trans hout)
  rcases hcases with ⟨-, hstate⟩ | ⟨protectSz, -, hstate, hle, hlt⟩
  · rw [hstate]
    exact h
  · rw [hstate]
    exact ⟨h.default, h.base_pos, h.grow_lt, hle, hlt⟩

theorem bounded_step {r : Request Bool} {t : Virtual} (h : Bounded w s) (hC : SumsFitCall w s r)
    (hstep : (iface w).step w s r = some t) : Bounded w t := by
  obtain ⟨size, align, ok, out, rfl, ha, hout, rfl⟩ | ⟨rfl, rfl⟩ | ⟨m, ok, rfl, hle, rfl⟩ := step_cases hstep
  · exact h.alloc_state ha hC hout
  · exact h
  · exact ⟨h.default, h.base_pos, h.grow_lt, le_trans hle h.used_le, h.end_lt⟩

theorem sums_sound (w : ℕ) : Sound w (iface w) (SumsFitCall w) (Bounded w) Placed := by
  constructor
  · intro s s' size align ok p hs _ ha hC hcall
    obtain ⟨out, hout, hret, rfl⟩ := iface_alloc hcall
    have hbounded := hs.alloc_state ha hC hout
    obtain ⟨out', hout', hcases⟩ := hs.alloc ha hC.1 hC.2
    obtain rfl : out' = out := Except.ok.inj (hout'.symm.trans hout)
    rcases hcases with ⟨hnone, -⟩ | ⟨protectSz, haddr, hstate, -, -⟩
    · rw [hnone] at hret
      cases hret
    · obtain rfl := Option.some.inj (haddr.symm.trans hret)
      rw [hstate] at hbounded ⊢
      exact ⟨hbounded, usedSz_add_le_endOf size align, placed_next hs.default ha rfl rfl,
        fun b e _ hb => hb.congr rfl rfl⟩
  · exact fun _ _ _ _ hcall => iface_alloc_null hcall
  · intro s s' m ok hs _ hm hcall
    obtain ⟨-, rfl⟩ := iface_restore hcall
    exact ⟨⟨hs.default, hs.base_pos, hs.grow_lt, le_trans hm hs.used_le, hs.end_lt⟩, rfl,
      fun b e _ hb => hb.congr rfl rfl⟩

theorem bounded_init {ps reserveSz defaultAlign growSz : ℕ} {map : Option ℕ} (hd : defaultAlign < 2 ^ w)
    (hinit : copAllocVirtualInit w ps reserveSz defaultAlign growSz map = .ok (some s)) : Bounded w s := by
  obtain ⟨hdef, ⟨-, hbase, hmap⟩, hused, hprot, hgrow⟩ := copAllocVirtualInit_ok hd hinit
  exact ⟨hdef, hbase, hgrow, by omega, by omega⟩

/-- **Calls are answered as they should be exactly as long as the sums fit.** After any run of calls
from `cop_alloc_virtual_init` whose sums all fit, a call of `alloc` with any size is answered as it
should be exactly when its sums fit; and the blocks that are live after such a run of a client are
apart. -/
theorem answered_iff_sumsFit {ps reserveSz defaultAlign growSz : ℕ} {map : Option ℕ} (hd : defaultAlign < 2 ^ w)
    (hinit : copAllocVirtualInit w ps reserveSz defaultAlign growSz map = .ok (some s₀)) :
    (∀ rs s, Meets ((iface w).step w) (SumsFitCall w) rs s₀ → steps ((iface w).step w) rs s₀ = some s →
      ∀ size align ok, size < 2 ^ w → AlignOk w align → Granted w s size align ok →
        ((∃ out, aallocAlignAlloc w s size align ok = .ok out ∧ Answered s size out) ↔ SumsFit w s size align ok)) ∧
    ∀ us c, Meets (Client.step w (iface w)) (Client.Calls (SumsFitCall w)) us ⟨s₀, []⟩ →
      steps (Client.step w (iface w)) us ⟨s₀, []⟩ = some c → c.live.Pairwise Block.Apart := by
  have h₀ : Bounded w s₀ := bounded_init hd hinit
  constructor
  · intro rs s hC hrun size align ok _ ha hgrant
    have h : Bounded w s := steps_inv_of_meets (fun s r t => bounded_step) h₀ hC hrun
    exact h.answered_iff ha hgrant
  · intro us c hC hrun
    have hc := (sums_sound w).run h₀ hC hrun
    apply hc.apart
    intro a e b f hfe hle _ ha hb
    have haddr := ha.addr
    have haddr' := hb.addr
    right
    omega

/-- The reservation of 64 KiB, with 100 bytes handed out. -/
def sampleUsed : Virtual := { sampleReservation with protectSz := 4096, usedSz := 100 }

theorem init_sampleReservation : copAllocVirtualInit 64 4096 65536 16 0 (some 1048576) = .ok (some sampleReservation) :=
  rfl

theorem run_sampleReservation : steps ((iface 64).step 64) [.alloc 100 16 true] sampleReservation = some sampleUsed := rfl

theorem answered_iff_sumsFit_sample :
    ((∃ out, aallocAlignAlloc 64 sampleUsed 5000 16 true = .ok out ∧ Answered sampleUsed 5000 out) ↔
      SumsFit 64 sampleUsed 5000 16 true) ∧
    ∃ c, steps (Client.step 64 (iface 64)) [.alloc 100 16 true] ⟨sampleReservation, []⟩ = some c ∧
      c.live.Pairwise Block.Apart := by
  have hcall : SumsFitCall 64 sampleReservation (.alloc 100 16 true) :=
    ⟨granted_of_ok ⟨some 1048576, some (1048576, 4096), sampleUsed⟩ (by decide) (by decide), by decide⟩
  have hnext : Granted 64 sampleUsed 5000 16 true :=
    granted_of_ok ⟨some 1048688, some (1048576, 8192), { sampleUsed with protectSz := 8192, usedSz := 5112 }⟩
      (by decide) (by decide)
  obtain ⟨hiff, hapart⟩ := answered_iff_sumsFit (by decide) init_sampleReservation
  exact ⟨hiff [.alloc 100 16 true] _ ⟨hcall, trivial⟩ run_sampleReservation 5000 16 true (by decide) (by decide) hnext,
    _, rfl, hapart [.alloc 100 16 true] _ ⟨hcall, trivial⟩ rfl⟩

/-- A block of all but 100 bytes of the address space is accepted, and what is handed out shrinks
from 100 bytes to 12. -/
theorem wrapped_size_accepted :
    copAllocVirtualInit 64 4096 65536 16 0 (some 1048576) = .ok (some sampleReservation) ∧
      steps ((iface 64).step 64) [.alloc 100 16 true] sampleReservation = some sampleUsed ∧
      ∃ out, aallocAlignAlloc 64 sampleUsed (2 ^ 64 - 100) 16 true = .ok out ∧ out.ret = some (1048576 + 112) ∧
        out.state.usedSz = 12 ∧ ¬ Answered sampleUsed (2 ^ 64 - 100) out := by
  refine ⟨rfl, rfl, ⟨some 1048688, none, { sampleUsed with usedSz := 12 }⟩, by decide, rfl, rfl, ?_⟩
  rintro (⟨hnull, -⟩ | ⟨offset, -, -, -, hsum⟩)
  · cases hnull
  · change 12 = offset + (2 ^ 64 - 100) at hsum
    omega

end Cop.Alloc.Virtual
