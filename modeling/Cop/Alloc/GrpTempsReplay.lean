import Cop.Alloc.GrpTempsHeap
import Cop.Alloc.GrpTempsSafety
import Cop.Theory.Packing

/-!
# Replaying requests in the group-temporaries allocator

When everything is deallocated, `restore` may exchange the last buffer for one of `total_size`
bytes, as many as were handed out of all buffers together, so that the same requests can be met
from it alone the next time. But `total_size` is made of blocks and of padding, and the padding
was needed from several addresses: where each buffer starts. Behind one address the same blocks
may need more.

## What is proved

* `replays_iff` — a buffer nothing of which is handed out meets requests exactly when it is as
  large as their blocks are, one behind the other from its first byte on.
* `pass_sizes` — what is handed out after a first pass: the blocks and their padding.
* `replays_iff_padsFrom` — after the exchange, the requests are met from the new buffer exactly
  when they need no more padding from its first byte on than in the first pass.
* `padsFrom_le_passPads` — requests of one alignment, for multiples of it, need no more.
* `replay_takes_more` — requests that are not met again.
-/

namespace Cop.Alloc.GrpTemps

open Theory

variable {w : ℕ} {s t u : GrpTemps}

/-- Calls of `alloc`, with sizes, alignments, and what `malloc` would answer. -/
def asked (rs : List (ℕ × ℕ × Option ℕ)) : List (Request (Option ℕ)) := rs.map fun r => .alloc r.1 r.2.1 r.2.2

/-- The blocks that are asked for, with the alignments they get. -/
def blocksOf (s : GrpTemps) (rs : List (ℕ × ℕ × Option ℕ)) : List (ℕ × ℕ) := rs.map fun r => (r.1, s.alignOf r.2.1)

/-- A call of `alloc` returns a block. -/
def Succeeds (w : ℕ) (s : GrpTemps) : Request (Option ℕ) → Prop
  | .alloc size align env => ∃ p t, allocGrpTemps w s size align env = .ok (some p, t)
  | _ => True

/-- The requests are met from the newest buffer, also where `malloc` fails: each returns a block that
lies in its bytes. -/
def Replays (w : ℕ) : List (ℕ × ℕ × Option ℕ) → GrpTemps → Prop
  | [], _ => True
  | (size, align, _) :: rs, s => ∃ p t, allocGrpTemps w s size align none = .ok (some p, t) ∧
      s.head.data w ≤ p ∧ p + size ≤ s.head.data w + s.head.allocSz ∧ Replays w rs t

/-- The padding before a block that `alloc` returns. -/
def padOf (w : ℕ) (s : GrpTemps) (size align : ℕ) (env : Option ℕ) : ℕ :=
  if s.Grows w size align then padTo (s.alignOf align) (env.getD 0 + sizeofBuf w) else s.pad w align

/-- The padding in a first pass. -/
def passPads (w : ℕ) : List (ℕ × ℕ × Option ℕ) → GrpTemps → ℕ
  | [], _ => 0
  | (size, align, env) :: rs, s => s.padOf w size align env +
      match (iface w).step w s (.alloc size align env) with
      | some t => passPads w rs t
      | none => 0

/-! ### One buffer -/

theorem Sized.alloc_of_room (h : Sized w s) {size align : ℕ} (ha : AlignOk w align)
    (hroom : s.head.size + s.pad w align + size ≤ s.head.allocSz) :
    allocGrpTemps w s size align none =
        .ok (some (s.head.addr + sizeofBuf w + (s.head.size + s.pad w align)), s.reused w size align) ∧
      Sized w (s.reused w size align) ∧ (s.reused w size align).head.size = s.head.size + s.pad w align + size := by
  have hin := h.within (b := s.head) List.mem_cons_self
  have hstart := h.startOf_eq ha
  have hfit : s.startOf w align + size < 2 ^ w := by omega
  have hsize : Word.add w (s.startOf w align) size = s.head.size + s.pad w align + size := by
    rw [Word.add_of_lt hfit, hstart]
  have hreuse : ¬ s.Grows w size align := by
    unfold Grows
    omega
  refine ⟨?_, h.reused ha hfit hreuse, hsize⟩
  rw [h.alloc_eq ha, if_neg hreuse, (h.addr_eq ha hfit hreuse).1]

theorem Sized.room_of_alloc (h : Sized w s) {size align p : ℕ} (ha : AlignOk w align)
    (hcall : allocGrpTemps w s size align none = .ok (some p, t)) (hlower : s.head.data w ≤ p)
    (hupper : p + size ≤ s.head.data w + s.head.allocSz) :
    s.head.size + s.pad w align + size ≤ s.head.allocSz ∧ t = s.reused w size align := by
  have hin := h.within (b := s.head) List.mem_cons_self
  have hdata := h.data_eq (b := s.head) List.mem_cons_self
  have hstart := h.startOf_eq ha
  have hle := h.size_le s.head List.mem_cons_self
  obtain ⟨hpow, hlt⟩ := h.default.orDefault ha
  -- the padding ends within the address space
  have hend : s.head.addr + sizeofBuf w + s.head.size + s.pad w align ≤ 2 ^ w :=
    add_padTo_le (h.default.orDefault_pos ha) (dvd_two_pow hpow hlt) (by omega)
  rcases allocGrpTemps_ok hcall with ⟨-, hp, rfl⟩ | ⟨-, ⟨-, hnone, -⟩ | ⟨a, henv, -, -, -⟩⟩
  · refine ⟨?_, rfl⟩
    have haddr := Option.some.inj hp
    rw [hdata, hstart] at haddr
    rw [hdata] at hlower hupper
    rcases Nat.lt_or_eq_of_le hend with hend | hend
    · rw [Word.add_of_lt (by omega)] at haddr
      omega
    · rw [Word.add, show s.head.addr + sizeofBuf w + (s.head.size + s.pad w align) = 2 ^ w by omega, Nat.mod_self] at haddr
      omega
  · cases hnone
  · cases henv

/-- **A buffer meets requests exactly when it has room for their blocks**, one behind the other. -/
theorem replays_iff (h : Sized w s) {rs : List (ℕ × ℕ × Option ℕ)} (ha : ∀ r ∈ rs, AlignOk w r.2.1) :
    Replays w rs s ↔
      s.head.size + packed (s.head.addr + sizeofBuf w + s.head.size) (s.blocksOf rs) ≤ s.head.allocSz := by
  induction rs generalizing s with
  | nil => exact iff_of_true trivial (h.size_le s.head List.mem_cons_self)
  | cons r rs ih =>
    obtain ⟨size, align, env⟩ := r
    obtain ⟨hr, hrs⟩ := List.forall_mem_cons.1 ha
    have hr : AlignOk w align := hr
    have hdata := h.data_eq (b := s.head) List.mem_cons_self
    have hblocks : s.blocksOf ((size, align, env) :: rs) = (size, s.alignOf align) :: s.blocksOf rs := rfl
    have hpacked : packed (s.head.addr + sizeofBuf w + s.head.size) (s.blocksOf ((size, align, env) :: rs)) =
        s.pad w align + size +
          packed (s.head.addr + sizeofBuf w + (s.head.size + s.pad w align + size)) (s.blocksOf rs) := by
      rw [hblocks, packed_cons]
      have hnext : s.head.addr + sizeofBuf w + s.head.size + s.pad w align + size =
          s.head.addr + sizeofBuf w + (s.head.size + s.pad w align + size) := by omega
      rw [← hnext]
      rfl
    rw [hpacked]
    constructor
    · rintro ⟨p, t, hcall, hlower, hupper, hrest⟩
      obtain ⟨hroom, rfl⟩ := h.room_of_alloc hr hcall hlower hupper
      obtain ⟨-, hsized, hsize⟩ := h.alloc_of_room hr hroom
      have hle := (ih hsized hrs).1 hrest
      rw [hsize] at hle
      change _ + packed (s.head.addr + _ + _) (s.blocksOf rs) ≤ s.head.allocSz at hle
      omega
    · intro hle
      have hroom : s.head.size + s.pad w align + size ≤ s.head.allocSz := by omega
      obtain ⟨hcall, hsized, hsize⟩ := h.alloc_of_room hr hroom
      refine ⟨_, _, hcall, by omega, by omega, (ih hsized hrs).2 ?_⟩
      rw [hsize]
      change _ + packed (s.head.addr + _ + _) (s.blocksOf rs) ≤ s.head.allocSz
      omega

/-! ### The first pass -/

theorem Sized.alloc_sizes (h : Sized w s) {size align : ℕ} {env : Option ℕ} {p : ℕ} (ha : AlignOk w align)
    (hfits : Fits w s size align env) (hcall : allocGrpTemps w s size align env = .ok (some p, t)) :
    sizes t.chain = sizes s.chain + s.padOf w size align env + size ∧ t.defaultAlign = s.defaultAlign := by
  unfold padOf
  rcases allocGrpTemps_ok hcall with ⟨hreuse, -, rfl⟩ | ⟨hgrow, ⟨-, hnone, -⟩ | ⟨a, rfl, hfresh, -, rfl⟩⟩
  · refine ⟨?_, rfl⟩
    rw [if_neg hreuse]
    change Word.add w (s.startOf w align) size + sizes s.prev = s.head.size + sizes s.prev + _ + _
    rw [Word.add_of_lt (hfits.of_reuse hreuse), h.startOf_eq ha]
    omega
  · cases hnone
  · obtain ⟨hmin, hmalloc⟩ := hfits.of_grows hgrow
    refine ⟨?_, rfl⟩
    rw [if_pos hgrow]
    change Word.add w (s.newStart w size align a) size + sizes s.chain = sizes s.chain + padTo _ (a + sizeofBuf w) + size
    rw [(h.newSize_eq ha hmin (new_lt hmalloc hfresh)).1]
    omega

/-- **What is handed out in a first pass** is the blocks, and their padding. -/
theorem pass_sizes (h : Sized w s) {rs : List (ℕ × ℕ × Option ℕ)}
    (hfits : Meets ((iface w).step w) (FitsCall w) (asked rs) s) (hok : Meets ((iface w).step w) (Succeeds w) (asked rs) s)
    (hpass : steps ((iface w).step w) (asked rs) s = some u) :
    sizes u.chain = sizes s.chain + (passPads w rs s + lengths (s.blocksOf rs)) := by
  induction rs generalizing s with
  | nil =>
    cases hpass
    rfl
  | cons r rs ih =>
    obtain ⟨size, align, env⟩ := r
    obtain ⟨v, hv, hrest⟩ := steps_cons.1 hpass
    obtain ⟨⟨ha, hfit⟩, hfits⟩ := meets_cons.1 hfits
    have ha : AlignOk w align := ha
    have hfit : Fits w s size align env := hfit
    obtain ⟨⟨p, v', hcall⟩, hok⟩ := meets_cons.1 hok
    -- the call that succeeds is the one that is taken
    obtain ⟨-, -, q, hcall'⟩ := Salloc.step_alloc hv
    obtain ⟨-, rfl⟩ := Prod.mk.inj (Except.ok.inj (hcall.symm.trans hcall'))
    obtain ⟨hsizes, hdef⟩ := h.alloc_sizes ha hfit hcall
    have hblocks : v'.blocksOf rs = s.blocksOf rs := by
      unfold blocksOf alignOf
      rw [hdef]
    have hlen : lengths (s.blocksOf ((size, align, env) :: rs)) = size + lengths (s.blocksOf rs) := rfl
    have hpads : passPads w ((size, align, env) :: rs) s = s.padOf w size align env + passPads w rs v' := by
      rw [passPads, hv]
    have hsized := sized_step (r := .alloc size align env) h ⟨ha, hfit⟩ hv
    rw [ih hsized (hfits v' hv) (hok v' hv) hrest, hsizes, hblocks, hlen, hpads]
    omega

/-! ### The exchange -/

theorem defaultAlign_step (h : Linked w s) {r : Request (Option ℕ)} (hstep : (iface w).step w s r = some t) :
    t.defaultAlign = s.defaultAlign := by
  cases r with
  | alloc size align env =>
    obtain ⟨-, -, p, hcall⟩ := Salloc.step_alloc hstep
    rcases allocGrpTemps_ok hcall with ⟨-, -, rfl⟩ | ⟨-, ⟨-, -, rfl⟩ | ⟨a, -, -, -, rfl⟩⟩ <;> rfl
  | save =>
    cases hstep
    rfl
  | restore m env =>
    obtain ⟨-, hcall⟩ := Salloc.step_restore hstep
    obtain ⟨-, -, -, -, -, -, -, ⟨rfl, -⟩ | ⟨-, a, -, -, rfl⟩⟩ := restore_ok h hcall <;> rfl

/-- After any run, sizes, links and the heap belong together, and the default alignment is as it was. -/
theorem linked_run (h : Linked w s) {rs : List (Request (Option ℕ))} (hrun : steps ((iface w).step w) rs s = some t) :
    Linked w t ∧ t.defaultAlign = s.defaultAlign := by
  refine steps_inv (I := fun t => Linked w t ∧ t.defaultAlign = s.defaultAlign) ?_ ⟨h, rfl⟩ hrun
  intro u r v hu hstep
  exact ⟨linked_step hu.1 hstep, (defaultAlign_step hu.1 hstep).trans hu.2⟩

theorem sizeofBuf_lt (w : ℕ) : sizeofBuf w < 2 ^ w := by
  have hw : w < 2 ^ w := Nat.lt_two_pow_self
  unfold sizeofBuf
  omega

/-- `restore` exchanges the last buffer: with no memory for a new one, it would end otherwise. -/
def ExchangesFor (w : ℕ) (u : GrpTemps) (m a : ℕ) (t : GrpTemps) : Prop :=
  u.copAllocGrpTempsRestore w m (some a) = .ok t ∧ u.copAllocGrpTempsRestore w m none ≠ .ok t

theorem sized_exchanged (h : Linked w u) (hd : DefaultOk w u.defaultAlign) {m a : ℕ} (hex : ExchangesFor w u m a t) :
    Sized w t ∧ t.chain = [⟨a, 0, u.copAllocGrpTempsSave w⟩] ∧ t.defaultAlign = u.defaultAlign := by
  obtain ⟨hcall, hother⟩ := hex
  obtain ⟨_, hm, -⟩ := bind_ok hcall
  obtain ⟨newer, buf, older, hsplit, -, heq⟩ := restore_eq h (check_ok hm)
  rw [heq] at hcall
  obtain ⟨v, hv, hrest⟩ := bind_ok hcall
  obtain ⟨_, hsave, hrest⟩ := bind_ok hrest
  cases hrest
  rcases exchange_ok hv with ⟨rfl, hno⟩ | ⟨hexch, a', ha, hfresh, rfl⟩
  · -- then nothing depends on what `malloc` answers
    have hkeeps : ¬ (u.stopped w newer buf older (u.copAllocGrpTempsSave w - m)).Exchanges (u.copAllocGrpTempsSave w) :=
      fun hexch => Option.some_ne_none a (hno hexch)
    refine absurd ?_ hother
    rw [heq, exchange_keeps hkeeps]
    change (check Fault.assertion _ >>= fun _ => _) = _
    rw [hsave]
    rfl
  · obtain rfl := Option.some.inj ha
    have hroom := exchange_room hv hexch
    have hlt : u.copAllocGrpTempsSave w < 2 ^ w := Word.add_lt
    have hfit : sizeofBuf w + u.copAllocGrpTempsSave w < 2 ^ w := by
      by_contra hwrap
      rw [Word.add_of_ge (sizeofBuf_lt w) hlt (by omega)] at hroom
      omega
    refine ⟨⟨(h.stopped hsplit _).exchanged hexch hfresh, ?_, ?_, hd⟩, rfl, rfl⟩
    · intro b hb
      obtain rfl := List.mem_singleton.1 hb
      exact Nat.zero_le _
    · intro b hb
      obtain rfl := List.mem_singleton.1 hb
      exact hfit

/-- **The requests of a first pass are met again from the exchanged buffer exactly when they take up
no more than it has.** From any state that is reached, where nothing is handed out: requests that all
succeed are made, and `restore` goes back to the empty mark and exchanges the last buffer for one of
`total_size` bytes. Then the same requests are met from it alone if and only if their blocks take up
no more than that, one behind the other from its first byte on. Where no size wraps, this is so if
and only if they need no more padding there than they did in the first pass. -/
theorem replays_iff_padsFrom (hw : 5 ≤ w) {ps initialSz maxGrow defaultAlign : ℕ} {env₀ : Option ℕ} {s₀ : GrpTemps}
    (hd : AlignOk w defaultAlign)
    (hinit : copAllocGrpTempsInit w ps initialSz maxGrow defaultAlign env₀ = .ok (some s₀))
    {rs₀ : List (Request (Option ℕ))} (hreach : steps ((iface w).step w) rs₀ s₀ = some s)
    (hempty : s.copAllocGrpTempsSave w = 0) {rs : List (ℕ × ℕ × Option ℕ)} (halign : ∀ r ∈ rs, AlignOk w r.2.1)
    (hok : Meets ((iface w).step w) (Succeeds w) (asked rs) s) (hpass : steps ((iface w).step w) (asked rs) s = some u)
    {a : ℕ} (hex : ExchangesFor w u 0 a t) :
    (Replays w rs t ↔ packed (a + sizeofBuf w) (s.blocksOf rs) ≤ u.copAllocGrpTempsSave w) ∧
      (sizeofBuf w + initialBytes ps initialSz < 2 ^ w → Meets ((iface w).step w) (FitsCall w) (rs₀ ++ asked rs) s₀ →
        (Replays w rs t ↔ padsFrom (a + sizeofBuf w) (s.blocksOf rs) ≤ passPads w rs s)) := by
  obtain ⟨hlinked, hdef⟩ := linked_run (linked_init hinit) (steps_append.2 ⟨s, hreach, hpass⟩)
  obtain ⟨-, hdef'⟩ := linked_run (linked_init hinit) hreach
  have hdefault : DefaultOk w s₀.defaultAlign := by
    obtain ⟨-, -, -, -, -, -, heq⟩ := copAllocGrpTempsInit_ok hinit
    rw [heq]
    exact defaultOk_init hw hd
  obtain ⟨hsized, hhead, hsame⟩ := sized_exchanged hlinked (hdef ▸ hdefault) hex
  have hreplays : Replays w rs t ↔ packed (a + sizeofBuf w) (s.blocksOf rs) ≤ u.copAllocGrpTempsSave w := by
    have hbuf : t.head = ⟨a, 0, u.copAllocGrpTempsSave w⟩ := (List.cons.inj hhead).1
    have hblocks : t.blocksOf rs = s.blocksOf rs := by
      unfold blocksOf alignOf
      rw [hsame, hdef, hdef']
    rw [replays_iff hsized halign, hbuf, hblocks]
    dsimp only
    rw [Nat.zero_add, Nat.add_zero]
  refine ⟨hreplays, ?_⟩
  intro hfit hfits
  obtain ⟨hfits₀, hfits⟩ := meets_append.1 hfits
  have h : Sized w s := steps_inv_of_meets (fun s r t hs hC hstep => sized_step hs hC hstep)
    (sized_init hw hd hfit hinit) hfits₀ hreach
  have hu : Sized w u := steps_inv_of_meets (fun s r t hs hC hstep => sized_step hs hC hstep) h (hfits s hreach) hpass
  have htotal := pass_sizes h (hfits s hreach) hok hpass
  rw [← hu.save_eq, ← h.save_eq, hempty] at htotal
  rw [hreplays, htotal, packed]
  omega

/-- Requests for multiples of one alignment, when all addresses are multiples of it, need no more
padding behind another address. -/
theorem padsFrom_le_passPads {align₀ a : ℕ} {rs : List (ℕ × ℕ × Option ℕ)} (hpos : 0 < align₀)
    (hblocks : ∀ b ∈ s.blocksOf rs, b.2 = align₀ ∧ align₀ ∣ b.1) (hsize : s.head.size = 0)
    (haddr : align₀ ∣ s.head.addr) (henv : ∀ r ∈ rs, align₀ ∣ r.2.2.getD 0) (ha : align₀ ∣ a) :
    padsFrom (a + sizeofBuf w) (s.blocksOf rs) ≤ passPads w rs s := by
  cases rs with
  | nil => exact Nat.zero_le _
  | cons r rs =>
    obtain ⟨size, align, env⟩ := r
    have halign : s.alignOf align = align₀ := (hblocks _ List.mem_cons_self).1
    have hnew : align₀ ∣ env.getD 0 := henv _ List.mem_cons_self
    -- wherever the first block is put, its padding depends on the header only
    have hpad : s.padOf w size align env = padTo align₀ (sizeofBuf w) := by
      unfold padOf pad
      rw [halign]
      split
      · exact padTo_add hnew _
      · rw [hsize, Nat.add_zero, padTo_add haddr]
    have hfirst : s.blocksOf ((size, align, env) :: rs) = (size, align₀) :: s.blocksOf rs := by
      rw [← halign]
      rfl
    rw [hfirst] at hblocks
    rw [hfirst, padsFrom_uniform hpos hblocks, padTo_add ha, passPads, hpad]
    exact Nat.le_add_right _ _

theorem replays_iff_padsFrom_tenBytes :
    ∃ u t, steps ((iface 64).step 64) (asked [(8, 8, none), (104, 8, some 8192)]) tenBytes = some u ∧
      ExchangesFor 64 u 0 12288 t ∧ Replays 64 [(8, 8, none), (104, 8, some 8192)] t := by
  have hinit : copAllocGrpTempsInit 64 4096 10 0 0 (some 4096) = .ok (some tenBytes) := rfl
  have hok : Meets ((iface 64).step 64) (Succeeds 64) (asked [(8, 8, none), (104, 8, some 8192)]) tenBytes :=
    ⟨⟨_, _, rfl⟩, ⟨_, _, rfl⟩, trivial⟩
  have hfits : Meets ((iface 64).step 64) (FitsCall 64) ([] ++ asked [(8, 8, none), (104, 8, some 8192)]) tenBytes :=
    ⟨⟨.inr ⟨⟨3, rfl⟩, by decide⟩, .inl (by decide)⟩, ⟨.inr ⟨⟨3, rfl⟩, by decide⟩, .inl (by decide)⟩, trivial⟩
  have halign : ∀ r ∈ [(8, 8, none), (104, 8, some 8192)], AlignOk 64 r.2.1 := by
    have h8 : AlignOk 64 8 := .inr ⟨⟨3, rfl⟩, by decide⟩
    simpa using h8
  have hex : ExchangesFor 64 ⟨16, 20, 8, ⟨8192, 104, 111⟩, [⟨4096, 8, 10⟩], [⟨8192, 135⟩, ⟨4096, 34⟩]⟩ 0 12288
      ⟨16, 20, 0, ⟨12288, 0, 112⟩, [], [⟨12288, 136⟩]⟩ := ⟨rfl, by decide⟩
  have hreach : steps ((iface 64).step 64) [] tenBytes = some tenBytes := rfl
  obtain ⟨-, hiff⟩ := replays_iff_padsFrom (by decide) (.inl rfl) hinit hreach rfl halign hok rfl hex
  exact ⟨_, _, rfl, hex, (hiff (by decide) hfits).2 (by decide)⟩

/-- Behind the first buffer's 9 bytes there is no room for 100 aligned ones. Behind a new buffer's
header they need 8 bytes of padding, and behind the 9 bytes 15. -/
theorem replay_takes_more :
    copAllocGrpTempsInit 64 4096 10 0 0 (some 4096) = .ok (some tenBytes) ∧ tenBytes.copAllocGrpTempsSave 64 = 0 ∧
      Meets ((iface 64).step 64) (Succeeds 64) (asked [(9, 1, none), (100, 16, some 8192)]) tenBytes ∧
      ∃ u t, steps ((iface 64).step 64) (asked [(9, 1, none), (100, 16, some 8192)]) tenBytes = some u ∧
        ExchangesFor 64 u 0 12288 t ∧ ¬ Replays 64 [(9, 1, none), (100, 16, some 8192)] t := by
  refine ⟨rfl, rfl, ⟨⟨_, _, rfl⟩, ⟨_, _, rfl⟩, trivial⟩,
    ⟨16, 20, 9, ⟨8192, 108, 115⟩, [⟨4096, 9, 10⟩], [⟨8192, 139⟩, ⟨4096, 34⟩]⟩,
    ⟨16, 20, 0, ⟨12288, 0, 117⟩, [], [⟨12288, 141⟩]⟩, rfl, ⟨rfl, by decide⟩, ?_⟩
  rintro ⟨p, t, hfirst, -, -, q, v, hsecond, -⟩
  -- the first request is met, and nothing is left for the second one
  cases hfirst
  cases hsecond

end Cop.Alloc.GrpTemps
