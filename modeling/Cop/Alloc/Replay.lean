import Cop.Alloc.Reservation
import Cop.Alloc.VirtualSizes

/-!
# Replaying requests in the virtual allocator

A caller saves a mark, asks for some blocks, goes on in whatever way, goes back to the mark, and
asks for the same blocks again. Addresses depend on `base` and `used_sz` alone; `protect_sz` grows
with the requests, and a `restore` leaves it as it is. So the second time everything is accessible
already.

## What is proved

* `pass_replay` — requests that all succeeded once, without a sum that wraps, are met again from
  the same `used_sz`, if what was accessible after the first pass still is.
* `between_sound` — what is accessible stays accessible while the sums of the calls fit.
* `replay_after_restore` — the two together.
* `replay_fails` — a request whose sum wraps, between the two passes.
-/

namespace Cop.Alloc.Virtual

open Theory

variable {w : ℕ} {s s₀ t : Virtual}

/-- Blocks are asked for one after the other: a size, an alignment, and what `mprotect` would
answer. The outcomes, and the allocator after the last one. -/
def allocAll (w : ℕ) : List (ℕ × ℕ × Bool) → Virtual → Exec Fault (List Outcome × Virtual)
  | [], s => .ok ([], s)
  | q :: qs, s => do
    let out ← aallocAlignAlloc w s q.1 q.2.1 q.2.2
    let rest ← allocAll w qs out.state
    return (out :: rest.1, rest.2)

/-- The requests without the answers. -/
def sizesOf (qs : List (ℕ × ℕ × Bool)) : List (ℕ × ℕ) := qs.map fun q => (q.1, q.2.1)

/-- Every request succeeds, and none of its sums wraps. Arguments are words. -/
def Succeed (w : ℕ) : List (ℕ × ℕ × Bool) → Virtual → Prop
  | [], _ => True
  | q :: qs, s => q.1 < 2 ^ w ∧ q.2.1 < 2 ^ w ∧ NoWrap w s q.1 q.2.1 ∧
      ∀ out, aallocAlignAlloc w s q.1 q.2.1 q.2.2 = .ok out → out.ret ≠ none ∧ Succeed w qs out.state

theorem allocAll_cons {q : ℕ × ℕ × Bool} {qs : List (ℕ × ℕ × Bool)} {outs : List Outcome}
    (h : allocAll w (q :: qs) s = .ok (outs, t)) :
    ∃ out rest, aallocAlignAlloc w s q.1 q.2.1 q.2.2 = .ok out ∧ allocAll w qs out.state = .ok (rest, t) ∧
      outs = out :: rest := by
  obtain ⟨out, hout, h⟩ := bind_ok h
  obtain ⟨⟨rest, t'⟩, hrest, h⟩ := bind_ok h
  cases h
  exact ⟨out, rest, hout, hrest, rfl⟩

/-- A call that returned, and none of whose sums wraps, has sums that fit. -/
theorem NoWrap.sumsFit {size align : ℕ} (h : NoWrap w s size align) (hd : DefaultOk w s.defaultAlign)
    (ha : AlignOk w align) {ok : Bool} {out : Outcome} (hout : aallocAlignAlloc w s size align ok = .ok out) :
    SumsFit w s size align ok := by
  have hend : Word.add w (Word.add w s.usedSz (s.pad align)) size = s.endOf size align % 2 ^ w := Nat.mod_add_mod ..
  rw [aallocAlignAlloc_eq hd ha] at hout
  have hcases := place_ok hout
  rw [hend, Nat.mod_eq_of_lt h.fits] at hcases
  rw [SumsFit, Nat.mod_eq_of_lt h.fits]
  split
  · exact h.fits
  · rename_i hgt
    rcases hcases with ⟨hle, -⟩ | ⟨-, hgrow, -⟩
    · exact absurd hle hgt
    · exact ⟨hgrow, .inr (h.round (Nat.lt_of_not_le hgt)).le⟩

/-- What `u` needs to meet the requests that `s` has met: it hands out from the same place, and the
first `n` bytes are accessible. -/
structure Ready (s u : Virtual) (n : ℕ) : Prop where
  /-- The reservation is where it was. -/
  base_eq : u.base = s.base
  /-- The default alignment is what it was. -/
  default_eq : u.defaultAlign = s.defaultAlign
  /-- As much is handed out. -/
  used_eq : u.usedSz = s.usedSz
  /-- What is needed is accessible. -/
  le : n ≤ u.protectSz

theorem Ready.alloc {u : Virtual} {n size align : ℕ} (h : Ready s u n) (hd : DefaultOk w s.defaultAlign)
    (ha : AlignOk w align) (hfits : s.endOf size align < 2 ^ w) (hn : s.endOf size align ≤ n) (ok : Bool) :
    aallocAlignAlloc w u size align ok =
      .ok ⟨some (Word.add w s.base (s.usedSz + s.pad align)), none, { u with usedSz := s.endOf size align }⟩ := by
  have hpad : u.pad align = s.pad align := by rw [pad, pad, alignOf, alignOf, h.default_eq, h.base_eq, h.used_eq]
  have hsum : s.usedSz + s.pad align + size < 2 ^ w := hfits
  have hend : Word.add w (s.usedSz + s.pad align) size = s.endOf size align := Word.add_of_lt hsum
  have hle : ¬ s.endOf size align > u.protectSz := Nat.not_lt_of_le (hn.trans h.le)
  rw [← h.default_eq] at hd
  rw [aallocAlignAlloc_eq hd ha, hpad, h.used_eq, Word.add_of_lt (by omega), place, hend, if_neg hle, h.base_eq]
  rfl

/-- Requests that all succeeded are met again, at the same addresses and without `mprotect`, as
long as the first `n` bytes are accessible, as they are after the first pass. -/
theorem pass_replay {qs : List (ℕ × ℕ × Bool)} (hd : DefaultOk w s.defaultAlign) {outs : List Outcome}
    (hpass : allocAll w qs s = .ok (outs, t)) (hsucc : Succeed w qs s) :
    s.protectSz ≤ t.protectSz ∧ s.usedSz ≤ t.usedSz ∧ t.base = s.base ∧ t.defaultAlign = s.defaultAlign ∧
      ∃ n, n ≤ t.protectSz ∧ ∀ u, Ready s u n → ∀ qs', sizesOf qs' = sizesOf qs →
        ∃ outs' t', allocAll w qs' u = .ok (outs', t') ∧ outs'.map Outcome.ret = outs.map Outcome.ret ∧
          ∀ out ∈ outs', out.call = none := by
  induction qs generalizing s outs with
  | nil =>
    cases hpass
    refine ⟨le_rfl, le_rfl, rfl, rfl, 0, Nat.zero_le _, fun u _ qs' hqs' => ⟨[], u, ?_, rfl, fun out hout => nomatch hout⟩⟩
    rw [List.map_eq_nil_iff.1 hqs']
    rfl
  | cons q qs ih =>
    obtain ⟨out, rest, hout, hrest, rfl⟩ := allocAll_cons hpass
    obtain ⟨-, halign, hwrap, hnext⟩ := hsucc
    obtain ⟨hret, hsucc⟩ := hnext out hout
    have ha : AlignOk w q.2.1 := alignOk_of_ok halign hout
    obtain ⟨out', hout', hcases⟩ := alloc_of_sumsFit hd ha (hwrap.sumsFit hd ha hout)
    obtain rfl : out = out' := Except.ok.inj (hout.symm.trans hout')
    rcases hcases with ⟨hnull, -⟩ | ⟨protectSz, haddr, hstate, -, hgrown, hend⟩
    · exact absurd hnull hret
    · have hd' : DefaultOk w out.state.defaultAlign := by
        rw [hstate]
        exact hd
      obtain ⟨hprot, hused, hbase, hdef, n, hn, hreplay⟩ := ih hd' hrest hsucc
      rw [hstate] at hprot hused hbase hdef
      have hle := usedSz_add_le_endOf (s := s) q.1 q.2.1
      dsimp only at hprot hused
      refine ⟨hgrown.trans hprot, by omega, hbase, hdef, max (s.endOf q.1 q.2.1) n,
        max_le (hend.trans hprot) hn, fun u hu qs' hqs' => ?_⟩
      obtain ⟨q', qs', rfl, hq', hqs'⟩ := List.map_eq_cons_iff.1 hqs'
      obtain ⟨hsize, halign'⟩ := Prod.mk.inj hq'
      have hagain := hu.alloc hd ha hwrap.fits (le_max_left _ _) q'.2.2
      have hready : Ready out.state { u with usedSz := s.endOf q.1 q.2.1 } n := by
        rw [hstate]
        exact ⟨hu.base_eq, hu.default_eq, rfl, (le_max_right _ _).trans hu.le⟩
      obtain ⟨outs', t', hrest', hrets, hcalls⟩ := hreplay _ hready qs' hqs'
      refine ⟨⟨some (Word.add w s.base (s.usedSz + s.pad q.2.1)), none, { u with usedSz := s.endOf q.1 q.2.1 }⟩ :: outs',
        t', ?_, ?_, List.forall_mem_cons.2 ⟨rfl, hcalls⟩⟩
      · rw [allocAll, hsize, halign', bind_of_ok hagain, bind_of_ok hrest']
        rfl
      · rw [List.map_cons, List.map_cons, hrets, haddr]

/-! ### In between -/

/-- The condition on a call in between. -/
def FitsBetween (w : ℕ) (s : Virtual) : Request Bool → Prop
  | .alloc size align ok => SumsFit w s size align ok
  | _ => True

/-- Blocks that `s` has handed out stay accessible: the first `n` bytes. -/
structure Keeps (w : ℕ) (s : Virtual) (n : ℕ) (t : Virtual) : Prop where
  /-- The default alignment is one. -/
  default : DefaultOk w t.defaultAlign
  /-- The reservation is where it was. -/
  base_eq : t.base = s.base
  /-- The default alignment is what it was. -/
  default_eq : t.defaultAlign = s.defaultAlign
  /-- What was accessible still is. -/
  le : n ≤ t.protectSz

theorem between_sound (w : ℕ) (s₀ : Virtual) (n : ℕ) :
    Sound w (iface w) (FitsBetween w) (Keeps w s₀ n) fun _ _ _ => True := by
  constructor
  · intro s s' size align ok p hs _ ha hC hcall
    obtain ⟨out, hout, hret, rfl⟩ := iface_alloc hcall
    obtain ⟨out', hout', hcases⟩ := alloc_of_sumsFit hs.default ha hC
    obtain rfl : out' = out := Except.ok.inj (hout'.symm.trans hout)
    rcases hcases with ⟨hnull, -⟩ | ⟨protectSz, -, hstate, -, hgrown, -⟩
    · rw [hnull] at hret
      cases hret
    · rw [hstate]
      exact ⟨⟨hs.default, hs.base_eq, hs.default_eq, hs.le.trans hgrown⟩, usedSz_add_le_endOf size align, trivial,
        fun _ _ _ _ => trivial⟩
  · exact fun _ _ _ _ hcall => iface_alloc_null hcall
  · intro s s' m ok hs _ hm hcall
    obtain ⟨-, rfl⟩ := iface_restore hcall
    exact ⟨⟨hs.default, hs.base_eq, hs.default_eq, hs.le⟩, rfl, fun _ _ _ _ => trivial⟩

/-- **Replay after restore.** From any state `s` reached by calls, let requests all succeed without a
sum that wraps. Then a client that holds the mark saved at `s` goes on, with calls whose sums fit, and
goes back to that mark. This succeeds; and the same requests are met again at the same addresses,
without a call of `mprotect`, whatever it would answer. -/
theorem replay_after_restore {ps reserveSz defaultAlign growSz : ℕ} {map : Option ℕ} (hd : defaultAlign < 2 ^ w)
    (hinit : copAllocVirtualInit w ps reserveSz defaultAlign growSz map = .ok (some s₀)) {rs : List (Request Bool)}
    (hrun : steps ((iface w).step w) rs s₀ = some s) {qs : List (ℕ × ℕ × Bool)} {outs : List Outcome}
    (hpass : allocAll w qs s = .ok (outs, t)) (hsucc : Succeed w qs s) {us : List (Use Bool)} {c : Client Virtual}
    (hC : Meets (Client.step w (iface w)) (Client.Calls (FitsBetween w)) us ⟨t, [.mark (aallocSave s)]⟩)
    (hbetween : steps (Client.step w (iface w)) us ⟨t, [.mark (aallocSave s)]⟩ = some c)
    {i : ℕ} {held : List (Held Block)} (hmark : dropTo c.held i = some (aallocSave s, held)) :
    ∃ u, aallocRestore c.state (aallocSave s) = .ok u ∧ ∀ qs', sizesOf qs' = sizesOf qs →
      ∃ outs' t', allocAll w qs' u = .ok (outs', t') ∧ outs'.map Outcome.ret = outs.map Outcome.ret ∧
        ∀ out ∈ outs', out.call = none := by
  have hs : Reserved w s₀ s := reserved_run hd hinit hrun
  obtain ⟨-, hused, hbase, hdefault, n, hn, hreplay⟩ := pass_replay hs.default hpass hsucc
  have hkeeps : Keeps w s n t := by
    refine ⟨?_, hbase, hdefault, hn⟩
    rw [hdefault]
    exact hs.default
  have hstart : Holding (iface w) (Keeps w s n) (fun _ _ _ => True) ⟨t, [.mark (aallocSave s)]⟩ :=
    ⟨hkeeps, ⟨hused, trivial⟩, fun _ _ => trivial⟩
  have hc : Holding (iface w) (Keeps w s n) (fun _ _ _ => True) c :=
    steps_inv_of_meets (fun c u d hc hCu hd => (between_sound w s n).step hc hCu hd) hstart hC hbetween
  have hle : aallocSave s ≤ c.state.usedSz := (hc.stacked.dropTo hmark).1
  refine ⟨{ c.state with usedSz := aallocSave s }, ?_, hreplay _ ⟨hc.inv.base_eq, hc.inv.default_eq, rfl, hc.inv.le⟩⟩
  rw [aallocRestore, bind_of_ok (check_pos hle)]
  rfl

/-- The reservation of 64 KiB, with two blocks handed out. -/
def sampleTwo : Virtual := { sampleReservation with protectSz := 8192, usedSz := 5128 }

/-- What a client does in between, with a mark of its own. -/
def sampleBetween : List (Use Bool) := [.save, .alloc 9000 0 true, .restore 0 true]

theorem replay_after_restore_sample :
    ∃ c u, steps (Client.step 64 (iface 64)) sampleBetween ⟨sampleTwo, [.mark 0]⟩ = some c ∧
      aallocRestore c.state 0 = .ok u ∧
      ∃ outs' t', allocAll 64 [(100, 16, false), (5000, 64, false)] u = .ok (outs', t') ∧
        outs'.map Outcome.ret = [some 1048576, some 1048704] ∧ ∀ out ∈ outs', out.call = none := by
  have hpass : allocAll 64 [(100, 16, true), (5000, 64, true)] sampleReservation =
      .ok ([⟨some 1048576, some (1048576, 4096), sampleUsed⟩, ⟨some 1048704, some (1048576, 8192), sampleTwo⟩], sampleTwo) := by
    decide
  have hfirst : aallocAlignAlloc 64 sampleReservation 100 16 true =
      .ok ⟨some 1048576, some (1048576, 4096), sampleUsed⟩ := by decide
  have hsecond : aallocAlignAlloc 64 sampleUsed 5000 64 true = .ok ⟨some 1048704, some (1048576, 8192), sampleTwo⟩ := by
    decide
  have hsucc : Succeed 64 [(100, 16, true), (5000, 64, true)] sampleReservation := by
    refine ⟨by decide, by decide, ⟨by decide, by decide, by decide⟩, fun out hout => ?_⟩
    obtain rfl := Except.ok.inj (hfirst.symm.trans hout)
    refine ⟨by decide, by decide, by decide, ⟨by decide, by decide, by decide⟩, fun out hout => ?_⟩
    obtain rfl := Except.ok.inj (hsecond.symm.trans hout)
    exact ⟨by decide, trivial⟩
  have hrun : steps ((iface 64).step 64) [] sampleReservation = some sampleReservation := rfl
  have hbetween : steps (Client.step 64 (iface 64)) sampleBetween ⟨sampleTwo, [.mark 0]⟩ =
      some ⟨{ sampleTwo with protectSz := 16384 }, [.mark 5128, .mark 0]⟩ := rfl
  have hmark : dropTo [.mark 5128, .mark 0] 1 = some (0, ([.mark 0] : List (Held Block))) := rfl
  have hC : Meets (Client.step 64 (iface 64)) (Client.Calls (FitsBetween 64)) sampleBetween ⟨sampleTwo, [.mark 0]⟩ :=
    ⟨trivial, show SumsFit 64 sampleTwo 9000 0 true by decide, trivial, trivial⟩
  obtain ⟨u, hu, hagain⟩ :=
    replay_after_restore (by decide) init_sampleReservation hrun hpass hsucc hC hbetween hmark
  exact ⟨_, u, hbetween, hu, hagain _ rfl⟩

/-- Between the two passes, `mprotect` is asked for nothing and grants it. Then nothing is accessible,
and the block that was there before is refused. -/
theorem replay_fails :
    copAllocVirtualInit 64 4096 65536 16 0 (some 1048576) = .ok (some sampleReservation) ∧
      (∃ out, allocAll 64 [(100, 16, true)] sampleReservation = .ok ([out], sampleUsed) ∧ out.ret = some 1048576) ∧
      ∃ c u, steps (Client.step 64 (iface 64)) [.alloc (2 ^ 64 - 1000) 16 true] ⟨sampleUsed, [.mark 0]⟩ = some c ∧
        (∃ held, dropTo c.held 0 = some (0, held)) ∧ aallocRestore c.state 0 = .ok u ∧
        ∃ out, allocAll 64 [(100, 16, false)] u = .ok ([out], u) ∧ out.ret = none ∧ out.call = some (1048576, 4096) := by
  have hwrapped : aallocAlignAlloc 64 sampleUsed (2 ^ 64 - 1000) 16 true =
      .ok ⟨some 1048688, some (1048576, 0), { sampleUsed with protectSz := 0, usedSz := 2 ^ 64 - 888 }⟩ := by decide
  have hstep : steps (Client.step 64 (iface 64)) [.alloc (2 ^ 64 - 1000) 16 true] ⟨sampleUsed, [.mark 0]⟩ =
      some ⟨{ sampleUsed with protectSz := 0, usedSz := 2 ^ 64 - 888 },
        [.block ⟨1048688, 2 ^ 64 - 1000, 16⟩ (2 ^ 64 - 888), .mark 0]⟩ := by
    have hwf : 2 ^ 64 - 1000 < 2 ^ 64 ∧ AlignOk 64 16 := by decide
    simp only [steps, Client.step, if_pos hwf, iface, hwrapped]
    rfl
  refine ⟨rfl, ⟨⟨some 1048576, some (1048576, 4096), sampleUsed⟩, by decide, rfl⟩, _,
    { sampleReservation with protectSz := 0 }, hstep, ⟨_, rfl⟩, by decide, ⟨none, some (1048576, 4096),
    { sampleReservation with protectSz := 0 }⟩, by decide, rfl, rfl⟩

end Cop.Alloc.Virtual
