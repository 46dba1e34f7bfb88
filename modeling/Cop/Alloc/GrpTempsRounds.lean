import Cop.Alloc.GrpTempsHeap

/-!
# Rounds of the group-temporaries allocator

The allocator is meant for things that are "allocated then freed repeatedly": rounds of
requests, each of which ends with going back to one mark. The loop of `restore` stops at a
buffer that holds exactly what is still to be deallocated, so a buffer that was begun at the
mark is emptied, and kept. A request of the next round that does not fit in it takes another
buffer, which is kept in the same way when that round ends.

## What is proved

* `step_prev` — what a call does to the buffers behind the newest one.
* `bounded_rounds` — as long as no request piles a buffer on one that was left, the buffers are
  one more at most than they were at the mark, after any number of rounds.
* `piled_rounds` — once a request has done so, they are more than that after every round, unless
  the mark is zero.
* `rounds_bounded` — both, from every state that is reached.
* `buffers_pile_up` — two rounds after which there are three buffers instead of one.
-/

namespace Cop.Alloc.GrpTemps

open Theory

variable {w : ℕ} {s t : GrpTemps} {m k : ℕ}

/-- The calls of a round: requests, and then going back to the mark `m`. -/
def round (m : ℕ) (r : List (Request (Option ℕ)) × Option ℕ) : List (Request (Option ℕ)) := r.1 ++ [.restore m r.2]

/-- The calls of rounds. -/
def rounds (m : ℕ) (rs : List (List (Request (Option ℕ)) × Option ℕ)) : List (Request (Option ℕ)) := rs.flatMap (round m)

/-- A request piles a buffer on one that was left: it takes a new buffer while no more than the
mark `m` is handed out, and there are more than `n` buffers already. -/
def Piles (w m n : ℕ) (s : GrpTemps) : Request (Option ℕ) → Prop
  | .alloc size align env => s.Grows w size align ∧ env ≠ none ∧ sizes s.chain ≤ m ∧ n < s.chain.length
  | _ => False

/-- The sum of the sizes has not wrapped when a mark is gone back to. -/
def SumFits (w : ℕ) (s : GrpTemps) : Request (Option ℕ) → Prop
  | .restore _ _ => sizes s.chain < 2 ^ w
  | _ => True

/-- No mark below `m` is gone back to. -/
def StaysAbove (m : ℕ) (_ : GrpTemps) : Request (Option ℕ) → Prop
  | .restore m' _ => m ≤ m'
  | _ => True

theorem sizes_le_of_suffix {bs cs : List Buf} (h : bs <:+ cs) : sizes bs ≤ sizes cs := by
  obtain ⟨ds, rfl⟩ := h
  rw [sizes_append]
  exact Nat.le_add_left _ _

/-! ### One call -/

theorem step_prev (h : Linked w s) {r : Request (Option ℕ)} (hstep : (iface w).step w s r = some t) :
    t.prev = s.prev ∨
      (∃ size align env, r = .alloc size align env ∧ s.Grows w size align ∧ env ≠ none ∧ t.prev = s.chain) ∨
      ∃ m env newer buf older, r = .restore m env ∧ s.chain = newer ++ buf :: older ∧
        StopsAt newer buf (s.copAllocGrpTempsSave w - m) ∧ t.copAllocGrpTempsSave w = m ∧
        (t.prev = older ∧ t.head.size ≤ buf.size ∨ m = 0 ∧ t.prev = [] ∧ t.head.size = 0) := by
  cases r with
  | alloc size align env =>
    obtain ⟨-, -, p, hcall⟩ := Salloc.step_alloc hstep
    rcases allocGrpTemps_ok hcall with ⟨-, -, rfl⟩ | ⟨hgrow, ⟨-, -, rfl⟩ | ⟨a, rfl, -, -, rfl⟩⟩
    · exact .inl rfl
    · exact .inl rfl
    · exact .inr (.inl ⟨size, align, some a, rfl, hgrow, Option.some_ne_none a, rfl⟩)
  | save =>
    cases hstep
    exact .inl rfl
  | restore m env =>
    obtain ⟨-, hcall⟩ := Salloc.step_restore hstep
    obtain ⟨newer, buf, older, hsplit, -, hstop, hsave, hcases⟩ := restore_ok h hcall
    refine .inr (.inr ⟨m, env, newer, buf, older, rfl, hsplit, hstop, hsave, ?_⟩)
    rcases hcases with ⟨rfl, -⟩ | ⟨hex, a, -, -, rfl⟩
    · exact .inl ⟨rfl, Nat.sub_le _ _⟩
    · right
      refine ⟨?_, rfl, rfl⟩
      rw [← hsave, copAllocGrpTempsSave]
      change Word.add w (stopped w s newer buf older (s.copAllocGrpTempsSave w - m)).preHeadSize 0 = 0
      rw [hex.1]
      exact Word.add_of_lt (Nat.two_pow_pos w)

/-- Where no more than `k` buffers are kept, or the `k` oldest are behind the newest one and hold
more than the mark. -/
def Heavy (m k : ℕ) (s : GrpTemps) : Prop :=
  s.chain.length ≤ k ∨ ∃ base, base <:+ s.prev ∧ base.length = k ∧ m < sizes base

/-- The `k` oldest buffers are behind the newest one, and hold no more than the mark. -/
def Light (m k : ℕ) (s : GrpTemps) : Prop := ∃ base, base <:+ s.prev ∧ base.length = k ∧ sizes base ≤ m

/-- A call that piles nothing keeps the oldest buffers heavy. -/
theorem Heavy.step (hs : Heavy m k s) (hk : 0 < k) (h : Linked w s) {n : ℕ} (hn : k = n + 1) {r : Request (Option ℕ)}
    (hpiles : ¬ Piles w m n s r) (hstep : (iface w).step w s r = some t) : Heavy m k t := by
  unfold Heavy at hs ⊢
  rw [chain, List.length_cons] at hs ⊢
  rcases step_prev h hstep with hprev | ⟨size, align, env, rfl, hgrow, henv, hprev⟩ |
    ⟨m', env, newer, buf, older, rfl, hsplit, -, -, ⟨hprev, -⟩ | ⟨-, hprev, -⟩⟩
  · rw [hprev]
    exact hs
  · -- a new buffer
    rw [hprev]
    rcases hs with hle | ⟨base, hbase, hlen, hlt⟩
    · rcases Nat.lt_or_eq_of_le hle with hlt | heq
      · exact .inl hlt
      · -- the buffers there were are the oldest ones now
        refine .inr ⟨s.chain, List.suffix_rfl, heq, ?_⟩
        by_contra hle
        exact hpiles ⟨hgrow, henv, Nat.le_of_not_lt hle, by rw [chain, List.length_cons]; omega⟩
    · exact .inr ⟨base, hbase.trans (List.suffix_cons _ _), hlen, hlt⟩
  · rw [hprev]
    by_cases hle : older.length + 1 ≤ k
    · exact .inl hle
    · -- what is left has the oldest buffers behind it
      have hlength := congrArg List.length hsplit
      rw [chain, List.length_cons, List.length_append, List.length_cons] at hlength
      rcases hs with hle' | ⟨base, hbase, hlen, hlt⟩
      · omega
      · have holder : older <:+ s.chain := ⟨newer ++ [buf], by simp [hsplit]⟩
        exact .inr ⟨base, List.suffix_of_suffix_length_le (hbase.trans (List.suffix_cons _ _)) holder (by omega), hlen, hlt⟩
  · rw [hprev]
    exact .inl hk

/-- A call that does not go back below the mark keeps the oldest buffers light. -/
theorem Light.step (hs : Light m k s) (hm : 0 < m) (h : Linked w s) {r : Request (Option ℕ)} (hfits : SumFits w s r)
    (habove : StaysAbove m s r) (hstep : (iface w).step w s r = some t) : Light m k t := by
  obtain ⟨base, hbase, hlen, hle⟩ := hs
  rcases step_prev h hstep with hprev | ⟨size, align, env, rfl, -, -, hprev⟩ |
    ⟨m', env, newer, buf, older, rfl, hsplit, hstop, -, ⟨hprev, -⟩ | ⟨rfl, -, -⟩⟩
  · exact ⟨base, by rwa [hprev], hlen, hle⟩
  · exact ⟨base, by rw [hprev]; exact hbase.trans (List.suffix_cons _ _), hlen, hle⟩
  · have hfits : sizes s.chain < 2 ^ w := hfits
    have habove : m ≤ m' := habove
    have hchain : base <:+ s.chain := hbase.trans (List.suffix_cons _ _)
    have holder : older <:+ s.chain := ⟨newer ++ [buf], by simp [hsplit]⟩
    have hbuf : buf :: older <:+ s.chain := ⟨newer, hsplit.symm⟩
    refine ⟨base, ?_, hlen, hle⟩
    rw [hprev]
    apply List.suffix_of_suffix_length_le hchain holder
    -- otherwise the loop has gone past a buffer although those behind it hold no more than the mark
    by_contra hshort
    have hin : buf :: older <:+ base := List.suffix_of_suffix_length_le hbuf hchain (by rw [List.length_cons]; omega)
    have hsize := sizes_le_of_suffix hin
    have hnewer : newer ≠ [] := by
      rintro rfl
      have hlength := congrArg List.length hsplit
      have hbase' := hbase.length_le
      rw [List.nil_append, chain, List.length_cons, List.length_cons] at hlength
      omega
    have hlt := hstop.lt hnewer
    have hsave := h.save_eq
    rw [Nat.mod_eq_of_lt hfits] at hsave
    rw [hsave, hsplit, sizes_append] at hlt
    omega
  · have habove : m ≤ 0 := habove
    omega

/-- A request that piles a buffer on one that was left makes the oldest buffers light. -/
theorem light_of_piles {n : ℕ} (hn : k = n + 1) {r : Request (Option ℕ)} (hpiles : Piles w m n s r)
    (hstep : (iface w).step w s r = some t) : Light m k t := by
  cases r with
  | alloc size align env =>
    obtain ⟨hgrow, henv, hle, hlen⟩ := hpiles
    obtain ⟨-, -, p, hcall⟩ := Salloc.step_alloc hstep
    rcases allocGrpTemps_ok hcall with ⟨hreuse, -, -⟩ | ⟨-, ⟨hnone, -, -⟩ | ⟨a, -, -, -, rfl⟩⟩
    · exact absurd hgrow hreuse
    · exact absurd hnone henv
    · have hsuffix : s.chain.drop (s.chain.length - k) <:+ s.chain := List.drop_suffix _ _
      refine ⟨s.chain.drop (s.chain.length - k), hsuffix, ?_, (sizes_le_of_suffix hsuffix).trans hle⟩
      rw [List.length_drop]
      omega
  | save => exact hpiles.elim
  | restore _ _ => exact hpiles.elim

/-! ### Runs -/

/-- After going back to the mark, heavy buffers are not left over it. -/
theorem Heavy.length_le (ht : Heavy m k t) (h : Linked w t) (hfits : sizes t.chain < 2 ^ w)
    (hsave : t.copAllocGrpTempsSave w = m) : t.chain.length ≤ k := by
  rw [h.save_eq, Nat.mod_eq_of_lt hfits] at hsave
  rcases ht with hle | ⟨base, hbase, -, hlt⟩
  · exact hle
  · have hle := sizes_le_of_suffix (hbase.trans (List.suffix_cons t.head t.prev))
    rw [← chain] at hle
    omega

theorem restored_sizes (h : Linked w s) {env : Option ℕ} (hstep : (iface w).step w s (.restore m env) = some t) :
    t.copAllocGrpTempsSave w = m ∧ sizes t.chain ≤ sizes s.chain := by
  obtain ⟨-, hcall⟩ := Salloc.step_restore hstep
  obtain ⟨newer, buf, older, hsplit, -, -, hsave, hcases⟩ := restore_ok h hcall
  refine ⟨hsave, ?_⟩
  rw [hsplit, sizes_append, sizes_cons]
  rcases hcases with ⟨rfl, -⟩ | ⟨-, a, -, -, rfl⟩
  · have hle : buf.size - (s.copAllocGrpTempsSave w - m - sizes newer) ≤ buf.size := Nat.sub_le _ _
    change buf.size - (s.copAllocGrpTempsSave w - m - sizes newer) + sizes older ≤ _
    omega
  · exact Nat.zero_le _

/-- **Rounds that pile nothing** leave one buffer more at most. -/
theorem bounded_rounds (h : Linked w s) {rs : List (List (Request (Option ℕ)) × Option ℕ)}
    (hfits : Meets ((iface w).step w) (SumFits w) (rounds m rs) s)
    (hpiles : Meets ((iface w).step w) (fun u r => ¬ Piles w m s.chain.length u r) (rounds m rs) s)
    (hrun : steps ((iface w).step w) (rounds m rs) s = some t) : t.chain.length ≤ s.chain.length + 1 := by
  rcases List.eq_nil_or_concat rs with rfl | ⟨rs, r, rfl⟩
  · cases hrun
    exact Nat.le_succ _
  · -- the last round ends with going back to the mark
    have hsplit : rounds m (rs ++ [r]) = (rounds m rs ++ r.1) ++ [.restore m r.2] := by simp [rounds, round]
    rw [List.concat_eq_append, hsplit] at hfits hpiles hrun
    obtain ⟨u, hu, hlast⟩ := steps_append.1 hrun
    obtain ⟨v, hv, hnil⟩ := steps_cons.1 hlast
    cases hnil
    obtain ⟨hfirst, hpiles⟩ := meets_append.1 hpiles
    have hinv : Heavy m (s.chain.length + 1) u ∧ Linked w u := by
      refine steps_inv_of_meets (I := fun u => Heavy m (s.chain.length + 1) u ∧ Linked w u) ?_
        ⟨.inl (Nat.le_succ _), h⟩ hfirst hu
      intro u r v hu hC hstep
      exact ⟨hu.1.step (Nat.succ_pos _) hu.2 rfl hC hstep, linked_step hu.2 hstep⟩
    obtain ⟨hheavy, hlinked⟩ := hinv
    have hfit : sizes u.chain < 2 ^ w := (meets_cons.1 ((meets_append.1 hfits).2 u hu)).1
    obtain ⟨hsave, hle⟩ := restored_sizes hlinked hv
    have hheavy' := hheavy.step (Nat.succ_pos _) hlinked rfl (meets_cons.1 (hpiles u hu)).1 hv
    exact hheavy'.length_le (linked_step hlinked hv) (hle.trans_lt hfit) hsave

/-- **Once a buffer is piled** on one that was left, there are too many, if the mark is not zero. -/
theorem piled_rounds (hm : 0 < m) (h : Linked w s) {n : ℕ} {rs : List (Request (Option ℕ))}
    (hfits : Meets ((iface w).step w) (SumFits w) rs s) (habove : Meets ((iface w).step w) (StaysAbove m) rs s)
    (hrun : steps ((iface w).step w) rs s = some t) (hle : t.chain.length ≤ n + 1) :
    Meets ((iface w).step w) (fun u r => ¬ Piles w m n u r) rs s := by
  induction rs generalizing s with
  | nil => trivial
  | cons r rs ih =>
    obtain ⟨u, hu, hrest⟩ := steps_cons.1 hrun
    obtain ⟨-, hfits⟩ := meets_cons.1 hfits
    obtain ⟨-, habove⟩ := meets_cons.1 habove
    refine meets_cons.2 ⟨fun hpiles => ?_, fun v hv => ?_⟩
    · -- the buffers stay light to the end
      have hlight : Light m (n + 1) t := by
        refine (steps_inv_of_meets (I := fun u => Light m (n + 1) u ∧ Linked w u)
          (C := fun u r => SumFits w u r ∧ StaysAbove m u r) ?_ ⟨light_of_piles rfl hpiles hu, linked_step h hu⟩
          ?_ hrest).1
        · intro u r v hu hC hstep
          exact ⟨hu.1.step hm hu.2 hC.1 hC.2 hstep, linked_step hu.2 hstep⟩
        · exact meets_and.2 ⟨hfits u hu, habove u hu⟩
      obtain ⟨base, hbase, hlen, -⟩ := hlight
      have := hbase.length_le
      rw [chain, List.length_cons] at hle
      omega
    · obtain rfl := Option.some.inj (hu.symm.trans hv)
      exact ih (linked_step h hu) (hfits u hu) (habove u hu) hrest

/-- **Rounds that start at one mark.** From every state that is reached, with the mark that `save`
returns there, after any number of rounds in which no sum of sizes wraps: if no request has piled a
buffer on one that was left, the buffers are one more at most than they were. If the mark is not
zero, and no round goes back below it, the same is true only then. -/
theorem rounds_bounded {ps initialSz maxGrow defaultAlign : ℕ} {env : Option ℕ} {s₀ : GrpTemps}
    (hinit : copAllocGrpTempsInit w ps initialSz maxGrow defaultAlign env = .ok (some s₀))
    {rs₀ : List (Request (Option ℕ))} (hreach : steps ((iface w).step w) rs₀ s₀ = some s)
    {rs : List (List (Request (Option ℕ)) × Option ℕ)}
    (hfits : Meets ((iface w).step w) (SumFits w) (rounds (s.copAllocGrpTempsSave w) rs) s)
    (hrun : steps ((iface w).step w) (rounds (s.copAllocGrpTempsSave w) rs) s = some t) :
    (Meets ((iface w).step w) (fun u r => ¬ Piles w (s.copAllocGrpTempsSave w) s.chain.length u r)
        (rounds (s.copAllocGrpTempsSave w) rs) s → t.chain.length ≤ s.chain.length + 1) ∧
      (0 < s.copAllocGrpTempsSave w →
        Meets ((iface w).step w) (StaysAbove (s.copAllocGrpTempsSave w)) (rounds (s.copAllocGrpTempsSave w) rs) s →
        t.chain.length ≤ s.chain.length + 1 →
        Meets ((iface w).step w) (fun u r => ¬ Piles w (s.copAllocGrpTempsSave w) s.chain.length u r)
          (rounds (s.copAllocGrpTempsSave w) rs) s) := by
  have h : Linked w s := steps_inv (fun s r t hs hstep => linked_step hs hstep) (linked_init hinit) hreach
  constructor
  · intro hpiles
    exact bounded_rounds h hfits hpiles hrun
  · intro hm habove hle
    exact piled_rounds hm h hfits habove hrun hle

/-- Five of the ten bytes are handed out. -/
def fiveUsed : GrpTemps := { tenBytes with head := ⟨4096, 5, 10⟩ }

theorem run_fiveUsed : steps ((iface 64).step 64) [.alloc 5 1 none] tenBytes = some fiveUsed := rfl

theorem rounds_bounded_fiveUsed :
    ∃ t, steps ((iface 64).step 64) (rounds 5 [([.alloc 100 16 (some 8192)], none), ([.alloc 50 16 none], none)])
      fiveUsed = some t ∧ t.chain.length ≤ fiveUsed.chain.length + 1 := by
  have hinit : copAllocGrpTempsInit 64 4096 10 0 0 (some 4096) = .ok (some tenBytes) := rfl
  have hfits : Meets ((iface 64).step 64) (SumFits 64)
      (rounds 5 [([.alloc 100 16 (some 8192)], none), ([.alloc 50 16 none], none)]) fiveUsed :=
    ⟨trivial, show 113 < 2 ^ 64 by decide, trivial, show 63 < 2 ^ 64 by decide, trivial⟩
  have hpiles : Meets ((iface 64).step 64) (fun u r => ¬ Piles 64 5 1 u r)
      (rounds 5 [([.alloc 100 16 (some 8192)], none), ([.alloc 50 16 none], none)]) fiveUsed :=
    ⟨fun hp => absurd hp.2.2.2 (by decide), fun hp => hp, fun hp => absurd hp.1 (by decide), fun hp => hp, trivial⟩
  exact ⟨_, rfl, (rounds_bounded hinit run_fiveUsed hfits rfl).1 hpiles⟩

/-- Two rounds with one request each, the second one larger, leave three buffers where there was one. -/
theorem buffers_pile_up :
    copAllocGrpTempsInit 64 4096 10 0 0 (some 4096) = .ok (some tenBytes) ∧
      steps ((iface 64).step 64) [.alloc 5 1 none] tenBytes = some fiveUsed ∧ fiveUsed.copAllocGrpTempsSave 64 = 5 ∧
      ∃ t, steps ((iface 64).step 64)
        (rounds 5 [([.alloc 100 16 (some 8192)], none), ([.alloc 200 16 (some 12288)], none)]) fiveUsed = some t ∧
        t.chain = [⟨12288, 0, 215⟩, ⟨8192, 0, 115⟩, ⟨4096, 5, 10⟩] ∧ ¬ t.chain.length ≤ fiveUsed.chain.length + 1 :=
  ⟨rfl, rfl, rfl, _, rfl, rfl, by decide⟩

end Cop.Alloc.GrpTemps
