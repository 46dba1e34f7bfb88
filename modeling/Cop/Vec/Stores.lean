import Cop.Vec.Lanewise

/-!
# Programs of loads and stores

A program loads vectors, goes on as what it has loaded decides, and stores vectors. On all back-ends
of equal width it has the same effect on memory, after every store, as long as no step stores
element 0 by NEON's `v4f_ste0`, which writes the elements behind it too: the exception is where these
elements hold the other lanes already.

## What is proved

* `ste0_writes_iff` — when `ste0` writes element 0 and nothing else.
* `Prog.trace_wide_iff` — when the wide `ste0` makes no difference to a program.
* `stores_exact_iff` — what each store writes on each back-end, and when programs agree.
-/

namespace Cop.Vec

open Theory

variable {W : ℕ} {α : Type}

/-! ### Programs -/

/-- A load. -/
inductive Load (W : ℕ) (α : Type) where
  /-- `ld`. -/
  | ld (ptr : ℕ)
  /-- `lde0`. -/
  | lde0 (a : Lanes W α) (ptr : ℕ)
  /-- `LD2`. -/
  | ld2 (src : ℕ)
  /-- `LD2DINT`. -/
  | ld2dint (src : ℕ)
  /-- `LD2X2DINT`. -/
  | ld2x2dint (src0 src1 : ℕ)

/-- A store. -/
inductive Store (W : ℕ) (α : Type) where
  /-- `st`. -/
  | st (ptr : ℕ) (val : Lanes W α)
  /-- `ste0`. -/
  | ste0 (ptr : ℕ) (val : Lanes W α)
  /-- `ST2`. -/
  | st2 (dest : ℕ) (r0 r1 : Lanes W α)
  /-- `ST2INT`. -/
  | st2int (dest : ℕ) (r0 r1 : Lanes W α)
  /-- `ST2X2INT`. -/
  | st2x2int (dest0 dest1 : ℕ) (r00 r01 r10 r11 : Lanes W α)

/-- A program: what follows a load depends on the vectors that it gives. -/
inductive Prog (W : ℕ) (α : Type) where
  /-- Nothing more. -/
  | done
  /-- A load, and what follows. -/
  | load (l : Load W α) (next : List (Lanes W α) → Prog W α)
  /-- A store, and what follows. -/
  | store (s : Store W α) (next : Prog W α)

/-- The vectors that a load gives. -/
def Load.run (B : Ops W α) (m : Mem α) : Load W α → List (Lanes W α)
  | .ld ptr => [B.ld m ptr]
  | .lde0 a ptr => [B.lde0 a m ptr]
  | .ld2 src =>
    let (r0, r1) := B.ld2 m src
    [r0, r1]
  | .ld2dint src =>
    let (r0, r1) := B.ld2dint m src
    [r0, r1]
  | .ld2x2dint src0 src1 =>
    let (r00, r01, r10, r11) := B.ld2x2dint m src0 src1
    [r00, r01, r10, r11]

/-- The memory after a store. -/
def Store.run (B : Ops W α) (m : Mem α) : Store W α → Mem α
  | .st ptr val => B.st m ptr val
  | .ste0 ptr val => B.ste0 m ptr val
  | .st2 dest r0 r1 => B.st2 m dest r0 r1
  | .st2int dest r0 r1 => B.st2int m dest r0 r1
  | .st2x2int dest0 dest1 r00 r01 r10 r11 => B.st2x2int m dest0 dest1 r00 r01 r10 r11

namespace Prog

/-- The memory after a program. -/
def run (B : Ops W α) : Prog W α → Mem α → Mem α
  | done, m => m
  | load l next, m => (next (l.run B m)).run B m
  | store s next, m => next.run B (s.run B m)

/-- The memories of a run: the first one, and one after each store. -/
def trace (B : Ops W α) : Prog W α → Mem α → List (Mem α)
  | done, m => [m]
  | load l next, m => (next (l.run B m)).trace B m
  | store s next, m => m :: next.trace B (s.run B m)

end Prog

/-- Behind `ptr`, memory holds the lanes of `val` from the second on. -/
def Held (m : Mem α) (ptr : ℕ) (val : Lanes W α) : Prop := ∀ i : Fin W, i.val ≠ 0 → m (ptr + i) = val i

/-- A store that is no `ste0`, or one whose other lanes are held. -/
def Store.Held (m : Mem α) : Store W α → Prop
  | .ste0 ptr val => Vec.Held m ptr val
  | _ => True

/-- So is every store on the way of a program. -/
def Prog.Held : Prog W α → Mem α → Prop
  | done, _ => True
  | load l next, m => (next (l.run (plain W α) m)).Held m
  | store s next, m => s.Held m ∧ next.Held (s.run (plain W α) m)

/-! ### The wide store -/

variable {m : Mem α}

/-- Storing all lanes is storing element 0 where the others are held. -/
theorem wide_ste0_iff (ptr : ℕ) (val : Lanes W α) :
    (wide W α).ste0 m ptr val = (plain W α).ste0 m ptr val ↔ Held m ptr val := by
  refine put_eq_put_take.trans ⟨fun h i hi => ?_, fun h i hi hpos => ?_⟩
  · rw [h i (by rw [List.length_ofFn]; exact i.isLt) (Nat.one_le_iff_ne_zero.2 hi), List.getElem_ofFn]
  · rw [List.getElem_ofFn]
    exact h ⟨i, by rwa [List.length_ofFn] at hi⟩ (Nat.one_le_iff_ne_zero.1 hpos)

/-- **Element 0 and nothing else** is written, but for NEON. -/
theorem ste0_writes_iff [Zero α] (B : Impl W) (ptr : ℕ) (val : Lanes W α) :
    Writes m (B.ops.ste0 m ptr val) ptr ((List.ofFn val).take 1) ↔ (B.WideSte0 → Held m ptr val) := by
  by_cases hB : B.WideSte0
  · rw [B.ops_eq.2 hB, writes_iff, ← wide_ste0_iff]
    exact ⟨fun h _ => h, fun h => h hB⟩
  · rw [B.ops_eq.1 hB, writes_iff]
    exact iff_of_true rfl fun h => absurd h hB

theorem Load.run_wide (l : Load W α) : l.run (wide W α) m = l.run (plain W α) m := by
  cases l <;> rfl

theorem Store.run_wide_iff (s : Store W α) : s.run (wide W α) m = s.run (plain W α) m ↔ s.Held m := by
  cases s with
  | ste0 ptr val => exact wide_ste0_iff ptr val
  | st ptr val => exact iff_of_true rfl trivial
  | st2 dest r0 r1 => exact iff_of_true rfl trivial
  | st2int dest r0 r1 => exact iff_of_true rfl trivial
  | st2x2int dest0 dest1 r00 r01 r10 r11 => exact iff_of_true rfl trivial

namespace Prog

theorem head?_trace (B : Ops W α) (p : Prog W α) (m : Mem α) : (p.trace B m).head? = some m := by
  induction p generalizing m with
  | done => rfl
  | load l next ih => exact ih _ m
  | store s next ih => rfl

theorem getLast?_trace (B : Ops W α) (p : Prog W α) (m : Mem α) : (p.trace B m).getLast? = some (p.run B m) := by
  induction p generalizing m with
  | done => rfl
  | load l next ih => exact ih _ m
  | store s next ih =>
    rw [trace, List.getLast?_cons, ih]
    rfl

/-- **The wide `ste0` makes no difference** exactly where the other lanes are held at each. -/
theorem trace_wide_iff (p : Prog W α) (m : Mem α) : p.trace (wide W α) m = p.trace (plain W α) m ↔ p.Held m := by
  induction p generalizing m with
  | done => exact iff_of_true rfl trivial
  | load l next ih =>
    rw [trace, trace, l.run_wide]
    exact ih _ m
  | store s next ih =>
    rw [trace, trace, List.cons_inj_right]
    constructor
    · intro h
      -- the next memories are the same, so the store made no difference
      have hs : s.run (wide W α) m = s.run (plain W α) m := by
        have hhead := congrArg List.head? h
        rw [head?_trace, head?_trace] at hhead
        exact Option.some_inj.1 hhead
      rw [hs] at h
      exact ⟨s.run_wide_iff.1 hs, (ih _).1 h⟩
    · rintro ⟨hs, hnext⟩
      rw [s.run_wide_iff.2 hs]
      exact (ih _).2 hnext

/-- Two back-ends agree on a program exactly where the wide `ste0` makes no difference, or both have
it, or neither. -/
theorem trace_eq_iff [Zero α] (B B' : Impl W) (p : Prog W α) (m : Mem α) :
    p.trace B.ops m = p.trace B'.ops m ↔ (B.WideSte0 ↔ B'.WideSte0) ∨ p.Held m := by
  by_cases hB : B.WideSte0
  · by_cases hB' : B'.WideSte0
    · rw [B.ops_eq.2 hB, B'.ops_eq.2 hB']
      exact iff_of_true rfl (Or.inl (iff_of_true hB hB'))
    · rw [B.ops_eq.2 hB, B'.ops_eq.1 hB', trace_wide_iff]
      exact ⟨Or.inr, fun h => h.resolve_left fun hiff => hB' (hiff.1 hB)⟩
  · by_cases hB' : B'.WideSte0
    · rw [B.ops_eq.1 hB, B'.ops_eq.2 hB', eq_comm, trace_wide_iff]
      exact ⟨Or.inr, fun h => h.resolve_left fun hiff => hB (hiff.2 hB')⟩
    · rw [B.ops_eq.1 hB, B'.ops_eq.1 hB']
      exact iff_of_true rfl (Or.inl (iff_of_false hB hB'))

end Prog

/-! ### All stores -/

/-- **Stores touch only their own elements**, on every back-end: `st` writes its lanes, `ST2` and
`ST2INT` twice as many elements, `ST2X2INT` as many at each of its destinations, and every other
element keeps its value. `ste0` writes element 0 only, unless the back-end is the one for NEON and
the elements behind do not hold the other lanes. A program has the same effect on two back-ends of
equal width, after each of its stores, exactly when both are the one for NEON, or neither is, or
each `ste0` on the way finds the other lanes in place; and then it has the same effect as a whole. -/
theorem stores_exact_iff [Zero α] (B : Impl W) :
    (∀ (m : Mem α) ptr val, Writes m (B.ops.st m ptr val) ptr (List.ofFn val)) ∧
      (∀ (m : Mem α) ptr val,
        Writes m (B.ops.ste0 m ptr val) ptr ((List.ofFn val).take 1) ↔ (B.WideSte0 → Held m ptr val)) ∧
      (∀ (m : Mem α) dest r0 r1, Writes m (B.ops.st2 m dest r0 r1) dest (List.ofFn r0 ++ List.ofFn r1)) ∧
      (∀ (m : Mem α) dest r0 r1, Writes m (B.ops.st2int m dest r0 r1) dest (List.ofFn (alternateLanes r0 r1))) ∧
      (∀ (m : Mem α) dest0 dest1 r00 r01 r10 r11, ∃ m', Writes m m' dest0 (List.ofFn (alternateLanes r00 r01)) ∧
        Writes m' (B.ops.st2x2int m dest0 dest1 r00 r01 r10 r11) dest1 (List.ofFn (alternateLanes r10 r11))) ∧
      ∀ (B' : Impl W) (p : Prog W α) (m : Mem α),
        (p.trace B.ops m = p.trace B'.ops m ↔ (B.WideSte0 ↔ B'.WideSte0) ∨ p.Held m) ∧
        ((B.WideSte0 ↔ B'.WideSte0) ∨ p.Held m → p.run B.ops m = p.run B'.ops m) := by
  obtain ⟨f, hf⟩ := B.exists_ste0 (α := α)
  refine ⟨fun m ptr val => ?_, fun m ptr val => ste0_writes_iff B ptr val, fun m dest r0 r1 => ?_,
    fun m dest r0 r1 => ?_, fun m dest0 dest1 r00 r01 r10 r11 => ?_, fun B' p m => ⟨p.trace_eq_iff B B' m, fun h => ?_⟩⟩
  · rw [hf, writes_iff]
    rfl
  · rw [hf, writes_iff]
    rfl
  · rw [hf, writes_iff]
    rfl
  · exact ⟨_, writes_iff.2 rfl, by rw [hf]; exact writes_iff.2 rfl⟩
  · have hlast := congrArg List.getLast? ((p.trace_eq_iff B B' m).2 h)
    rw [p.getLast?_trace, p.getLast?_trace] at hlast
    exact Option.some_inj.1 hlast

/-- The store of element 0 on NEON writes place 1, and a program that makes it is told apart from
the same on SSE. -/
theorem neon_ste0_overwrites :
    ¬ Writes (fun _ => 0 : Mem ℕ) (Impl.neonV4f.ops.ste0 (fun _ => 0) 0 ![1, 2, 3, 4]) 0
        ((List.ofFn (![1, 2, 3, 4] : Lanes 4 ℕ)).take 1) ∧
      (Prog.store (.ste0 0 ![1, 2, 3, 4]) .done : Prog 4 ℕ).run Impl.neonV4f.ops (fun _ => 0) ≠
        (Prog.store (.ste0 0 ![1, 2, 3, 4]) .done : Prog 4 ℕ).run Impl.sseV4f.ops (fun _ => 0) := by
  refine ⟨fun h => ?_, fun h => ?_⟩
  · have hkept := h.2 1 (by rw [mem_extent]; decide)
    revert hkept
    decide
  · have hplace := congrFun h 1
    revert hplace
    decide

end Cop.Vec
