import Cop.Theory.Steps
import Mathlib.Data.Int.Basic
import Mathlib.Logic.Function.Basic

/-!
# Joining a thread on Windows

`cop_thread.h`, the `_WIN32` path. A `cop_thread` is a handle and a `struct
cop_thread_arg`; `cop_thread_create` gives the new thread the address of the latter,
and the thread stores there what its entry point returns. `cop_thread_join` takes the
`cop_thread` by value, waits, and reads the result from its own copy.

## The model

A step system over any number of threads, `cop_thread` objects and calls of
`cop_thread_join`. A handle stands for the thread it was made for. The events are the
calls of `cop_thread_create`, the start of a thread, its store and its end, the calls
of `cop_thread_join`, and their return from the wait; what the platform decides is in
the event. A new thread may run before `cop_thread_create` returns, which the model
does not tell from running right after it: the two touch different fields.

## What is proved

Where no object is given to a second thread while a first has still to store to it:

* `Paired` — an object with the handle of a thread holds what that thread stored.
* `traced_run` — until the thread has stored, it holds what it held when the thread was created.
* `join_delivers_iff` — a join that returned 0 delivers what the thread returned exactly when
  the thread had stored it before the call, or the object happened to hold the same value when
  the thread was created.
-/

namespace Cop.Threading

open Theory

/-- Addresses of `cop_thread` objects. -/
abbrev Addr := ℕ

/-- Handles of threads. -/
abbrev Handle := ℕ

/-- `struct cop_thread_arg`, over pointers `V` and entry points `P`. -/
structure ThreadArg (V P : Type) where
  /-- The argument of the entry point. -/
  arg : V
  /-- What the entry point returned. -/
  ret : V
  /-- The entry point. -/
  proc : P

/-- `cop_thread`. -/
structure CopThread (V P : Type) where
  /-- The handle, if it is not null. -/
  handle : Option Handle
  /-- The part whose address the thread is given. -/
  ret : ThreadArg V P

/-- How far a thread has come in `cop_win_thread_proc`. -/
inductive Progress (V P : Type) where
  /-- It has not run yet. -/
  | created
  /-- It runs `proc(arg)`. -/
  | running (proc : P) (arg : V)
  /-- It has stored what the entry point returned. -/
  | stored (v : V)
  /-- It has ended. -/
  | ended (v : V)

/-- A thread. -/
structure Thread (V P : Type) where
  /-- The object whose `ret` part it was given the address of. -/
  param : Addr
  /-- How far it has come. -/
  progress : Progress V P

/-- What the entry point of a thread returned, once it is stored. -/
def Progress.value {V P : Type} : Progress V P → Option V
  | .stored v | .ended v => some v
  | _ => none

/-- A call of `cop_thread_join`. -/
structure Join (V P : Type) where
  /-- The parameter `thread`. -/
  thread : CopThread V P
  /-- `value != NULL`. -/
  wants : Bool
  /-- What the call returned, and what it assigned to `*value`. -/
  result : Option (ℤ × Option V)

/-- `COP_THREADERR_UNKNOWN`. -/
def copThreaderrUnknown : ℤ := 5

/-- What `WaitForSingleObject` returns. -/
inductive Wait where
  /-- `WAIT_OBJECT_0`. -/
  | object
  /-- `WAIT_FAILED`. -/
  | failed
  deriving DecidableEq

/-- The objects, the threads and the joins. -/
structure Sys (V P : Type) where
  /-- The `cop_thread` objects of the callers. -/
  objs : Addr → CopThread V P
  /-- The threads there are. -/
  threads : Handle → Option (Thread V P)
  /-- The calls of `cop_thread_join` there were. -/
  joins : ℕ → Option (Join V P)

/-- What happens. -/
inductive Event (V P : Type) where
  /-- `cop_thread_create(thread, thread_proc, argument, _, create_detached)`, where
  `CreateThread` returns `handle`. -/
  | create (thread : Addr) (threadProc : P) (argument : V) (createDetached : Bool) (handle : Option Handle)
  /-- A thread starts to run. -/
  | start (h : Handle)
  /-- Its entry point returns `v`, and it stores `v`. -/
  | store (h : Handle) (v : V)
  /-- It ends. -/
  | exit (h : Handle)
  /-- `cop_thread_join(*thread, value)` is called, for the `j`-th time. -/
  | join (j : ℕ) (thread : Addr) (wants : Bool)
  /-- That call returns from its wait. -/
  | wake (j : ℕ) (err : Wait)

variable {V P : Type}

namespace Sys

/-- What the thread `h` returned, once it is stored. -/
def value (s : Sys V P) (h : Handle) : Option V := (s.threads h).bind fun t => t.progress.value

/-- `cop_thread_create`. -/
def copThreadCreate (s : Sys V P) (thread : Addr) (threadProc : P) (argument : V) (createDetached : Bool) :
    Option Handle → ℤ × Sys V P
  | none =>
    let arg : ThreadArg V P := { (s.objs thread).ret with arg := argument, proc := threadProc }
    (copThreaderrUnknown, { s with objs := Function.update s.objs thread ⟨none, arg⟩ })
  | some h =>
    let arg : ThreadArg V P := { (s.objs thread).ret with arg := argument, proc := threadProc }
    let handle := if createDetached then none else some h
    (0, { s with
      objs := Function.update s.objs thread ⟨handle, arg⟩
      threads := Function.update s.threads h (some ⟨thread, .created⟩) })

/-- `arg->ret = v`. -/
def setRet (s : Sys V P) (o : Addr) (v : V) : Sys V P :=
  { s with objs := Function.update s.objs o { s.objs o with ret := { (s.objs o).ret with ret := v } } }

/-- The thread `h` has come as far as `p`. -/
def setProgress (s : Sys V P) (h : Handle) (t : Thread V P) (p : Progress V P) : Sys V P :=
  { s with threads := Function.update s.threads h (some { t with progress := p }) }

/-- The part of `cop_thread_join` after the wait. -/
def copThreadJoinWoken (thread : CopThread V P) (wants : Bool) : Wait → ℤ × Option V
  | .object => (0, if wants then some thread.ret.ret else none)
  | .failed => (copThreaderrUnknown, none)

/-- The call `j` of `cop_thread_join` is as `J` says. -/
def setJoin (s : Sys V P) (j : ℕ) (J : Join V P) : Sys V P := { s with joins := Function.update s.joins j (some J) }

/-- The wait for a handle may return `err`: it succeeds when the thread has ended. -/
def wakes (s : Sys V P) (handle : Option Handle) : Wait → Bool
  | .failed => true
  | .object =>
    match handle.bind s.threads with
    | some ⟨_, .ended _⟩ => true
    | _ => false

/-- A step. An entry point `p` may return `v` from `a` when `may p a v`; a handle that
`CreateThread` returns is new. A call of `cop_thread_join` with a null handle, which
`assert` excludes, is no step. -/
def step (may : P → V → V → Bool) (s : Sys V P) : Event V P → Option (Sys V P)
  | .create o p a detached h =>
    if ∀ h' ∈ h, (s.threads h').isNone then some (s.copThreadCreate o p a detached h).2 else none
  | .start h =>
    match s.threads h with
    | some ⟨o, .created⟩ => some (s.setProgress h ⟨o, .created⟩ (.running (s.objs o).ret.proc (s.objs o).ret.arg))
    | _ => none
  | .store h v =>
    match s.threads h with
    | some ⟨o, .running p a⟩ =>
      if may p a v then some ((s.setRet o v).setProgress h ⟨o, .running p a⟩ (.stored v)) else none
    | _ => none
  | .exit h =>
    match s.threads h with
    | some ⟨o, .stored v⟩ => some (s.setProgress h ⟨o, .stored v⟩ (.ended v))
    | _ => none
  | .join j o wants =>
    if (s.joins j).isNone ∧ (s.objs o).handle.isSome then some (s.setJoin j ⟨s.objs o, wants, none⟩) else none
  | .wake j err =>
    match s.joins j with
    | some J =>
      if J.result.isNone ∧ s.wakes J.thread.handle err then
        some (s.setJoin j { J with result := some (copThreadJoinWoken J.thread J.wants err) })
      else none
    | none => none

end Sys

/-! ### What a step does -/

variable {may : P → V → V → Bool} {s t : Sys V P}

@[simp] theorem Sys.objs_setProgress (h : Handle) (T : Thread V P) (p : Progress V P) :
    (s.setProgress h T p).objs = s.objs := rfl
@[simp] theorem Sys.threads_setProgress (h : Handle) (T : Thread V P) (p : Progress V P) :
    (s.setProgress h T p).threads h = some { T with progress := p } := Function.update_self ..
theorem Sys.threads_setProgress_of_ne {h h' : Handle} (hne : h' ≠ h) (T : Thread V P) (p : Progress V P) :
    (s.setProgress h T p).threads h' = s.threads h' := Function.update_of_ne hne _ _

@[simp] theorem Sys.joins_copThreadCreate (o : Addr) (p : P) (a : V) (d : Bool) (h : Option Handle) :
    (s.copThreadCreate o p a d h).2.joins = s.joins := by
  cases h <;> rfl

/-- Starting, storing and ending take one thread from one stage to the next. -/
theorem start_some {h : Handle} (hs : s.step may (.start h) = some t) :
    ∃ o, s.threads h = some ⟨o, .created⟩ ∧
      t = s.setProgress h ⟨o, .created⟩ (.running (s.objs o).ret.proc (s.objs o).ret.arg) := by
  simp only [Sys.step] at hs
  split at hs
  · rename_i o ho
    exact ⟨o, ho, (Option.some.inj hs).symm⟩
  · cases hs

theorem store_some {h : Handle} {v : V} (hs : s.step may (.store h v) = some t) :
    ∃ o p a, s.threads h = some ⟨o, .running p a⟩ ∧ may p a v = true ∧
      t = (s.setRet o v).setProgress h ⟨o, .running p a⟩ (.stored v) := by
  simp only [Sys.step] at hs
  split at hs
  · rename_i o p a ho
    split at hs
    · rename_i hmay
      exact ⟨o, p, a, ho, hmay, (Option.some.inj hs).symm⟩
    · cases hs
  · cases hs

theorem exit_some {h : Handle} (hs : s.step may (.exit h) = some t) :
    ∃ o v, s.threads h = some ⟨o, .stored v⟩ ∧ t = s.setProgress h ⟨o, .stored v⟩ (.ended v) := by
  simp only [Sys.step] at hs
  split at hs
  · rename_i o v ho
    exact ⟨o, v, ho, (Option.some.inj hs).symm⟩
  · cases hs

theorem create_some {o : Addr} {p : P} {a : V} {d : Bool} {h : Option Handle}
    (hs : s.step may (.create o p a d h) = some t) :
    (∀ h' ∈ h, s.threads h' = none) ∧ t = (s.copThreadCreate o p a d h).2 := by
  simp only [Sys.step] at hs
  split at hs
  · rename_i hnew
    exact ⟨fun h' hh => Option.isNone_iff_eq_none.1 (hnew h' hh), (Option.some.inj hs).symm⟩
  · cases hs

theorem join_some {j : ℕ} {o : Addr} {wants : Bool} (hs : s.step may (.join j o wants) = some t) :
    s.joins j = none ∧ (s.objs o).handle.isSome ∧ t = s.setJoin j ⟨s.objs o, wants, none⟩ := by
  simp only [Sys.step] at hs
  split at hs
  · rename_i hc
    exact ⟨Option.isNone_iff_eq_none.1 hc.1, hc.2, (Option.some.inj hs).symm⟩
  · cases hs

theorem wake_some {j : ℕ} {err : Wait} (hs : s.step may (.wake j err) = some t) :
    ∃ J, s.joins j = some J ∧ J.result = none ∧ s.wakes J.thread.handle err = true ∧
      t = s.setJoin j { J with result := some (Sys.copThreadJoinWoken J.thread J.wants err) } := by
  simp only [Sys.step] at hs
  split at hs
  · rename_i J hJ
    split at hs
    · rename_i hc
      exact ⟨J, hJ, Option.isNone_iff_eq_none.1 hc.1, hc.2, (Option.some.inj hs).symm⟩
    · cases hs
  · cases hs

/-- A wait succeeds for a thread that has ended. -/
theorem wakes_object {handle : Option Handle} (hs : s.wakes handle .object = true) :
    ∃ h o v, handle = some h ∧ s.threads h = some ⟨o, .ended v⟩ := by
  simp only [Sys.wakes] at hs
  split at hs
  · rename_i o v hthread
    obtain ⟨h, hh, hth⟩ := Option.bind_eq_some_iff.1 hthread
    exact ⟨h, o, v, hh, hth⟩
  · cases hs

/-! ### What a call of `cop_thread_join` delivers -/

/-- The call `j` was made with the object `x`, and what it delivered it took from there. -/
def Joined (j : ℕ) (x : CopThread V P) (s : Sys V P) : Prop :=
  ∃ J, s.joins j = some J ∧ J.thread = x ∧ J.wants = true ∧
    ∀ r out, J.result = some (r, out) → (r = 0 ∧ out = some x.ret.ret ∧
      ∃ h o v, x.handle = some h ∧ s.threads h = some ⟨o, .ended v⟩) ∨ (r = copThreaderrUnknown ∧ out = none)

theorem ended_step {e : Event V P} (hs : s.step may e = some t) {h : Handle} {o : Addr} {v : V}
    (hend : s.threads h = some ⟨o, .ended v⟩) : t.threads h = some ⟨o, .ended v⟩ := by
  cases e with
  | create o' p a d h' =>
    obtain ⟨hnew, rfl⟩ := create_some hs
    cases h' with
    | none => exact hend
    | some h' =>
      have hne : h ≠ h' := by
        intro heq
        rw [heq, hnew h' rfl] at hend
        cases hend
      exact (Function.update_of_ne hne _ _).trans hend
  | start h' =>
    obtain ⟨o', ho, rfl⟩ := start_some hs
    rw [Sys.threads_setProgress_of_ne (by rintro rfl; rw [hend] at ho; cases ho), hend]
  | store h' v' =>
    obtain ⟨o', p, a, ho, -, rfl⟩ := store_some hs
    rw [Sys.threads_setProgress_of_ne (by rintro rfl; rw [hend] at ho; cases ho)]
    exact hend
  | exit h' =>
    obtain ⟨o', v', ho, rfl⟩ := exit_some hs
    rw [Sys.threads_setProgress_of_ne (by rintro rfl; rw [hend] at ho; cases ho), hend]
  | join j o' wants =>
    obtain ⟨-, -, rfl⟩ := join_some hs
    exact hend
  | wake j err =>
    obtain ⟨J, -, -, -, rfl⟩ := wake_some hs
    exact hend

/-- A call whose step leaves the joins alone stays as it is. -/
theorem Joined.of_joins {j : ℕ} {x : CopThread V P} {e : Event V P} (h : Joined j x s) (hs : s.step may e = some t)
    (hj : t.joins j = s.joins j) : Joined j x t := by
  obtain ⟨J, hJ, hx, hw, hr⟩ := h
  refine ⟨J, hj.trans hJ, hx, hw, ?_⟩
  intro r out hres
  rcases hr r out hres with ⟨h0, hout, h', o, v, hh, hend⟩ | hfail
  · exact .inl ⟨h0, hout, h', o, v, hh, ended_step hs hend⟩
  · exact .inr hfail

/-- Every step keeps to what a call of `cop_thread_join` was made with. -/
theorem joined_step {j : ℕ} {x : CopThread V P} {e : Event V P} (h : Joined j x s) (hs : s.step may e = some t) :
    Joined j x t := by
  cases e with
  | create o p a d h' =>
    apply h.of_joins hs
    obtain ⟨-, rfl⟩ := create_some hs
    rw [Sys.joins_copThreadCreate]
  | start h' =>
    apply h.of_joins hs
    obtain ⟨o, -, rfl⟩ := start_some hs
    rfl
  | store h' v =>
    apply h.of_joins hs
    obtain ⟨o, p, a, -, -, rfl⟩ := store_some hs
    rfl
  | exit h' =>
    apply h.of_joins hs
    obtain ⟨o, v, -, rfl⟩ := exit_some hs
    rfl
  | join j' o wants =>
    apply h.of_joins hs
    obtain ⟨hnone, -, rfl⟩ := join_some hs
    obtain ⟨J, hJ, -⟩ := h
    have hne : j ≠ j' := by
      rintro rfl
      rw [hnone] at hJ
      cases hJ
    exact Function.update_of_ne hne _ _
  | wake j' err =>
    by_cases hne : j = j'
    · subst hne
      obtain ⟨J, hJ, hx, hw, -⟩ := h
      obtain ⟨J', hJ', -, hwakes, rfl⟩ := wake_some hs
      obtain rfl : J = J' := Option.some.inj (hJ.symm.trans hJ')
      refine ⟨_, Function.update_self .., hx, hw, ?_⟩
      intro r out hres
      cases err with
      | failed =>
        cases hres
        exact .inr ⟨rfl, rfl⟩
      | object =>
        -- the wait succeeded, so the thread has ended
        obtain ⟨h', o, v, hh, hth⟩ := wakes_object hwakes
        simp only [Sys.copThreadJoinWoken, hw, if_true] at hres
        cases hres
        exact .inl ⟨rfl, by rw [hx], h', o, v, hx ▸ hh, hth⟩
    · apply h.of_joins hs
      obtain ⟨J, -, -, -, rfl⟩ := wake_some hs
      exact Function.update_of_ne hne _ _

/-- What a call of `cop_thread_join` with the object `o` has done at the end of a run. -/
theorem joined_run {s₁ : Sys V P} {after : List (Event V P)} {j : ℕ} {o : Addr}
    (hrun : steps (Sys.step may) (.join j o true :: after) s₁ = some s) : Joined j (s₁.objs o) s := by
  obtain ⟨t, hcall, hafter⟩ := steps_cons.1 hrun
  obtain ⟨-, -, rfl⟩ := join_some hcall
  refine steps_inv (fun s e t => joined_step (e := e)) ?_ hafter
  refine ⟨_, Function.update_self .., rfl, rfl, ?_⟩
  intro r out hres
  cases hres

/-! ### What an object holds -/

/-- `cop_thread_create` is not given an object that a thread has still to store to. -/
def Exclusive (s : Sys V P) : Event V P → Prop
  | .create o _ _ _ _ => ∀ h T, s.threads h = some T → T.param = o → T.progress.value ≠ none
  | _ => True

/-- Objects and threads belong together. -/
structure Paired (s : Sys V P) : Prop where
  /-- An object that a thread has still to store to has no other thread's handle. -/
  unstored : ∀ h T, s.threads h = some T → T.progress.value = none → ∀ h' ∈ (s.objs T.param).handle, h' = h
  /-- An object with the handle of a thread holds what the thread stored. -/
  stored : ∀ o h, (s.objs o).handle = some h →
    ∃ T, s.threads h = some T ∧ T.param = o ∧ ∀ v, T.progress.value = some v → (s.objs o).ret.ret = v

theorem Paired.setProgress (hp : Paired s) {h : Handle} {T : Thread V P} (hT : s.threads h = some T)
    {p : Progress V P} (hv : p.value = T.progress.value) : Paired (s.setProgress h T p) := by
  constructor
  · intro h₁ T₁ hT₁ hnone
    by_cases hh : h₁ = h
    · subst hh
      rw [Sys.threads_setProgress] at hT₁
      obtain rfl := Option.some.inj hT₁
      exact hp.unstored h₁ T hT (hv ▸ hnone)
    · exact hp.unstored h₁ T₁ ((Sys.threads_setProgress_of_ne hh _ _).symm.trans hT₁) hnone
  · intro o h₁ ho
    obtain ⟨T₁, hT₁, hparam, hval⟩ := hp.stored o h₁ ho
    by_cases hh : h₁ = h
    · subst hh
      obtain rfl : T = T₁ := Option.some.inj (hT.symm.trans hT₁)
      exact ⟨_, Function.update_self .., hparam, fun v hv' => hval v (hv ▸ hv')⟩
    · exact ⟨T₁, (Function.update_of_ne hh _ _).trans hT₁, hparam, hval⟩

theorem Paired.store (hp : Paired s) {h : Handle} {T : Thread V P} (hT : s.threads h = some T)
    (hnone : T.progress.value = none) (v : V) : Paired ((s.setRet T.param v).setProgress h T (.stored v)) := by
  have hhandle : ∀ o, ((s.setRet T.param v).objs o).handle = (s.objs o).handle := by
    intro o
    by_cases ho : o = T.param
    · subst ho
      simp [Sys.setRet]
    · simp [Sys.setRet, Function.update_of_ne ho]
  constructor
  · intro h₁ T₁ hT₁ hnone₁
    rw [Sys.objs_setProgress, hhandle]
    by_cases hh : h₁ = h
    · subst hh
      rw [Sys.threads_setProgress] at hT₁
      obtain rfl := Option.some.inj hT₁
      cases hnone₁
    · exact hp.unstored h₁ T₁ ((Sys.threads_setProgress_of_ne hh _ _).symm.trans hT₁) hnone₁
  · intro o h₁ ho
    rw [Sys.objs_setProgress, hhandle] at ho
    obtain ⟨T₁, hT₁, hparam, hval⟩ := hp.stored o h₁ ho
    by_cases hh : h₁ = h
    · subst hh
      obtain rfl : T = T₁ := Option.some.inj (hT.symm.trans hT₁)
      refine ⟨_, Function.update_self .., hparam, ?_⟩
      intro v' hv'
      cases hv'
      simp [Sys.setRet, hparam]
    · -- the object of another thread is another object
      have ho' : o ≠ T.param := by
        rintro rfl
        exact hh (hp.unstored h T hT hnone h₁ ho)
      refine ⟨T₁, (Function.update_of_ne hh _ _).trans hT₁, hparam, ?_⟩
      simpa [Sys.setRet, Function.update_of_ne ho'] using hval

/-- Creating a thread writes to no other object. -/
theorem Sys.objs_copThreadCreate_of_ne {o o' : Addr} {p : P} {a : V} {d : Bool} {h : Option Handle} (ho : o' ≠ o) :
    (s.copThreadCreate o p a d h).2.objs o' = s.objs o' := by
  cases h <;> exact Function.update_of_ne ho _ _

/-- Creating a thread leaves the others as they are. -/
theorem Sys.threads_copThreadCreate {o : Addr} {p : P} {a : V} {d : Bool} {h : Option Handle}
    (hnew : ∀ h' ∈ h, s.threads h' = none) {h₁ : Handle} {T : Thread V P} (hT : s.threads h₁ = some T) :
    (s.copThreadCreate o p a d h).2.threads h₁ = some T := by
  cases h with
  | none => exact hT
  | some h =>
    have hne : h₁ ≠ h := by
      rintro rfl
      rw [hnew h₁ rfl] at hT
      cases hT
    exact (Function.update_of_ne hne _ _).trans hT

/-- A thread is created on an object that no thread has still to store to. -/
theorem Paired.create (hp : Paired s) {o : Addr} {p : P} {a : V} {d : Bool} {h : Option Handle}
    (hnew : ∀ h' ∈ h, s.threads h' = none) (hex : Exclusive s (.create o p a d h)) :
    Paired (s.copThreadCreate o p a d h).2 := by
  have hself : ∀ h₁, ((s.copThreadCreate o p a d h).2.objs o).handle = some h₁ →
      h = some h₁ ∧ (s.copThreadCreate o p a d h).2.threads h₁ = some ⟨o, .created⟩ := by
    intro h₁ hh
    cases h with
    | none => simp [Sys.copThreadCreate] at hh
    | some h => cases d <;> simp_all [Sys.copThreadCreate]
  constructor
  · intro h₁ T hT hnone h' hh'
    cases hs : s.threads h₁ with
    | some T' =>
      obtain rfl : T' = T := Option.some.inj ((Sys.threads_copThreadCreate hnew hs).symm.trans hT)
      have hne : T'.param ≠ o := fun heq => hex h₁ T' hs heq hnone
      rw [Sys.objs_copThreadCreate_of_ne hne] at hh'
      exact hp.unstored h₁ T' hs hnone h' hh'
    | none =>
      -- it is the new thread
      cases h with
      | none =>
        have hT' : s.threads h₁ = some T := hT
        rw [hs] at hT'
        cases hT'
      | some h =>
        have hh₁ : h₁ = h := by
          by_contra hne
          have hT' : s.threads h₁ = some T := (Function.update_of_ne hne _ _).symm.trans hT
          rw [hs] at hT'
          cases hT'
        subst hh₁
        obtain rfl : (⟨o, .created⟩ : Thread V P) = T := by simpa [Sys.copThreadCreate] using hT
        exact (Option.some.inj (hself h' hh').1).symm
  · intro o' h₁ ho
    by_cases heq : o' = o
    · subst heq
      exact ⟨_, (hself h₁ ho).2, rfl, fun v hv => by cases hv⟩
    · rw [Sys.objs_copThreadCreate_of_ne heq] at ho ⊢
      obtain ⟨T, hT, hrest⟩ := hp.stored o' h₁ ho
      exact ⟨T, Sys.threads_copThreadCreate hnew hT, hrest⟩

theorem paired_step {e : Event V P} (hp : Paired s) (hex : Exclusive s e) (hs : s.step may e = some t) : Paired t := by
  cases e with
  | create o p a d h =>
    obtain ⟨hnew, rfl⟩ := create_some hs
    exact hp.create hnew hex
  | start h =>
    obtain ⟨o, hT, rfl⟩ := start_some hs
    exact hp.setProgress hT rfl
  | store h v =>
    obtain ⟨o, p, a, hT, -, rfl⟩ := store_some hs
    exact hp.store hT rfl v
  | exit h =>
    obtain ⟨o, v, hT, rfl⟩ := exit_some hs
    exact hp.setProgress hT rfl
  | join j o wants =>
    obtain ⟨-, -, rfl⟩ := join_some hs
    exact ⟨hp.unstored, hp.stored⟩
  | wake j err =>
    obtain ⟨J, -, -, -, rfl⟩ := wake_some hs
    exact ⟨hp.unstored, hp.stored⟩

/-- There are no threads yet, and no object has a handle. -/
structure Initial (s : Sys V P) : Prop where
  /-- There are no threads. -/
  threads : ∀ h, s.threads h = none
  /-- No object has a handle. -/
  handle : ∀ o, (s.objs o).handle = none

theorem Initial.paired (hinit : Initial s) : Paired s := by
  constructor
  · intro h T hT
    rw [hinit.threads] at hT
    cases hT
  · intro o h hh
    rw [hinit.handle] at hh
    cases hh

/-- The object holds what its thread has stored. -/
theorem Paired.holds (hp : Paired s) {o : Addr} {h : Handle} (hh : (s.objs o).handle = some h) {v : V}
    (hv : s.value h = some v) : (s.objs o).ret.ret = v := by
  obtain ⟨T, hT, -, hval⟩ := hp.stored o h hh
  apply hval
  simpa [Sys.value, hT] using hv

/-- What a thread has stored stays stored. -/
theorem value_step {e : Event V P} (hs : s.step may e = some t) {h : Handle} {v : V} (hv : s.value h = some v) :
    t.value h = some v := by
  obtain ⟨T, hT, hval⟩ := Option.bind_eq_some_iff.1 hv
  have hsame : t.threads h = s.threads h → t.value h = some v := fun heq => by
    rw [Sys.value, heq]
    exact hv
  cases e with
  | create o p a d h' =>
    obtain ⟨hnew, rfl⟩ := create_some hs
    exact hsame ((Sys.threads_copThreadCreate hnew hT).trans hT.symm)
  | start h' =>
    obtain ⟨o, ho, rfl⟩ := start_some hs
    refine hsame (Sys.threads_setProgress_of_ne ?_ _ _)
    rintro rfl
    cases hT.symm.trans ho
    cases hval
  | store h' v' =>
    obtain ⟨o, p, a, ho, -, rfl⟩ := store_some hs
    refine hsame (Sys.threads_setProgress_of_ne ?_ _ _)
    rintro rfl
    cases hT.symm.trans ho
    cases hval
  | exit h' =>
    obtain ⟨o, v', ho, rfl⟩ := exit_some hs
    by_cases hne : h = h'
    · subst hne
      cases hT.symm.trans ho
      cases hval
      simp [Sys.value, Progress.value]
    · exact hsame (Sys.threads_setProgress_of_ne hne _ _)
  | join j o wants =>
    obtain ⟨-, -, rfl⟩ := join_some hs
    exact hv
  | wake j err =>
    obtain ⟨J, -, -, -, rfl⟩ := wake_some hs
    exact hv

/-- Of the events from `s₀` on, one created the thread `h` on the object `o`; `x` is what `o` held then. -/
def CreatedOn (may : P → V → V → Bool) (s₀ : Sys V P) (events : List (Event V P)) (o : Addr) (h : Handle) (x : V) : Prop :=
  ∃ before p a between s₁, events = before ++ .create o p a false (some h) :: between ∧
    steps (Sys.step may) before s₀ = some s₁ ∧ (s₁.objs o).ret.ret = x

theorem CreatedOn.snoc {s₀ : Sys V P} {events : List (Event V P)} {o : Addr} {h : Handle} {x : V}
    (hc : CreatedOn may s₀ events o h x) (e : Event V P) : CreatedOn may s₀ (events ++ [e]) o h x := by
  obtain ⟨before, p, a, between, s₁, rfl, hbefore, hx⟩ := hc
  exact ⟨before, p, a, between ++ [e], s₁, by simp, hbefore, hx⟩

/-- What is known after the events from `s₀` on: an object with the handle of a thread was given to that thread, and
as long as the thread has not stored, it holds what it held then. -/
structure Traced (may : P → V → V → Bool) (s₀ : Sys V P) (events : List (Event V P)) (s : Sys V P) : Prop where
  /-- The events lead there. -/
  run : steps (Sys.step may) events s₀ = some s
  /-- Objects and threads belong together. -/
  paired : Paired s
  /-- The thread was created on the object. -/
  created : ∀ o h, (s.objs o).handle = some h →
    ∃ x, CreatedOn may s₀ events o h x ∧ (s.value h = none → (s.objs o).ret.ret = x)

/-- A step that writes to no object whose thread has still to store. -/
theorem Traced.keep {s₀ : Sys V P} {events : List (Event V P)} (ht : Traced may s₀ events s) {e : Event V P}
    (hs : s.step may e = some t) {o : Addr} {h : Handle} (hh : (s.objs o).handle = some h)
    (hret : t.value h = none → (t.objs o).ret.ret = (s.objs o).ret.ret) :
    ∃ x, CreatedOn may s₀ (events ++ [e]) o h x ∧ (t.value h = none → (t.objs o).ret.ret = x) := by
  obtain ⟨x, hc, hx⟩ := ht.created o h hh
  refine ⟨x, hc.snoc e, fun hnone => (hret hnone).trans (hx ?_)⟩
  cases hv : s.value h with
  | none => rfl
  | some v => cases hnone.symm.trans (value_step hs hv)

theorem traced_step {s₀ : Sys V P} {events : List (Event V P)} {e : Event V P} (ht : Traced may s₀ events s)
    (hex : Exclusive s e) (hs : s.step may e = some t) : Traced may s₀ (events ++ [e]) t := by
  refine ⟨steps_append.2 ⟨s, ht.run, steps_cons.2 ⟨t, hs, rfl⟩⟩, paired_step ht.paired hex hs, fun o h hh => ?_⟩
  cases e with
  | create o' p a d h' =>
    obtain ⟨hnew, rfl⟩ := create_some hs
    by_cases ho : o = o'
    · -- it is the new thread
      subst ho
      cases h' with
      | none => simp [Sys.copThreadCreate] at hh
      | some h' =>
        cases d with
        | true => simp [Sys.copThreadCreate] at hh
        | false =>
          obtain rfl : h' = h := by simpa [Sys.copThreadCreate] using hh
          refine ⟨(s.objs o).ret.ret, ⟨events, p, a, [], s, rfl, ht.run, rfl⟩, fun _ => ?_⟩
          simp [Sys.copThreadCreate]
    · have hsame := Sys.objs_copThreadCreate_of_ne (s := s) (p := p) (a := a) (d := d) (h := h') ho
      exact ht.keep hs (hsame ▸ hh) fun _ => by rw [hsame]
  | start h' =>
    obtain ⟨o', -, rfl⟩ := start_some hs
    exact ht.keep hs hh fun _ => rfl
  | store h' v =>
    obtain ⟨o', p, a, hT, -, rfl⟩ := store_some hs
    by_cases ho : o = o'
    · -- the thread that stores is the one of the object
      subst ho
      have hold : (s.objs o).handle = some h := by simpa [Sys.setRet] using hh
      obtain rfl : h = h' := ht.paired.unstored h' _ hT rfl h hold
      refine ht.keep hs hold fun hnone => ?_
      simp [Sys.value, Progress.value] at hnone
    · have hsame : ((s.setRet o' v).setProgress h' ⟨o', .running p a⟩ (.stored v)).objs o = s.objs o :=
        Function.update_of_ne ho _ _
      exact ht.keep hs (hsame ▸ hh) fun _ => by rw [hsame]
  | exit h' =>
    obtain ⟨o', v, -, rfl⟩ := exit_some hs
    exact ht.keep hs hh fun _ => rfl
  | join j o' wants =>
    obtain ⟨-, -, rfl⟩ := join_some hs
    exact ht.keep hs hh fun _ => rfl
  | wake j err =>
    obtain ⟨J, -, -, -, rfl⟩ := wake_some hs
    exact ht.keep hs hh fun _ => rfl

theorem traced_run {s₀ : Sys V P} (hinit : Initial s₀) {events : List (Event V P)}
    (hex : Meets (Sys.step may) Exclusive events s₀) (hrun : steps (Sys.step may) events s₀ = some s) :
    Traced may s₀ events s := by
  refine steps_inv_history (fun _ _ _ _ ht hex hs => traced_step ht hex hs) ?_ hex hrun
  refine ⟨rfl, hinit.paired, fun o h hh => ?_⟩
  rw [hinit.handle] at hh
  cases hh

/-- **What a join delivers.** In any run in which no object is given to a second thread while a first has still to store
to it, let `cop_thread_join` be called on the object `o` with a `value` that is not null, and return 0. Then the
thread it waited for was created on `o` and has ended, and `*value` is what that thread returned exactly when
the thread had stored before the call, or `o` held the same value already when the thread was created. -/
theorem join_delivers_iff {s₀ s₁ : Sys V P} (hinit : Initial s₀) {events after : List (Event V P)}
    (hex : Meets (Sys.step may) Exclusive events s₀) (hrun : steps (Sys.step may) events s₀ = some s₁) {j : ℕ} {o : Addr}
    (hafter : steps (Sys.step may) (.join j o true :: after) s₁ = some s) {J : Join V P} (hJ : s.joins j = some J)
    {out : Option V} (hret : J.result = some (0, out)) :
    ∃ h v stale, (s₁.objs o).handle = some h ∧ CreatedOn may s₀ events o h stale ∧ s.value h = some v ∧
      (out = some v ↔ (s₁.value h).isSome ∨ stale = v) := by
  have ht := traced_run hinit hex hrun
  obtain ⟨J', hJ', -, -, hr⟩ := joined_run hafter
  obtain rfl : J = J' := Option.some.inj (hJ.symm.trans hJ')
  rcases hr 0 out hret with ⟨-, rfl, h, o', v, hh, hend⟩ | ⟨h0, -⟩
  · have hv : s.value h = some v := by simp [Sys.value, hend, Progress.value]
    obtain ⟨stale, hc, hstale⟩ := ht.created o h hh
    refine ⟨h, v, stale, hh, hc, hv, ?_⟩
    rw [Option.some_inj]
    cases hv₁ : s₁.value h with
    | none => simp [hstale hv₁]
    | some v₁ =>
      -- what was stored by then is what the thread has returned
      have hlast := steps_inv (I := fun s : Sys V P => s.value h = some v₁) (fun _ _ _ hv hs => value_step hs hv) hv₁ hafter
      obtain rfl : v = v₁ := Option.some.inj (hv.symm.trans hlast)
      simp [ht.paired.holds hh hv₁]
  · cases h0

/-- No threads, and objects full of zeros. -/
def noThreads : Sys ℕ ℕ := ⟨fun _ => ⟨none, ⟨0, 0, 0⟩⟩, fun _ => none, fun _ => none⟩

/-- A thread is created, and runs. -/
def started : List (Event ℕ ℕ) := [.create 0 3 4 false (some 1), .start 1]

theorem join_delivers_iff_sample : ∃ s₁ s, steps (Sys.step fun _ _ _ => true) (started ++ [.store 1 7]) noThreads = some s₁ ∧
    steps (Sys.step fun _ _ _ => true) [.join 0 0 true, .exit 1, .wake 0 .object] s₁ = some s ∧
    ∃ h v stale, (s₁.objs 0).handle = some h ∧ CreatedOn (fun _ _ _ => true) noThreads (started ++ [.store 1 7]) 0 h stale ∧
      s.value h = some v ∧ (some 7 = some v ↔ (s₁.value h).isSome ∨ stale = v) := by
  have hex : Meets (Sys.step fun _ _ _ => true) Exclusive (started ++ [.store 1 7]) noThreads := by
    refine ⟨fun h T hT => by simp [noThreads] at hT, ?_⟩
    exact ⟨trivial, trivial, trivial⟩
  refine ⟨_, _, rfl, rfl, join_delivers_iff ⟨fun _ => rfl, fun _ => rfl⟩ hex rfl (J := ⟨⟨some 1, ⟨4, 7, 3⟩⟩, true, some (0, some 7)⟩)
    (show steps (Sys.step fun _ _ _ => true) (.join 0 0 true :: [.exit 1, .wake 0 .object]) _ = some _ from rfl) rfl rfl⟩

/-- `cop_thread_join` is called while the thread still runs: it returns 0, and delivers what the
object held before, not what the thread returned. -/
theorem join_before_store : ∃ s J, steps (Sys.step fun _ _ _ => true)
      (started ++ [.join 0 0 true, .store 1 7, .exit 1, .wake 0 .object]) noThreads = some s ∧
    s.joins 0 = some J ∧ J.wants = true ∧ J.thread.handle = some 1 ∧ s.value 1 = some 7 ∧ J.result = some (0, some 0) :=
  ⟨_, _, rfl, rfl, rfl, rfl, rfl, rfl⟩

end Cop.Threading
