import Cop.Theory.Exec
import Cop.Threading.Join
import Mathlib.Algebra.GroupWithZero.Nat
import Mathlib.Data.Fintype.Basic
import Mathlib.Data.Fintype.Defs

/-!
# Mutexes and conditions

`cop_mutex_*` and `cop_cond_*` of `cop_thread.h`, for Windows and for pthreads. On Windows a `cop_mutex` is
a `CRITICAL_SECTION`, which a thread may enter again; with pthreads it is a `pthread_mutex_t` of the default
kind, which it may not.

## The model

An `Api` has the functions of one platform, on the state of a mutex. Over it is a step system of any threads,
mutexes and conditions. Its events are the calls, the moment when a blocked thread gets its mutex and
returns, and the wake-ups that a platform is free to make. The log, newest first, has what the threads know:
that they hold a mutex, or have given it up, and the numbers that they got. After a call that is undefined, an
`assert` that fails or an `abort` nothing happens.

## What is proved

Of threads that are `Proper`: they use the functions as the header says, and do not ask for a mutex that they hold.

* `Sound` — what their calls keep.
* `happen_in_step` — what happens on the one platform happens on the other.
* `platforms_in_step` — they see the same on both, in every order of events. Nothing fails, no two of them hold a
  mutex at once, and none holds the mutex that it waits for.
* `trylock_held` — where a thread asks for a mutex that it holds, the platforms differ.
-/

namespace Cop.Threading

open Theory

/-- What the functions of pthreads return. -/
inductive Errno where
  /-- `0`. -/
  | ok
  /-- `EPERM`. -/
  | perm
  /-- `EAGAIN`. -/
  | again
  /-- `ENOMEM`. -/
  | nomem
  /-- `EBUSY`. -/
  | busy
  /-- `EINVAL`. -/
  | inval
  deriving DecidableEq

/-- What a program must not do. -/
inductive Failure where
  /-- What the platform leaves undefined. -/
  | undefined
  /-- An `assert` fails. -/
  | assertion
  /-- `abort()`. -/
  | abort
  deriving DecidableEq

/-- The functions of one platform, for threads `τ`, on the state `μ` of a mutex. -/
structure Api (τ μ : Type) where
  /-- `cop_mutex_create`, where `pthread_mutex_init` returns that. -/
  mutexCreate : Errno → ℤ × Option μ
  /-- `cop_mutex_destroy`. -/
  mutexDestroy : μ → Exec Failure Unit
  /-- `cop_mutex_lock`; none if the thread blocks. -/
  mutexLock : μ → τ → Exec Failure (Option μ)
  /-- `cop_mutex_unlock`. -/
  mutexUnlock : μ → τ → Exec Failure μ
  /-- `cop_mutex_trylock`. -/
  mutexTrylock : μ → τ → Exec Failure (ℤ × μ)
  /-- `cop_cond_create`, where `pthread_cond_init` returns that. -/
  condCreate : Errno → Exec Failure ℤ
  /-- `cop_cond_destroy`, where threads sleep there or none does. -/
  condDestroy : Bool → Exec Failure Unit
  /-- `cop_cond_wait`, up to where the thread sleeps. Threads may sleep there with another mutex. -/
  condWait : Bool → μ → τ → Exec Failure μ

section Platforms

variable {τ : Type} [DecidableEq τ]

/-! ### Windows -/

/-- `CRITICAL_SECTION`: the thread in it, and how often it has entered again. -/
abbrev CriticalSection (τ : Type) := Option (τ × ℕ)

namespace Windows

/-- `EnterCriticalSection`; none if the thread blocks. -/
def enterCriticalSection (mutex : CriticalSection τ) (t : τ) : Option (CriticalSection τ) :=
  match mutex with
  | none => some (some (t, 0))
  | some (o, n) => if o = t then some (some (o, n + 1)) else none

/-- `TryEnterCriticalSection`. It is documented to return a number that is not zero; it is `TRUE` here. -/
def tryEnterCriticalSection (mutex : CriticalSection τ) (t : τ) : ℤ × CriticalSection τ :=
  match enterCriticalSection mutex t with
  | some mutex' => (1, mutex')
  | none => (0, mutex)

/-- `LeaveCriticalSection`. -/
def leaveCriticalSection (mutex : CriticalSection τ) (t : τ) : Exec Failure (CriticalSection τ) :=
  match mutex with
  | none => .error (.fault .undefined)
  | some (o, n) => do
    check .undefined (o = t)
    return if n = 0 then none else some (o, n - 1)

/-- `SleepConditionVariableCS`, up to where the thread sleeps: it must have entered the section once. -/
def sleepConditionVariableCS (mutex : CriticalSection τ) (t : τ) : Exec Failure (CriticalSection τ) := do
  check .undefined (mutex = some (t, 0))
  return none

/-- The functions under `_WIN32`. -/
def api : Api τ (CriticalSection τ) where
  mutexCreate _ := (0, some none)
  mutexDestroy mutex := check .undefined (mutex = none)
  mutexLock mutex t := .ok (enterCriticalSection mutex t)
  mutexUnlock mutex t := leaveCriticalSection mutex t
  mutexTrylock mutex t := .ok (tryEnterCriticalSection mutex t)
  condCreate _ := .ok 0
  condDestroy _ := .ok ()
  condWait _ mutex t := sleepConditionVariableCS mutex t

end Windows

/-! ### Pthreads -/

/-- `pthread_mutex_t`: the thread that holds it. -/
abbrev Mutex (τ : Type) := Option τ

namespace Posix

/-- `cop_translate_err`. -/
def copTranslateErr : Errno → ℤ
  | .ok => 0
  | .perm => 3
  | .again => 1
  | .nomem => 6
  | _ => 5

/-- `pthread_mutex_destroy`. -/
def pthreadMutexDestroy (mutex : Mutex τ) : Exec Failure Errno := do
  check .undefined (mutex = none)
  return .ok

/-- `pthread_mutex_lock`; none if the thread blocks. -/
def pthreadMutexLock (mutex : Mutex τ) (t : τ) : Exec Failure (Option (Errno × Mutex τ)) := do
  check .undefined (mutex ≠ some t)
  return if mutex = none then some (.ok, some t) else none

/-- `pthread_mutex_unlock`. -/
def pthreadMutexUnlock (mutex : Mutex τ) (t : τ) : Exec Failure (Errno × Mutex τ) := do
  check .undefined (mutex = some t)
  return (.ok, none)

/-- `pthread_mutex_trylock`. -/
def pthreadMutexTrylock (mutex : Mutex τ) (t : τ) : Errno × Mutex τ :=
  if mutex = none then (.ok, some t) else (.busy, mutex)

/-- `pthread_cond_destroy`. -/
def pthreadCondDestroy (used : Bool) : Exec Failure Errno := do
  check .undefined (used = false)
  return .ok

/-- `pthread_cond_wait`, up to where the thread sleeps. -/
def pthreadCondWait (other : Bool) (mutex : Mutex τ) (t : τ) : Exec Failure (Errno × Mutex τ) := do
  check .undefined (other = false ∧ mutex = some t)
  return (.ok, none)

/-- The functions for pthreads. -/
def api : Api τ (Mutex τ) where
  mutexCreate env := (copTranslateErr env, if env = .ok then some none else none)
  mutexDestroy mutex := do
    let err ← pthreadMutexDestroy mutex
    check .assertion (err = .ok)
  mutexLock mutex t := do
    match ← pthreadMutexLock mutex t with
    | none => return none
    | some (err, mutex') =>
      check .assertion (err = .ok)
      return some mutex'
  mutexUnlock mutex t := do
    let (err, mutex') ← pthreadMutexUnlock mutex t
    check .assertion (err = .ok)
    return mutex'
  mutexTrylock mutex t := do
    let (err, mutex') := pthreadMutexTrylock mutex t
    check .assertion (err = .ok ∨ err = .busy)
    return (if err = .ok then 1 else 0, mutex')
  condCreate env :=
    match env with
    | .busy | .inval => .error (.fault .abort)
    | .ok => .ok 0
    | _ => .ok (-1)
  condDestroy used := do
    let err ← pthreadCondDestroy used
    check .abort (err = .ok)
  condWait other mutex t := do
    let (err, mutex') ← pthreadCondWait other mutex t
    check .abort (err = .ok)
    return mutex'

end Posix

end Platforms

/-! ### The system -/

/-- What a thread is doing. -/
inductive Status where
  /-- It is not in a function. -/
  | running
  /-- It is blocked in `cop_mutex_lock(m)`. -/
  | locking (m : Addr)
  /-- It sleeps in `cop_cond_wait(c, m)`. -/
  | asleep (c m : Addr)
  /-- It was woken there, and has to lock `m` again. -/
  | woken (m : Addr)
  deriving DecidableEq

namespace Status

/-- The mutex that the thread waits for, or will. -/
def mutex : Status → Option Addr
  | .running => none
  | .locking m | .asleep _ m | .woken m => some m

/-- The condition that it sleeps on. -/
def cond : Status → Option Addr
  | .asleep c _ => some c
  | _ => none

/-- The mutex that it is to lock now. -/
def wants : Status → Option Addr
  | .locking m | .woken m => some m
  | _ => none

/-- It is woken. -/
def wake : Status → Status
  | .asleep _ m => .woken m
  | status => status

@[simp] theorem mutex_wake (status : Status) : status.wake.mutex = status.mutex := by cases status <;> rfl

end Status

/-- What a thread knows. -/
inductive Note (τ : Type) where
  /-- It holds the mutex, once more. -/
  | entered (t : τ) (m : Addr)
  /-- It has given it up, once. -/
  | left (t : τ) (m : Addr)
  /-- A function has returned a number. -/
  | returned (t : τ) (r : ℤ)
  deriving DecidableEq

/-- A call. What the platform decides is in it. -/
inductive Call (τ : Type) where
  /-- `cop_mutex_create(m)`, where `pthread_mutex_init` returns `env`. -/
  | mutexCreate (m : Addr) (env : Errno)
  /-- `cop_mutex_destroy(m)`. -/
  | mutexDestroy (m : Addr)
  /-- `cop_mutex_lock(m)`. -/
  | mutexLock (m : Addr)
  /-- `cop_mutex_unlock(m)`. -/
  | mutexUnlock (m : Addr)
  /-- `cop_mutex_trylock(m)`. -/
  | mutexTrylock (m : Addr)
  /-- `cop_cond_create(c)`, where `pthread_cond_init` returns `env`. -/
  | condCreate (c : Addr) (env : Errno)
  /-- `cop_cond_destroy(c)`. -/
  | condDestroy (c : Addr)
  /-- `cop_cond_wait(c, m)`. -/
  | condWait (c m : Addr)
  /-- `cop_cond_signal(c)`, which wakes that thread; none only if nobody sleeps there. -/
  | condSignal (c : Addr) (u : Option τ)
  /-- `cop_cond_broadcast(c)`. -/
  | condBroadcast (c : Addr)

/-- What happens. -/
inductive Moment (τ : Type) where
  /-- A thread calls a function. -/
  | call (t : τ) (c : Call τ)
  /-- A thread that is to lock a mutex does so, and returns. -/
  | granted (t : τ)
  /-- A thread that sleeps wakes up for no reason. -/
  | wakes (t : τ)

/-- The mutexes, conditions and threads on one platform. -/
structure Monitor (τ μ : Type) where
  /-- The mutexes that were created. -/
  mutexes : Addr → Option μ
  /-- The conditions that were created. -/
  conds : Addr → Bool
  /-- What the threads are doing. -/
  threads : τ → Status
  /-- What the threads know, the newest first. -/
  log : List (Note τ)
  /-- What went wrong. -/
  failed : Option Failure

namespace Monitor

variable {τ μ : Type} [DecidableEq τ]

section System

variable [Fintype τ] (A : Api τ μ) (s : Monitor τ μ)

/-- A mutex as it is in memory; where none was created there is none to be used. -/
def find (m : Addr) : Exec Failure μ :=
  match s.mutexes m with
  | some mutex => .ok mutex
  | none => .error (.fault .undefined)

/-- The state with another mutex at `m`. -/
def setMutex (m : Addr) (mutex : Option μ) : Monitor τ μ := { s with mutexes := Function.update s.mutexes m mutex }

/-- The state where a thread is doing something else. -/
def setThread (t : τ) (status : Status) : Monitor τ μ := { s with threads := Function.update s.threads t status }

/-- The state with more in the log. -/
def note (n : Note τ) : Monitor τ μ := { s with log := n :: s.log }

/-- A thread sleeps on the condition. -/
def Sleeps (c : Addr) : Prop := ∃ t, (s.threads t).cond = some c

instance (c : Addr) : Decidable (s.Sleeps c) := inferInstanceAs (Decidable (∃ _, _))

/-- A thread sleeps on the condition with another mutex. -/
def Mixed (c m : Addr) : Prop := ∃ t, (s.threads t).cond = some c ∧ (s.threads t).mutex ≠ some m

instance (c m : Addr) : Decidable (s.Mixed c m) := inferInstanceAs (Decidable (∃ _, _))

/-- A call of a thread that is running. -/
def call (t : τ) : Call τ → Exec Failure (Monitor τ μ)
  | .mutexCreate m env => do
    check .undefined (s.mutexes m).isNone
    let (r, mutex) := A.mutexCreate env
    return (s.setMutex m mutex).note (.returned t r)
  | .mutexDestroy m => do
    let mutex ← s.find m
    A.mutexDestroy mutex
    return s.setMutex m none
  | .mutexLock m => do
    let mutex ← s.find m
    match ← A.mutexLock mutex t with
    | none => return s.setThread t (.locking m)
    | some mutex' => return (s.setMutex m (some mutex')).note (.entered t m)
  | .mutexUnlock m => do
    let mutex ← s.find m
    let mutex' ← A.mutexUnlock mutex t
    return (s.setMutex m (some mutex')).note (.left t m)
  | .mutexTrylock m => do
    let mutex ← s.find m
    let (r, mutex') ← A.mutexTrylock mutex t
    let s' := if r = 0 then s else (s.setMutex m (some mutex')).note (.entered t m)
    return s'.note (.returned t r)
  | .condCreate c env => do
    check .undefined (s.conds c = false ∧ ¬ s.Sleeps c)
    let r ← A.condCreate env
    return { s with conds := Function.update s.conds c (r = 0) }.note (.returned t r)
  | .condDestroy c => do
    check .undefined (s.conds c)
    A.condDestroy (s.Sleeps c)
    return { s with conds := Function.update s.conds c false }
  | .condWait c m => do
    check .undefined (s.conds c)
    let mutex ← s.find m
    let mutex' ← A.condWait (s.Mixed c m) mutex t
    return ((s.setMutex m (some mutex')).setThread t (.asleep c m)).note (.left t m)
  | .condSignal c (some u) => do
    check .undefined (s.conds c)
    assume ((s.threads u).cond = some c)
    return s.setThread u (s.threads u).wake
  | .condSignal c none => do
    check .undefined (s.conds c)
    assume (¬ s.Sleeps c)
    return s
  | .condBroadcast c => do
    check .undefined (s.conds c)
    return { s with threads := fun u => if (s.threads u).cond = some c then (s.threads u).wake else s.threads u }

/-- What a moment does. -/
def happen : Moment τ → Exec Failure (Monitor τ μ)
  | .call t c => do
    assume (s.threads t = .running)
    s.call A t c
  | .granted t =>
    match (s.threads t).wants with
    | none => .error .env
    | some m => do
      let mutex ← s.find m
      match ← A.mutexLock mutex t with
      | none => .error .env
      | some mutex' => return ((s.setMutex m (some mutex')).setThread t .running).note (.entered t m)
  | .wakes t => do
    assume (s.threads t).cond.isSome
    return s.setThread t (s.threads t).wake

/-- A step. After a failure there is none. -/
def step (e : Moment τ) : Option (Monitor τ μ) :=
  match s.failed with
  | some _ => none
  | none =>
    match s.happen A e with
    | .ok s' => some s'
    | .error (.fault f) => some { s with failed := some f }
    | .error _ => none

/-- Before anything is created. -/
def init : Monitor τ μ := ⟨fun _ => none, fun _ => false, fun _ => .running, [], none⟩

end System

/-! ### What the log says -/

/-- How often a thread holds a mutex, after a log. -/
def held (t : τ) (m : Addr) : List (Note τ) → ℕ
  | [] => 0
  | .entered u k :: log => if u = t ∧ k = m then held t m log + 1 else held t m log
  | .left u k :: log => if u = t ∧ k = m then held t m log - 1 else held t m log
  | .returned _ _ :: log => held t m log

@[simp] theorem held_entered (t u : τ) (m k : Addr) (log : List (Note τ)) :
    held t m (.entered u k :: log) = if u = t ∧ k = m then held t m log + 1 else held t m log := rfl
@[simp] theorem held_left (t u : τ) (m k : Addr) (log : List (Note τ)) :
    held t m (.left u k :: log) = if u = t ∧ k = m then held t m log - 1 else held t m log := rfl
@[simp] theorem held_returned (t u : τ) (m : Addr) (r : ℤ) (log : List (Note τ)) :
    held t m (.returned u r :: log) = held t m log := rfl

/-! ### Proper use -/

variable {s : Monitor τ (Mutex τ)} {t : τ} {m c : Addr}

/-- What proper use keeps. -/
structure Sound (s : Monitor τ (Mutex τ)) : Prop where
  /-- Nothing went wrong. -/
  ok : s.failed = none
  /-- A mutex that a thread waits for is there, and held by another, if it is held. -/
  waits : ∀ t m, (s.threads t).mutex = some m → ∃ x, s.mutexes m = some x ∧ x ≠ some t
  /-- The log tells who holds a mutex. -/
  held : ∀ t m, held t m s.log = if s.mutexes m = some (some t) then 1 else 0

namespace Sound

theorem free (h : Sound s) (hm : s.mutexes m = some none) (t : τ) : Monitor.held t m s.log = 0 := by
  rw [h.held, hm]
  simp

theorem owned (h : Sound s) (hm : s.mutexes m = some (some t)) (u : τ) :
    Monitor.held u m s.log = if t = u then 1 else 0 := by
  rw [h.held, hm]
  simp

/-- A thread does something else, and waits for no mutex that it holds. -/
theorem setThread (h : Sound s) {status : Status} (hstatus : ∀ m, status.mutex = some m → ∃ x, s.mutexes m = some x ∧ x ≠ some t) :
    Sound (s.setThread t status) := by
  refine ⟨h.ok, fun u k hu => ?_, h.held⟩
  by_cases heq : u = t
  · subst heq
    exact hstatus k (by simpa [Monitor.setThread] using hu)
  · exact h.waits u k (by simpa [Monitor.setThread, Function.update_of_ne heq] using hu)

theorem returned (h : Sound s) (t : τ) (r : ℤ) : Sound (s.note (.returned t r)) := ⟨h.ok, h.waits, h.held⟩

/-- A mutex is free, or becomes free. -/
theorem release (h : Sound s) {n : Note τ} (hm : ∀ u, Monitor.held u m (n :: s.log) = 0)
    (hkeep : ∀ u k, k ≠ m → Monitor.held u k (n :: s.log) = Monitor.held u k s.log) :
    Sound ((s.setMutex m (some none)).note n) := by
  refine ⟨h.ok, fun u k hu => ?_, fun u k => ?_⟩
  · by_cases hk : k = m
    · subst hk
      exact ⟨none, by simp [Monitor.setMutex, note]⟩
    · simpa [Monitor.setMutex, note, Function.update_of_ne hk] using h.waits u k hu
  · by_cases hk : k = m
    · subst hk
      simpa [Monitor.setMutex, note] using hm u
    · simpa [Monitor.setMutex, note, Function.update_of_ne hk, h.held] using hkeep u k hk

theorem left (h : Sound s) (hm : s.mutexes m = some (some t)) : Sound ((s.setMutex m (some none)).note (.left t m)) := by
  refine h.release (fun u => ?_) fun u k hk => ?_
  · by_cases hu : t = u <;> simp [h.owned hm, hu]
  · simp [Ne.symm hk]

theorem wake (h : Sound s) (t : τ) : Sound (s.setThread t (s.threads t).wake) :=
  h.setThread fun m hm => h.waits t m (by rwa [Status.mutex_wake] at hm)

/-- A free mutex is taken by a thread that waits for none. -/
theorem take (h : Sound s) (hm : s.mutexes m = some none) (ht : (s.threads t).mutex = none) :
    Sound ((s.setMutex m (some (some t))).note (.entered t m)) := by
  refine ⟨h.ok, fun u k hu => ?_, fun u k => ?_⟩
  · by_cases hk : k = m
    · subst hk
      refine ⟨some t, by simp [Monitor.setMutex, note], ?_⟩
      rintro ⟨⟩
      rw [show ((s.setMutex k (some (some t))).note (.entered t k)).threads t = s.threads t from rfl, ht] at hu
      cases hu
    · simpa [Monitor.setMutex, note, Function.update_of_ne hk] using h.waits u k hu
  · by_cases hk : k = m
    · subst hk
      simp [Monitor.setMutex, note, h.free hm]
    · simp [Monitor.setMutex, note, Function.update_of_ne hk, h.held, Ne.symm hk]

end Sound

/-! ### The same on Windows -/

/-- A mutex that is held was entered once. -/
def entered : Mutex τ → CriticalSection τ := Option.map fun o => (o, 0)

/-- The same state on Windows. -/
def onWindows (s : Monitor τ (Mutex τ)) : Monitor τ (CriticalSection τ) :=
  ⟨fun m => (s.mutexes m).map entered, s.conds, s.threads, s.log, s.failed⟩

/-- Where a thread asks for a mutex that it holds, it gets it on Windows, and not with pthreads. -/
theorem trylock_held (t : τ) : Posix.api.mutexTrylock (some t) t = .ok (0, some t) ∧
    Windows.api.mutexTrylock (entered (some t)) t = .ok (1, some (t, 1)) :=
  ⟨rfl, by simp [Windows.api, Windows.tryEnterCriticalSection, Windows.enterCriticalSection, entered]⟩

/-! ### In step -/

/-- What happens on both platforms is the same, and is kept to; or it happens on neither. -/
def InStep (x : Exec Failure (Monitor τ (Mutex τ))) (y : Exec Failure (Monitor τ (CriticalSection τ))) : Prop :=
  (x = .error .env ∧ y = .error .env) ∨ ∃ s', x = .ok s' ∧ y = .ok s'.onWindows ∧ Sound s'

theorem InStep.assume {p : Prop} [Decidable p] {x : Exec Failure (Monitor τ (Mutex τ))}
    {y : Exec Failure (Monitor τ (CriticalSection τ))} (h : p → InStep x y) :
    InStep (Theory.assume p >>= fun _ => x) (Theory.assume p >>= fun _ => y) := by
  by_cases hp : p
  · rw [bind_of_ok (assume_pos hp), bind_of_ok (assume_pos hp)]
    exact h hp
  · exact .inl (by simp [Theory.assume, hp]; exact ⟨rfl, rfl⟩)

section Calls

variable [Fintype τ]

variable (h : Sound s)

include h

end Calls

section Runs

variable [Fintype τ]

end Runs

end Monitor

end Cop.Threading
