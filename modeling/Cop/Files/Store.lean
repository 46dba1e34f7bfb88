import Cop.Theory.Contract
import Mathlib.Data.List.GetD
import Mathlib.Logic.Function.Basic

/-!
# What mapped files are

`cop_filemap.h`: a file is mapped to memory with `cop_filemap_open`, until `cop_filemap_close`. Of what is written to
the memory the header says that it is carried through to the file with `COP_FILEMAP_SHARED`, and without it is
not. `cop_file_dump` writes a file anew.

## The model

* A `Store` is what a client sees: the files, and the objects that are open. What is written to an object that is
  not shared, it has for its own.
* `Rules` are what is said of a platform: what its calls return.
* `fileStore` is the contract of the client.

## What is proved

* `files_nextRun` — a file stays as it is in every run that does not dump it, and in which nothing is written to a shared
  object of it. What is written to other objects does not reach it.
* `dump_open_load` — what was dumped to a file is read from it, however the client went on in between, as long
  as it left the file alone.
-/

namespace Cop.Files

open Theory

/-- `COP_FILEMAP_FLAG_R`. -/
def copFilemapFlagR : ℕ := 0x1

/-- `COP_FILEMAP_FLAG_W`. -/
def copFilemapFlagW : ℕ := 0x2

/-- `COP_FILEMAP_SHARED`. -/
def copFilemapShared : ℕ := 0x4

/-! ### The store -/

/-- What is mapped, and what the memory is for. -/
structure View (ν : Type) where
  /-- The file. -/
  file : ν
  /-- It may be read. -/
  read : Bool
  /-- It may be written. -/
  write : Bool
  /-- It is the file, and no copy of it. -/
  shared : Bool
  deriving DecidableEq

/-- An object that is open. -/
structure Object (ν : Type) where
  /-- What is mapped. -/
  view : View ν
  /-- The file as it was when it was mapped, with what was written to the object since then if it is not shared. -/
  own : List UInt8

/-- What a client sees. -/
structure Store (ν : Type) where
  /-- The files that there are. -/
  files : ν → Option (List UInt8)
  /-- The objects that are open. -/
  objs : ℕ → Option (Object ν)

/-- The file `f` is `bytes`. -/
def Store.setFile {ν : Type} [DecidableEq ν] (s : Store ν) (f : ν) (bytes : Option (List UInt8)) : Store ν :=
  { s with files := Function.update s.files f bytes }

/-- The object `i` is `o`. -/
def Store.setObj {ν : Type} (s : Store ν) (i : ℕ) (o : Option (Object ν)) : Store ν :=
  { s with objs := Function.update s.objs i o }

@[simp] theorem Store.objs_setObj {ν : Type} (s : Store ν) (i : ℕ) (o : Option (Object ν)) :
    (s.setObj i o).objs = Function.update s.objs i o := rfl

@[simp] theorem Store.files_setFile {ν : Type} [DecidableEq ν] (s : Store ν) (f : ν) (bytes : Option (List UInt8)) :
    (s.setFile f bytes).files = Function.update s.files f bytes := rfl

theorem Store.setFile_setFile {ν : Type} [DecidableEq ν] (s : Store ν) (f : ν) (bytes bytes' : Option (List UInt8)) :
    (s.setFile f bytes).setFile f bytes' = s.setFile f bytes' := by
  simp [Store.setFile]

/-- What a client does. What a platform answers meanwhile is an argument. -/
inductive Call (φ α β : Type) where
  /-- `cop_filemap_open(&maps[i], filename, flags)`. -/
  | mapOpen (i : ℕ) (filename : φ) (flags : ℕ) (env : α)
  /-- `cop_filemap_close(&maps[i])`. -/
  | mapClose (i : ℕ)
  /-- `((unsigned char *)maps[i].ptr)[off]` is read. -/
  | load (i off : ℕ)
  /-- `b` is written there. -/
  | store (i off : ℕ) (b : UInt8)
  /-- `cop_file_dump(filename, buffer, size)`. -/
  | dump (filename : φ) (buffer : List UInt8) (env : β)

/-- What it is answered. -/
inductive Reply where
  /-- What a function returned. -/
  | code (ret : ℤ)
  /-- What was read. -/
  | byte (b : UInt8)
  /-- Nothing. -/
  | done
  deriving DecidableEq

variable {φ ν α β : Type} [DecidableEq ν]

/-- What is said of a platform. -/
structure Rules (φ ν α β : Type) where
  /-- The file of a name. -/
  name : φ → ν
  /-- What `cop_filemap_open` returns. -/
  opens : Store ν → ν → ℕ → α → ℤ
  /-- The rights that it asks for: to read, to write, and whether it is the file that is mapped. -/
  rights : ℕ → Bool × Bool × Bool
  /-- What `cop_file_dump` returns, and how much of the buffer is in the file then, if it was written at all. -/
  dumps : Store ν → ν → List UInt8 → β → ℤ × Option ℕ
  /-- What the client owes beyond what is said here. -/
  Owes : Store ν → Call φ α β → Prop

/-- What `cop_filemap_open` maps. -/
def Rules.view (R : Rules φ ν α β) (f : ν) (flags : ℕ) : View ν :=
  ⟨f, (R.rights flags).1, (R.rights flags).2.1, (R.rights flags).2.2⟩

/-- What is read from an object. -/
def Store.contents (s : Store ν) (o : Object ν) : List UInt8 :=
  if o.view.shared then (s.files o.view.file).getD [] else o.own

theorem Store.contents_shared {ν : Type} {s : Store ν} {o : Object ν} (h : o.view.shared = true) :
    s.contents o = (s.files o.view.file).getD [] := if_pos h

theorem Store.contents_own {ν : Type} {s : Store ν} {o : Object ν} (h : o.view.shared = false) : s.contents o = o.own := by
  simp [Store.contents, h]

/-- What a call leads to. -/
def Rules.next (R : Rules φ ν α β) (s : Store ν) : Call φ α β → Store ν
  | .mapOpen i filename flags env =>
    match s.files (R.name filename) with
    | none => s
    | some bytes =>
      if R.opens s (R.name filename) flags env = 0 then
        s.setObj i (some ⟨R.view (R.name filename) flags, bytes⟩)
      else s
  | .mapClose i => s.setObj i none
  | .load _ _ => s
  | .store i off b =>
    match s.objs i with
    | none => s
    | some o =>
      if o.view.shared then s.setFile o.view.file ((s.files o.view.file).map fun bytes => bytes.set off b)
      else s.setObj i (some { o with own := o.own.set off b })
  | .dump filename buffer env =>
    match (R.dumps s (R.name filename) buffer env).2 with
    | none => s
    | some n => s.setFile (R.name filename) (some (buffer.take n))

/-- Objects are opened when they are not open, and closed and used when they are; they are used as they were opened
for, within their size. -/
def Rules.Legal (R : Rules φ ν α β) (s : Store ν) (c : Call φ α β) : Prop :=
  R.Owes s c ∧ match c with
    | .mapOpen i _ _ _ => s.objs i = none
    | .mapClose i => s.objs i ≠ none
    | .load i off => ∃ o, s.objs i = some o ∧ o.view.read = true ∧ off < o.own.length
    | .store i off _ => ∃ o, s.objs i = some o ∧ o.view.write = true ∧ off < o.own.length
    | .dump _ _ _ => True

/-- The right answers. -/
def Rules.Allows (R : Rules φ ν α β) (s : Store ν) : Call φ α β → Reply → Prop
  | .mapOpen _ filename flags env, r => r = .code (R.opens s (R.name filename) flags env)
  | .mapClose _, r => r = .done
  | .load i off, r => ∃ o, s.objs i = some o ∧ r = .byte ((s.contents o).getD off 0)
  | .store _ _ _, r => r = .done
  | .dump filename buffer env, r => r = .code (R.dumps s (R.name filename) buffer env).1

/-- **The contract.** -/
def fileStore (R : Rules φ ν α β) : Contract (Store ν) (Call φ α β) Reply where
  Legal := R.Legal
  next := R.next
  Allows := R.Allows

variable {R : Rules φ ν α β} {s : Store ν} {f : ν}

@[simp] theorem fileStore_next : (fileStore R).next = R.next := rfl

theorem next_open_of_ne {i : ℕ} {filename : φ} {flags : ℕ} {env : α} (h : R.opens s (R.name filename) flags env ≠ 0) :
    R.next s (.mapOpen i filename flags env) = s := by
  simp only [Rules.next, if_neg h]
  split <;> rfl

theorem next_open {i : ℕ} {filename : φ} {flags : ℕ} {env : α} (h : R.opens s (R.name filename) flags env = 0)
    {bytes : List UInt8} (hfile : s.files (R.name filename) = some bytes) :
    R.next s (.mapOpen i filename flags env) = s.setObj i (some ⟨R.view (R.name filename) flags, bytes⟩) := by
  simp only [Rules.next, hfile, if_pos h]

theorem next_store {i off : ℕ} {b : UInt8} {o : Object ν} (ho : s.objs i = some o) :
    R.next s (.store i off b) =
      if o.view.shared then s.setFile o.view.file ((s.files o.view.file).map fun bytes => bytes.set off b)
      else s.setObj i (some { o with own := o.own.set off b }) := by
  simp only [Rules.next, ho]

theorem next_dump_none {filename : φ} {buffer : List UInt8} {env : β}
    (h : (R.dumps s (R.name filename) buffer env).2 = none) : R.next s (.dump filename buffer env) = s := by
  simp only [Rules.next, h]

theorem next_dump_some {filename : φ} {buffer : List UInt8} {env : β} {n : ℕ}
    (h : (R.dumps s (R.name filename) buffer env).2 = some n) :
    R.next s (.dump filename buffer env) = s.setFile (R.name filename) (some (buffer.take n)) := by
  simp only [Rules.next, h]

/-- A call that uses objects opens none, and closes none. -/
theorem view_next {c : Call φ α β} {i : ℕ} {o' : Object ν} (h : (R.next s c).objs i = some o')
    (hc : match c with | .mapOpen .. => False | .mapClose .. => False | _ => True) :
    ∃ o, s.objs i = some o ∧ o.view = o'.view := by
  cases c with
  | mapOpen => exact hc.elim
  | mapClose => exact hc.elim
  | load => exact ⟨o', h, rfl⟩
  | store j off b =>
    simp only [Rules.next] at h
    split at h
    · exact ⟨o', h, rfl⟩
    · rename_i o ho
      split at h
      · exact ⟨o', h, rfl⟩
      · rw [Store.objs_setObj] at h
        by_cases hij : i = j
        · subst hij
          rw [Function.update_self, Option.some.injEq] at h
          exact ⟨o, ho, by rw [← h]⟩
        · rw [Function.update_of_ne hij] at h
          exact ⟨o', h, rfl⟩
  | dump filename buffer env =>
    simp only [Rules.next] at h
    split at h
    · exact ⟨o', h, rfl⟩
    · exact ⟨o', h, rfl⟩

/-! ### Files -/

/-- The call dumps the file, or writes to a shared object of it. -/
def Rules.Touches (R : Rules φ ν α β) (f : ν) (s : Store ν) : Call φ α β → Prop
  | .store i _ _ => ∃ o, s.objs i = some o ∧ o.view.shared = true ∧ o.view.file = f
  | .dump filename _ _ => R.name filename = f
  | _ => False

/-- No call of the run does so. -/
def Rules.LeavesAlone (R : Rules φ ν α β) (f : ν) : Store ν → List (Call φ α β) → Prop
  | _, [] => True
  | s, c :: cs => ¬ R.Touches f s c ∧ R.LeavesAlone f (R.next s c) cs

theorem files_next {c : Call φ α β} (h : ¬ R.Touches f s c) : (R.next s c).files f = s.files f := by
  cases c with
  | mapOpen i filename flags env =>
    simp only [Rules.next]
    split
    · rfl
    · split <;> rfl
  | mapClose i => rfl
  | load i off => rfl
  | store i off b =>
    simp only [Rules.next]
    split
    · rfl
    · rename_i o ho
      split
      · rename_i hshared
        refine Function.update_of_ne ?_ _ _
        rintro rfl
        exact h ⟨o, ho, hshared, rfl⟩
      · rfl
  | dump filename buffer env =>
    simp only [Rules.next]
    split
    · rfl
    · exact Function.update_of_ne (Ne.symm h) _ _

/-- **A file that is left alone stays as it is.** -/
theorem files_nextRun {cs : List (Call φ α β)} (h : R.LeavesAlone f s cs) :
    ((fileStore R).nextRun s cs).files f = s.files f := by
  induction cs generalizing s with
  | nil => rfl
  | cons c cs ih => exact (ih h.2).trans (files_next h.1)

/-! ### A round trip -/

theorem allows_open_load {filename : φ} {i flags off : ℕ} {env : α} {os : List Reply}
    (hlegal : (fileStore R).LegalRun s [.mapOpen i filename flags env, .load i off])
    (h : (fileStore R).AllowsRun s [.mapOpen i filename flags env, .load i off] os) :
    ∃ bytes, s.files (R.name filename) = some bytes ∧ os = [.code 0, .byte (bytes.getD off 0)] := by
  obtain ⟨⟨-, hi⟩, ⟨-, o, ho, -, -⟩, -⟩ := hlegal
  obtain ⟨rO, _, rfl, hopen, rL, _, rfl, ⟨o', ho', hr⟩, rfl⟩ := h
  change rO = _ at hopen
  rw [fileStore_next] at ho ho' hr
  -- the object is open after the call
  have hzero : R.opens s (R.name filename) flags env = 0 := by
    by_contra hne
    rw [next_open_of_ne hne, hi] at ho
    cases ho
  cases hf : s.files (R.name filename) with
  | none =>
    simp only [Rules.next, hf, hi] at ho
    cases ho
  | some bytes =>
    rw [next_open hzero hf] at ho' hr
    rw [Store.objs_setObj, Function.update_self, Option.some.injEq] at ho'
    have hcontents : (s.setObj i (some ⟨R.view (R.name filename) flags, bytes⟩)).contents o' = bytes := by
      rw [← ho', Store.contents]
      split
      · simp [Rules.view, Store.setObj, hf]
      · rfl
    rw [hcontents] at hr
    exact ⟨bytes, rfl, by rw [hopen, hzero, hr]⟩

/-- **What was dumped to a file is read from it.** -/
theorem dump_open_load {filename : φ} {buffer : List UInt8} {envD : β} {cs : List (Call φ α β)} {i flags off : ℕ}
    {envO : α} {os : List Reply} {calls : List (Call φ α β)}
    (hcalls : calls = .dump filename buffer envD :: (cs ++ [.mapOpen i filename flags envO, .load i off]))
    (hlegal : (fileStore R).LegalRun s calls) (hrun : (fileStore R).AllowsRun s calls os)
    (halone : R.LeavesAlone (R.name filename) (R.next s (.dump filename buffer envD)) cs) :
    ∃ rs b, os = .code (R.dumps s (R.name filename) buffer envD).1 :: (rs ++ [.code 0, .byte b]) ∧
      ((R.dumps s (R.name filename) buffer envD).2 = some buffer.length → b = buffer.getD off 0) := by
  subst hcalls
  obtain ⟨-, hlegal⟩ := hlegal
  obtain ⟨rD, rest, rfl, hdump, hrest⟩ := hrun
  obtain ⟨-, hlast⟩ := (fileStore R).legalRun_append.1 hlegal
  obtain ⟨rs, os', rfl, -, hos⟩ := (fileStore R).allowsRun_append.1 hrest
  change rD = _ at hdump
  subst hdump
  obtain ⟨bytes, hfile, rfl⟩ := allows_open_load hlast hos
  refine ⟨rs, _, rfl, fun hwhole => ?_⟩
  rw [fileStore_next, files_nextRun halone, next_dump_some hwhole, Store.files_setFile, Function.update_self,
    List.take_length, Option.some.injEq] at hfile
  rw [hfile]

end Cop.Files
