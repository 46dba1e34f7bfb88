import Cop.Files.Memory
import Cop.Theory.Word

/-!
# Mapped files on Windows

`cop_filemap.c`, where `_MSC_VER` is defined. The name of a file is converted to UTF-16 in memory from `malloc`. An
open object keeps three things: a handle of the file, a handle of the mapping, and what is mapped.

## The model

* A `Sys` has the files, the mapped memory, the heap and the handles. What the calls of the system answer is an
  argument. `CreateFileW` shares a file with the handles there are, or refuses it. `CreateFileMapping` refuses an
  empty file, and returns `NULL` when it fails; the program compares with `INVALID_HANDLE_VALUE`, goes
  on to `MapViewOfFile(NULL, ..)`, which fails, and to `CloseHandle(NULL)`, which does nothing.
* `toWide` is the conversion of names.
* `rules` is what is said of the platform. A client owes nothing beyond the use of its objects.

## What is proved

* `gives_utf8ToW`, `gives_copFilemapOpen`, `gives_copFileDump` — what the functions do.
* `conflict_iff` — when `CreateFileW` refuses to share.
* `windows_refines` — the client sees a store, in every run. It never accesses what is not mapped, memory from
  `malloc` is given back, and handles and views are those of the open objects. If one of them writes to its file, no
  other is of this file.
* `windows_round_trip` — what `cop_file_dump` wrote is read through `cop_filemap_open`.
-/

namespace Cop.Files.Windows

open Theory

/-! ### The system -/

/-- `HANDLE`. -/
inductive Handle where
  /-- `NULL`. -/
  | null
  /-- `INVALID_HANDLE_VALUE`. -/
  | invalid
  /-- Any other. -/
  | of (n : ℕ)
  deriving DecidableEq

/-- Access to a file. -/
structure Access where
  /-- `GENERIC_READ`, or `FILE_SHARE_READ`. -/
  read : Bool
  /-- `GENERIC_WRITE`, or `FILE_SHARE_WRITE`. -/
  write : Bool

/-- There is nothing of the one access that is not in the other. -/
def Access.Within (a b : Access) : Prop := (a.read = true → b.read = true) ∧ (a.write = true → b.write = true)

instance (a b : Access) : Decidable (a.Within b) := inferInstanceAs (Decidable (_ ∧ _))

/-- What a handle is for. -/
inductive Target (ν : Type) where
  /-- A file, the access to it, and what it shares with other handles. -/
  | file (f : ν) (access share : Access)
  /-- A mapping of a file, for which pages may be written if `readwrite`. -/
  | mapping (f : ν) (readwrite : Bool)

/-- What is converted. -/
abbrev Utf8 := List UInt8

/-- What it is converted to, without the zero in the end. -/
abbrev Wide := List UInt16

/-- The system. -/
structure Sys where
  /-- The files, and what is mapped. -/
  mem : Memory Wide
  /-- What was taken with `malloc`. -/
  heap : List Region
  /-- The text at an address. -/
  text : ℕ → Wide
  /-- The handles that are open. -/
  handles : List Handle
  /-- What they are for. -/
  target : Handle → Target Wide

/-- The file cannot be shared between the handle and a new one. -/
def Target.Conflict {ν : Type} (t : Target ν) (f : ν) (access share : Access) : Prop :=
  match t with
  | .file f' access' share' => f' = f ∧ ¬ (access.Within share' ∧ access'.Within share)
  | .mapping _ _ => False

instance {ν : Type} [DecidableEq ν] (t : Target ν) (f : ν) (access share : Access) :
    Decidable (t.Conflict f access share) := by
  cases t
  · exact inferInstanceAs (Decidable (_ ∧ _))
  · exact inferInstanceAs (Decidable False)

/-- `INT_MAX`. -/
def intMax : ℕ := 2 ^ 31 - 1

/-- `MAXDWORD`. -/
def maxDword : ℕ := 2 ^ 32 - 1

/-- `SIZE_MAX`. -/
def sizeMax (w : ℕ) : ℕ := 2 ^ w - 1

namespace Sys

variable (toWide : Utf8 → Wide) (w : ℕ)

/-- `MultiByteToWideChar(CP_UTF8, 0, ustr, -1, out, cch)`: 0 when it fails, else the length of the text. It is stored where there
is an `out`. -/
def multiByteToWideChar (s : Sys) (ustr : Utf8) (out : Option ℕ) (cch : ℕ) (env : Bool) : Exec Misuse (ℕ × Sys) :=
  let n := (toWide ustr).length + 1
  if env = false ∨ intMax < n then .ok (0, s)
  else
    match out with
    | none => .ok (n, s)
    | some p => do
      check .access (∃ r ∈ s.heap, r.addr = p ∧ 2 * cch ≤ r.len)
      if cch < n then return (0, s)
      else return (n, { s with text := Function.update s.text p (toWide ustr) })

/-- A new handle, if there is one. -/
def newHandle (s : Sys) (t : Target Wide) (env : Option ℕ) : Exec Misuse (Option Handle × Sys) := do
  let (h, handles) ← take s.handles (env.map Handle.of)
  match h with
  | none => return (none, s)
  | some h => return (some h, { s with handles, target := Function.update s.target h t })

/-- `CreateFileW(wfn, access, share, NULL, createAlways ? CREATE_ALWAYS : OPEN_EXISTING, ..)`. -/
def createFileW (s : Sys) (wfn : ℕ) (access share : Access) (createAlways : Bool) (env : Option ℕ) :
    Exec Misuse (Handle × Sys) := do
  check .access (wfn ∈ s.heap.map Region.addr)
  let f := s.text wfn
  if ∃ h ∈ s.handles, (s.target h).Conflict f access share then return (.invalid, s)
  else if createAlways = false ∧ s.mem.files f = none then return (.invalid, s)
  else do
    let (h, s) ← s.newHandle (.file f access share) env
    match h with
    | none => return (.invalid, s)
    | some h =>
      if createAlways then do
        let mem ← s.mem.rewrite f []
        return (h, { s with mem })
      else return (h, s)

/-- `GetFileSizeEx(h, &fsz)`: the size of the file. -/
def getFileSizeEx (s : Sys) (h : Handle) (env : Bool) : Exec Misuse (Option ℕ) := do
  check .badClose (h ∈ s.handles)
  match s.target h with
  | .file f _ _ => return if env then some ((s.mem.files f).getD []).length else none
  | .mapping _ _ => return none

/-- `CreateFileMapping(h, NULL, readwrite ? PAGE_READWRITE : PAGE_READONLY, 0, 0, NULL)`. -/
def createFileMapping (s : Sys) (h : Handle) (readwrite : Bool) (env : Option ℕ) : Exec Misuse (Handle × Sys) := do
  check .badClose (h ∈ s.handles)
  match s.target h with
  | .file f access _ =>
    if (s.mem.files f).getD [] = [] ∨ access.read = false ∨ (readwrite && !access.write) = true then return (.null, s)
    else do
      let (m, s) ← s.newHandle (.mapping f readwrite) env
      return (m.getD .null, s)
  | .mapping _ _ => return (.null, s)

/-- `MapViewOfFile(h, access, 0, 0, 0)`, where `access` is `FILE_MAP_WRITE` if it is to be written and `shared`, `FILE_MAP_COPY` if it
is to be written and not `shared`, and `FILE_MAP_READ` else; 0 when it fails. -/
def mapViewOfFile (s : Sys) (h : Handle) (write shared : Bool) (env : Option ℕ) : Exec Misuse (ℕ × Sys) :=
  if h = .null then .ok (0, s)
  else do
    check .badClose (h ∈ s.handles)
    match s.target h with
    | .mapping f readwrite =>
      if (write && shared && !readwrite) = true then return (0, s)
      else
        match env with
        | none => return (0, s)
        | some a => do
          let bytes := (s.mem.files f).getD []
          assume (Fresh (2 ^ w) s.mem.views ⟨a, bytes.length⟩)
          return (a, { s with mem := s.mem.map ⟨a, bytes.length⟩ ⟨f, true, write, !write || shared⟩ bytes })
    | .file _ _ _ => return (0, s)

/-- `WriteFile(h, buffer, size, &nwritten, NULL)`, which writes `n` bytes. -/
def writeFile (s : Sys) (h : Handle) (buffer : List UInt8) (ok : Bool) (n : ℕ) : Exec Misuse (Bool × ℕ × Sys) := do
  check .badClose (h ∈ s.handles)
  match s.target h with
  | .file f _ _ => do
    assume (n ≤ buffer.length)
    let mem ← s.mem.rewrite f (buffer.take n)
    return (ok, n, { s with mem })
  | .mapping _ _ => return (false, 0, s)

/-- `CloseHandle(h)`. -/
def closeHandle (s : Sys) (h : Handle) : Exec Misuse Sys :=
  if h = .null then .ok s
  else do
    let handles ← giveBack .badClose s.handles h
    return { s with handles }

/-- `UnmapViewOfFile(ptr)`. -/
def unmapViewOfFile (s : Sys) (ptr : ℕ) : Exec Misuse Sys := do
  let views ← free .badUnmap s.mem.views ptr
  return { s with mem := { s.mem with views } }

end Sys

/-! ### The functions -/

/-- `struct cop_filemap`. -/
structure Filemap where
  /-- `ptr`. -/
  ptr : ℕ
  /-- `size`. -/
  size : ℕ
  /-- `filehandle`. -/
  filehandle : Handle
  /-- `maphandle`. -/
  maphandle : Handle

/-- The region that is mapped. -/
def Filemap.region (map : Filemap) : Region := ⟨map.ptr, map.size⟩

/-- The handles that are kept. -/
def Filemap.handles (map : Filemap) : List Handle := [map.maphandle, map.filehandle]

/-- What the system answers in `utf8_to_w`. -/
structure ConvertEnv where
  /-- The length is found. -/
  length : Bool
  /-- Where there is memory for the text, if there is any. -/
  wfn : Option ℕ
  /-- The text is converted. -/
  convert : Bool

/-- What the system answers in `cop_filemap_open`. -/
structure OpenEnv where
  /-- The conversion of the name. -/
  name : ConvertEnv
  /-- The handle of the file, if there is one. -/
  file : Option ℕ
  /-- `GetFileSizeEx` gives the size. -/
  size : Bool
  /-- The handle of the mapping, if there is one. -/
  mapping : Option ℕ
  /-- Where the file is mapped, if it is. -/
  addr : Option ℕ

/-- What the system answers in `cop_file_dump`. -/
structure DumpEnv where
  /-- The conversion of the name. -/
  name : ConvertEnv
  /-- The handle of the file, if there is one. -/
  file : Option ℕ
  /-- What `WriteFile` returns. -/
  ok : Bool
  /-- What it writes. -/
  wrote : ℕ

section Functions

variable (toWide : Utf8 → Wide) (w : ℕ)

/-- `utf8_to_w`. -/
def utf8ToW (s : Sys) (ustr : Utf8) (env : ConvertEnv) : Exec Misuse (Option ℕ × Sys) := do
  let (fnlen, s) ← s.multiByteToWideChar toWide ustr none 0 env.length
  if fnlen = 0 then return (none, s)
  else do
    let (wfn, heap) ← malloc (2 ^ w) s.heap (Word.mul w 2 fnlen) env.wfn
    let s := { s with heap }
    match wfn with
    | none => return (none, s)
    | some p => do
      let (n, s) ← s.multiByteToWideChar toWide ustr (some p) fnlen env.convert
      if n ≠ fnlen then do
        let heap ← free .badFree s.heap p
        return (none, { s with heap })
      else return (some p, s)

/-- `cop_file_dump`. -/
def copFileDump (s : Sys) (filename : Utf8) (buffer : List UInt8) (env : DumpEnv) : Exec Misuse (ℤ × Sys) :=
  if buffer.length > maxDword then .ok (-1, s)
  else do
    let (wfn, s) ← utf8ToW toWide w s filename env.name
    match wfn with
    | none => return (-1, s)
    | some wfn => do
      let (f, s) ← s.createFileW wfn ⟨false, true⟩ ⟨true, false⟩ true env.file
      if f = .invalid then do
        let heap ← free .badFree s.heap wfn
        return (-1, { s with heap })
      else do
        let (ok, nwritten, s) ← s.writeFile f buffer env.ok env.wrote
        if ok = false ∨ nwritten ≠ buffer.length then do
          let s ← s.closeHandle f
          let heap ← free .badFree s.heap wfn
          return (-1, { s with heap })
        else do
          let s ← s.closeHandle f
          let heap ← free .badFree s.heap wfn
          return (0, { s with heap })

/-- The file is to be written through: `flags` has `COP_FILEMAP_FLAG_W` and `COP_FILEMAP_SHARED`. -/
def through (flags : ℕ) : Bool := decide (flags &&& copFilemapFlagW ≠ 0 ∧ flags &&& copFilemapShared ≠ 0)

/-- `cop_filemap_open`, after the file was opened. -/
def mapFile (s : Sys) (map : Filemap) (flags : ℕ) (env : OpenEnv) : Exec Misuse (ℤ × Filemap × Sys) := do
  let fsz ← s.getFileSizeEx map.filehandle env.size
  match fsz with
  | none => do
    let s ← s.closeHandle map.filehandle
    return (-1, map, s)
  | some fsz =>
    if fsz > sizeMax w then do
      let s ← s.closeHandle map.filehandle
      return (-1, map, s)
    else do
      let map := { map with size := fsz }
      let (maphandle, s) ← s.createFileMapping map.filehandle (through flags) env.mapping
      let map := { map with maphandle }
      if maphandle = .invalid then do
        let s ← s.closeHandle map.filehandle
        return (-1, map, s)
      else do
        let (ptr, s) ← s.mapViewOfFile w maphandle (flags &&& copFilemapFlagW ≠ 0) (through flags) env.addr
        let map := { map with ptr }
        if ptr = 0 then do
          let s ← s.closeHandle map.maphandle
          let s ← s.closeHandle map.filehandle
          return (-1, map, s)
        else return (0, map, s)

/-- `cop_filemap_open`. -/
def copFilemapOpen (s : Sys) (map : Filemap) (filename : Utf8) (flags : ℕ) (env : OpenEnv) :
    Exec Misuse (ℤ × Filemap × Sys) := do
  let (wfn, s) ← utf8ToW toWide w s filename env.name
  match wfn with
  | none => return (-1, map, s)
  | some wfn => do
    let (filehandle, s) ← s.createFileW wfn ⟨true, through flags⟩ ⟨true, false⟩ false env.file
    let map := { map with filehandle }
    if filehandle = .invalid then do
      let heap ← free .badFree s.heap wfn
      return (-1, map, { s with heap })
    else do
      let heap ← free .badFree s.heap wfn
      mapFile w { s with heap } map flags env

/-- `cop_filemap_close`. -/
def copFilemapClose (s : Sys) (map : Filemap) : Exec Misuse Sys := do
  let s ← s.unmapViewOfFile map.ptr
  let s ← s.closeHandle map.maphandle
  s.closeHandle map.filehandle

end Functions

/-- A client, with the objects it passes to the functions. -/
structure Client where
  /-- The system. -/
  sys : Sys
  /-- The objects. -/
  maps : ℕ → Filemap

/-- What the client does. -/
def step (toWide : Utf8 → Wide) (w : ℕ) (c : Client) : Call Utf8 OpenEnv DumpEnv → Exec Misuse (Reply × Client)
  | .mapOpen i filename flags env => do
    let (ret, map, sys) ← copFilemapOpen toWide w c.sys (c.maps i) filename flags env
    return (.code ret, ⟨sys, Function.update c.maps i map⟩)
  | .mapClose i => do
    let sys ← copFilemapClose c.sys (c.maps i)
    return (.done, { c with sys })
  | .load i off => do
    let b ← c.sys.mem.load ((c.maps i).ptr + off)
    return (.byte b, c)
  | .store i off b => do
    let mem ← c.sys.mem.store ((c.maps i).ptr + off) b
    return (.done, { c with sys := { c.sys with mem } })
  | .dump filename buffer env => do
    let (ret, sys) ← copFileDump toWide w c.sys filename buffer env
    return (.code ret, { c with sys })

/-! ### What is said of the platform -/

/-- What is written to the object is in its file. -/
def writesThrough (o : Object Wide) : Bool := o.view.write && o.view.shared

/-- The name can be converted. -/
def Converts (f : Wide) (env : ConvertEnv) : Prop :=
  env.length = true ∧ f.length + 1 ≤ intMax ∧ env.wfn ≠ none ∧ env.convert = true

/-- The file is not shared with a new object, which is to write to it if `wr`: another object has it that writes to it, or
that does not want it to be written. -/
def Busy (D : Store Wide) (f : Wide) (wr : Bool) : Prop :=
  ∃ i o, D.objs i = some o ∧ o.view.file = f ∧ (wr = true ∨ writesThrough o = true)

/-- The file that was opened can be mapped. -/
structure Maps (w : ℕ) (bytes : List UInt8) (env : OpenEnv) : Prop where
  /-- It is not empty. -/
  ne_nil : bytes ≠ []
  /-- It is not too large. -/
  le : bytes.length ≤ sizeMax w
  /-- What the system answers. -/
  env : env.size = true ∧ env.mapping ≠ none ∧ env.addr ≠ none

/-- All that is needed to open an object. -/
structure Opens (w : ℕ) (D : Store Wide) (f : Wide) (flags : ℕ) (env : OpenEnv) : Prop where
  /-- Its name. -/
  name : Converts f env.name
  /-- Nobody else. -/
  share : ¬ Busy D f (through flags)
  /-- A handle. -/
  handle : env.file ≠ none
  /-- The file. -/
  file : ∃ bytes, D.files f = some bytes ∧ Maps w bytes env

/-- All that is needed to write a file anew. -/
structure Writes (D : Store Wide) (f : Wide) (buffer : List UInt8) (env : DumpEnv) : Prop where
  /-- Its name. -/
  name : Converts f env.name
  /-- Nobody else. -/
  share : ¬ Busy D f true
  /-- Bytes, not too many. -/
  size : buffer.length ≤ maxDword
  /-- What the system answers. -/
  env : env.file ≠ none

open Classical in
/-- The rules of the platform. -/
noncomputable def rules (toWide : Utf8 → Wide) (w : ℕ) : Rules Utf8 Wide OpenEnv DumpEnv where
  name := toWide
  opens s f flags env := if Opens w s f flags env then 0 else -1
  rights flags := (true, decide (flags &&& copFilemapFlagW ≠ 0),
    decide (flags &&& copFilemapFlagW = 0 ∨ flags &&& copFilemapShared ≠ 0))
  dumps s f buffer env :=
    if Writes s f buffer env then (if env.ok = true ∧ env.wrote = buffer.length then 0 else -1, some env.wrote)
    else (-1, none)
  Owes _ _ := True

section Rules

variable {toWide : Utf8 → Wide} {w : ℕ} {D : Store Wide} {f : Wide}

theorem opens_eq {flags : ℕ} {env : OpenEnv} (h : Opens w D f flags env) : (rules toWide w).opens D f flags env = 0 :=
  if_pos h

theorem opens_of_not {flags : ℕ} {env : OpenEnv} (h : ¬ Opens w D f flags env) :
    (rules toWide w).opens D f flags env = -1 := if_neg h

theorem dumps_eq {buffer : List UInt8} {env : DumpEnv} (h : Writes D f buffer env) :
    (rules toWide w).dumps D f buffer env =
      (if env.ok = true ∧ env.wrote = buffer.length then 0 else -1, some env.wrote) := if_pos h

theorem dumps_of_not {buffer : List UInt8} {env : DumpEnv} (h : ¬ Writes D f buffer env) :
    (rules toWide w).dumps D f buffer env = (-1, none) := if_neg h

end Rules

/-! ### What the functions do -/

variable {toWide : Utf8 → Wide} {w : ℕ} {s : Sys} {D : Store Wide}

theorem gives_newHandle (t : Target Wide) (env : Option ℕ) :
    Gives (fun x : Option Handle × Sys => (env = none ∧ x = (none, s)) ∨ ∃ n, env = some n ∧ .of n ∉ s.handles ∧
      x = (some (.of n), { s with handles := .of n :: s.handles, target := Function.update s.target (.of n) t }))
      (s.newHandle t env) := by
  rw [Sys.newHandle]
  cases env with
  | none => exact .inl ⟨rfl, rfl⟩
  | some n =>
    rw [Option.map_some]
    by_cases hn : Handle.of n ∈ s.handles
    · rw [take_env hn]
      trivial
    · rw [take_some hn]
      exact .inr ⟨n, rfl, hn, rfl⟩

theorem multiByteToWideChar_fail {ustr : Utf8} {env : Bool} (h : env = false ∨ intMax < (toWide ustr).length + 1)
    (out : Option ℕ) (cch : ℕ) : s.multiByteToWideChar toWide ustr out cch env = .ok (0, s) := if_pos h

theorem multiByteToWideChar_length {ustr : Utf8} {env : Bool} (h : ¬ (env = false ∨ intMax < (toWide ustr).length + 1))
    (cch : ℕ) : s.multiByteToWideChar toWide ustr none cch env = .ok ((toWide ustr).length + 1, s) := if_neg h

theorem multiByteToWideChar_text {ustr : Utf8} {env : Bool} (h : ¬ (env = false ∨ intMax < (toWide ustr).length + 1))
    {r : Region} (hr : r ∈ s.heap) (hlen : r.len = 2 * ((toWide ustr).length + 1)) :
    s.multiByteToWideChar toWide ustr (some r.addr) ((toWide ustr).length + 1) env =
      .ok ((toWide ustr).length + 1, { s with text := Function.update s.text r.addr (toWide ustr) }) := by
  refine (if_neg h).trans ?_
  simp only [check_pos (show ∃ q ∈ s.heap, q.addr = r.addr ∧ 2 * ((toWide ustr).length + 1) ≤ q.len from
    ⟨r, hr, rfl, hlen.ge⟩), lt_irrefl, if_false]
  rfl

/-- **`utf8_to_w`**: the text is in new memory, or no memory is taken. -/
theorem gives_utf8ToW (hw : 32 ≤ w) (ustr : Utf8) (env : ConvertEnv) :
    Gives (fun x : Option ℕ × Sys => (¬ Converts (toWide ustr) env ∧ x = (none, s)) ∨
      (Converts (toWide ustr) env ∧ ∃ r, Fresh (2 ^ w) s.heap r ∧
        x = (some r.addr, { s with heap := r :: s.heap, text := Function.update s.text r.addr (toWide ustr) })))
      (utf8ToW toWide w s ustr env) := by
  rw [utf8ToW]
  by_cases hlen : env.length = false ∨ intMax < (toWide ustr).length + 1
  · rw [multiByteToWideChar_fail hlen]
    refine .inl ⟨fun h => ?_, rfl⟩
    obtain hf | hf := hlen
    · rw [h.1] at hf
      cases hf
    · exact absurd h.2.1 (by omega)
  · rw [multiByteToWideChar_length hlen]
    obtain ⟨hlength, hmax⟩ := not_or.1 hlen
    have hmul : Word.mul w 2 ((toWide ustr).length + 1) = 2 * ((toWide ustr).length + 1) := by
      refine Word.mul_of_lt (lt_of_lt_of_le ?_ (Nat.pow_le_pow_right (by decide) hw))
      unfold intMax at hmax
      omega
    change Gives _ (malloc (2 ^ w) s.heap (Word.mul w 2 ((toWide ustr).length + 1)) env.wfn >>= _)
    rw [hmul]
    refine gives_bind (gives_malloc _ env.wfn) ?_
    rintro ⟨wfn, heap⟩ ⟨hwfn, hmalloc⟩
    change wfn = env.wfn at hwfn
    cases henv : env.wfn with
    | none =>
      rw [henv] at hwfn hmalloc
      change heap = s.heap at hmalloc
      subst hwfn hmalloc
      exact .inl ⟨fun h => h.2.2.1 henv, rfl⟩
    | some a =>
      rw [henv] at hwfn hmalloc
      obtain ⟨hfresh, hheap⟩ := hmalloc
      change heap = _ at hheap
      subst hwfn hheap
      generalize hr : (⟨a, 2 * ((toWide ustr).length + 1)⟩ : Region) = r at hfresh ⊢
      obtain rfl : a = r.addr := by rw [← hr]
      change Gives _ (Sys.multiByteToWideChar toWide { s with heap := r :: s.heap } ustr (some r.addr) _ env.convert >>= _)
      by_cases hconv : env.convert = false ∨ intMax < (toWide ustr).length + 1
      · rw [multiByteToWideChar_fail hconv]
        change Gives _ (free Misuse.badFree (r :: s.heap) r.addr >>= _)
        rw [free_cons _ hfresh]
        refine .inl ⟨fun h => ?_, rfl⟩
        obtain hf | hf := hconv
        · rw [h.2.2.2] at hf
          cases hf
        · exact hmax hf
      · rw [multiByteToWideChar_text hconv List.mem_cons_self (by rw [← hr])]
        change Gives _ (if (toWide ustr).length + 1 ≠ (toWide ustr).length + 1 then _ else _)
        rw [if_neg (not_not.2 rfl)]
        refine .inr ⟨⟨by simpa using hlength, by omega, by rw [henv]; exact Option.some_ne_none _, ?_⟩, r, hfresh, rfl⟩
        simpa using (not_or.1 hconv).1

/-! ### Handles -/

/-- What the calls keep: the memory shows the store, and the open objects keep all handles. -/
structure Holds (w : ℕ) (D : Store Wide) (s : Sys) (maps : ℕ → Filemap) (held : List ℕ) : Prop where
  /-- The memory. -/
  shows : Shows (2 ^ w) D s.mem (Filemap.region ∘ maps) held
  /-- The handles. -/
  handles : Owned held (Filemap.handles ∘ maps) [] s.handles
  /-- They are handles. -/
  valid : ∀ h ∈ s.handles, h ≠ .null ∧ h ≠ .invalid
  /-- What they are for. -/
  target : ∀ i o, D.objs i = some o →
    s.target (maps i).filehandle = .file o.view.file ⟨true, writesThrough o⟩ ⟨true, false⟩ ∧
      ∃ rw, s.target (maps i).maphandle = .mapping o.view.file rw
  /-- If an object writes to its file, no other is of this file. -/
  single : ∀ i j o o', D.objs i = some o → D.objs j = some o' → o.view.file = o'.view.file → writesThrough o = true → i = j

namespace Holds

variable {maps : ℕ → Filemap} {held : List ℕ}

/-- **When `CreateFileW` refuses to share** a file. -/
theorem conflict_iff (h : Holds w D s maps held) (f : Wide) (access : Access) :
    (∃ x ∈ s.handles, (s.target x).Conflict f access ⟨true, false⟩) ↔ Busy D f access.write := by
  constructor
  · rintro ⟨x, hx, hconf⟩
    have hmem := h.handles.mem_iff.1 hx
    rw [List.append_nil, List.mem_flatMap] at hmem
    obtain ⟨i, hi, hxi⟩ := hmem
    obtain ⟨o, ho⟩ := Option.ne_none_iff_exists'.1 ((h.shows.mem_iff i).1 hi)
    obtain ⟨hfile, rw, hmap⟩ := h.target i o ho
    refine ⟨i, o, ho, ?_⟩
    rcases List.mem_cons.1 hxi with rfl | hxi
    · rw [hmap] at hconf
      exact hconf.elim
    · obtain rfl := List.mem_singleton.1 hxi
      rw [hfile] at hconf
      obtain ⟨heq, hnot⟩ := hconf
      refine ⟨heq, ?_⟩
      by_contra hno
      obtain ⟨hw, ht⟩ := not_or.1 hno
      exact hnot ⟨⟨fun _ => rfl, fun hw' => absurd hw' hw⟩, fun _ => rfl, fun ht' => absurd ht' ht⟩
  · rintro ⟨i, o, ho, rfl, hw⟩
    obtain ⟨hfile, -⟩ := h.target i o ho
    refine ⟨(maps i).filehandle, h.handles.mem (h.shows.mem_held ho) (by simp [Filemap.handles]), ?_⟩
    rw [hfile]
    refine ⟨rfl, fun hwithin => ?_⟩
    rcases hw with hw | ht
    · exact absurd (hwithin.1.2 hw) (by decide)
    · exact absurd (hwithin.2.2 ht) (by decide)

/-- What is in the files and in the copies does not matter. -/
theorem frame (h : Holds w D s maps held) {D' : Store Wide} {s' : Sys}
    (hD : ∀ i o', D'.objs i = some o' → ∃ o, D.objs i = some o ∧ o.view = o'.view)
    (hshow : Shows (2 ^ w) D' s'.mem (Filemap.region ∘ maps) held) (hhandles : s'.handles = s.handles)
    (htarget : ∀ x ∈ s.handles, s'.target x = s.target x) : Holds w D' s' maps held := by
  have hthrough : ∀ {o o' : Object Wide}, o.view = o'.view → writesThrough o = writesThrough o' :=
    fun hview => by rw [writesThrough, writesThrough, hview]
  refine ⟨hshow, hhandles ▸ h.handles, hhandles ▸ h.valid, fun i o' ho' => ?_, fun i j o₁ o₂ h₁ h₂ hsame hwt => ?_⟩
  · obtain ⟨o, ho, hview⟩ := hD i o' ho'
    have hkept : ∀ x ∈ (maps i).handles, x ∈ s.handles := fun x hx => h.handles.mem (h.shows.mem_held ho) hx
    rw [htarget _ (hkept _ (by simp [Filemap.handles])), htarget _ (hkept _ (by simp [Filemap.handles])), ← hview,
      ← hthrough hview]
    exact h.target i o ho
  · obtain ⟨o, ho, hview⟩ := hD i o₁ h₁
    obtain ⟨o', ho', hview'⟩ := hD j o₂ h₂
    exact h.single i j o o' ho ho' (by rw [hview, hview', hsame]) (by rw [hthrough hview, hwt])

/-- The memory, the handles and what they are for are all that matters. -/
theorem congr (h : Holds w D s maps held) {s' : Sys} (hmem : s'.mem = s.mem) (hhandles : s'.handles = s.handles)
    (htarget : ∀ x ∈ s.handles, s'.target x = s.target x) : Holds w D s' maps held :=
  h.frame (fun _ o ho => ⟨o, ho, rfl⟩) (hmem ▸ h.shows) hhandles htarget

theorem update_map (h : Holds w D s maps held) {i : ℕ} (hi : D.objs i = none) (map : Filemap) :
    Holds w D s (Function.update maps i map) held := by
  have hni : i ∉ held := fun hmem => (h.shows.mem_iff i).1 hmem hi
  refine ⟨?_, ?_, h.valid, fun j o ho => ?_, h.single⟩
  · rw [Function.comp_update]
    exact h.shows.update_region hi _
  · rw [Function.comp_update]
    exact h.handles.update hni _
  · rw [Function.update_of_ne (by rintro rfl; rw [hi] at ho; cases ho)]
    exact h.target j o ho

end Holds

section Calls

variable {maps : ℕ → Filemap} {held : List ℕ} {f : Wide}

theorem closeHandle_cons {n : ℕ} {L : List Handle} (h : s.handles = .of n :: L) :
    s.closeHandle (.of n) = .ok { s with handles := L } := by
  rw [Sys.closeHandle, if_neg Handle.noConfusion, giveBack, check_pos (by simp [h]), h, List.erase_cons_head]
  rfl

theorem closeHandle_eq {x : Handle} (hnull : x ≠ .null) (hx : x ∈ s.handles) :
    s.closeHandle x = .ok { s with handles := s.handles.erase x } := by
  rw [Sys.closeHandle, if_neg hnull, giveBack, check_pos hx]
  rfl

/-- **`CreateFileW`** for a file that is to be there. -/
theorem gives_createFileW (h : Holds w D s maps held) {wfn : ℕ} (hwfn : wfn ∈ s.heap.map Region.addr)
    (htext : s.text wfn = f) (access : Access) (env : Option ℕ) :
    Gives (fun x : Handle × Sys => (x = (.invalid, s) ∧ (Busy D f access.write ∨ D.files f = none ∨ env = none)) ∨
      ∃ n bytes, ¬ Busy D f access.write ∧ D.files f = some bytes ∧ env = some n ∧ .of n ∉ s.handles ∧
        x = (.of n, { s with
          handles := .of n :: s.handles
          target := Function.update s.target (.of n) (.file f access ⟨true, false⟩) }))
      (s.createFileW wfn access ⟨true, false⟩ false env) := by
  refine gives_check_bind hwfn ?_
  rw [htext]
  by_cases hconf : ∃ x ∈ s.handles, (s.target x).Conflict f access ⟨true, false⟩
  · rw [if_pos hconf]
    exact .inl ⟨rfl, .inl ((h.conflict_iff f access).1 hconf)⟩
  · rw [if_neg hconf]
    cases hfile : D.files f with
    | none =>
      rw [if_pos ⟨rfl, by rw [h.shows.files, hfile]⟩]
      exact .inl ⟨rfl, .inr (.inl rfl)⟩
    | some bytes =>
      rw [if_neg (by simp [h.shows.files, hfile])]
      refine gives_bind (gives_newHandle _ env) ?_
      rintro _ (⟨henv, rfl⟩ | ⟨n, henv, hn, rfl⟩)
      · exact .inl ⟨rfl, .inr (.inr henv)⟩
      · exact .inr ⟨n, bytes, fun hbusy => hconf ((h.conflict_iff f access).2 hbusy), rfl, henv, hn, rfl⟩

/-- **`CreateFileMapping`** with a handle that was opened for what is asked for. -/
theorem gives_createFileMapping {n : ℕ} {th : Bool} {share : Access} {bytes : List UInt8} (hn : .of n ∈ s.handles)
    (htarget : s.target (.of n) = .file f ⟨true, th⟩ share) (hfile : s.mem.files f = some bytes) (env : Option ℕ) :
    Gives (fun x : Handle × Sys => (x = (.null, s) ∧ (bytes = [] ∨ env = none)) ∨
      ∃ m, bytes ≠ [] ∧ env = some m ∧ .of m ∉ s.handles ∧ x = (.of m, { s with
        handles := .of m :: s.handles
        target := Function.update s.target (.of m) (.mapping f th) }))
      (s.createFileMapping (.of n) th env) := by
  have hrights : (th && !th) = false := by cases th <;> rfl
  refine gives_check_bind hn ?_
  simp only [htarget, hfile, Option.getD_some, hrights, Bool.true_eq_false, Bool.false_eq_true, or_false]
  by_cases hnil : bytes = []
  · rw [if_pos hnil]
    exact .inl ⟨rfl, .inl hnil⟩
  · rw [if_neg hnil]
    refine gives_bind (gives_newHandle _ env) ?_
    rintro _ (⟨henv, rfl⟩ | ⟨m, henv, hm, rfl⟩)
    · exact .inl ⟨rfl, .inr henv⟩
    · exact .inr ⟨m, hnil, henv, hm, rfl⟩

/-- **`MapViewOfFile`** with a mapping that was made for what is asked for. -/
theorem gives_mapViewOfFile {m : ℕ} {wr sh : Bool} {bytes : List UInt8} (hm : .of m ∈ s.handles)
    (htarget : s.target (.of m) = .mapping f (wr && sh)) (hfile : s.mem.files f = some bytes) (env : Option ℕ) :
    Gives (fun x : ℕ × Sys => (x = (0, s) ∧ env = none) ∨
      ∃ a, env = some a ∧ a ≠ 0 ∧ Fresh (2 ^ w) s.mem.views ⟨a, bytes.length⟩ ∧
        x = (a, { s with mem := s.mem.map ⟨a, bytes.length⟩ ⟨f, true, wr, !wr || sh⟩ bytes }))
      (s.mapViewOfFile w (.of m) wr (wr && sh) env) := by
  have hrights : (wr && (wr && sh) && !(wr && sh)) = false := by cases wr <;> cases sh <;> rfl
  have hshared : (!wr || (wr && sh)) = (!wr || sh) := by cases wr <;> rfl
  rw [Sys.mapViewOfFile, if_neg Handle.noConfusion]
  refine gives_check_bind hm ?_
  simp only [htarget, hfile, Option.getD_some, hrights, hshared, Bool.false_eq_true, if_false]
  cases env with
  | none => exact .inl ⟨rfl, rfl⟩
  | some a =>
    refine gives_assume_bind fun hfresh => ?_
    exact .inr ⟨a, rfl, Nat.pos_iff_ne_zero.1 hfresh.1.1, hfresh, rfl⟩

theorem through_eq (flags : ℕ) :
    through flags = (decide (flags &&& copFilemapFlagW ≠ 0) && decide (flags &&& copFilemapShared ≠ 0)) := by
  rw [through, Bool.decide_and]

theorem view_eq (f : Wide) (flags : ℕ) : (rules toWide w).view f flags =
    ⟨f, true, decide (flags &&& copFilemapFlagW ≠ 0),
      !decide (flags &&& copFilemapFlagW ≠ 0) || decide (flags &&& copFilemapShared ≠ 0)⟩ := by
  simp [Rules.view, rules, Bool.decide_or]

/-- What `cop_filemap_open` leads to when it returns 0, where the handles `L` are open and `mem` is the memory. -/
structure Opened (w : ℕ) (L : List Handle) (mem : Memory Wide) (f : Wide) (flags : ℕ) (bytes : List UInt8) (map : Filemap)
    (s : Sys) : Prop where
  /-- The handles of the object are open. -/
  handles : s.handles = map.handles ++ L
  /-- They are handles. -/
  valid : ∀ h ∈ map.handles, h ≠ .null ∧ h ≠ .invalid
  /-- One is for the file. -/
  file : s.target map.filehandle = .file f ⟨true, through flags⟩ ⟨true, false⟩
  /-- One is for the mapping. -/
  mapping : s.target map.maphandle = .mapping f (through flags)
  /-- The file is mapped where nothing was. -/
  fresh : Fresh (2 ^ w) mem.views map.region
  /-- It is mapped as large as it is. -/
  size : map.size = bytes.length
  /-- It is mapped as it was asked for. -/
  mem : s.mem = mem.map map.region ⟨f, true, decide (flags &&& copFilemapFlagW ≠ 0),
    !decide (flags &&& copFilemapFlagW ≠ 0) || decide (flags &&& copFilemapShared ≠ 0)⟩ bytes

theorem gives_mapFile {n : ℕ} {L : List Handle} (map : Filemap) {flags : ℕ} {bytes : List UInt8}
    (hhandle : map.filehandle = .of n) (hhandles : s.handles = .of n :: L)
    (htarget : s.target (.of n) = .file f ⟨true, through flags⟩ ⟨true, false⟩) (hbytes : s.mem.files f = some bytes)
    (env : OpenEnv) :
    Gives (fun x : ℤ × Filemap × Sys => x.2.2.heap = s.heap ∧ (∀ y ∈ s.handles, x.2.2.target y = s.target y) ∧
      ((x.1 = -1 ∧ ¬ Maps w bytes env ∧ x.2.2.mem = s.mem ∧ x.2.2.handles = L) ∨
        (x.1 = 0 ∧ Maps w bytes env ∧ Opened w L s.mem f flags bytes x.2.1 x.2.2)))
      (mapFile w s map flags env) := by
  have hmem : Handle.of n ∈ s.handles := by simp [hhandles]
  have hsize : s.getFileSizeEx (.of n) env.size = .ok (if env.size then some bytes.length else none) := by
    rw [Sys.getFileSizeEx, check_pos hmem]
    simp only [htarget, hbytes]
    rfl
  rw [mapFile, hhandle, hsize]
  cases hstat : env.size with
  | false =>
    change Gives _ (s.closeHandle (.of n) >>= _)
    rw [closeHandle_cons hhandles]
    refine ⟨rfl, fun _ _ => rfl, .inl ⟨rfl, fun h => ?_, rfl, rfl⟩⟩
    exact absurd (hstat.symm.trans h.env.1) (by decide)
  | true =>
    change Gives _ (if bytes.length > sizeMax w then _ else _)
    by_cases hbig : bytes.length > sizeMax w
    · rw [if_pos hbig, closeHandle_cons hhandles]
      refine ⟨rfl, fun _ _ => rfl, .inl ⟨rfl, fun h => ?_, rfl, rfl⟩⟩
      exact absurd h.le (by omega)
    · rw [if_neg hbig]
      refine gives_bind (gives_createFileMapping hmem htarget hbytes env.mapping) ?_
      rintro _ (⟨rfl, hno⟩ | ⟨m, hnil, hmap, hm, rfl⟩)
      · -- `CreateFileMapping` fails with `NULL`, and so does `MapViewOfFile`
        change Gives _ (s.closeHandle (.of n) >>= _)
        rw [closeHandle_cons hhandles]
        refine ⟨rfl, fun _ _ => rfl, .inl ⟨rfl, fun h => ?_, rfl, rfl⟩⟩
        obtain hnil | hmap := hno
        · exact h.ne_nil hnil
        · exact h.env.2.1 hmap
      · generalize hs' : ({ s with
          handles := .of m :: s.handles
          target := Function.update s.target (.of m) (.mapping f (through flags)) } : Sys) = s'
        have hheap' : s'.heap = s.heap := by rw [← hs']
        have hmem' : s'.mem = s.mem := by rw [← hs']
        have hhandles' : s'.handles = .of m :: s.handles := by rw [← hs']
        have htarget' : ∀ y ∈ s.handles, s'.target y = s.target y := by
          intro y hy
          rw [← hs']
          refine Function.update_of_ne ?_ _ _
          rintro rfl
          exact hm hy
        have hmapping : s'.target (.of m) = .mapping f (through flags) := by
          rw [← hs']
          exact Function.update_self ..
        change Gives _ (s'.mapViewOfFile w (.of m) _ (through flags) env.addr >>= _)
        have hview := gives_mapViewOfFile (w := w) (by simp [hhandles']) (through_eq flags ▸ hmapping)
          (by rw [hmem', hbytes]) env.addr
        rw [← through_eq] at hview
        refine gives_bind hview ?_
        rintro _ (⟨rfl, haddr⟩ | ⟨a, haddr, ha, hfresh, rfl⟩)
        · have hclose : ({ s' with handles := s.handles } : Sys).closeHandle (.of n) = .ok { s' with handles := L } :=
            closeHandle_cons hhandles
          change Gives _ (s'.closeHandle (.of m) >>= _)
          rw [closeHandle_cons hhandles']
          change Gives _ (Sys.closeHandle { s' with handles := s.handles } (.of n) >>= _)
          rw [hclose]
          refine ⟨hheap', htarget', .inl ⟨rfl, fun h => ?_, hmem', rfl⟩⟩
          exact h.env.2.2 haddr
        · change Gives _ (if a = 0 then _ else _)
          rw [if_neg ha]
          rw [hmem'] at hfresh
          refine ⟨hheap', htarget', .inr ⟨rfl, ⟨hnil, by omega, hstat, ?_, ?_⟩, ?_⟩⟩
          · rw [hmap]
            exact Option.some_ne_none m
          · rw [haddr]
            exact Option.some_ne_none a
          · refine ⟨?_, ?_, (htarget' _ hmem).trans htarget, hmapping, hfresh, rfl, ?_⟩
            · rw [hhandles', hhandles]
              rfl
            · intro h hh
              rcases List.mem_cons.1 hh with rfl | hh
              · exact ⟨Handle.noConfusion, Handle.noConfusion⟩
              · obtain rfl := List.mem_singleton.1 hh
                exact ⟨Handle.noConfusion, Handle.noConfusion⟩
            · change s'.mem.map _ _ _ = _
              rw [hmem']
              rfl

/-- **`cop_filemap_open`**: it returns what the rules say, the memory for the name is given back, and so are all handles when
it fails. -/
theorem gives_copFilemapOpen (hw : 32 ≤ w) (h : Holds w D s maps held) (map : Filemap) (filename : Utf8) (flags : ℕ)
    (env : OpenEnv) : Gives (fun x : ℤ × Filemap × Sys => x.2.2.heap = s.heap ∧
      (∀ y ∈ s.handles, x.2.2.target y = s.target y) ∧
      ((x.1 = -1 ∧ ¬ Opens w D (toWide filename) flags env ∧ x.2.2.mem = s.mem ∧ x.2.2.handles = s.handles) ∨
        (x.1 = 0 ∧ Opens w D (toWide filename) flags env ∧ ∃ bytes, D.files (toWide filename) = some bytes ∧
          Opened w s.handles s.mem (toWide filename) flags bytes x.2.1 x.2.2)))
      (copFilemapOpen toWide w s map filename flags env) := by
  rw [copFilemapOpen]
  refine gives_bind (gives_utf8ToW hw filename env.name) ?_
  rintro _ (⟨hname, rfl⟩ | ⟨hname, r, hr, rfl⟩)
  · exact ⟨rfl, fun _ _ => rfl, .inl ⟨rfl, fun hopens => hname hopens.name, rfl, rfl⟩⟩
  generalize hs₁ : ({ s with
    heap := r :: s.heap, text := Function.update s.text r.addr (toWide filename) } : Sys) = s₁
  have hheap₁ : s₁.heap = r :: s.heap := by rw [← hs₁]
  have hmem₁ : s₁.mem = s.mem := by rw [← hs₁]
  have hhandles₁ : s₁.handles = s.handles := by rw [← hs₁]
  have htarget₁ : s₁.target = s.target := by rw [← hs₁]
  have htext : s₁.text r.addr = toWide filename := by simp [← hs₁]
  have h₁ : Holds w D s₁ maps held := h.congr hmem₁ hhandles₁ fun _ _ => by rw [htarget₁]
  refine gives_bind (gives_createFileW h₁ (by simp [hheap₁]) htext ⟨true, through flags⟩ env.file) ?_
  rintro _ (⟨rfl, hno⟩ | ⟨n, bytes, hshare, hfile, henv, hn, rfl⟩)
  · change Gives _ (free Misuse.badFree s₁.heap r.addr >>= _)
    rw [hheap₁, free_cons _ hr]
    refine ⟨rfl, fun _ _ => by rw [← htarget₁], .inl ⟨rfl, fun hopens => ?_, hmem₁, hhandles₁⟩⟩
    obtain hbusy | hnone | henv := hno
    · exact hopens.share hbusy
    · obtain ⟨bytes, hbytes, -⟩ := hopens.file
      rw [hnone] at hbytes
      cases hbytes
    · exact hopens.handle henv
  · rw [hhandles₁] at hn
    change Gives _ (free Misuse.badFree s₁.heap r.addr >>= _)
    rw [hheap₁, free_cons _ hr]
    generalize htarget₂ : Function.update s₁.target (.of n)
      (.file (toWide filename) ⟨true, through flags⟩ ⟨true, false⟩) = target₂
    have hkeep : ∀ y ∈ s.handles, target₂ y = s.target y := by
      intro y hy
      rw [← htarget₂, ← htarget₁]
      refine Function.update_of_ne ?_ _ _
      rintro rfl
      exact hn hy
    have hfile₂ : target₂ (.of n) = .file (toWide filename) ⟨true, through flags⟩ ⟨true, false⟩ := by
      rw [← htarget₂]
      exact Function.update_self ..
    have hmap := gives_mapFile (w := w) (s := ⟨s.mem, s.heap, s₁.text, .of n :: s.handles, target₂⟩)
      { map with filehandle := .of n } rfl rfl hfile₂ (by rw [← hfile, h.shows.files]) env
    rw [hmem₁, hhandles₁]
    refine hmap.mono ?_
    rintro x ⟨hheap, htarget, hout⟩
    refine ⟨hheap, fun y hy => (htarget y (List.mem_cons_of_mem _ hy)).trans (hkeep y hy), ?_⟩
    obtain ⟨hret, hno, hmem, hhandles⟩ | ⟨hret, hmaps, hopened⟩ := hout
    · refine .inl ⟨hret, fun hopens => ?_, hmem, hhandles⟩
      obtain ⟨bytes', hbytes', hmaps⟩ := hopens.file
      rw [hfile, Option.some.injEq] at hbytes'
      exact hno (hbytes' ▸ hmaps)
    · refine .inr ⟨hret, ⟨hname, hshare, ?_, bytes, hfile, hmaps⟩, bytes, hfile, hopened⟩
      rw [henv]
      exact Option.some_ne_none n

theorem gives_writeFile {region : ℕ → Region} (hshow : Shows (2 ^ w) D s.mem region held)
    (hno : ∀ i o, D.objs i = some o → o.view.file ≠ f) {x : Handle} (hx : x ∈ s.handles) {access share : Access}
    (htarget : s.target x = .file f access share) (buffer : List UInt8) (ok : Bool) (n : ℕ) :
    Gives (fun y : Bool × ℕ × Sys => y.1 = ok ∧ y.2.1 = n ∧ y.2.2.heap = s.heap ∧ y.2.2.handles = s.handles ∧
      y.2.2.target = s.target ∧ Shows (2 ^ w) (D.setFile f (some (buffer.take n))) y.2.2.mem region held)
      (s.writeFile x buffer ok n) := by
  refine gives_check_bind hx ?_
  simp only [htarget]
  refine gives_assume_bind fun hn => ?_
  obtain ⟨m, hm, -, -, hshow'⟩ := hshow.rewrite hno (buffer.take n)
  rw [hm]
  exact ⟨rfl, rfl, rfl, rfl, rfl, hshow'⟩

theorem gives_createFileW_always (h : Holds w D s maps held) {wfn : ℕ} (hwfn : wfn ∈ s.heap.map Region.addr)
    (htext : s.text wfn = f) (env : Option ℕ) :
    Gives (fun x : Handle × Sys => (x = (.invalid, s) ∧ (Busy D f true ∨ env = none)) ∨
      ∃ n, ¬ Busy D f true ∧ env = some n ∧ .of n ∉ s.handles ∧ x.1 = .of n ∧ x.2.heap = s.heap ∧
        x.2.handles = .of n :: s.handles ∧
        x.2.target = Function.update s.target (.of n) (.file f ⟨false, true⟩ ⟨true, false⟩) ∧
        Shows (2 ^ w) (D.setFile f (some [])) x.2.mem (Filemap.region ∘ maps) held)
      (s.createFileW wfn ⟨false, true⟩ ⟨true, false⟩ true env) := by
  refine gives_check_bind hwfn ?_
  rw [htext]
  by_cases hconf : ∃ x ∈ s.handles, (s.target x).Conflict f ⟨false, true⟩ ⟨true, false⟩
  · rw [if_pos hconf]
    exact .inl ⟨rfl, .inl ((h.conflict_iff f _).1 hconf)⟩
  · rw [if_neg hconf, if_neg (by simp)]
    refine gives_bind (gives_newHandle _ env) ?_
    rintro _ (⟨henv, rfl⟩ | ⟨n, henv, hn, rfl⟩)
    · exact .inl ⟨rfl, .inr henv⟩
    · have hbusy : ¬ Busy D f true := fun hbusy => hconf ((h.conflict_iff f _).2 hbusy)
      obtain ⟨m, hm, -, -, hshow'⟩ := h.shows.rewrite (fun i o ho heq => hbusy ⟨i, o, ho, heq, .inl rfl⟩) []
      change Gives _ (s.mem.rewrite f [] >>= _)
      rw [hm]
      exact .inr ⟨n, hbusy, henv, hn, rfl, rfl, rfl, rfl, hshow'⟩

/-- **`cop_file_dump`**: it returns what the rules say, memory and handles are given back, and the file is as the rules
say. -/
theorem gives_copFileDump (hw : 32 ≤ w) (h : Holds w D s maps held) (filename : Utf8) (buffer : List UInt8) (env : DumpEnv) :
    Gives (fun x : ℤ × Sys => x.1 = ((rules toWide w).dumps D (toWide filename) buffer env).1 ∧ x.2.heap = s.heap ∧
      x.2.handles = s.handles ∧ (∀ y ∈ s.handles, x.2.target y = s.target y) ∧
      Shows (2 ^ w) ((rules toWide w).next D (.dump filename buffer env)) x.2.mem (Filemap.region ∘ maps) held)
      (copFileDump toWide w s filename buffer env) := by
  rw [copFileDump]
  by_cases hbig : buffer.length > maxDword
  · have hno : (rules toWide w).dumps D (toWide filename) buffer env = (-1, none) :=
      dumps_of_not fun hwrites => absurd hwrites.size (by omega)
    rw [if_pos hbig, next_dump_none (congrArg Prod.snd hno), hno]
    exact ⟨rfl, rfl, rfl, fun _ _ => rfl, h.shows⟩
  rw [if_neg hbig]
  refine gives_bind (gives_utf8ToW hw filename env.name) ?_
  rintro _ (⟨hname, rfl⟩ | ⟨hname, r, hr, rfl⟩)
  · have hno : (rules toWide w).dumps D (toWide filename) buffer env = (-1, none) :=
      dumps_of_not fun hwrites => hname hwrites.name
    rw [next_dump_none (congrArg Prod.snd hno), hno]
    exact ⟨rfl, rfl, rfl, fun _ _ => rfl, h.shows⟩
  generalize hs₁ : ({ s with
    heap := r :: s.heap, text := Function.update s.text r.addr (toWide filename) } : Sys) = s₁
  have hheap₁ : s₁.heap = r :: s.heap := by rw [← hs₁]
  have hmem₁ : s₁.mem = s.mem := by rw [← hs₁]
  have hhandles₁ : s₁.handles = s.handles := by rw [← hs₁]
  have htarget₁ : s₁.target = s.target := by rw [← hs₁]
  have htext : s₁.text r.addr = toWide filename := by simp [← hs₁]
  have h₁ : Holds w D s₁ maps held := h.congr hmem₁ hhandles₁ fun _ _ => by rw [htarget₁]
  refine gives_bind (gives_createFileW_always h₁ (by simp [hheap₁]) htext env.file) ?_
  rintro ⟨_, s₂⟩ (⟨heq, hout⟩ | ⟨n, hshare, henv, hn, rfl, hheap₂, hhandles₂, htarget₂, hshow₂⟩)
  · obtain ⟨rfl, rfl⟩ := Prod.mk.inj heq
    have hno : (rules toWide w).dumps D (toWide filename) buffer env = (-1, none) :=
      dumps_of_not fun hwrites => hout.elim hwrites.share hwrites.env
    change Gives _ (free Misuse.badFree s₂.heap r.addr >>= _)
    rw [hheap₁, free_cons _ hr, next_dump_none (congrArg Prod.snd hno), hno]
    exact ⟨rfl, rfl, hhandles₁, fun _ _ => by rw [← htarget₁], hmem₁ ▸ h.shows⟩
  · have hwrites : Writes D (toWide filename) buffer env :=
      ⟨hname, hshare, by omega, by rw [henv]; exact Option.some_ne_none n⟩
    have hyes : (rules toWide w).dumps D (toWide filename) buffer env = _ := dumps_eq hwrites
    rw [next_dump_some (congrArg Prod.snd hyes), hyes]
    have hmem : Handle.of n ∈ s₂.handles := by
      rw [show s₂.handles = _ from hhandles₂]
      exact List.mem_cons_self
    have hfile₂ : s₂.target (.of n) = .file (toWide filename) ⟨false, true⟩ ⟨true, false⟩ := by
      rw [show s₂.target = _ from htarget₂]
      exact Function.update_self ..
    have hclear : ∀ i o, (D.setFile (toWide filename) (some [])).objs i = some o → o.view.file ≠ toWide filename :=
      fun i o ho heq => hshare ⟨i, o, ho, heq, .inl rfl⟩
    change Gives _ (s₂.writeFile (.of n) buffer env.ok env.wrote >>= _)
    refine gives_bind (gives_writeFile hshow₂ hclear hmem hfile₂ buffer env.ok env.wrote) ?_
    rintro ⟨ok, nwritten, s₃⟩ ⟨hok, hwrote, hheap₃, hhandles₃, htarget₃, hshow₃⟩
    change ok = env.ok at hok
    change nwritten = env.wrote at hwrote
    subst hok hwrote
    rw [Store.setFile_setFile] at hshow₃
    have hclose : s₃.closeHandle (.of n) = .ok { s₃ with handles := s.handles } :=
      closeHandle_cons ((hhandles₃.trans hhandles₂).trans (by rw [hhandles₁]))
    have hfree : free Misuse.badFree s₃.heap r.addr = .ok s.heap := by
      rw [show s₃.heap = r :: s.heap from hheap₃.trans (hheap₂.trans hheap₁), free_cons _ hr]
    have htarget : ∀ y ∈ s.handles, s₃.target y = s.target y := by
      intro y hy
      rw [show s₃.target = _ from htarget₃, show s₂.target = _ from htarget₂, htarget₁]
      refine Function.update_of_ne ?_ _ _
      rintro rfl
      exact hn (hhandles₁ ▸ hy)
    have hiff : env.ok = true ∧ env.wrote = buffer.length ↔ ¬ (env.ok = false ∨ env.wrote ≠ buffer.length) := by
      simp
    by_cases hret : env.ok = false ∨ env.wrote ≠ buffer.length
    · rw [if_neg fun hwhole => hiff.1 hwhole hret]
      change Gives _ (if env.ok = false ∨ env.wrote ≠ buffer.length then _ else _)
      rw [if_pos hret, hclose]
      change Gives _ (free Misuse.badFree s₃.heap r.addr >>= _)
      rw [hfree]
      exact ⟨rfl, rfl, rfl, htarget, hshow₃⟩
    · rw [if_pos (hiff.2 hret)]
      change Gives _ (if env.ok = false ∨ env.wrote ≠ buffer.length then _ else _)
      rw [if_neg hret, hclose]
      change Gives _ (free Misuse.badFree s₃.heap r.addr >>= _)
      rw [hfree]
      exact ⟨rfl, rfl, rfl, htarget, hshow₃⟩

end Calls

/-! ### Objects -/

namespace Holds

variable {maps : ℕ → Filemap} {held : List ℕ} {i : ℕ} {o : Object Wide}

/-- **An object is opened.** -/
theorem opened (h : Holds w D s maps held) (hi : D.objs i = none) {f : Wide} {flags : ℕ} {bytes : List UInt8}
    {map : Filemap} {s' : Sys} (hfile : D.files f = some bytes) (hbusy : ¬ Busy D f (through flags))
    (ho : Opened w s.handles s.mem f flags bytes map s') (htarget : ∀ y ∈ s.handles, s'.target y = s.target y) :
    Holds w (D.setObj i (some ⟨(rules toWide w).view f flags, bytes⟩)) s' (Function.update maps i map) (i :: held) := by
  have hni : i ∉ held := fun hmem => (h.shows.mem_iff i).1 hmem hi
  have hthrough : writesThrough ⟨(rules toWide w).view f flags, bytes⟩ = through flags := by
    rw [writesThrough, view_eq, through_eq]
    cases decide (flags &&& copFilemapFlagW ≠ 0) <;> rfl
  refine ⟨?_, ?_, ?_, ?_, ?_⟩
  · rw [ho.mem, Function.comp_update, view_eq]
    exact h.shows.opened hi ho.fresh hfile ho.size
  · rw [ho.handles, Function.comp_update]
    exact h.handles.push hni map.handles
  · intro x hx
    rw [ho.handles] at hx
    exact (List.mem_append.1 hx).elim (ho.valid x) (h.valid x)
  · intro j o' hj
    rw [Store.objs_setObj] at hj
    by_cases hji : j = i
    · subst hji
      rw [Function.update_self, Option.some.injEq] at hj
      subst hj
      rw [Function.update_self, hthrough, view_eq]
      exact ⟨ho.file, _, ho.mapping⟩
    · rw [Function.update_of_ne hji] at hj ⊢
      have hkept : ∀ x ∈ (maps j).handles, x ∈ s.handles := fun x hx => h.handles.mem (h.shows.mem_held hj) hx
      rw [htarget _ (hkept _ (by simp [Filemap.handles])), htarget _ (hkept _ (by simp [Filemap.handles]))]
      exact h.target j o' hj
  · intro j k o' o'' hj hk hsame hwt
    rw [Store.objs_setObj] at hj hk
    by_cases hji : j = i
    · by_cases hki : k = i
      · rw [hji, hki]
      · rw [hji, Function.update_self, Option.some.injEq] at hj
        rw [Function.update_of_ne hki] at hk
        subst hj
        rw [hthrough] at hwt
        rw [view_eq] at hsame
        exact absurd ⟨k, o'', hk, hsame.symm, .inl hwt⟩ hbusy
    · rw [Function.update_of_ne hji] at hj
      by_cases hki : k = i
      · rw [hki, Function.update_self, Option.some.injEq] at hk
        subst hk
        rw [view_eq] at hsame
        exact absurd ⟨j, o', hj, hsame, .inr hwt⟩ hbusy
      · rw [Function.update_of_ne hki] at hk
        exact h.single j k o' o'' hj hk hsame hwt

/-- **An object is closed.** -/
theorem closed (h : Holds w D s maps held) (ho : D.objs i = some o) :
    ∃ s', copFilemapClose s (maps i) = .ok s' ∧ s'.heap = s.heap ∧ Holds w (D.setObj i none) s' maps (held.erase i) := by
  have hi := h.shows.mem_held ho
  have hkept : ∀ x ∈ (maps i).handles, x ∈ s.handles := fun x hx => h.handles.mem hi hx
  obtain ⟨hfile, howned⟩ := h.handles.erase_two hi rfl
  have hviews : free Misuse.badUnmap s.mem.views (maps i).ptr = .ok (s.mem.views.erase (maps i).region) := by
    have hmem : (maps i).region ∈ s.mem.views := h.shows.mem_views ho
    rw [← h.shows.ledger.filter_addr hmem]
    exact free_of_mem _ (List.mem_map_of_mem hmem)
  have hunmap : s.unmapViewOfFile (maps i).ptr = .ok { s with mem := s.mem.unmap (maps i).region } := by
    rw [Sys.unmapViewOfFile, hviews]
    rfl
  have hmap : ({ s with mem := s.mem.unmap (maps i).region } : Sys).closeHandle (maps i).maphandle =
      .ok { s with mem := s.mem.unmap (maps i).region, handles := s.handles.erase (maps i).maphandle } :=
    closeHandle_eq (h.valid _ (hkept _ (by simp [Filemap.handles]))).1 (hkept _ (by simp [Filemap.handles]))
  have hclose : ({ s with
      mem := s.mem.unmap (maps i).region, handles := s.handles.erase (maps i).maphandle } : Sys).closeHandle
      (maps i).filehandle = .ok { s with
        mem := s.mem.unmap (maps i).region
        handles := (s.handles.erase (maps i).maphandle).erase (maps i).filehandle } :=
    closeHandle_eq (h.valid _ (hkept _ (by simp [Filemap.handles]))).1 hfile
  refine ⟨{ s with
    mem := s.mem.unmap (maps i).region
    handles := (s.handles.erase (maps i).maphandle).erase (maps i).filehandle }, ?_, rfl, ?_⟩
  · rw [copFilemapClose, hunmap]
    exact (bind_of_ok hmap _).trans hclose
  have hobj : ∀ j o', (D.setObj i none).objs j = some o' → D.objs j = some o' := by
    intro j o' hj
    rw [Store.objs_setObj] at hj
    by_cases hji : j = i
    · rw [hji, Function.update_self] at hj
      cases hj
    · rwa [Function.update_of_ne hji] at hj
  refine ⟨h.shows.closed ho, howned, fun x hx => ?_, fun j o' hj => h.target j o' (hobj j o' hj), ?_⟩
  · exact h.valid x (List.mem_of_mem_erase (List.mem_of_mem_erase hx))
  · exact fun j k o' o'' hj hk => h.single j k o' o'' (hobj j o' hj) (hobj k o'' hk)

end Holds

/-! ### Runs -/

/-- What the calls keep: also the heap is as it was. -/
structure Serves (w : ℕ) (heap : List Region) (D : Store Wide) (c : Client) : Prop where
  /-- The open objects are mapped, and keep all handles. -/
  holds : ∃ held, Holds w D c.sys c.maps held
  /-- The memory that was taken is given back. -/
  heap_eq : c.sys.heap = heap

variable {heap : List Region} {c : Client}

/-- **One call.** -/
theorem Serves.step (hw : 32 ≤ w) (h : Serves w heap D c) {call : Call Utf8 OpenEnv DumpEnv}
    (hlegal : (fileStore (rules toWide w)).Legal D call) :
    Gives (fun x : Reply × Client => (fileStore (rules toWide w)).Allows D call x.1 ∧
      Serves w heap ((fileStore (rules toWide w)).next D call) x.2) (step toWide w c call) := by
  obtain ⟨⟨held, h⟩, rfl⟩ := h
  obtain ⟨-, hlegal⟩ := hlegal
  cases call with
  | mapOpen i filename flags env =>
    refine gives_bind (gives_copFilemapOpen hw h (c.maps i) filename flags env) ?_
    rintro ⟨ret, map, sys⟩ ⟨hheap, htarget, ⟨rfl, hno, hmem, hhandles⟩ | ⟨rfl, hopens, bytes, hfile, hopened⟩⟩
    · have hret : (rules toWide w).opens D (toWide filename) flags env = -1 := opens_of_not hno
      refine ⟨congrArg Reply.code hret.symm, ?_⟩
      rw [fileStore_next, next_open_of_ne (by rw [show (rules toWide w).name = toWide from rfl, hret]; decide)]
      exact ⟨⟨held, (h.congr hmem hhandles htarget).update_map hlegal map⟩, hheap⟩
    · have hret : (rules toWide w).opens D (toWide filename) flags env = 0 := opens_eq hopens
      refine ⟨congrArg Reply.code hret.symm, ?_⟩
      rw [fileStore_next, next_open hret hfile]
      exact ⟨⟨_, h.opened hlegal hfile hopens.share hopened htarget⟩, hheap⟩
  | mapClose i =>
    obtain ⟨o, ho⟩ := Option.ne_none_iff_exists'.1 hlegal
    obtain ⟨sys, hclose, hheap, hclosed⟩ := h.closed ho
    rw [Windows.step, hclose]
    exact ⟨rfl, ⟨_, hclosed⟩, hheap⟩
  | load i off =>
    obtain ⟨o, ho, hread, hoff⟩ := hlegal
    have hload : c.sys.mem.load ((c.maps i).ptr + off) = .ok ((D.contents o).getD off 0) := h.shows.load ho hread hoff
    rw [Windows.step, hload]
    exact ⟨⟨o, ho, rfl⟩, ⟨held, h⟩, rfl⟩
  | store i off b =>
    obtain ⟨o, ho, hwrite, hoff⟩ := hlegal
    have halone : o.view.shared = true → ∀ j o', D.objs j = some o' → o'.view.file = o.view.file → o'.view.shared = true := by
      intro hs j o' hj hsame
      obtain rfl := h.single i j o o' ho hj hsame.symm (by rw [writesThrough, hwrite, hs]; rfl)
      rw [ho, Option.some.injEq] at hj
      rw [← hj, hs]
    obtain ⟨m, hm, -, hshow⟩ := h.shows.store ho hwrite hoff b halone
    change c.sys.mem.store ((c.maps i).ptr + off) b = .ok m at hm
    rw [← next_store (R := rules toWide w) ho] at hshow
    rw [Windows.step, hm]
    exact ⟨rfl, ⟨held, h.frame (fun j o' hj => view_next hj trivial) hshow rfl fun _ _ => rfl⟩, rfl⟩
  | dump filename buffer env =>
    refine gives_bind (gives_copFileDump hw h filename buffer env) ?_
    rintro ⟨ret, sys⟩ ⟨hret, hheap, hhandles, htarget, hshow⟩
    exact ⟨congrArg Reply.code hret, ⟨held, h.frame (fun j o' hj => view_next hj trivial) hshow hhandles htarget⟩, hheap⟩

/-- What a client sees that has opened nothing. -/
def Client.store (c : Client) : Store Wide := ⟨c.sys.mem.files, fun _ => none⟩

theorem serves_init (hviews : c.sys.mem.views = []) (hhandles : c.sys.handles = []) :
    Serves w c.sys.heap c.store c := by
  refine ⟨⟨[], ?_, ?_, ?_, ?_, ?_⟩, rfl⟩
  · refine ⟨rfl, fun i => by simp [Client.store], List.nodup_nil, ?_, ?_, ?_⟩
    · rw [hviews]
      exact owned_nil _ _
    · rw [hviews]
      exact Ledger.nil _
    · intro i o ho
      cases ho
  · rw [hhandles]
    exact owned_nil _ _
  · rw [hhandles]
    intro x hx
    cases hx
  · intro i o ho
    cases ho
  · intro i j o o' ho
    cases ho

/-- **A client of `cop_filemap` sees a store**, in every run. It never accesses what is not mapped to it, all memory from
`malloc` is given back, and handles and views are those of the open objects. If one of them writes to its file, no
other is of this file. -/
theorem windows_refines (hw : 32 ≤ w) (hviews : c.sys.mem.views = []) (hhandles : c.sys.handles = [])
    {calls : List (Call Utf8 OpenEnv DumpEnv)} (hlegal : (fileStore (rules toWide w)).LegalRun c.store calls) :
    Gives (fun x : List Reply × Client => (fileStore (rules toWide w)).AllowsRun c.store calls x.1 ∧
      Serves w c.sys.heap ((fileStore (rules toWide w)).nextRun c.store calls) x.2) (run (step toWide w) c calls) :=
  gives_run (fun _ _ _ h hlegal => h.step hw hlegal) (serves_init hviews hhandles) hlegal

/-- **What `cop_file_dump` wrote is read through `cop_filemap_open`**, however the client went on in between, as long as
it left the file alone, if 0 was returned. -/
theorem windows_round_trip (hw : 32 ≤ w) (hviews : c.sys.mem.views = []) (hhandles : c.sys.handles = [])
    {filename : Utf8} {buffer : List UInt8} {envD : DumpEnv} {cs calls : List (Call Utf8 OpenEnv DumpEnv)} {i flags off : ℕ}
    {envO : OpenEnv}
    (hcalls : calls = .dump filename buffer envD :: (cs ++ [.mapOpen i filename flags envO, .load i off]))
    (hlegal : (fileStore (rules toWide w)).LegalRun c.store calls)
    (halone : (rules toWide w).LeavesAlone (toWide filename)
      ((rules toWide w).next c.store (.dump filename buffer envD)) cs) :
    Gives (fun x : List Reply × Client => ∃ ret rs b, x.1 = .code ret :: (rs ++ [.code 0, .byte b]) ∧
      (ret = 0 → b = buffer.getD off 0)) (run (step toWide w) c calls) := by
  refine (gives_run (fun _ _ _ h hlegal => h.step hw hlegal) (serves_init hviews hhandles) hlegal).mono ?_
  rintro ⟨os, c'⟩ ⟨hallows, -⟩
  obtain ⟨rs, b, hos, hb⟩ := dump_open_load hcalls hlegal hallows halone
  refine ⟨_, rs, b, hos, fun hret => hb ?_⟩
  simp only [rules] at hret ⊢
  split at hret
  · rename_i hwrites
    rw [if_pos hwrites]
    split at hret
    · rename_i hwhole
      rw [hwhole.2]
    · cases hret
  · cases hret

/-- A client that has opened nothing, and no files. -/
def sampleClient : Client :=
  ⟨⟨⟨fun _ => none, [], fun _ => ⟨[], false, false, false⟩, fun _ => 0⟩, [], fun _ => [], [], fun _ => .mapping [] false⟩,
    fun _ => ⟨0, 0, .null, .null⟩⟩

/-- Names in ASCII are converted byte by byte. -/
def sampleWide (name : Utf8) : Wide := name.map fun b => b.toUInt16

/-- A name is converted. -/
def sampleConvert : ConvertEnv := ⟨true, some 64, true⟩

/-- A file is dumped, mapped, written through the object, and cannot be dumped or mapped again before it is closed. -/
def sampleCalls : List (Call Utf8 OpenEnv DumpEnv) :=
  [.dump [97] [10, 20, 30] ⟨sampleConvert, some 8, true, 3⟩,
    .mapOpen 0 [97] 7 ⟨sampleConvert, some 8, true, some 12, some 4096⟩, .store 0 1 99, .load 0 1,
    .mapOpen 1 [97] 1 ⟨sampleConvert, some 16, true, some 20, some 8192⟩,
    .dump [97] [] ⟨sampleConvert, some 16, true, 0⟩, .mapClose 0,
    .mapOpen 1 [97] 1 ⟨sampleConvert, some 16, true, some 20, some 8192⟩, .load 1 1, .mapClose 1]

example : (run (step sampleWide 32) sampleClient sampleCalls).map Prod.fst =
    .ok [.code 0, .code 0, .done, .byte 99, .code (-1), .code (-1), .done, .code 0, .byte 99, .done] := by decide +kernel

/-- The file of the sample. -/
def sampleFile : Wide := [97]

/-- A file is dumped, and written through an object that is not shared. -/
def sampleTrip : List (Call Utf8 OpenEnv DumpEnv) :=
  .dump [97] [10, 20, 30] ⟨sampleConvert, some 8, true, 3⟩ ::
    ([.mapOpen 1 [97] 3 ⟨sampleConvert, some 8, true, some 12, some 4096⟩, .store 1 2 98] ++
      [.mapOpen 0 [97] 1 ⟨sampleConvert, some 16, true, some 20, some 8192⟩, .load 0 2])

/-- The file of the sample is there. -/
def sampleStore : Store Wide := sampleClient.store.setFile sampleFile (some [10, 20, 30])

/-- What is mapped to it, to be written or not. -/
def sampleObject (write : Bool) (own : List UInt8) : Object Wide := ⟨⟨sampleFile, true, write, !write⟩, own⟩

theorem next_sample_dump : (rules sampleWide 32).next sampleClient.store
    (.dump [97] [10, 20, 30] ⟨sampleConvert, some 8, true, 3⟩) = sampleStore := by
  have hwrites : Writes sampleClient.store sampleFile [10, 20, 30] ⟨sampleConvert, some 8, true, 3⟩ := by
    refine ⟨⟨rfl, by decide, by decide, rfl⟩, ?_, by decide, by decide⟩
    rintro ⟨i, o, ho, -⟩
    cases ho
  have hdumps : ((rules sampleWide 32).dumps sampleClient.store ((rules sampleWide 32).name [97]) [10, 20, 30]
      ⟨sampleConvert, some 8, true, 3⟩).2 = some 3 := congrArg Prod.snd (dumps_eq hwrites)
  exact next_dump_some hdumps

theorem next_sample_open {D : Store Wide} (hfile : D.files sampleFile = some [10, 20, 30])
    (hD : ∀ i o, D.objs i = some o → writesThrough o = false) (write : Bool) {flags : ℕ}
    (hflags : flags = if write then 3 else 1) (i n m a : ℕ) : (rules sampleWide 32).next D (.mapOpen i [97] flags ⟨sampleConvert, some n, true, some m, some a⟩) =
      D.setObj i (some (sampleObject write [10, 20, 30])) := by
  have hthrough : through flags = false := by
    rw [hflags]
    cases write <;> decide
  have hopens : Opens 32 D sampleFile flags ⟨sampleConvert, some n, true, some m, some a⟩ := by
    refine ⟨⟨rfl, by decide, Option.some_ne_none 64, rfl⟩, ?_, Option.some_ne_none n, [10, 20, 30], hfile, by decide, by decide, rfl,
      Option.some_ne_none m, Option.some_ne_none a⟩
    rintro ⟨j, o, ho, -, hw⟩
    rw [hthrough, hD j o ho] at hw
    simp at hw
  have hzero : (rules sampleWide 32).opens D ((rules sampleWide 32).name [97]) flags
      ⟨sampleConvert, some n, true, some m, some a⟩ = 0 := opens_eq hopens
  have hname : D.files ((rules sampleWide 32).name [97]) = some [10, 20, 30] := hfile
  rw [next_open hzero hname, hflags]
  cases write <;> rfl

/-- It was opened to be written, and not to be shared. -/
def sampleOpen (own : List UInt8) : Store Wide := sampleStore.setObj 1 (some (sampleObject true own))

theorem objs_sampleOpen (own : List UInt8) {i : ℕ} {o : Object Wide} (h : (sampleOpen own).objs i = some o) :
    i = 1 ∧ o = sampleObject true own := by
  rw [sampleOpen, Store.objs_setObj] at h
  by_cases hi : i = 1
  · rw [hi, Function.update_self, Option.some.injEq] at h
    exact ⟨hi, h.symm⟩
  · rw [Function.update_of_ne hi] at h
    cases h

theorem legal_sample : (fileStore (rules sampleWide 32)).LegalRun sampleClient.store sampleTrip := by
  have hfile : sampleStore.files sampleFile = some [10, 20, 30] := by simp [sampleStore]
  have hobj : (sampleOpen [10, 20, 30]).objs 1 = some (sampleObject true [10, 20, 30]) := by simp [sampleOpen]
  have hnone : (sampleOpen [10, 20, 98]).objs 0 = none := by
    by_contra hne
    obtain ⟨o, ho⟩ := Option.ne_none_iff_exists'.1 hne
    exact absurd (objs_sampleOpen _ ho).1 (by decide)
  have hstore : (rules sampleWide 32).next (sampleOpen [10, 20, 30]) (.store 1 2 98) = sampleOpen [10, 20, 98] := by
    rw [next_store hobj, sampleOpen, sampleOpen]
    simp [sampleObject, Store.setObj]
  have hread : ∀ i o, (sampleOpen [10, 20, 98]).objs i = some o → writesThrough o = false := by
    intro i o ho
    rw [(objs_sampleOpen _ ho).2]
    rfl
  refine ⟨⟨trivial, trivial⟩, ?_⟩
  rw [fileStore_next, next_sample_dump]
  refine ⟨⟨trivial, rfl⟩, ?_⟩
  rw [fileStore_next, next_sample_open hfile (fun i o ho => by cases ho) true (show 3 = _ from rfl)]
  refine ⟨⟨trivial, _, hobj, rfl, by decide⟩, ?_⟩
  change (fileStore _).LegalRun ((fileStore _).next (sampleOpen [10, 20, 30]) _) _
  rw [fileStore_next, hstore]
  refine ⟨⟨trivial, hnone⟩, ?_⟩
  rw [fileStore_next, next_sample_open (D := sampleOpen [10, 20, 98]) hfile hread false (show 1 = _ from rfl)]
  exact ⟨⟨trivial, sampleObject false [10, 20, 30], by simp, rfl, by decide⟩, trivial⟩

theorem windows_refines_sample : (fileStore (rules sampleWide 32)).LegalRun sampleClient.store sampleTrip ∧
    Gives (fun x : List Reply × Client => (fileStore (rules sampleWide 32)).AllowsRun sampleClient.store sampleTrip x.1 ∧
      Serves 32 [] ((fileStore (rules sampleWide 32)).nextRun sampleClient.store sampleTrip) x.2)
      (run (step sampleWide 32) sampleClient sampleTrip) :=
  ⟨legal_sample, windows_refines (by decide) rfl rfl legal_sample⟩

theorem windows_round_trip_private : Gives (fun x : List Reply × Client =>
    ∃ ret rs b, x.1 = .code ret :: (rs ++ [.code 0, .byte b]) ∧ (ret = 0 → b = 30))
    (run (step sampleWide 32) sampleClient sampleTrip) := by
  refine (windows_round_trip (c := sampleClient) (by decide) rfl rfl rfl legal_sample ?_).mono ?_
  · change ((rules sampleWide 32).LeavesAlone sampleFile ((rules sampleWide 32).next sampleClient.store _) _)
    rw [next_sample_dump]
    refine ⟨fun h => h, ?_, trivial⟩
    have hfile : sampleStore.files sampleFile = some [10, 20, 30] := by simp [sampleStore]
    rw [next_sample_open hfile (fun i o ho => by cases ho) true (show 3 = _ from rfl)]
    rintro ⟨o, ho, hshared, -⟩
    rw [(objs_sampleOpen _ ho).2] at hshared
    cases hshared
  · rintro x ⟨ret, rs, b, hx, hb⟩
    exact ⟨ret, rs, b, hx, hb⟩

end Cop.Files.Windows
