import Cop.Files.Memory

/-!
# Mapped files with `mmap`

`cop_filemap.c`, where `_MSC_VER` is not defined. A file is opened, mapped, and its descriptor is closed again
at once; the mapping is what stays.

## The model

* A `Sys` has the files, the mapped memory, the descriptors and the streams. What the calls of the system
  answer is an argument. `mmap` refuses an empty file, and to write through a descriptor that cannot.
* What is written to a stream is in the file when the stream is closed, as far as `fclose` could write it. The program
  does not look at what `fclose` returns.
* A `Client` has any number of `struct cop_filemap`s.
* `rules` is what is said of the platform. A client owes that it opens to read or to write (which the code
  asserts), that it writes through no shared object while the file is open otherwise, and that it dumps no file
  that it has open.

## What is proved

* `gives_copFilemapOpen`, `gives_copFileDump` — what the functions do.
* `posix_refines` — such a client sees a store, in every run. It never accesses what is not mapped, no descriptor
  and no stream stays open, and mapped is what the open objects own.
* `posix_round_trip` — what `cop_file_dump` wrote is read through `cop_filemap_open`.
-/

namespace Cop.Files.Posix

open Theory

/-! ### The system -/

/-- What a descriptor is for. -/
structure Desc (ν : Type) where
  /-- The file. -/
  file : ν
  /-- `O_RDWR`, not `O_RDONLY`. -/
  rdwr : Bool

/-- What a stream is for. -/
structure Stream (ν : Type) where
  /-- The file. -/
  file : ν
  /-- What was written to it. -/
  written : List UInt8

/-- The system. -/
structure Sys (ν : Type) where
  /-- The files, and what is mapped. -/
  mem : Memory ν
  /-- The descriptors that are open. -/
  fds : List ℕ
  /-- What they are for. -/
  desc : ℕ → Desc ν
  /-- The streams that are open. -/
  streams : List ℕ
  /-- What they are for. -/
  stream : ℕ → Stream ν

/-- `MAP_FAILED`, which is `(void *)-1`. -/
def mapFailed (w : ℕ) : ℕ := 2 ^ w - 1

variable {ν : Type} [DecidableEq ν]

namespace Sys

/-- `open(filename, rdwr ? O_RDWR : O_RDONLY)`. -/
def openFd (s : Sys ν) (filename : ν) (rdwr : Bool) (env : Option ℕ) : Exec Misuse (Option ℕ × Sys ν) :=
  if s.mem.files filename = none then .ok (none, s)
  else do
    let (fd, fds) ← take s.fds env
    match fd with
    | none => return (none, s)
    | some fd => return (some fd, { s with fds, desc := Function.update s.desc fd ⟨filename, rdwr⟩ })

/-- `fstat(fd, &fs)`: the size of the file. -/
def fstat (s : Sys ν) (fd : ℕ) (env : Bool) : Exec Misuse (Option ℕ) := do
  check .badClose (fd ∈ s.fds)
  return if env then some ((s.mem.files (s.desc fd).file).getD []).length else none

/-- `mmap(0, length, prot, flags, fd, 0)`. -/
def mmap (w : ℕ) (s : Sys ν) (length : ℕ) (protRead protWrite shared : Bool) (fd : ℕ) (env : Option ℕ) :
    Exec Misuse (ℕ × Sys ν) := do
  check .badClose (fd ∈ s.fds)
  if length = 0 ∨ (shared && protWrite && !(s.desc fd).rdwr) = true then return (mapFailed w, s)
  else
    match env with
    | none => return (mapFailed w, s)
    | some a => do
      assume (Fresh (2 ^ w) s.mem.views ⟨a, length⟩)
      let v : View ν := ⟨(s.desc fd).file, protRead, protWrite, shared⟩
      return (a, { s with mem := s.mem.map ⟨a, length⟩ v ((s.mem.files v.file).getD []) })

/-- `close(fd)`. -/
def close (s : Sys ν) (fd : ℕ) : Exec Misuse (Sys ν) := do
  let fds ← giveBack .badClose s.fds fd
  return { s with fds }

/-- `munmap(ptr, size)`. -/
def munmap (s : Sys ν) (ptr size : ℕ) : Exec Misuse (Sys ν) := do
  check .badUnmap (⟨ptr, size⟩ ∈ s.mem.views)
  return { s with mem := s.mem.unmap ⟨ptr, size⟩ }

/-- `fopen(filename, "wb")`: the file is empty then. -/
def fopen (s : Sys ν) (filename : ν) (env : Option ℕ) : Exec Misuse (Option ℕ × Sys ν) := do
  let (f, streams) ← take s.streams env
  match f with
  | none => return (none, s)
  | some f => do
    let mem ← s.mem.rewrite filename []
    return (some f, { s with mem, streams, stream := Function.update s.stream f ⟨filename, []⟩ })

/-- `fwrite(buf, 1, sz, f)`, which takes `n` bytes. -/
def fwrite (s : Sys ν) (buf : List UInt8) (f n : ℕ) : Exec Misuse (ℕ × Sys ν) := do
  check .badClose (f ∈ s.streams)
  assume (n ≤ buf.length)
  let stream : Stream ν := { s.stream f with written := (s.stream f).written ++ buf.take n }
  return (n, { s with stream := Function.update s.stream f stream })

/-- `fclose(f)`: `n` bytes of what was written are in the file then. -/
def fclose (s : Sys ν) (f n : ℕ) : Exec Misuse (Sys ν) := do
  let streams ← giveBack .badClose s.streams f
  assume (n ≤ (s.stream f).written.length)
  let mem ← s.mem.rewrite (s.stream f).file ((s.stream f).written.take n)
  return { s with mem, streams }

end Sys

/-! ### The functions -/

/-- `struct cop_filemap`. -/
structure Filemap where
  /-- `ptr`. -/
  ptr : ℕ
  /-- `size`. -/
  size : ℕ

/-- The region that is mapped. -/
def Filemap.region (map : Filemap) : Region := ⟨map.ptr, map.size⟩

/-- What the system answers in `cop_filemap_open`. -/
structure OpenEnv where
  /-- The descriptor, if there is one. -/
  fd : Option ℕ
  /-- `fstat` gives the size. -/
  stat : Bool
  /-- Where the file is mapped, if it is. -/
  addr : Option ℕ

/-- What the system answers in `cop_file_dump`. -/
structure DumpEnv where
  /-- The stream, if there is one. -/
  stream : Option ℕ
  /-- What `fwrite` takes. -/
  wrote : ℕ
  /-- What of it is in the file in the end. -/
  kept : ℕ

/-- `COP_FILEMAP_ERR_FILE`. -/
def copFilemapErrFile : ℤ := 1

/-- `COP_FILEMAP_ERR_MAPPING`. -/
def copFilemapErrMapping : ℤ := 2

/-- `SIZE_MAX`. -/
def sizeMax (w : ℕ) : ℕ := 2 ^ w - 1

/-- What `cop_filemap_open` sets `oflags` and `prot` to: whether the first is `O_RDWR`, and whether the second has
`PROT_READ` and `PROT_WRITE`. -/
def oflagsProt (flags : ℕ) : Exec Misuse (Bool × Bool × Bool) :=
  if flags &&& copFilemapFlagW ≠ 0 then
    .ok (decide (flags &&& copFilemapShared ≠ 0), decide (flags &&& copFilemapFlagR ≠ 0), true)
  else do
    check .assertion (flags &&& copFilemapFlagR ≠ 0)
    return (false, true, false)

/-- `cop_filemap_open`. -/
def copFilemapOpen (w : ℕ) (s : Sys ν) (map : Filemap) (filename : ν) (flags : ℕ) (env : OpenEnv) :
    Exec Misuse (ℤ × Filemap × Sys ν) := do
  let (rdwr, protRead, protWrite) ← oflagsProt flags
  let (fd, s) ← s.openFd filename rdwr env.fd
  match fd with
  | none => return (copFilemapErrFile, map, s)
  | some fd => do
    let size ← s.fstat fd env.stat
    match size with
    | none => do
      let s ← s.close fd
      return (copFilemapErrFile, map, s)
    | some size =>
      if size > sizeMax w then do
        let s ← s.close fd
        return (copFilemapErrFile, map, s)
      else do
        let (ptr, s) ← s.mmap w size protRead protWrite (flags &&& copFilemapShared ≠ 0) fd env.addr
        let s ← s.close fd
        return (if ptr = mapFailed w then copFilemapErrMapping else 0, ⟨ptr, size⟩, s)

/-- `cop_filemap_close`. -/
def copFilemapClose (s : Sys ν) (map : Filemap) : Exec Misuse (Sys ν) := s.munmap map.ptr map.size

/-- `cop_file_dump`. -/
def copFileDump (s : Sys ν) (filename : ν) (buf : List UInt8) (env : DumpEnv) : Exec Misuse (ℤ × Sys ν) := do
  let (f, s) ← s.fopen filename env.stream
  match f with
  | none => return (-1, s)
  | some f => do
    let (n, s) ← s.fwrite buf f env.wrote
    if n ≠ buf.length then do
      let s ← s.fclose f env.kept
      return (-1, s)
    else do
      let s ← s.fclose f env.kept
      return (0, s)

/-- A client, with the objects it passes to the functions. -/
structure Client (ν : Type) where
  /-- The system. -/
  sys : Sys ν
  /-- The objects. -/
  maps : ℕ → Filemap

/-- What the client does. -/
def step (w : ℕ) (c : Client ν) : Call ν OpenEnv DumpEnv → Exec Misuse (Reply × Client ν)
  | .mapOpen i filename flags env => do
    let (ret, map, sys) ← copFilemapOpen w c.sys (c.maps i) filename flags env
    return (.code ret, ⟨sys, Function.update c.maps i map⟩)
  | .mapClose i => do
    let sys ← copFilemapClose c.sys (c.maps i)
    return (.done, { c with sys })
  | .load i off => do
    let b ← c.sys.mem.load ((c.maps i).ptr + off)
    return (.byte b, c)
  | .store i off b => do
    let mem ← c.sys.mem.store ((c.maps i).ptr + off) b
    return (.done, { c with sys := { c.sys with mem } })
  | .dump filename buffer env => do
    let (ret, sys) ← copFileDump c.sys filename buffer env
    return (.code ret, { c with sys })

/-! ### What is said of the platform -/

/-- The rules of the platform. The client owes that it asks for a right, and that it changes no file under a view that
is not shared, and dumps no file that is mapped. -/
def rules (ν : Type) [DecidableEq ν] (w : ℕ) : Rules ν ν OpenEnv DumpEnv where
  name := id
  opens s f _ env :=
    match s.files f with
    | none => copFilemapErrFile
    | some bytes =>
      if env.fd = none ∨ env.stat = false ∨ sizeMax w < bytes.length then copFilemapErrFile
      else if bytes = [] ∨ env.addr = none then copFilemapErrMapping
      else 0
  rights flags :=
    (decide (flags &&& copFilemapFlagW = 0 ∨ flags &&& copFilemapFlagR ≠ 0), decide (flags &&& copFilemapFlagW ≠ 0),
      decide (flags &&& copFilemapShared ≠ 0))
  dumps _ _ buffer env :=
    match env.stream with
    | none => (-1, none)
    | some _ => (if env.wrote = buffer.length then 0 else -1, some env.kept)
  Owes s c :=
    match c with
    | .mapOpen _ _ flags _ => flags &&& copFilemapFlagR ≠ 0 ∨ flags &&& copFilemapFlagW ≠ 0
    | .store i _ _ => ∀ o, s.objs i = some o → o.view.shared = true →
        ∀ j o', s.objs j = some o' → o'.view.file = o.view.file → o'.view.shared = true
    | .dump filename _ _ => ∀ i o, s.objs i = some o → o.view.file ≠ filename
    | _ => True

/-! ### What the functions do -/

section Calls

variable {ν : Type} {w : ℕ} {s : Sys ν} {filename : ν}

theorem close_cons {fds : List ℕ} {fd : ℕ} (h : s.fds = fd :: fds) : s.close fd = .ok { s with fds } := by
  rw [Sys.close, giveBack, check_pos (by simp [h]), h, List.erase_cons_head]
  rfl

theorem openFd_eq {file : List UInt8} (hfile : s.mem.files filename = some file) (rdwr : Bool) (fd : ℕ) :
    s.openFd filename rdwr (some fd) = .error .env ∨ s.openFd filename rdwr (some fd) =
      .ok (some fd, { s with fds := fd :: s.fds, desc := Function.update s.desc fd ⟨filename, rdwr⟩ }) := by
  rw [Sys.openFd, if_neg (by simp [hfile])]
  by_cases hfd : fd ∈ s.fds
  · left
    rw [take_env hfd]
    rfl
  · right
    rw [take_some hfd]
    rfl

/-- **What `mmap` does** with a descriptor that was opened for what is asked for. -/
theorem gives_mmap {bytes : List UInt8} {rd wr sh : Bool} {fd : ℕ} (hfd : fd ∈ s.fds)
    (hdesc : s.desc fd = ⟨filename, wr && sh⟩) (hfile : s.mem.files filename = some bytes) (env : Option ℕ) :
    Gives (fun x : ℕ × Sys ν => (x = (mapFailed w, s) ∧ (bytes = [] ∨ env = none)) ∨
      ∃ a, bytes ≠ [] ∧ env = some a ∧ a ≠ mapFailed w ∧ Fresh (2 ^ w) s.mem.views ⟨a, bytes.length⟩ ∧
        x = (a, { s with mem := s.mem.map ⟨a, bytes.length⟩ ⟨filename, rd, wr, sh⟩ bytes }))
      (s.mmap w bytes.length rd wr sh fd env) := by
  have hrights : (sh && wr && !(wr && sh)) = false := by cases sh <;> cases wr <;> rfl
  refine gives_check_bind hfd ?_
  simp only [hdesc, hrights, hfile, Option.getD_some, Bool.false_eq_true, or_false, List.length_eq_zero_iff]
  by_cases hnil : bytes = []
  · rw [if_pos hnil]
    exact .inl ⟨rfl, .inl hnil⟩
  · rw [if_neg hnil]
    cases env with
    | none => exact .inl ⟨rfl, .inr rfl⟩
    | some a =>
      refine gives_assume_bind fun hfresh => ?_
      have hpos := List.length_pos_iff.2 hnil
      have hlt : a + bytes.length < 2 ^ w := hfresh.1.2
      exact .inr ⟨a, hnil, rfl, by unfold mapFailed; omega, hfresh, rfl⟩

theorem munmap_eq {ptr size : ℕ} (h : ⟨ptr, size⟩ ∈ s.mem.views) :
    s.munmap ptr size = .ok { s with mem := s.mem.unmap ⟨ptr, size⟩ } := by
  rw [Sys.munmap, check_pos h]
  rfl

theorem gives_fwrite {buffer : List UInt8} {f n : ℕ} (hf : f ∈ s.streams) (hstream : s.stream f = ⟨filename, []⟩) :
    Gives (fun x : ℕ × Sys ν => n ≤ buffer.length ∧ x.1 = n ∧ x.2.fds = s.fds ∧ x.2.streams = s.streams ∧
      x.2.mem = s.mem ∧ x.2.stream f = ⟨filename, buffer.take n⟩) (s.fwrite buffer f n) := by
  refine gives_check_bind hf (gives_assume_bind fun hn => ?_)
  rw [hstream]
  exact ⟨hn, rfl, rfl, rfl, rfl, Function.update_self ..⟩

end Calls

variable {w : ℕ} {s : Sys ν} {D : Store ν} {filename : ν}

theorem oflagsProt_eq {flags : ℕ} (h : flags &&& copFilemapFlagR ≠ 0 ∨ flags &&& copFilemapFlagW ≠ 0) {r : Bool × Bool × Bool}
    (hr : (rules ν w).rights flags = r) : oflagsProt flags = .ok (r.2.1 && r.2.2, r.1, r.2.1) := by
  subst hr
  rw [oflagsProt]
  by_cases hW : flags &&& copFilemapFlagW ≠ 0
  · rw [if_pos hW]
    simp [rules, hW]
  · rw [if_neg hW, check_pos (h.resolve_right hW)]
    have hW0 : flags &&& copFilemapFlagW = 0 := not_not.1 hW
    simp [rules, hW0]

/-- **`cop_filemap_open`**: it returns what the rules say, no descriptor stays open, and when it returns 0, the file is mapped
with the rights that were asked for. -/
theorem gives_copFilemapOpen (map : Filemap) {flags : ℕ} {env : OpenEnv} (hfiles : s.mem.files = D.files)
    (h : flags &&& copFilemapFlagR ≠ 0 ∨ flags &&& copFilemapFlagW ≠ 0) :
    Gives (fun x : ℤ × Filemap × Sys ν => x.1 = (rules ν w).opens D filename flags env ∧ x.2.2.fds = s.fds ∧
      x.2.2.streams = s.streams ∧ (x.1 ≠ 0 → x.2.2.mem = s.mem) ∧
      (x.1 = 0 → ∃ a bytes, D.files filename = some bytes ∧ Fresh (2 ^ w) s.mem.views ⟨a, bytes.length⟩ ∧
        x.2.1 = ⟨a, bytes.length⟩ ∧
        x.2.2.mem = s.mem.map ⟨a, bytes.length⟩ ((rules ν w).view filename flags) bytes))
      (copFilemapOpen w s map filename flags env) := by
  rw [copFilemapOpen]
  obtain ⟨⟨rd, wr, sh⟩, hr⟩ : ∃ r, (rules ν w).rights flags = r := ⟨_, rfl⟩
  have hsh : sh = decide (flags &&& copFilemapShared ≠ 0) := congrArg (fun r => r.2.2) hr.symm
  have hview : (rules ν w).view filename flags = ⟨filename, rd, wr, sh⟩ := by rw [Rules.view, hr]
  rw [oflagsProt_eq h hr, hview, ← hsh]
  change Gives _ (s.openFd filename (wr && sh) env.fd >>= _)
  cases hfile : D.files filename with
  | none =>
    rw [Sys.openFd, if_pos (by rw [hfiles, hfile])]
    refine ⟨by simp [rules, hfile], rfl, rfl, fun _ => rfl, fun h0 => ?_⟩
    cases h0
  | some bytes =>
    cases hfd : env.fd with
    | none =>
      rw [Sys.openFd, if_neg (by simp [hfiles, hfile])]
      refine ⟨by simp [rules, hfile, hfd], rfl, rfl, fun _ => rfl, fun h0 => ?_⟩
      cases h0
    | some fd =>
      obtain henv | hopen := openFd_eq (hfiles ▸ hfile) (wr && sh) fd
      · rw [henv]
        trivial
      rw [hopen]
      generalize hs₁ : ({ s with fds := fd :: s.fds, desc := Function.update s.desc fd ⟨filename, wr && sh⟩ } : Sys ν) = s₁
      have hfds : s₁.fds = fd :: s.fds := by rw [← hs₁]
      have hdesc : s₁.desc fd = ⟨filename, wr && sh⟩ := by
        rw [← hs₁]
        exact Function.update_self ..
      have hmem : s₁.mem = s.mem := by rw [← hs₁]
      have hstreams : s₁.streams = s.streams := by rw [← hs₁]
      have hsize : s₁.fstat fd env.stat = .ok (if env.stat then some bytes.length else none) := by
        rw [Sys.fstat, check_pos (by simp [hfds]), hdesc, hmem, hfiles, hfile]
        rfl
      change Gives _ (s₁.fstat fd env.stat >>= _)
      rw [hsize]
      cases hstat : env.stat with
      | false =>
        change Gives _ (s₁.close fd >>= _)
        rw [close_cons hfds]
        refine ⟨by simp [rules, hfile, hfd, hstat], rfl, hstreams, fun _ => hmem, fun h0 => ?_⟩
        cases h0
      | true =>
        change Gives _ (if bytes.length > sizeMax w then _ else _)
        by_cases hbig : bytes.length > sizeMax w
        · rw [if_pos hbig, close_cons hfds]
          refine ⟨by simp [rules, hfile, hbig], rfl, hstreams, fun _ => hmem, fun h0 => ?_⟩
          cases h0
        · rw [if_neg hbig]
          refine gives_bind (gives_mmap (by simp [hfds]) hdesc (by rw [hmem, hfiles, hfile]) env.addr) ?_
          rintro _ (⟨rfl, hnone⟩ | ⟨a, hnil, haddr, hne, hfresh, rfl⟩)
          · change Gives _ (s₁.close fd >>= _)
            rw [close_cons hfds]
            refine ⟨by simp [rules, hfile, hfd, hstat, hbig, hnone], rfl, hstreams, fun _ => hmem, fun h0 => ?_⟩
            change (if mapFailed w = mapFailed w then copFilemapErrMapping else 0) = 0 at h0
            rw [if_pos rfl] at h0
            cases h0
          · have hclose : ∀ m, ({ s₁ with mem := m } : Sys ν).close fd = .ok { s₁ with mem := m, fds := s.fds } :=
              fun m => close_cons hfds
            change Gives _ (Sys.close _ fd >>= _)
            rw [hclose]
            refine ⟨by simp [rules, hfile, hfd, hstat, hbig, hnil, haddr, hne], rfl, hstreams, fun h0 => ?_, fun _ => ?_⟩
            · exact absurd (if_neg hne) h0
            · rw [hmem] at hfresh
              exact ⟨a, bytes, rfl, hfresh, rfl, by rw [hmem]⟩

theorem gives_fclose {region : ℕ → Region} {held : List ℕ} (hshow : Shows (2 ^ w) D s.mem region held)
    (hno : ∀ i o, D.objs i = some o → o.view.file ≠ filename) {streams : List ℕ} {f n : ℕ} {written : List UInt8}
    (hstreams : s.streams = f :: streams) (hstream : s.stream f = ⟨filename, written⟩) :
    Gives (fun s' : Sys ν => n ≤ written.length ∧ s'.fds = s.fds ∧ s'.streams = streams ∧
      Shows (2 ^ w) (D.setFile filename (some (written.take n))) s'.mem region held) (s.fclose f n) := by
  rw [Sys.fclose, giveBack, check_pos (by simp [hstreams]), hstream]
  refine gives_assume_bind fun hn => ?_
  obtain ⟨m, hm, -, -, hshow'⟩ := hshow.rewrite hno (written.take n)
  change Gives _ (s.mem.rewrite filename (written.take n) >>= _)
  rw [hm]
  refine ⟨hn, rfl, ?_, hshow'⟩
  rw [hstreams]
  exact List.erase_cons_head ..

theorem gives_fopen {region : ℕ → Region} {held : List ℕ} (hshow : Shows (2 ^ w) D s.mem region held)
    (hno : ∀ i o, D.objs i = some o → o.view.file ≠ filename) (env : Option ℕ) :
    Gives (fun x : Option ℕ × Sys ν => (env = none ∧ x = (none, s)) ∨ ∃ f, env = some f ∧ x.1 = some f ∧
      x.2.fds = s.fds ∧ x.2.streams = f :: s.streams ∧ x.2.stream f = ⟨filename, []⟩ ∧
      Shows (2 ^ w) (D.setFile filename (some [])) x.2.mem region held) (s.fopen filename env) := by
  rw [Sys.fopen]
  refine gives_bind (gives_take s.streams env) ?_
  rintro ⟨answer, streams⟩ ⟨hanswer, htake⟩
  change answer = env at hanswer
  subst hanswer
  cases answer with
  | none => exact .inl ⟨rfl, rfl⟩
  | some f =>
    obtain ⟨-, rfl⟩ := htake
    obtain ⟨m, hm, -, -, hshow'⟩ := hshow.rewrite hno []
    change Gives _ (s.mem.rewrite filename [] >>= _)
    rw [hm]
    exact .inr ⟨f, rfl, rfl, rfl, rfl, Function.update_self .., hshow'⟩

/-- **`cop_file_dump`**: it returns what the rules say, no stream stays open, and the file is as the rules say. -/
theorem gives_copFileDump {region : ℕ → Region} {held : List ℕ} (hshow : Shows (2 ^ w) D s.mem region held)
    (hno : ∀ i o, D.objs i = some o → o.view.file ≠ filename) (buffer : List UInt8) (env : DumpEnv) :
    Gives (fun x : ℤ × Sys ν => x.1 = ((rules ν w).dumps D filename buffer env).1 ∧ x.2.fds = s.fds ∧
      x.2.streams = s.streams ∧ Shows (2 ^ w) ((rules ν w).next D (.dump filename buffer env)) x.2.mem region held)
      (copFileDump s filename buffer env) := by
  rw [copFileDump]
  refine gives_bind (gives_fopen hshow hno env.stream) ?_
  rintro ⟨_, s₁⟩ (⟨hnone, heq⟩ | ⟨f, hf, rfl, hfds, hstreams, hstream, hshow₁⟩)
  · obtain ⟨rfl, rfl⟩ := Prod.mk.inj heq
    simp only [Rules.next, rules, hnone]
    exact ⟨rfl, rfl, rfl, hshow⟩
  · simp only [Rules.next, rules, hf, id]
    have hmem : f ∈ s₁.streams := by
      rw [hstreams]
      exact List.mem_cons_self
    refine gives_bind (gives_fwrite hmem hstream) ?_
    rintro ⟨n, s₂⟩ ⟨hle, hn, hfds₂, hstreams₂, hmem₂, hstream₂⟩
    change n = env.wrote at hn
    subst hn
    rw [← hmem₂] at hshow₁
    -- both ways the stream is closed
    have hclose := gives_fclose (n := env.kept) hshow₁ hno (hstreams₂.trans hstreams) hstream₂
    have hkept : ∀ s₃ : Sys ν, (env.kept ≤ (buffer.take env.wrote).length ∧ s₃.fds = s₂.fds ∧ s₃.streams = s.streams ∧
        Shows (2 ^ w) ((D.setFile filename (some [])).setFile filename (some ((buffer.take env.wrote).take env.kept))) s₃.mem
          region held) → s₃.fds = s.fds ∧ s₃.streams = s.streams ∧
        Shows (2 ^ w) (D.setFile filename (some (buffer.take env.kept))) s₃.mem region held := by
      rintro s₃ ⟨hk, hfds₃, hstreams₃, hshow₃⟩
      rw [List.length_take] at hk
      rw [Store.setFile_setFile, List.take_take, Nat.min_eq_left (by omega)] at hshow₃
      exact ⟨hfds₃.trans (hfds₂.trans hfds), hstreams₃, hshow₃⟩
    by_cases hn : env.wrote = buffer.length
    · rw [if_neg (not_not.2 hn), if_pos hn]
      exact gives_bind hclose fun s₃ hs₃ => ⟨rfl, hkept s₃ hs₃⟩
    · rw [if_pos hn, if_neg hn]
      exact gives_bind hclose fun s₃ hs₃ => ⟨rfl, hkept s₃ hs₃⟩

/-! ### Runs -/

/-- What the calls keep. -/
structure Serves (w : ℕ) (fds streams : List ℕ) (D : Store ν) (c : Client ν) : Prop where
  /-- The memory shows the store. -/
  shows : ∃ held, Shows (2 ^ w) D c.sys.mem (Filemap.region ∘ c.maps) held
  /-- No descriptor stays open. -/
  fds_eq : c.sys.fds = fds
  /-- No stream stays open. -/
  streams_eq : c.sys.streams = streams

variable {fds streams : List ℕ} {c : Client ν}

/-- What a client sees that has opened nothing. -/
def Client.store {ν : Type} (c : Client ν) : Store ν := ⟨c.sys.mem.files, fun _ => none⟩

theorem serves_init {ν : Type} {c : Client ν} (hviews : c.sys.mem.views = []) :
    Serves w c.sys.fds c.sys.streams c.store c := by
  refine ⟨⟨[], rfl, fun i => ?_, List.nodup_nil, ?_, ?_, ?_⟩, rfl, rfl⟩
  · simp [Client.store]
  · rw [hviews]
    exact owned_nil _ _
  · rw [hviews]
    exact Ledger.nil _
  · intro i o ho
    cases ho

/-- **One call.** -/
theorem Serves.step (h : Serves w fds streams D c) {call : Call ν OpenEnv DumpEnv}
    (hlegal : (fileStore (rules ν w)).Legal D call) :
    Gives (fun x : Reply × Client ν => (fileStore (rules ν w)).Allows D call x.1 ∧
      Serves w fds streams ((fileStore (rules ν w)).next D call) x.2) (step w c call) := by
  obtain ⟨⟨held, hshow⟩, rfl, rfl⟩ := h
  obtain ⟨howes, hlegal⟩ := hlegal
  cases call with
  | mapOpen i filename flags env =>
    refine gives_bind (gives_copFilemapOpen (c.maps i) hshow.files howes) ?_
    rintro ⟨ret, map, sys⟩ ⟨hret, hfds, hstreams, hfail, hok⟩
    change ret = (rules ν w).opens D filename flags env at hret
    refine ⟨congrArg Reply.code hret, ?_⟩
    rw [fileStore_next]
    by_cases h0 : ret = 0
    · obtain ⟨a, bytes, hfile, hfresh, rfl, hmem⟩ := hok h0
      rw [next_open (hret.symm.trans h0) hfile]
      refine ⟨⟨i :: held, ?_⟩, hfds, hstreams⟩
      change Shows _ _ sys.mem (Filemap.region ∘ Function.update c.maps i _) _
      rw [show sys.mem = _ from hmem, Function.comp_update]
      exact hshow.opened hlegal hfresh hfile rfl
    · rw [next_open_of_ne fun hzero => h0 (hret.trans hzero)]
      refine ⟨⟨held, ?_⟩, hfds, hstreams⟩
      change Shows _ _ sys.mem (Filemap.region ∘ Function.update c.maps i _) _
      rw [show sys.mem = _ from hfail h0, Function.comp_update]
      exact hshow.update_region hlegal _
  | mapClose i =>
    obtain ⟨o, ho⟩ := Option.ne_none_iff_exists'.1 hlegal
    rw [Posix.step, copFilemapClose, munmap_eq (hshow.mem_views ho)]
    exact ⟨rfl, ⟨held.erase i, hshow.closed ho⟩, rfl, rfl⟩
  | load i off =>
    obtain ⟨o, ho, hread, hoff⟩ := hlegal
    have hload : c.sys.mem.load ((c.maps i).ptr + off) = .ok ((D.contents o).getD off 0) := hshow.load ho hread hoff
    rw [Posix.step, hload]
    exact ⟨⟨o, ho, rfl⟩, ⟨held, hshow⟩, rfl, rfl⟩
  | store i off b =>
    obtain ⟨o, ho, hwrite, hoff⟩ := hlegal
    obtain ⟨m, hm, -, hshow'⟩ := hshow.store ho hwrite hoff b (howes o ho)
    change c.sys.mem.store ((c.maps i).ptr + off) b = .ok m at hm
    rw [Posix.step, hm, fileStore_next, next_store ho]
    exact ⟨rfl, ⟨held, hshow'⟩, rfl, rfl⟩
  | dump filename buffer env =>
    refine gives_bind (gives_copFileDump hshow howes buffer env) ?_
    rintro ⟨ret, sys⟩ ⟨hret, hfds, hstreams, hshow'⟩
    exact ⟨congrArg Reply.code hret, ⟨held, hshow'⟩, hfds, hstreams⟩

/-- **A client of `cop_filemap` sees a store**, in every run in which it keeps to what `rules` says it owes. It never
accesses what is not mapped to it, and no descriptor and no stream stays open. -/
theorem posix_refines (hviews : c.sys.mem.views = []) {calls : List (Call ν OpenEnv DumpEnv)}
    (hlegal : (fileStore (rules ν w)).LegalRun c.store calls) :
    Gives (fun x : List Reply × Client ν => (fileStore (rules ν w)).AllowsRun c.store calls x.1 ∧
      Serves w c.sys.fds c.sys.streams ((fileStore (rules ν w)).nextRun c.store calls) x.2) (run (step w) c calls) :=
  gives_run (fun _ _ _ h hlegal => h.step hlegal) (serves_init hviews) hlegal

/-- A client that has opened nothing, and no files. -/
def sampleClient : Client ℕ :=
  ⟨⟨⟨fun _ => none, [], fun _ => ⟨0, false, false, false⟩, fun _ => 0⟩, [], fun _ => ⟨0, false⟩, [], fun _ => ⟨0, []⟩⟩,
    fun _ => ⟨0, 0⟩⟩

/-- A file is dumped, mapped twice, and written through the object that is shared and then through the other. -/
def sampleCalls : List (Call ℕ OpenEnv DumpEnv) :=
  [.dump 5 [10, 20, 30] ⟨some 3, 3, 3⟩, .mapOpen 0 5 7 ⟨some 4, true, some 4096⟩, .store 0 1 99,
    .mapOpen 1 5 3 ⟨some 4, true, some 8192⟩, .store 1 2 98, .load 1 1, .load 0 2, .mapClose 0, .mapClose 1]

example : (run (step 32) sampleClient sampleCalls).map Prod.fst =
    .ok [.code 0, .code 0, .done, .code 0, .done, .byte 99, .byte 30, .done, .done] := rfl

theorem posix_refines_sample : (fileStore (rules ℕ 32)).LegalRun sampleClient.store sampleCalls ∧
    Gives (fun x : List Reply × Client ℕ => (fileStore (rules ℕ 32)).AllowsRun sampleClient.store sampleCalls x.1 ∧
      Serves 32 [] [] ((fileStore (rules ℕ 32)).nextRun sampleClient.store sampleCalls) x.2)
      (run (step 32) sampleClient sampleCalls) := by
  have hlegal : (fileStore (rules ℕ 32)).LegalRun sampleClient.store sampleCalls := by
    simp only [sampleCalls, Contract.LegalRun]
    simp [fileStore, Rules.Legal, rules, Rules.next, Client.store, sampleClient, copFilemapFlagW, copFilemapFlagR,
      copFilemapShared, Rules.view, sizeMax, Store.setFile, Store.setObj]
    intro j o' hj _
    by_cases hj0 : j = 0
    · rw [hj0, Function.update_self, Option.some.injEq] at hj
      rw [← hj]
    · rw [Function.update_of_ne hj0] at hj
      cases hj
  exact ⟨hlegal, posix_refines rfl hlegal⟩

/-- **What `cop_file_dump` wrote is read through `cop_filemap_open`**, however the client went on in between, as long as
it left the file alone and kept to what it owes, also on other files: if 0 was returned, and `fclose` could write what
was left to write. -/
theorem posix_round_trip (hviews : c.sys.mem.views = []) {filename : ν} {buffer : List UInt8} {envD : DumpEnv}
    {cs calls : List (Call ν OpenEnv DumpEnv)} {i flags off : ℕ} {envO : OpenEnv}
    (hcalls : calls = .dump filename buffer envD :: (cs ++ [.mapOpen i filename flags envO, .load i off]))
    (hlegal : (fileStore (rules ν w)).LegalRun c.store calls)
    (halone : (rules ν w).LeavesAlone filename ((rules ν w).next c.store (.dump filename buffer envD)) cs) :
    Gives (fun x : List Reply × Client ν => ∃ ret rs b, x.1 = .code ret :: (rs ++ [.code 0, .byte b]) ∧
      (ret = 0 → envD.kept = buffer.length → b = buffer.getD off 0)) (run (step w) c calls) := by
  refine (gives_run (fun _ _ _ h hlegal => h.step hlegal) (serves_init hviews) hlegal).mono ?_
  rintro ⟨os, c'⟩ ⟨hallows, -⟩
  obtain ⟨rs, b, hos, hb⟩ := dump_open_load hcalls hlegal hallows halone
  refine ⟨_, rs, b, hos, fun hret hkept => hb ?_⟩
  simp only [rules] at hret ⊢
  cases hstream : envD.stream with
  | none =>
    rw [hstream] at hret
    cases hret
  | some f => rw [hkept]

/-- A file is dumped, and written through an object that is not shared. -/
def sampleTrip : List (Call ℕ OpenEnv DumpEnv) :=
  .dump 5 [10, 20, 30] ⟨some 3, 3, 3⟩ :: ([.mapOpen 1 5 3 ⟨some 4, true, some 8192⟩, .store 1 2 98] ++
    [.mapOpen 0 5 1 ⟨some 4, true, some 4096⟩, .load 0 2])

theorem posix_round_trip_private : Gives (fun x : List Reply × Client ℕ =>
    ∃ ret rs b, x.1 = .code ret :: (rs ++ [.code 0, .byte b]) ∧ (ret = 0 → b = 30)) (run (step 32) sampleClient sampleTrip) := by
  have hlegal : (fileStore (rules ℕ 32)).LegalRun sampleClient.store sampleTrip := by
    simp only [sampleTrip, List.cons_append, List.nil_append, Contract.LegalRun]
    simp [fileStore, Rules.Legal, rules, Rules.next, Client.store, sampleClient, copFilemapFlagW, copFilemapFlagR,
      copFilemapShared, Rules.view, sizeMax, Store.setFile, Store.setObj]
  refine (posix_round_trip (c := sampleClient) rfl rfl hlegal ?_).mono ?_
  · simp [Rules.LeavesAlone, Rules.Touches, rules, Rules.next, Client.store, sampleClient, copFilemapFlagW,
      copFilemapFlagR, copFilemapShared, Rules.view, sizeMax, Store.setFile, Store.setObj]
  · rintro x ⟨ret, rs, b, hx, hb⟩
    exact ⟨ret, rs, b, hx, fun hret => hb hret rfl⟩

end Cop.Files.Posix
