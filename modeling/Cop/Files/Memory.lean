import Cop.Files.Store
import Cop.Theory.Extents
import Cop.Theory.Resources

/-!
# Files and mapped memory

What the systems have in common on which files are mapped.

## The model

* A `Memory` is the files, and the regions of the address space that are mapped. A shared view shows the file; any
  other shows a copy of the file as it was when it was mapped.
* To access memory that is not mapped for it is a `Misuse`. So is to change a file of which there is a view that is
  not shared, as it is left open what this view shows then, and to write a file anew that is mapped.
* `Shows` relates a `Store` to a memory, and to where the objects are mapped.

## What is proved

* `Shows.opened`, `Shows.closed`, `Shows.rewrite` — what is mapped, unmapped and written anew.
* `Shows.load`, `Shows.store` — an object is accessed at its addresses.
-/

namespace Cop.Files

open Theory

/-- What a program must not do. -/
inductive Misuse where
  /-- An assertion fails. -/
  | assertion
  /-- What is not open is used or closed. -/
  | badClose
  /-- What is not mapped is unmapped. -/
  | badUnmap
  /-- Memory that is not taken is used or given back. -/
  | badFree
  /-- Memory is accessed that is not mapped for it. -/
  | access
  /-- A file is changed under a view. -/
  | changed
  deriving DecidableEq

/-- The files, and what is mapped. -/
structure Memory (ν : Type) where
  /-- The files that there are. -/
  files : ν → Option (List UInt8)
  /-- Where something is mapped. -/
  views : List Region
  /-- What is mapped to an address. -/
  view : ℕ → View ν
  /-- The copies. -/
  bytes : ℕ → UInt8

variable {ν : Type}

namespace Memory

/-- The file `v.file`, of `content`, is mapped. -/
def map (m : Memory ν) (r : Region) (v : View ν) (content : List UInt8) : Memory ν :=
  { m with
    views := r :: m.views
    view := Function.update m.view r.addr v
    bytes := if v.shared then m.bytes else put m.bytes r.addr content }

/-- What is mapped at `r` is unmapped. -/
def unmap (m : Memory ν) (r : Region) : Memory ν := { m with views := m.views.erase r }

/-- Where the memory of an address is mapped. -/
def find (m : Memory ν) (a : ℕ) : Option Region := m.views.find? fun r => r.addr ≤ a ∧ a < r.addr + r.len

/-- The byte at `a` is read. -/
def load (m : Memory ν) (a : ℕ) : Exec Misuse UInt8 :=
  match m.find a with
  | none => .error (.fault .access)
  | some r => do
    let v := m.view r.addr
    check .access (v.read = true)
    if v.shared then
      let file := (m.files v.file).getD []
      check .access (a - r.addr < file.length)
      return file.getD (a - r.addr) 0
    else return m.bytes a

variable [DecidableEq ν]

/-- The byte `b` is written at `a`. -/
def store (m : Memory ν) (a : ℕ) (b : UInt8) : Exec Misuse (Memory ν) :=
  match m.find a with
  | none => .error (.fault .access)
  | some r => do
    let v := m.view r.addr
    check .access (v.write = true)
    if v.shared then
      let file := (m.files v.file).getD []
      check .access (a - r.addr < file.length)
      check .changed (∀ q ∈ m.views, (m.view q.addr).file = v.file → (m.view q.addr).shared = true)
      return { m with files := Function.update m.files v.file (some (file.set (a - r.addr) b)) }
    else return { m with bytes := Function.update m.bytes a b }

/-- The file `f` is written anew. -/
def rewrite (m : Memory ν) (f : ν) (bytes : List UInt8) : Exec Misuse (Memory ν) := do
  check .changed (∀ q ∈ m.views, (m.view q.addr).file ≠ f)
  return { m with files := Function.update m.files f (some bytes) }

end Memory

/-! ### Objects in memory -/

/-- An object is mapped at `r`. -/
structure Mapped (m : Memory ν) (r : Region) (o : Object ν) : Prop where
  /-- What is mapped there. -/
  view : m.view r.addr = o.view
  /-- As large as the file. -/
  len : r.len = o.own.length
  /-- The file, if it is shared. -/
  shared : o.view.shared = true → ∃ file, m.files o.view.file = some file ∧ file.length = o.own.length
  /-- The copy, if it is not. -/
  own : o.view.shared = false → window m.bytes r.addr r.len = o.own

/-- The memory shows the store, where the objects `held` are open, and are mapped at `region`. -/
structure Shows (N : ℕ) (s : Store ν) (m : Memory ν) (region : ℕ → Region) (held : List ℕ) : Prop where
  /-- The files are the files. -/
  files : m.files = s.files
  /-- The objects that are open. -/
  mem_iff : ∀ i, i ∈ held ↔ s.objs i ≠ none
  /-- Each once. -/
  nodup : held.Nodup
  /-- What they own is all that is mapped. -/
  owned : Owned held (List.singleton ∘ region) [] m.views
  /-- It does not overlap. -/
  ledger : Ledger N m.views
  /-- Each is mapped. -/
  mapped : ∀ i o, s.objs i = some o → Mapped m (region i) o

instance : Std.Symm Region.Apart := ⟨fun _ _ h => ⟨h.1.symm, h.2.symm⟩⟩

namespace Shows

variable {N : ℕ} {s : Store ν} {m : Memory ν} {region : ℕ → Region} {held : List ℕ} {i : ℕ} {o : Object ν}

theorem mem_held (h : Shows N s m region held) (ho : s.objs i = some o) : i ∈ held := by
  rw [h.mem_iff, ho]
  exact Option.some_ne_none o

theorem mem_views (h : Shows N s m region held) (ho : s.objs i = some o) : region i ∈ m.views :=
  h.owned.mem (h.mem_held ho) (List.mem_singleton_self _)

theorem exists_of_mem (h : Shows N s m region held) {r : Region} (hr : r ∈ m.views) :
    ∃ i o, s.objs i = some o ∧ region i = r := by
  have hmem := h.owned.mem_iff.1 hr
  rw [List.append_nil, List.mem_flatMap] at hmem
  obtain ⟨i, hi, hri⟩ := hmem
  obtain ⟨o, ho⟩ := Option.ne_none_iff_exists'.1 ((h.mem_iff i).1 hi)
  exact ⟨i, o, ho, (List.mem_singleton.1 hri).symm⟩

theorem apart (h : Shows N s m region held) {j : ℕ} {o' : Object ν} (ho : s.objs i = some o) (ho' : s.objs j = some o')
    (hij : j ≠ i) : (region i).Apart (region j) :=
  h.owned.rel h.ledger.apart (h.mem_held ho) (h.mem_held ho') hij (List.mem_singleton_self _) (List.mem_singleton_self _)

theorem find_eq (h : Shows N s m region held) (ho : s.objs i = some o) {off : ℕ} (hoff : off < o.own.length) :
    m.find ((region i).addr + off) = some (region i) := by
  have hlen := (h.mapped i o ho).len
  cases hfind : m.find ((region i).addr + off) with
  | none =>
    have hno := List.find?_eq_none.1 hfind (region i) (h.mem_views ho)
    simp only [decide_eq_true_eq] at hno
    omega
  | some r =>
    have hin := List.find?_some hfind
    simp only [decide_eq_true_eq] at hin
    obtain ⟨j, o', ho', rfl⟩ := h.exists_of_mem (List.mem_of_find?_eq_some hfind)
    by_cases hij : j = i
    · rw [hij]
    · have hapart := (h.apart ho ho' hij).2
      omega

/-! ### Objects come and go -/

/-- Where an object is mapped does not matter when it is not open. -/
theorem update_region (h : Shows N s m region held) (hi : s.objs i = none) (r : Region) :
    Shows N s m (Function.update region i r) held := by
  have hni : i ∉ held := fun hmem => (h.mem_iff i).1 hmem hi
  refine ⟨h.files, h.mem_iff, h.nodup, ?_, h.ledger, ?_⟩
  · rw [Function.comp_update]
    exact h.owned.update hni _
  · intro j o hj
    rw [Function.update_of_ne (by rintro rfl; rw [hi] at hj; cases hj)]
    exact h.mapped j o hj

/-- **An object is opened**: a file is mapped to memory that is free. -/
theorem opened (h : Shows N s m region held) (hi : s.objs i = none) {r : Region} (hr : Fresh N m.views r) {v : View ν}
    {bytes : List UInt8} (hfile : s.files v.file = some bytes) (hlen : r.len = bytes.length) :
    Shows N (s.setObj i (some ⟨v, bytes⟩)) (m.map r v bytes) (Function.update region i r) (i :: held) := by
  have hni : i ∉ held := fun hmem => (h.mem_iff i).1 hmem hi
  refine ⟨h.files, fun j => ?_, List.nodup_cons.2 ⟨hni, h.nodup⟩, ?_, h.ledger.malloc hr, ?_⟩
  · rw [Store.objs_setObj, List.mem_cons]
    by_cases hj : j = i
    · simp [hj]
    · rw [Function.update_of_ne hj, h.mem_iff j]
      simp [hj]
  · rw [Function.comp_update]
    exact h.owned.push hni [r]
  · intro j o hj
    rw [Store.objs_setObj] at hj
    by_cases hji : j = i
    · subst hji
      rw [Function.update_self, Option.some.injEq] at hj
      subst hj
      rw [Function.update_self]
      refine ⟨Function.update_self .., hlen, fun _ => ⟨bytes, by rw [← hfile, ← h.files]; rfl, rfl⟩, fun hs => ?_⟩
      have hcopy : ¬ v.shared = true := Bool.eq_false_iff.1 hs
      simp only [Memory.map, if_neg hcopy, hlen]
      exact window_put m.bytes r.addr bytes
    · rw [Function.update_of_ne hji] at hj ⊢
      obtain ⟨hview, hjlen, hshared, hown⟩ := h.mapped j o hj
      have hapart := hr.2 (region j) (h.mem_views hj)
      refine ⟨?_, hjlen, hshared, fun hs => ?_⟩
      · rw [← hview]
        exact Function.update_of_ne hapart.1.symm _ _
      · rw [← hown hs]
        simp only [Memory.map]
        split
        · rfl
        · refine window_congr fun k hk => put_of_notMem fun hmem => ?_
          have hclear := hapart.2
          rw [mem_extent] at hmem
          omega

/-- **An object is closed**: what it owns is unmapped. -/
theorem closed (h : Shows N s m region held) (ho : s.objs i = some o) :
    Shows N (s.setObj i none) (m.unmap (region i)) region (held.erase i) := by
  refine ⟨h.files, fun j => ?_, h.nodup.erase i, h.owned.erase (h.mem_held ho) rfl, ?_, ?_⟩
  · rw [Store.objs_setObj, h.nodup.mem_erase_iff]
    by_cases hj : j = i
    · simp [hj]
    · rw [Function.update_of_ne hj, h.mem_iff j]
      simp [hj]
  · exact h.ledger.sublist List.erase_sublist
  · intro j o' hj
    rw [Store.objs_setObj] at hj
    have hji : j ≠ i := by
      rintro rfl
      rw [Function.update_self] at hj
      cases hj
    rw [Function.update_of_ne hji] at hj
    obtain ⟨hview, hlen, hshared, hown⟩ := h.mapped j o' hj
    exact ⟨hview, hlen, hshared, hown⟩

/-! ### Access -/

/-- **A byte of an object is read.** -/
theorem load (h : Shows N s m region held) (ho : s.objs i = some o) (hread : o.view.read = true) {off : ℕ}
    (hoff : off < o.own.length) : m.load ((region i).addr + off) = .ok ((s.contents o).getD off 0) := by
  obtain ⟨hview, hlen, hshared, hown⟩ := h.mapped i o ho
  simp only [Memory.load, h.find_eq ho hoff, hview, check_pos hread, Nat.add_sub_cancel_left]
  cases hs : o.view.shared with
  | true =>
    obtain ⟨file, hfile, hsize⟩ := hshared hs
    have hcheck : off < ((m.files o.view.file).getD []).length := by
      rw [hfile, Option.getD_some]
      omega
    rw [Store.contents_shared hs, ← h.files, check_pos hcheck]
    rfl
  | false =>
    have hbyte : m.bytes ((region i).addr + off) = o.own.getD off 0 := by
      rw [← hown hs, List.getD_eq_getElem _ _ (by rw [length_window]; omega), getElem_window]
    rw [Store.contents_own hs, ← hbyte]
    rfl

theorem setCopy (h : Shows N s m region held) (ho : s.objs i = some o) {off : ℕ} (hoff : off < o.own.length)
    (hs : o.view.shared = false) (b : UInt8) : Shows N (s.setObj i (some { o with own := o.own.set off b }))
      { m with bytes := Function.update m.bytes ((region i).addr + off) b } region held := by
  refine ⟨h.files, fun j => ?_, h.nodup, h.owned, h.ledger, ?_⟩
  · rw [h.mem_iff, Store.objs_setObj]
    by_cases hj : j = i
    · simp [hj, ho]
    · rw [Function.update_of_ne hj]
  · intro j o' ho'
    rw [Store.objs_setObj] at ho'
    by_cases hj : j = i
    · subst hj
      rw [Function.update_self, Option.some.injEq] at ho'
      subst ho'
      obtain ⟨hview, hlen, hshared, hown⟩ := h.mapped j o ho
      refine ⟨hview, by rw [List.length_set]; exact hlen, fun hs' => ?_, fun _ => ?_⟩
      · rw [hs] at hs'
        cases hs'
      · rw [window_update, hown hs]
    · rw [Function.update_of_ne hj] at ho'
      obtain ⟨hview, hlen, hshared, hown⟩ := h.mapped j o' ho'
      refine ⟨hview, hlen, hshared, fun hs' => ?_⟩
      rw [← hown hs']
      refine window_congr fun k hk => Function.update_of_ne ?_ _ _
      have hapart := (h.apart ho ho' hj).2
      have hlen' := (h.mapped i o ho).len
      omega

variable [DecidableEq ν]

/-- A file is written that no shared object has in another size. -/
theorem setFile (h : Shows N s m region held) {f : ν} {bytes : List UInt8}
    (hsize : ∀ i o, s.objs i = some o → o.view.shared = true → o.view.file = f → bytes.length = o.own.length) :
    Shows N (s.setFile f (some bytes)) { m with files := Function.update m.files f (some bytes) } region held := by
  refine ⟨congrArg (Function.update · f (some bytes)) h.files, h.mem_iff, h.nodup, h.owned, h.ledger, ?_⟩
  intro i o ho
  obtain ⟨hview, hlen, hshared, hown⟩ := h.mapped i o ho
  refine ⟨hview, hlen, fun hs => ?_, hown⟩
  by_cases hf : o.view.file = f
  · exact ⟨bytes, by rw [hf]; exact Function.update_self .., hsize i o ho hs hf⟩
  · obtain ⟨file, hfile, hfl⟩ := hshared hs
    exact ⟨file, by rw [← hfile]; exact Function.update_of_ne hf _ _, hfl⟩

/-- **A file that no object has is written anew.** -/
theorem rewrite (h : Shows N s m region held) {f : ν} (hno : ∀ i o, s.objs i = some o → o.view.file ≠ f)
    (bytes : List UInt8) : ∃ m', m.rewrite f bytes = .ok m' ∧ m'.views = m.views ∧ m'.view = m.view ∧
      Shows N (s.setFile f (some bytes)) m' region held := by
  have hcheck : ∀ q ∈ m.views, (m.view q.addr).file ≠ f := by
    intro q hq
    obtain ⟨i, o, ho, rfl⟩ := h.exists_of_mem hq
    rw [(h.mapped i o ho).view]
    exact hno i o ho
  rw [Memory.rewrite, check_pos hcheck]
  exact ⟨_, rfl, rfl, rfl, h.setFile fun i o ho _ hf => absurd hf (hno i o ho)⟩

/-- **A byte of an object is written.** -/
theorem store (h : Shows N s m region held) (ho : s.objs i = some o) (hwrite : o.view.write = true) {off : ℕ}
    (hoff : off < o.own.length) (b : UInt8)
    (halone : o.view.shared = true → ∀ j o', s.objs j = some o' → o'.view.file = o.view.file → o'.view.shared = true) :
    ∃ m', m.store ((region i).addr + off) b = .ok m' ∧ m'.views = m.views ∧ Shows N
      (if o.view.shared then s.setFile o.view.file ((s.files o.view.file).map fun bytes => bytes.set off b)
        else s.setObj i (some { o with own := o.own.set off b })) m' region held := by
  obtain ⟨hview, hlen, hshared, hown⟩ := h.mapped i o ho
  simp only [Memory.store, h.find_eq ho hoff, hview, check_pos hwrite, Nat.add_sub_cancel_left]
  cases hs : o.view.shared with
  | true =>
    obtain ⟨file, hfile, hsize⟩ := hshared hs
    have hcheck : ∀ q ∈ m.views, (m.view q.addr).file = o.view.file → (m.view q.addr).shared = true := by
      intro q hq
      obtain ⟨j, o', ho', rfl⟩ := h.exists_of_mem hq
      rw [(h.mapped j o' ho').view]
      exact halone hs j o' ho'
    simp only [hfile, Option.getD_some]
    rw [check_pos (by omega), check_pos hcheck]
    refine ⟨_, rfl, rfl, ?_⟩
    rw [h.files] at hfile
    simp only [if_true, hfile, Option.map_some]
    refine h.setFile fun j o' ho' hs' hf => ?_
    obtain ⟨file', hfile', hsize'⟩ := (h.mapped j o' ho').shared hs'
    rw [hf, h.files, hfile, Option.some.injEq] at hfile'
    rw [List.length_set, hfile', hsize']
  | false =>
    refine ⟨_, rfl, rfl, ?_⟩
    exact h.setCopy ho hoff hs b

end Shows

end Cop.Files
