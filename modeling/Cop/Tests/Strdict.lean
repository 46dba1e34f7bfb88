import Cop.Alloc.Iface
import Cop.Strdict.Refinement
import Cop.Tests.Strings

/-!
# The test program of the dictionary

`cop_strdict_tests.c` keeps its nodes, each with its key behind it, in memory from an
allocator, and calls the dictionary with null-terminated strings: it expects that a key
can be inserted once, is found, can be deleted once, is not found, and that its data can be
changed. Here any list of such expectations is run, with any keys, and any allocator.

## The model

* A `Bench` is what the program works on: the allocator behind `iface`, and memory with the
  nodes and `p_root`. The key of an expectation is written to the buffer `keystr` first, as
  `makekey` does.
* `expectInsertOk` to `expectUpdate` are the functions of the program; 0 or -1 is returned
  as they do. Messages are not modelled. `abort` is a verdict of its own.
* The size of a node, `sizeof(struct cop_strdict_node)`, and the address of `keystr` are
  parameters; `size_t` has `w` bits.
* `Spec` runs the same list on the allocator and a finite set of strings. There are no
  nodes, no memory and no dictionary in it.
* `Supplies` is what is asked of the allocator, for blocks that are never released.

## What is proved

* `expectInsertOk_ok` to `expectUpdate_ok` — one lemma for each expectation.
* `makeNode_ok` — a node is made in memory that nothing else uses.
* `runTests_ok` — every list of expectations is run without a fault, and has the verdict that `Spec` gives it.
-/

namespace Cop.Tests

open Theory Strdict Alloc

variable {σ α : Type}

/-! ### The program -/

/-- What the program works on. -/
structure Bench (σ : Type) where
  /-- The allocator behind `iface`. -/
  alloc : σ
  /-- Memory, nodes, and `p_root`. -/
  world : World ℕ

/-- What a test comes to. -/
inductive Verdict where
  /-- All expectations are met. -/
  | passed
  /-- One is not. -/
  | failed
  /-- The allocator had no memory. -/
  | aborted
  deriving DecidableEq

/-- A function that expects something of a key. -/
inductive Expect (α : Type) where
  /-- `expect_insert_ok(&p_root, make_node(iface, keystr))`, where the environment answers the allocator. -/
  | insertOk (env : α)
  /-- `expect_delete_ok(&p_root, keystr)`. -/
  | deleteOk
  /-- `expect_exists(&p_root, keystr)`. -/
  | exists
  /-- `expect_removed(&p_root, keystr)`. -/
  | removed
  /-- `expect_update(&p_root, keystr)`. -/
  | update

/-- A key that is written to `keystr`, and what is expected of it. -/
structure Line (α : Type) where
  /-- The key. -/
  key : List UInt8
  /-- What is expected. -/
  expect : Expect α

/-- What the program is compiled and linked with. -/
structure Setup (σ α : Type) where
  /-- The compiler. -/
  target : Target
  /-- The width of `size_t`. -/
  w : ℕ
  /-- The allocator. -/
  salloc : Salloc σ α
  /-- `sizeof(struct cop_strdict_node)`. -/
  nodeSz : ℕ
  /-- The address of `keystr`. -/
  keystr : ℕ
  /-- The size of `keystr`. -/
  keystrSz : ℕ

namespace Bench

/-- Write to memory. -/
def poke (b : Bench σ) (m : Bytes) : Bench σ := { b with world := { b.world with mem := m } }

/-- Write to the nodes. -/
def setStore (b : Bench σ) (st : Store ℕ) : Bench σ := { b with world := { b.world with store := st } }

end Bench

section Program

variable (P : Setup σ α) (fuel : ℕ)

/-- `make_node`; no node if it aborts. -/
def makeNode (b : Bench σ) (pId : ℕ) (env : α) : Exec Fault (Option Ptr × Bench σ) := do
  let n ← strlen fuel b.world.mem pId
  let sl := Word.add P.w n 1
  let (p, a) ← P.salloc.alloc b.alloc (Word.add P.w P.nodeSz sl) 0 env
  match p with
  | none => return (none, { b with alloc := a })
  | some pRet =>
    let m ← memcpy b.world.mem (pRet + P.nodeSz) pId sl
    let st ← copStrdictNodeInitByCstr P.target fuel m b.world.store pRet (pRet + P.nodeSz) (pRet + P.nodeSz)
    return (some pRet, ⟨a, ⟨m, st⟩⟩)

/-- `expect_insert_ok`. -/
def expectInsertOk (b : Bench σ) (pNode : Ptr) : Exec Fault (ℤ × Bench σ) := do
  let (r, st) ← copStrdictInsert fuel b.world.mem b.world.store World.root pNode
  let b := b.setStore st
  if r ≠ 0 then return (-1, b)
  let (r, st) ← copStrdictInsert fuel b.world.mem b.world.store World.root pNode
  let b := b.setStore st
  if r = 0 then return (-1, b)
  return (0, b)

/-- `expect_delete_ok`. -/
def expectDeleteOk (b : Bench σ) (pKey : ℕ) : Exec Fault (ℤ × Bench σ) := do
  let (p, st) ← copStrdictDeleteByCstr P.target fuel b.world.mem b.world.store World.root pKey
  let b := b.setStore st
  if p = none then return (-1, b)
  let (p, st) ← copStrdictDeleteByCstr P.target fuel b.world.mem b.world.store World.root pKey
  let b := b.setStore st
  if p ≠ none then return (-1, b)
  return (0, b)

/-- `expect_exists`. -/
def expectExists (b : Bench σ) (pKey : ℕ) : Exec Fault (ℤ × Bench σ) := do
  let (r, _) ← copStrdictGetByCstr P.target fuel b.world.mem b.world.store (b.world.store.get World.root) pKey false
  if r ≠ 0 then return (-1, b)
  return (0, b)

/-- `expect_removed`. -/
def expectRemoved (b : Bench σ) (pKey : ℕ) : Exec Fault (ℤ × Bench σ) := do
  let (r, _) ← copStrdictGetByCstr P.target fuel b.world.mem b.world.store (b.world.store.get World.root) pKey false
  if r = 0 then return (-1, b)
  return (0, b)

/-- `expect_update`. A variable that the dictionary has not assigned to is not read. -/
def expectUpdate (b : Bench σ) (pKey : ℕ) : Exec Fault (ℤ × Bench σ) := do
  let get (b : Bench σ) := copStrdictGetByCstr P.target fuel b.world.mem b.world.store (b.world.store.get World.root) pKey true
  let update (b : Bench σ) (v : ℕ) :=
    copStrdictUpdateByCstr P.target fuel b.world.mem b.world.store (b.world.store.get World.root) pKey v
  let (r, existing) ← get b
  if r ≠ 0 then return (-1, b)
  match existing with
  | none => .error (.fault .nullDeref)
  | some existingVal =>
    if !(← strcmpEq fuel b.world.mem pKey existingVal) then return (-1, b)
    let (r, st) ← update b 0
    let b := b.setStore st
    if r ≠ 0 then return (-1, b)
    let (r, newVal) ← get b
    if r ≠ 0 then return (-1, b)
    if newVal ≠ some 0 then return (-1, b)
    let (r, st) ← update b existingVal
    let b := b.setStore st
    if r ≠ 0 then return (-1, b)
    let (r, newVal) ← get b
    if r ≠ 0 then return (-1, b)
    if newVal ≠ some existingVal then return (-1, b)
    return (0, b)

/-- What an expectation that returned comes to. -/
def verdict (x : ℤ × Bench σ) : Verdict × Bench σ := (if x.1 = 0 then .passed else .failed, x.2)

/-- Call the function, with the key in `keystr`. -/
def runExpect (b : Bench σ) : Expect α → Exec Fault (Verdict × Bench σ)
  | .insertOk env => do
    let (p, b) ← makeNode P fuel b P.keystr env
    match p with
    | none => return (.aborted, b)
    | some pNode => return verdict (← expectInsertOk fuel b pNode)
  | .deleteOk => return verdict (← expectDeleteOk P fuel b P.keystr)
  | .exists => return verdict (← expectExists P fuel b P.keystr)
  | .removed => return verdict (← expectRemoved P fuel b P.keystr)
  | .update => return verdict (← expectUpdate P fuel b P.keystr)

/-- Write the key to `keystr`, and call the function. -/
def runLine (b : Bench σ) (l : Line α) : Exec Fault (Verdict × Bench σ) :=
  runExpect P fuel (b.poke (put b.world.mem P.keystr (l.key ++ [0]))) l.expect

/-- Run the lines, up to the first that does not pass. -/
def runTests : List (Line α) → Bench σ → Exec Fault Verdict
  | [], _ => return .passed
  | l :: ls, b => do
    let (v, b) ← runLine P fuel b l
    if v = .passed then runTests ls b else return v

end Program

/-! ### The specification -/

namespace Spec

/-- What becomes of the set of keys, if the expectation is met. -/
def expected (keys : Finset (List UInt8)) (key : List UInt8) : Expect α → Option (Finset (List UInt8))
  | .insertOk _ => if key ∈ keys then none else some (insert key keys)
  | .deleteOk => if key ∈ keys then some (keys.erase key) else none
  | .exists | .update => if key ∈ keys then some keys else none
  | .removed => if key ∈ keys then none else some keys

/-- The allocator after a line, if the line asks it for a block; no state if there is none. -/
def allocated (P : Setup σ α) (a : σ) (l : Line α) : Exec Fault (Option σ) :=
  match l.expect with
  | .insertOk env => do
    let (p, a) ← P.salloc.alloc a (P.nodeSz + (l.key.length + 1)) 0 env
    return p.map fun _ => a
  | _ => return some a

/-- The verdict on a list of lines, from the keys that are there. -/
def run (P : Setup σ α) : List (Line α) → σ → Finset (List UInt8) → Exec Fault Verdict
  | [], _, _ => return .passed
  | l :: ls, a, keys => do
    match ← allocated P a l with
    | none => return .aborted
    | some a =>
      match expected keys l.key l.expect with
      | none => return .failed
      | some keys => run P ls a keys

end Spec

/-! ### What the program keeps -/

/-- What is asked of the allocator of a program that releases nothing: of requests that meet `C`, each is answered, and a
block that is returned is apart from all blocks before it, and from `keystr`. -/
structure Supplies (P : Setup σ α) (C : σ → ℕ → α → Prop) (I : σ → List Block → Prop) : Prop where
  /-- Every request is answered. -/
  total : ∀ {a live size env}, I a live → size < 2 ^ P.w → C a size env → ∃ r, P.salloc.alloc a size 0 env = .ok r
  /-- A block is apart from the others. -/
  block : ∀ {a live size env p a'}, I a live → size < 2 ^ P.w → 0 < size → C a size env →
    P.salloc.alloc a size 0 env = .ok (some p, a') → I a' (⟨p, size, 0⟩ :: live) ∧
      (∀ b ∈ live, Block.Apart ⟨p, size, 0⟩ b) ∧ Block.Apart ⟨p, size, 0⟩ ⟨P.keystr, P.keystrSz, 0⟩

/-- The nodes of the set `keys` are in the dictionary, each in a block of its own with its key behind it. -/
structure Keeps (P : Setup σ α) (n : ℕ) (keys : Finset (List UInt8)) (w : World ℕ) (live : List Block) (D : Dict ℕ)
    (place : List UInt8 → Ptr) : Prop where
  /-- The dictionary is a finite map. -/
  holds : ∃ t, Holds n D w t
  /-- It binds the keys of the set, to their nodes. -/
  bound : ∀ k p, D.bound.lookup k = some p ↔ ∃ bs ∈ keys, k = cstrKey P.target bs ∧ p = place bs
  /-- A node and its key are in a block. -/
  block : ∀ bs ∈ keys, (⟨place bs, P.nodeSz + (bs.length + 1), 0⟩ : Block) ∈ live
  /-- The key is behind the node. -/
  text : ∀ bs ∈ keys, CstrAt D.mem (place bs + P.nodeSz) bs
  /-- The node was initialised with it. -/
  strh : ∀ bs ∈ keys, D.strh (place bs) = some ⟨bs.length + 1, foldHash P.target bs, place bs + P.nodeSz⟩
  /-- Its data is a pointer to it. -/
  data : ∀ bs ∈ keys, D.data (place bs) = place bs + P.nodeSz
  /-- Blocks are apart from `keystr`. -/
  apart : ∀ b ∈ live, b.Apart ⟨P.keystr, P.keystrSz, 0⟩

namespace Keeps

variable {P : Setup σ α} {n fuel : ℕ} {keys : Finset (List UInt8)} {w : World ℕ} {live : List Block} {D : Dict ℕ}
  {place : List UInt8 → Ptr}

theorem mem_eq (h : Keeps P n keys w live D place) : w.mem = D.mem := by
  obtain ⟨t, ht⟩ := h.holds
  exact ht.mem

theorem lookup_eq (h : Keeps P n keys w live D place) (bs : List UInt8) :
    D.bound.lookup (cstrKey P.target bs) = if bs ∈ keys then some (place bs) else none := by
  split
  · rename_i hbs
    exact (h.bound _ _).2 ⟨bs, hbs, rfl, rfl⟩
  · rename_i hbs
    refine Option.eq_none_iff_forall_ne_some.2 fun p hp => ?_
    obtain ⟨cs, hcs, hk, -⟩ := (h.bound _ _).1 hp
    exact hbs (cstrKey_inj hk ▸ hcs)

theorem mono (h : Keeps P n keys w live D place) {m : ℕ} (hm : n ≤ m) : Keeps P m keys w live D place := by
  obtain ⟨t, ht⟩ := h.holds
  exact { h with holds := ⟨t, { ht with height := ht.height.trans hm }⟩ }

/-- Writing to memory that is no key of a node. -/
theorem poke (h : Keeps P n keys w live D place) {q : ℕ} {xs : List UInt8}
    (hclear : ∀ bs ∈ keys, Clear q xs.length (place bs + P.nodeSz) (bs.length + 1)) :
    Keeps P (n + 1) keys { w with mem := put w.mem q xs } live { D with mem := put w.mem q xs } place := by
  have htext : ∀ bs ∈ keys, CstrAt (put w.mem q xs) (place bs + P.nodeSz) bs := fun bs hbs =>
    (h.text bs hbs).congr fun i hi => by
      rw [← h.mem_eq]
      refine put_of_notMem fun hmem => ?_
      have hc := hclear bs hbs
      rw [mem_extent] at hi hmem
      unfold Clear at hc
      omega
  have hlegal : D.Legal (.poke (put w.mem q xs)) := fun k p hp => by
    obtain ⟨bs, hbs, rfl, rfl⟩ := (h.bound k p).1 hp
    have hread := (htext bs hbs).read
    simp only [Dict.keyOf, h.strh bs hbs, Option.map_some, Strh.toKey, hread, cstrKey]
  obtain ⟨t, ht⟩ := h.holds
  have hans : Answered (n + 1) n D w (.poke (put w.mem q xs)) := holds_poke ht hlegal
  obtain ⟨_, w', hstep, -, t', ht'⟩ := hans
  cases hstep
  exact ⟨⟨t', ht'⟩, h.bound, h.block, htext, h.strh, h.data, h.apart⟩

/-! ### Each expectation -/

variable {b : Bench σ} {bs : List UInt8}

theorem found (h : Keeps P n keys b.world live D place) (hs : CstrAt b.world.mem P.keystr bs)
    (hlen : bs.length + 1 < 2 ^ 32) (hf : bs.length < fuel) (hn : n < fuel) (store : Bool) :
    copStrdictGetByCstr P.target fuel b.world.mem b.world.store (b.world.store.get World.root) P.keystr store =
      .ok (if bs ∈ keys then (0, if store then some (place bs + P.nodeSz) else none) else (-1, none)) := by
  obtain ⟨t, ht⟩ := h.holds
  rw [getByCstr_ok ht hs hlen hf hn, h.lookup_eq]
  by_cases hbs : bs ∈ keys
  · simp only [if_pos hbs, h.data bs hbs]
  · simp only [if_neg hbs]

theorem expectExists_ok (h : Keeps P n keys b.world live D place) (hs : CstrAt b.world.mem P.keystr bs)
    (hlen : bs.length + 1 < 2 ^ 32) (hf : bs.length < fuel) (hn : n < fuel) :
    expectExists P fuel b P.keystr = .ok (if bs ∈ keys then 0 else -1, b) := by
  rw [expectExists, bind_of_ok (h.found hs hlen hf hn false)]
  by_cases hbs : bs ∈ keys
  · rw [if_pos hbs, if_pos hbs]
    rfl
  · rw [if_neg hbs, if_neg hbs]
    rfl

theorem expectRemoved_ok (h : Keeps P n keys b.world live D place) (hs : CstrAt b.world.mem P.keystr bs)
    (hlen : bs.length + 1 < 2 ^ 32) (hf : bs.length < fuel) (hn : n < fuel) :
    expectRemoved P fuel b P.keystr = .ok (if bs ∈ keys then -1 else 0, b) := by
  rw [expectRemoved, bind_of_ok (h.found hs hlen hf hn false)]
  by_cases hbs : bs ∈ keys
  · rw [if_pos hbs, if_pos hbs]
    rfl
  · rw [if_neg hbs, if_neg hbs]
    rfl

theorem deleted (h : Keeps P n keys b.world live D place) (hs : CstrAt b.world.mem P.keystr bs)
    (hlen : bs.length + 1 < 2 ^ 32) (hf : bs.length < fuel) (hn : n < fuel) :
    ∃ st D', copStrdictDeleteByCstr P.target fuel b.world.mem b.world.store World.root P.keystr =
        .ok (if bs ∈ keys then some (place bs) else none, st) ∧
      Keeps P (n + 1) (keys.erase bs) (b.setStore st).world live D' place := by
  obtain ⟨t, ht⟩ := h.holds
  obtain ⟨st, t', hrun, ht'⟩ := deleteByCstr_ok (T := P.target) ht hs hlen hf hn
  rw [h.lookup_eq] at hrun
  have herase : ∀ {cs}, cs ∈ keys.erase bs → cs ∈ keys := Finset.mem_of_mem_erase
  refine ⟨st, _, hrun, ⟨t', ht'⟩, fun k p => ?_, fun cs hcs => h.block cs (herase hcs), fun cs hcs => h.text cs (herase hcs),
    fun cs hcs => h.strh cs (herase hcs), fun cs hcs => h.data cs (herase hcs), h.apart⟩
  by_cases hk : k = cstrKey P.target bs
  · subst hk
    simp only [Finmap.lookup_erase, Finset.mem_erase]
    constructor
    · rintro ⟨⟩
    · rintro ⟨cs, ⟨hne, -⟩, hcs, -⟩
      exact absurd (cstrKey_inj hcs).symm hne
  · dsimp only
    rw [Finmap.lookup_erase_ne hk, h.bound]
    refine exists_congr fun cs => ?_
    rw [Finset.mem_erase]
    constructor
    · rintro ⟨hcs, rfl, hp⟩
      exact ⟨⟨fun heq => hk (heq ▸ rfl), hcs⟩, rfl, hp⟩
    · rintro ⟨⟨-, hcs⟩, hp⟩
      exact ⟨hcs, hp⟩

theorem expectDeleteOk_ok (h : Keeps P n keys b.world live D place) (hs : CstrAt b.world.mem P.keystr bs)
    (hlen : bs.length + 1 < 2 ^ 32) (hf : bs.length < fuel) (hn : n + 1 < fuel) :
    ∃ b' D', expectDeleteOk P fuel b P.keystr = .ok (if bs ∈ keys then 0 else -1, b') ∧ b'.alloc = b.alloc ∧
      Keeps P (n + 2) (keys.erase bs) b'.world live D' place := by
  obtain ⟨st, D', hrun, h'⟩ := h.deleted hs hlen hf (by omega)
  by_cases hbs : bs ∈ keys
  · rw [if_pos hbs] at hrun
    obtain ⟨st', D'', hrun', h''⟩ := h'.deleted (b := b.setStore st) hs hlen hf hn
    rw [if_neg (Finset.notMem_erase bs keys)] at hrun'
    rw [Finset.erase_idem] at h''
    refine ⟨(b.setStore st).setStore st', D'', ?_, rfl, h''⟩
    rw [expectDeleteOk, bind_of_ok hrun, if_pos hbs]
    change (copStrdictDeleteByCstr P.target fuel _ (b.setStore st).world.store World.root P.keystr >>= _) = _
    rw [bind_of_ok hrun']
    rfl
  · rw [if_neg hbs] at hrun
    refine ⟨b.setStore st, D', ?_, rfl, h'.mono (Nat.le_succ _)⟩
    rw [expectDeleteOk, bind_of_ok hrun, if_neg hbs]
    rfl

theorem updated {D : Dict ℕ} {t : DigitTree chidNb Ptr} (ht : Holds n D b.world t)
    (hs : CstrAt b.world.mem P.keystr bs) (hlen : bs.length + 1 < 2 ^ 32) (hf : bs.length < fuel) (hn : n + 1 < fuel)
    {p : Ptr} (hp : D.bound.lookup (cstrKey P.target bs) = some p) (v : ℕ) :
    ∃ st t', copStrdictUpdateByCstr P.target fuel b.world.mem b.world.store (b.world.store.get World.root) P.keystr v =
        .ok (0, st) ∧
      Holds (n + 1) { D with data := Function.update D.data p v } (b.setStore st).world t' ∧
      copStrdictGetByCstr P.target fuel b.world.mem st (st.get World.root) P.keystr true = .ok (0, some v) := by
  obtain ⟨st, t', hrun, ht'⟩ := updateByCstr_ok ht hs hlen hf (by omega) hp v
  refine ⟨st, t', hrun, ht', ?_⟩
  have hget := getByCstr_ok (T := P.target) ht' hs hlen hf hn true
  dsimp only at hget
  rw [hget, hp]
  simp only [Function.update_self, if_true]

theorem expectUpdate_ok (h : Keeps P n keys b.world live D place) (hs : CstrAt b.world.mem P.keystr bs)
    (hlen : bs.length + 1 < 2 ^ 32) (hf : bs.length < fuel) (hn : n + 2 < fuel) :
    ∃ b', expectUpdate P fuel b P.keystr = .ok (if bs ∈ keys then 0 else -1, b') ∧ b'.alloc = b.alloc ∧
      Keeps P (n + 2) keys b'.world live D place := by
  have hget := h.found hs hlen hf (show n < fuel by omega) true
  obtain ⟨t, ht⟩ := h.holds
  by_cases hbs : bs ∈ keys
  · rw [if_pos hbs] at hget
    have hp := h.lookup_eq bs
    rw [if_pos hbs] at hp
    have htext := h.text bs hbs
    rw [← h.mem_eq] at htext
    have hcmp : strcmpEq fuel b.world.mem P.keystr (place bs + P.nodeSz) = .ok true := by
      rw [strcmpEq_ok hs htext hf, decide_eq_true rfl]
    obtain ⟨st, t₁, hupdate, ht₁, hget₁⟩ := updated ht hs hlen hf (by omega) hp 0
    obtain ⟨st', t₂, hupdate', ht₂, hget₂⟩ := updated (b := b.setStore st) ht₁ hs hlen hf hn hp (place bs + P.nodeSz)
    -- the data is what it was
    have hdata : Function.update (Function.update D.data (place bs) 0) (place bs) (place bs + P.nodeSz) = D.data := by
      rw [Function.update_idem, ← h.data bs hbs, Function.update_eq_self]
    rw [hdata] at ht₂
    refine ⟨(b.setStore st).setStore st', ?_, rfl, { h with holds := ⟨t₂, ht₂⟩ }⟩
    rw [expectUpdate, bind_of_ok hget, if_pos hbs]
    change (strcmpEq fuel b.world.mem P.keystr (place bs + P.nodeSz) >>= _) = _
    rw [bind_of_ok hcmp]
    change (copStrdictUpdateByCstr P.target fuel b.world.mem b.world.store _ P.keystr 0 >>= _) = _
    rw [bind_of_ok hupdate]
    change (copStrdictGetByCstr P.target fuel b.world.mem st (st.get World.root) P.keystr true >>= _) = _
    rw [bind_of_ok hget₁]
    change (copStrdictUpdateByCstr P.target fuel (b.setStore st).world.mem (b.setStore st).world.store _ P.keystr _ >>= _) = _
    rw [bind_of_ok hupdate']
    change (copStrdictGetByCstr P.target fuel (b.setStore st).world.mem st' (st'.get World.root) P.keystr true >>= _) = _
    rw [bind_of_ok hget₂]
    simp only [ne_eq, not_true_eq_false, if_false]
    rfl
  · rw [if_neg hbs] at hget
    refine ⟨b, ?_, rfl, h.mono (Nat.le_add_right n 2)⟩
    rw [expectUpdate, bind_of_ok hget, if_neg hbs]
    rfl

/-- A node that is set up, with its key behind it, and in no dictionary. -/
structure Made (P : Setup σ α) (bs : List UInt8) (live : List Block) (D : Dict ℕ) (p : Ptr) : Prop where
  /-- It is not in the dictionary. -/
  free : ∀ k, D.bound.lookup k ≠ some p
  /-- It has a block. -/
  block : (⟨p, P.nodeSz + (bs.length + 1), 0⟩ : Block) ∈ live
  /-- Its key is behind it. -/
  text : CstrAt D.mem (p + P.nodeSz) bs
  /-- It was initialised with it. -/
  strh : D.strh p = some ⟨bs.length + 1, foldHash P.target bs, p + P.nodeSz⟩
  /-- Its data is a pointer to it. -/
  data : D.data p = p + P.nodeSz

theorem Made.keyOf {p : Ptr} (h : Made P bs live D p) : D.keyOf p = some (cstrKey P.target bs) := by
  simp only [Dict.keyOf, h.strh, Option.map_some, Strh.toKey, h.text.read, cstrKey]

/-- The insertion of a node that was made, if its key is not there. -/
theorem inserted (h : Keeps P n keys w live D place) {p : Ptr} (hm : Made P bs live D p) (hbs : bs ∉ keys) {n' : ℕ}
    {w' : World ℕ} (hholds : ∃ t, Holds n' { D with bound := D.bound.insert (cstrKey P.target bs) p } w' t) :
    Keeps P n' (insert bs keys) w' live { D with bound := D.bound.insert (cstrKey P.target bs) p }
      (Function.update place bs p) := by
  have hne : ∀ {cs}, cs ∈ keys → cs ≠ bs := fun hcs heq => hbs (heq ▸ hcs)
  refine ⟨hholds, fun k q => ?_, ?_, ?_, ?_, ?_, h.apart⟩
  · dsimp only
    by_cases hk : k = cstrKey P.target bs
    · subst hk
      rw [Finmap.lookup_insert, Option.some_inj]
      constructor
      · rintro rfl
        exact ⟨bs, Finset.mem_insert_self .., rfl, by rw [Function.update_self]⟩
      · rintro ⟨cs, -, hcs, rfl⟩
        rw [← cstrKey_inj hcs, Function.update_self]
    · rw [Finmap.lookup_insert_of_ne _ hk, h.bound]
      constructor
      · rintro ⟨cs, hcs, rfl, rfl⟩
        exact ⟨cs, Finset.mem_insert_of_mem hcs, rfl, by rw [Function.update_of_ne (hne hcs)]⟩
      · rintro ⟨cs, hcs, rfl, rfl⟩
        have hcs' := (Finset.mem_insert.1 hcs).resolve_left fun heq => hk (heq ▸ rfl)
        exact ⟨cs, hcs', rfl, by rw [Function.update_of_ne (hne hcs')]⟩
  all_goals
    intro cs hcs
    rcases Finset.mem_insert.1 hcs with rfl | hcs
    · rw [Function.update_self]
      first | exact hm.block | exact hm.text | exact hm.strh | exact hm.data
    · rw [Function.update_of_ne (hne hcs)]
      first | exact h.block cs hcs | exact h.text cs hcs | exact h.strh cs hcs | exact h.data cs hcs

theorem expectInsertOk_ok (h : Keeps P n keys b.world live D place) {p : Ptr} (hm : Made P bs live D p)
    (hn : n + 1 < fuel) :
    ∃ b', expectInsertOk fuel b p = .ok (if bs ∈ keys then -1 else 0, b') ∧ b'.alloc = b.alloc ∧
      (bs ∉ keys → ∃ D' place', Keeps P (n + 2) (insert bs keys) b'.world live D' place') := by
  obtain ⟨t, ht⟩ := h.holds
  have hlegal : D.Legal (.insert p) := by
    rw [Dict.Legal, hm.strh]
    simp
  have hlookup := h.lookup_eq bs
  obtain ⟨ret, w', hstep, hallows, t', ht'⟩ := holds_insert ht (show n < fuel by omega) hlegal
  obtain ⟨⟨r, st⟩, hins, hstep⟩ := bind_ok hstep
  cases hstep
  obtain ⟨k, hk, hr⟩ := hallows
  obtain rfl : cstrKey P.target bs = k := Option.some.inj (hm.keyOf.symm.trans hk)
  by_cases hbs : bs ∈ keys
  · rw [if_pos hbs] at hlookup
    have hr' : r ≠ 0 := fun h0 => hr.1 h0 (Finmap.mem_of_lookup_eq_some hlookup)
    refine ⟨b.setStore st, ?_, rfl, fun hnot => absurd hbs hnot⟩
    rw [expectInsertOk, bind_of_ok hins, if_pos hbs]
    simp only [hr', ne_eq, not_false_eq_true, if_true]
    rfl
  · rw [if_neg hbs] at hlookup
    have habs : cstrKey P.target bs ∉ D.bound := Finmap.lookup_eq_none.1 hlookup
    obtain rfl : r = 0 := hr.2 habs
    rw [Dict.next_insert hm.keyOf habs] at ht'
    -- the second call finds the key
    have hlegal' : ({ D with bound := D.bound.insert (cstrKey P.target bs) p } : Dict ℕ).Legal (.insert p) := hlegal
    obtain ⟨ret', w'', hstep', hallows', t'', ht''⟩ := holds_insert ht' hn hlegal'
    obtain ⟨⟨r', st'⟩, hins', hstep'⟩ := bind_ok hstep'
    cases hstep'
    obtain ⟨k', hk', hr'⟩ := hallows'
    have hk'' : D.keyOf p = some k' := hk'
    obtain rfl : cstrKey P.target bs = k' := Option.some.inj (hm.keyOf.symm.trans hk'')
    have hthere : cstrKey P.target bs ∈ D.bound.insert (cstrKey P.target bs) p :=
      Finmap.mem_of_lookup_eq_some (Finmap.lookup_insert _)
    have hne : r' ≠ 0 := fun h0 => hr'.1 h0 hthere
    have hnext : ({ D with bound := D.bound.insert (cstrKey P.target bs) p } : Dict ℕ).next (.insert p) =
        { D with bound := D.bound.insert (cstrKey P.target bs) p } := by
      simp only [Dict.next, hk', hthere, if_true]
    rw [hnext] at ht''
    refine ⟨(b.setStore st).setStore st', ?_, rfl, fun _ => ⟨_, _, h.inserted hm hbs ⟨t'', ht''⟩⟩⟩
    rw [expectInsertOk, bind_of_ok hins, if_neg hbs]
    change (copStrdictInsert fuel b.world.mem st World.root p >>= _) = _
    have hagain : copStrdictInsert fuel b.world.mem st World.root p = .ok (r', st') := hins'
    rw [bind_of_ok hagain]
    simp only [hne, if_false]
    rfl

/-- A node that is not in the dictionary is set up, in a block of its own. -/
theorem made (h : Keeps P n keys w live D place) {p : Ptr} (hs : CstrAt w.mem (p + P.nodeSz) bs)
    (hlen : bs.length + 1 < 2 ^ 32) (hfree : ∀ cs ∈ keys, place cs ≠ p)
    (hkeystr : Block.Apart ⟨p, P.nodeSz + (bs.length + 1), 0⟩ ⟨P.keystr, P.keystrSz, 0⟩) :
    ∃ D', Keeps P (n + 1) keys
        { w with store := copStrdictNodeInit w.store p (initShallow P.target w.mem (p + P.nodeSz) bs.length) (p + P.nodeSz) }
        (⟨p, P.nodeSz + (bs.length + 1), 0⟩ :: live) D' place ∧
      Made P bs (⟨p, P.nodeSz + (bs.length + 1), 0⟩ :: live) D' p := by
  have hunbound : ∀ k, D.bound.lookup k ≠ some p := fun k hk => by
    obtain ⟨cs, hcs, -, rfl⟩ := (h.bound k p).1 hk
    exact hfree cs hcs rfl
  obtain ⟨t, ht⟩ := h.holds
  have hans : Answered (n + 1) n D w
      (.init p (initShallow P.target w.mem (p + P.nodeSz) bs.length) (p + P.nodeSz)) :=
    holds_init ht ⟨hunbound, fits_initShallow hs hlen⟩
  obtain ⟨_, w', hstep, -, t', ht'⟩ := hans
  cases hstep
  rw [initShallow_eq hs hlen] at ht' ⊢
  refine ⟨_, ⟨⟨t', ht'⟩, h.bound, fun cs hcs => List.mem_cons_of_mem _ (h.block cs hcs), h.text, fun cs hcs => ?_,
    fun cs hcs => ?_, fun c hc => ?_⟩, hunbound, List.mem_cons_self, h.mem_eq ▸ hs, ?_, ?_⟩
  · exact (Function.update_of_ne (hfree cs hcs) _ _).trans (h.strh cs hcs)
  · exact (Function.update_of_ne (hfree cs hcs) _ _).trans (h.data cs hcs)
  · rcases List.mem_cons.1 hc with rfl | hc
    · exact hkeystr
    · exact h.apart c hc
  · exact Function.update_self ..
  · exact Function.update_self ..

/-- **`make_node`** puts a node, with its key behind it, where nothing else is. -/
theorem makeNode_ok {C : σ → ℕ → α → Prop} {I : σ → List Block → Prop} (hP : Supplies P C I)
    (h : Keeps P n keys b.world live D place) (hI : I b.alloc live) (hs : CstrAt b.world.mem P.keystr bs)
    (hsz : bs.length + 1 ≤ P.keystrSz) (hlen : P.nodeSz + P.keystrSz < 2 ^ P.w) (hlen' : P.keystrSz < 2 ^ 32)
    (hf : bs.length < fuel) {env : α} (hC : C b.alloc (P.nodeSz + (bs.length + 1)) env) :
    ∃ r b', makeNode P fuel b P.keystr env = .ok (r, b') ∧
      match r with
      | none => ∃ a, P.salloc.alloc b.alloc (P.nodeSz + (bs.length + 1)) 0 env = .ok (none, a)
      | some p => P.salloc.alloc b.alloc (P.nodeSz + (bs.length + 1)) 0 env = .ok (some p, b'.alloc) ∧
          ∃ live' D', I b'.alloc live' ∧ Keeps P (n + 2) keys b'.world live' D' place ∧ Made P bs live' D' p := by
  have hone : Word.add P.w bs.length 1 = bs.length + 1 := Word.add_of_lt (by omega)
  have hsum : Word.add P.w P.nodeSz (bs.length + 1) = P.nodeSz + (bs.length + 1) := Word.add_of_lt (by omega)
  obtain ⟨⟨r, a⟩, halloc⟩ := hP.total hI (show P.nodeSz + (bs.length + 1) < 2 ^ P.w by omega) hC
  cases r with
  | none =>
    refine ⟨none, { b with alloc := a }, ?_, a, halloc⟩
    rw [makeNode, bind_of_ok (strlen_ok hs hf)]
    simp only [hone, hsum]
    rw [bind_of_ok halloc]
    rfl
  | some p =>
    obtain ⟨hI', hapart, hkeystr⟩ := hP.block hI (by omega) (by omega) hC halloc
    have hlast : (bs ++ [0]).length = bs.length + 1 := List.length_append
    -- the block is apart from the nodes that are there
    have hother : ∀ cs ∈ keys, place cs ≠ p ∧ Clear (p + P.nodeSz) (bs ++ [0]).length (place cs + P.nodeSz) (cs.length + 1) :=
      fun cs hcs => by
        have hap := hapart _ (h.block cs hcs)
        unfold Block.Apart at hap
        dsimp only at hap
        constructor
        · intro heq
          rw [heq] at hap
          omega
        · unfold Clear
          rw [hlast]
          omega
    -- and from the key that is copied behind it
    have hclear : Clear (p + P.nodeSz) (bs.length + 1) P.keystr (bs.length + 1) := by
      unfold Block.Apart at hkeystr
      unfold Clear
      dsimp only at hkeystr
      omega
    have hcopy : memcpy b.world.mem (p + P.nodeSz) P.keystr (bs.length + 1) =
        .ok (put b.world.mem (p + P.nodeSz) (bs ++ [0])) := by rw [memcpy_ok hclear, hs.read]
    have hpoke := h.poke fun cs hcs => (hother cs hcs).2
    have htext := cstrAt_put b.world.mem (p + P.nodeSz) hs.text
    obtain ⟨D', hkeeps, hmade⟩ := hpoke.made htext (by omega) (fun cs hcs => (hother cs hcs).1) hkeystr
    refine ⟨some p, ⟨a, _⟩, ?_, halloc, _, D', hI', hkeeps, hmade⟩
    rw [makeNode, bind_of_ok (strlen_ok hs hf)]
    simp only [hone, hsum]
    rw [bind_of_ok halloc]
    change (memcpy b.world.mem (p + P.nodeSz) P.keystr (bs.length + 1) >>= _) = _
    rw [bind_of_ok hcopy, bind_of_ok (nodeInitByCstr_eq htext (by omega) hf _ _ _)]
    rfl

end Keeps

/-! ### A line, and a list of lines -/

/-- The sizes are what the program relies on. -/
structure Setup.Ok (P : Setup σ α) : Prop where
  /-- The size of a node and its key is a word. -/
  block : P.nodeSz + P.keystrSz < 2 ^ P.w
  /-- The length of a key is counted in 32 bits. -/
  count : P.keystrSz < 2 ^ 32

/-- The key of the line is a string that `keystr` has room for. -/
structure Line.Fits (P : Setup σ α) (l : Line α) : Prop where
  /-- It is a string. -/
  text : IsText l.key
  /-- There is room for it. -/
  room : l.key.length + 1 ≤ P.keystrSz

/-- What the line asks the allocator for, if it does, meets `C`. -/
def Asks (P : Setup σ α) (C : σ → ℕ → α → Prop) (a : σ) (l : Line α) : Prop :=
  match l.expect with
  | .insertOk env => C a (P.nodeSz + (l.key.length + 1)) env
  | _ => True

/-- So does every line, as long as there is memory. -/
def AsksAll (P : Setup σ α) (C : σ → ℕ → α → Prop) : List (Line α) → σ → Prop
  | [], _ => True
  | l :: ls, a => Asks P C a l ∧ ∀ a', Spec.allocated P a l = .ok (some a') → AsksAll P C ls a'

/-- The set `keys` is in the dictionary, in blocks of the allocator. -/
def Good (P : Setup σ α) (I : σ → List Block → Prop) (n : ℕ) (keys : Finset (List UInt8)) (b : Bench σ) : Prop :=
  ∃ live D place, I b.alloc live ∧ Keeps P n keys b.world live D place

section Runs

variable {P : Setup σ α} {C : σ → ℕ → α → Prop} {I : σ → List Block → Prop} {n fuel : ℕ} {keys : Finset (List UInt8)}
  {b : Bench σ}

/-- What a line comes to is what the specification says. -/
def Agrees (P : Setup σ α) (I : σ → List Block → Prop) (n : ℕ) (keys : Finset (List UInt8)) (l : Line α) :
    Option σ → Verdict → Bench σ → Prop
  | none, v, _ => v = .aborted
  | some a, v, b =>
    match Spec.expected keys l.key l.expect with
    | none => v = .failed
    | some keys => v = .passed ∧ b.alloc = a ∧ Good P I n keys b

/-- What a line is run on: its key is in `keystr`, and the set is in the dictionary as before. -/
structure Ready (P : Setup σ α) (I : σ → List Block → Prop) (n : ℕ) (keys : Finset (List UInt8)) (b : Bench σ)
    (key : List UInt8) (live : List Block) (D : Dict ℕ) (place : List UInt8 → Ptr) : Prop where
  /-- What is asked of the allocator. -/
  inv : I b.alloc live
  /-- The set is in the dictionary. -/
  keeps : Keeps P n keys b.world live D place
  /-- The key is in `keystr`. -/
  cstr : CstrAt b.world.mem P.keystr key
  /-- There is room for it. -/
  room : key.length + 1 ≤ P.keystrSz

/-- Writing a key to `keystr` leaves the nodes alone. -/
theorem Good.ready (h : Good P I n keys b) {l : Line α} (hl : l.Fits P) :
    ∃ live D place, Ready P I (n + 1) keys (b.poke (put b.world.mem P.keystr (l.key ++ [0]))) l.key live D place := by
  obtain ⟨live, D, place, hI, hkeeps⟩ := h
  have hlast : (l.key ++ [0]).length = l.key.length + 1 := List.length_append
  have hroom := hl.room
  refine ⟨live, _, place, hI, hkeeps.poke fun bs hbs => ?_, cstrAt_put _ _ hl.text, hroom⟩
  have hap := hkeeps.apart _ (hkeeps.block bs hbs)
  unfold Block.Apart at hap
  dsimp only at hap
  unfold Clear
  rw [hlast]
  omega

section Lines

variable {key : List UInt8} {live : List Block} {D : Dict ℕ} {place : List UInt8 → Ptr} (h : Ready P I n keys b key live D place)
  (hok : P.Ok) (hf : P.keystrSz ≤ fuel) (hn : n + 4 < fuel)

include h hok hf hn

theorem Ready.insertOk (hP : Supplies P C I) {env : α} (hC : Asks P C b.alloc ⟨key, .insertOk env⟩) :
    ∃ a v b', Spec.allocated P b.alloc ⟨key, .insertOk env⟩ = .ok a ∧ runExpect P fuel b (.insertOk env) = .ok (v, b') ∧
      Agrees P I (n + 4) keys ⟨key, .insertOk env⟩ a v b' := by
  have hroom := h.room
  obtain ⟨r, b', hmake, hr⟩ :=
    h.keeps.makeNode_ok hP h.inv h.cstr hroom hok.block hok.count (show key.length < fuel by omega) hC
  cases r with
  | none =>
    obtain ⟨a, halloc⟩ := hr
    refine ⟨none, .aborted, b', ?_, ?_, rfl⟩
    · change (P.salloc.alloc b.alloc _ 0 env >>= _) = _
      rw [bind_of_ok halloc]
      rfl
    · rw [runExpect, bind_of_ok hmake]
      rfl
  | some p =>
    obtain ⟨halloc, live', D', hI', hmk, hmade⟩ := hr
    obtain ⟨b'', hins, halloc', hkeep⟩ := hmk.expectInsertOk_ok hmade (show n + 2 + 1 < fuel by omega)
    refine ⟨some b'.alloc, if key ∈ keys then .failed else .passed, b'', ?_, ?_, ?_⟩
    · change (P.salloc.alloc b.alloc _ 0 env >>= _) = _
      rw [bind_of_ok halloc]
      rfl
    · rw [runExpect, bind_of_ok hmake]
      change (expectInsertOk fuel b' p >>= _) = _
      rw [bind_of_ok hins]
      split <;> rfl
    · by_cases hbs : key ∈ keys
      · simp only [Agrees, Spec.expected, if_pos hbs]
      · simp only [Agrees, Spec.expected, if_neg hbs, true_and]
        obtain ⟨D'', place', hkeep⟩ := hkeep hbs
        exact ⟨halloc', live', D'', place', halloc' ▸ hI', hkeep⟩

theorem Ready.runExpect_ok (hP : Supplies P C I) {expect : Expect α} (hC : Asks P C b.alloc ⟨key, expect⟩) :
    ∃ a v b', Spec.allocated P b.alloc ⟨key, expect⟩ = .ok a ∧ runExpect P fuel b expect = .ok (v, b') ∧
      Agrees P I (n + 4) keys ⟨key, expect⟩ a v b' := by
  have hroom := h.room
  have hcount := hok.count
  have hlen : key.length + 1 < 2 ^ 32 := by omega
  have hkey : key.length < fuel := by omega
  cases expect with
  | insertOk env => exact h.insertOk hok hf hn hP hC
  | deleteOk =>
    obtain ⟨b', D', hdel, halloc, hkeep⟩ := h.keeps.expectDeleteOk_ok h.cstr hlen hkey (by omega)
    refine ⟨some b.alloc, if key ∈ keys then .passed else .failed, b', rfl, ?_, ?_⟩
    · rw [runExpect, bind_of_ok hdel]
      split <;> rfl
    · by_cases hbs : key ∈ keys
      · simp only [Agrees, Spec.expected, if_pos hbs, true_and]
        exact ⟨halloc, live, D', place, halloc ▸ h.inv, hkeep.mono (by omega)⟩
      · simp only [Agrees, Spec.expected, if_neg hbs]
  | «exists» =>
    refine ⟨some b.alloc, if key ∈ keys then .passed else .failed, b, rfl, ?_, ?_⟩
    · rw [runExpect, bind_of_ok (h.keeps.expectExists_ok h.cstr hlen hkey (by omega))]
      split <;> rfl
    · by_cases hbs : key ∈ keys
      · simp only [Agrees, Spec.expected, if_pos hbs, true_and]
        exact ⟨live, D, place, h.inv, h.keeps.mono (by omega)⟩
      · simp only [Agrees, Spec.expected, if_neg hbs]
  | removed =>
    refine ⟨some b.alloc, if key ∈ keys then .failed else .passed, b, rfl, ?_, ?_⟩
    · rw [runExpect, bind_of_ok (h.keeps.expectRemoved_ok h.cstr hlen hkey (by omega))]
      split <;> rfl
    · by_cases hbs : key ∈ keys
      · simp only [Agrees, Spec.expected, if_pos hbs]
      · simp only [Agrees, Spec.expected, if_neg hbs, true_and]
        exact ⟨live, D, place, h.inv, h.keeps.mono (by omega)⟩
  | update =>
    obtain ⟨b', hup, halloc, hkeep⟩ := h.keeps.expectUpdate_ok h.cstr hlen hkey (by omega)
    refine ⟨some b.alloc, if key ∈ keys then .passed else .failed, b', rfl, ?_, ?_⟩
    · rw [runExpect, bind_of_ok hup]
      split <;> rfl
    · by_cases hbs : key ∈ keys
      · simp only [Agrees, Spec.expected, if_pos hbs, true_and]
        exact ⟨halloc, live, D, place, halloc ▸ h.inv, hkeep.mono (by omega)⟩
      · simp only [Agrees, Spec.expected, if_neg hbs]

end Lines

/-- **A line** comes to what the specification says, and the program is where the specification is after it. -/
theorem runLine_ok (hP : Supplies P C I) (hok : P.Ok) (h : Good P I n keys b) {l : Line α} (hl : l.Fits P)
    (hC : Asks P C b.alloc l) (hf : P.keystrSz ≤ fuel) (hn : n + 5 < fuel) :
    ∃ a v b', Spec.allocated P b.alloc l = .ok a ∧ runLine P fuel b l = .ok (v, b') ∧ Agrees P I (n + 5) keys l a v b' := by
  obtain ⟨live, D, place, hready⟩ := h.ready hl
  exact hready.runExpect_ok hok hf (by omega) hP hC

/-- **A list of lines** is run to its end, and has the verdict that the specification gives it. -/
theorem runTests_ok (hP : Supplies P C I) (hok : P.Ok) {ls : List (Line α)} (hls : ∀ l ∈ ls, l.Fits P)
    (h : Good P I n keys b) (hC : AsksAll P C ls b.alloc) (hf : P.keystrSz ≤ fuel) (hn : n + 5 * ls.length < fuel) :
    ∃ v, runTests P fuel ls b = .ok v ∧ Spec.run P ls b.alloc keys = .ok v := by
  induction ls generalizing n keys b with
  | nil => exact ⟨.passed, rfl, rfl⟩
  | cons l ls ih =>
    rw [List.length_cons] at hn
    obtain ⟨hask, hrest⟩ := hC
    obtain ⟨a, v, b', halloc, hrun, hagrees⟩ :=
      runLine_ok hP hok h (hls l List.mem_cons_self) hask hf (by omega)
    rw [runTests, Spec.run, bind_of_ok hrun, bind_of_ok halloc]
    cases a with
    | none =>
      obtain rfl : v = .aborted := hagrees
      exact ⟨.aborted, rfl, rfl⟩
    | some a =>
      rw [Agrees] at hagrees
      dsimp only
      cases hexp : Spec.expected keys l.key l.expect with
      | none =>
        rw [hexp] at hagrees
        obtain rfl : v = .failed := hagrees
        exact ⟨.failed, rfl, rfl⟩
      | some keys' =>
        rw [hexp] at hagrees
        obtain ⟨rfl, rfl, hgood⟩ := hagrees
        exact ih (fun l hl => hls l (List.mem_cons_of_mem _ hl)) hgood (hrest _ halloc) (by omega)

end Runs

end Cop.Tests
