import Cop.Strdict.Refinement
import Mathlib.Logic.Equiv.Basic

/-!
# Several dictionaries in one heap

A program has as many dictionaries as it has root variables; their nodes are in one
heap, and a node that was deleted from one of them may be inserted into another. The
functions of `cop_strdict.c` are given a root variable, and write to nodes below it and
to the node they are given.

## The model

* `World.stepAt v` is a call on the dictionary at the root variable `v`.
* `Dicts` is a family of finite maps from keys to nodes, one for each root variable.
  `Dicts.contract` adds to the rules of one dictionary that a node that is in one of them is
  not initialised and not inserted elsewhere.
* Root variables are only names: `Store.rename` gives them others, and the functions do
  the same on the renamed heap. So what was proved of the dictionary at the first root
  variable holds of every other.

## What is proved

* `step_view` — a call on any dictionary is that call on the first one, with the roots exchanged.
* `step_frame` — what a call leaves alone.
* `HoldsAll.step` — a call keeps all dictionaries: its own moves on as its contract
  says, and the others stay what they are.
* `strdicts_refine` — every interleaving of calls on any number of dictionaries is answered
  as that many finite maps would answer.
-/

namespace Cop.Strdict

open Theory DigitTree

variable {δ : Type}

/-! ### The names of root variables -/

/-- The location, with root variables named by `ρ`. -/
def renameLoc (ρ : Equiv.Perm ℕ) : Loc → Loc
  | .root v => .root (ρ v)
  | .kid p i => .kid p i

/-- The heap, with root variables named by `ρ`. -/
def Store.rename (ρ : Equiv.Perm ℕ) (st : Store δ) : Store δ := { st with vars := st.vars ∘ ρ.symm }

section Rename

variable (ρ : Equiv.Perm ℕ) (st : Store δ)

@[simp] theorem nodes_rename : (st.rename ρ).nodes = st.nodes := rfl

@[simp] theorem get_rename (ℓ : Loc) : (st.rename ρ).get (renameLoc ρ ℓ) = st.get ℓ := by
  cases ℓ with
  | root v => simp [renameLoc, Store.rename, Store.get, Store.links, Links.get]
  | kid p i => rfl

@[simp] theorem set_rename (ℓ : Loc) (q : Option Ptr) :
    (st.rename ρ).set (renameLoc ρ ℓ) q = (st.set ℓ q).rename ρ := by
  cases ℓ with
  | root v =>
    simp only [renameLoc, Store.rename, Store.set, Store.mk.injEq, and_true]
    rw [Function.update_comp_equiv, Equiv.symm_symm]
  | kid p i => rfl

theorem swapKids_rename (p q : Ptr) : swapKids (st.rename ρ) p q = (swapKids st p q).rename ρ := by
  rw [swapKids_eq, swapKids_eq]
  generalize List.finRange chidNb = l
  induction l generalizing st with
  | nil => rfl
  | cons i l ih =>
    rw [List.foldl_cons, List.foldl_cons]
    exact ih (swapKid p q st i)

theorem search_rename (hit : Ptr → Bool) (fuel : ℕ) (ℓ : Loc) (q : Option Ptr) (ukey : ℕ) :
    loop (searchTurn (st.rename ρ) hit) fuel (renameLoc ρ ℓ, q, ukey) =
      (loop (searchTurn st hit) fuel (ℓ, q, ukey)).map (Prod.map (renameLoc ρ) id) := by
  refine loop_map (f := Prod.map (renameLoc ρ) id) ?_ fuel (ℓ, q, ukey)
  rintro ⟨ℓ, _ | p, ukey⟩
  · rfl
  · simp only [Prod.map, searchTurn, id]
    split
    · rfl
    · rfl

theorem deleteLoop_rename (p : Ptr) (fuel : ℕ) (ℓ : Loc) (ukey : ℕ) :
    loop (deleteTurn p) fuel (st.rename ρ, renameLoc ρ ℓ, ukey) =
      (loop (deleteTurn p) fuel (st, ℓ, ukey)).map (Prod.map (Store.rename ρ) (renameLoc ρ)) := by
  refine loop_map (f := Prod.map (Store.rename ρ) (Prod.map (renameLoc ρ) id)) ?_ fuel (st, ℓ, ukey)
  rintro ⟨st, ℓ, ukey⟩
  have hfind : findkid (st.rename ρ) p ukey = findkid st p ukey := rfl
  simp only [Prod.map, deleteTurn, hfind, id]
  cases findkid st p ukey with
  | none => rfl
  | some i =>
    have hkid : (st.rename ρ).get (.kid p i) = st.get (.kid p i) := rfl
    simp only [hkid]
    cases st.get (.kid p i) with
    | none => rfl
    | some q =>
      simp only [swapKids_rename, set_rename]
      rfl

theorem copStrdictInsert_rename (fuel : ℕ) (m : Bytes) (ℓ : Loc) (p : Ptr) :
    copStrdictInsert fuel m (st.rename ρ) (renameLoc ρ ℓ) p =
      (copStrdictInsert fuel m st ℓ p).map (Prod.map id (Store.rename ρ)) := by
  have hhit : keyMatches m (st.rename ρ) = keyMatches m st := rfl
  simp only [copStrdictInsert, nodes_rename, get_rename, hhit, search_rename]
  generalize loop (searchTurn st _) fuel _ = x
  obtain _ | ⟨ℓ', q, ukey⟩ := x
  · rfl
  · cases q with
    | some q => rfl
    | none => exact congrArg (fun s => Except.ok (0, s)) (set_rename ρ st ℓ' (some p))

theorem copStrdictDelete_rename (fuel : ℕ) (m : Bytes) (ℓ : Loc) (s : Strh) :
    copStrdictDelete fuel m (st.rename ρ) (renameLoc ρ ℓ) s =
      (copStrdictDelete fuel m st ℓ s).map (Prod.map id (Store.rename ρ)) := by
  have hhit : keyMatches m (st.rename ρ) = keyMatches m st := rfl
  simp only [copStrdictDelete, get_rename, hhit, search_rename]
  generalize loop (searchTurn st _) fuel _ = x
  obtain _ | ⟨ℓ', q, ukey⟩ := x
  · rfl
  · cases q with
    | none => rfl
    | some q =>
      change (loop (deleteTurn q) fuel (st.rename ρ, renameLoc ρ ℓ', ukey) >>= _) = Except.map _
        (loop (deleteTurn q) fuel (st, ℓ', ukey) >>= _)
      rw [deleteLoop_rename]
      generalize loop (deleteTurn q) fuel (st, ℓ', ukey) = y
      obtain _ | ⟨st', ℓ''⟩ := y
      · rfl
      · exact congrArg (fun s => Except.ok (some q, s)) (set_rename ρ st' ℓ'' none)

end Rename

/-! ### Calls on any dictionary -/

namespace World

/-- A call made on the dictionary at the root variable `v`. -/
def stepAt (fuel v : ℕ) (w : World δ) : Call δ → Exec Fault (Ret δ × World δ)
  | .init p s d => return (.void, { w with store := copStrdictNodeInit w.store p s d })
  | .insert p => do
    let (r, st) ← copStrdictInsert fuel w.mem w.store (.root v) p
    return (.status r, { w with store := st })
  | .get s store => do
    let (r, x) ← copStrdictGet fuel w.mem w.store (w.store.get (.root v)) s store
    return (.value r x, w)
  | .update s d => do
    let (r, st) ← copStrdictUpdate fuel w.mem w.store (w.store.get (.root v)) s d
    return (.status r, { w with store := st })
  | .delete s => do
    let (p, st) ← copStrdictDelete fuel w.mem w.store (.root v) s
    return (.node p, { w with store := st })
  | .poke m => return (.void, { w with mem := m })

/-- The heap, with the root variable `v` and the first one exchanged. -/
def view (v : ℕ) (w : World δ) : World δ := { w with store := w.store.rename (Equiv.swap 0 v) }

@[simp] theorem mem_view (v : ℕ) (w : World δ) : (w.view v).mem = w.mem := rfl
@[simp] theorem nodes_view (v : ℕ) (w : World δ) : (w.view v).store.nodes = w.store.nodes := rfl

@[simp] theorem root_view (v : ℕ) (w : World δ) : (w.view v).store.get root = w.store.vars v := by
  simp [view, root, Store.rename, Store.get, Store.links, Links.get]

/-- Another root variable than `v` is another one than the first, seen from `v`. -/
theorem vars_view (v : ℕ) (w : World δ) (u : ℕ) : (w.view v).store.vars (Equiv.swap 0 v u) = w.store.vars u := by
  simp [view, Store.rename]

@[simp] theorem view_view (v : ℕ) (w : World δ) : (w.view v).view v = w := by
  obtain ⟨m, vars, nodes⟩ := w
  simp [view, Store.rename, Function.comp_assoc, ← Equiv.coe_trans]

/-- **A call on any dictionary** is that call on the first one, with the roots exchanged. -/
theorem step_view (fuel v : ℕ) (w : World δ) (c : Call δ) :
    (w.view v).step fuel c = (w.stepAt fuel v c).map (Prod.map id (view v)) := by
  have hroot : root = renameLoc (Equiv.swap 0 v) (.root v) := by simp [root, renameLoc]
  cases c with
  | init p s d => rfl
  | insert p =>
    simp only [step, stepAt, mem_view, hroot]
    simp only [view, copStrdictInsert_rename]
    cases copStrdictInsert fuel w.mem w.store (.root v) p <;> rfl
  | get s store =>
    simp only [step, stepAt, mem_view, root_view]
    have hget : copStrdictGet fuel w.mem (w.view v).store (w.store.vars v) s store =
        copStrdictGet fuel w.mem w.store (w.store.vars v) s store := rfl
    change (copStrdictGet fuel w.mem (w.view v).store (w.store.vars v) s store >>= _) =
      Except.map _ (copStrdictGet fuel w.mem w.store (w.store.vars v) s store >>= _)
    rw [hget]
    cases copStrdictGet fuel w.mem w.store (w.store.vars v) s store <;> rfl
  | update s d =>
    simp only [step, stepAt, mem_view, root_view, copStrdictUpdate]
    have hloop : ∀ hit : Ptr → Bool, loop (walkTurn (w.view v).store hit) fuel = loop (walkTurn w.store hit) fuel :=
      fun _ => rfl
    have hhit : keyMatches w.mem (w.view v).store = keyMatches w.mem w.store := rfl
    rw [hhit, hloop]
    change ((loop (walkTurn w.store _) fuel (w.store.vars v, _) >>= _) >>= _) =
      Except.map _ ((loop (walkTurn w.store _) fuel (w.store.vars v, _) >>= _) >>= _)
    generalize loop (walkTurn w.store _) fuel (w.store.vars v, _) = x
    obtain _ | _ | q := x <;> rfl
  | delete s =>
    simp only [step, stepAt, mem_view, hroot]
    simp only [view, copStrdictDelete_rename]
    cases copStrdictDelete fuel w.mem w.store (.root v) s <;> rfl
  | poke m => rfl

/-- What a call on the first dictionary does, seen from `v`, a call on the dictionary at `v` does. -/
theorem stepAt_of_step {fuel v : ℕ} {w w' : World δ} {c : Call δ} {r : Ret δ}
    (h : (w.view v).step fuel c = .ok (r, w')) : w.stepAt fuel v c = .ok (r, w'.view v) := by
  rw [step_view] at h
  cases hw : w.stepAt fuel v c with
  | error e =>
    rw [hw] at h
    cases h
  | ok a =>
    rw [hw] at h
    cases h
    exact congrArg (fun w' => Except.ok (a.1, w')) (view_view v a.2).symm

end World

/-! ### What a call leaves alone -/

/-- The node a call sets up. -/
def Call.target? : Call δ → Option Ptr
  | .init p _ _ => some p
  | _ => none

/-- Nodes outside the set `S`, and the other root variables, are not written. -/
structure Frame (w w' : World δ) (S : Ptr → Prop) : Prop where
  /-- Nodes outside the set are as they were. -/
  nodes : ∀ q, ¬ S q → w'.store.nodes q = w.store.nodes q
  /-- So are the other root variables. -/
  vars : ∀ u, u ≠ 0 → w'.store.vars u = w.store.vars u

theorem Frame.refl (w : World δ) (S : Ptr → Prop) : Frame w w S := ⟨fun _ _ => rfl, fun _ _ => rfl⟩

theorem node_eq {a b : Node δ} (hitem : a.item = b.item) (hkids : ∀ i, a.kids i = b.kids i) : a = b := by
  obtain ⟨key, keyData, data, kids⟩ := a
  obtain ⟨key', keyData', data', kids'⟩ := b
  obtain ⟨rfl, rfl, rfl⟩ : key = key' ∧ keyData = keyData' ∧ data = data' := by simpa [Node.item] using hitem
  obtain rfl : kids = kids' := funext hkids
  rfl

theorem frame_set {w : World δ} {ℓ : Loc} {t : DigitTree chidNb Ptr}
    (hℓ : ℓ = World.root ∨ ∃ q ∈ t, ∃ i, ℓ = .kid q i) (x : Option Ptr) :
    Frame w { w with store := w.store.set ℓ x } (· ∈ t) := by
  rcases hℓ with rfl | ⟨q, hq, i, rfl⟩
  · exact ⟨fun _ _ => rfl, fun u hu => Function.update_of_ne hu _ _⟩
  · refine ⟨fun q' hq' => Function.update_of_ne ?_ _ _, fun _ _ => rfl⟩
    rintro rfl
    exact hq' hq

/-- **What a call leaves alone**: all nodes that are not in the dictionary, but for the one it sets up, and all
other root variables. -/
theorem step_frame {n fuel : ℕ} {D : Dict δ} {w w' : World δ} {t : DigitTree chidNb Ptr} (h : Holds n D w t)
    (hf : n < fuel) {c : Call δ} (hlegal : D.Legal c) {r : Ret δ} (hstep : w.step fuel c = .ok (r, w')) :
    Frame w w' fun q => q ∈ t ∨ c.target? = some q := by
  have hmono : Frame w w' (· ∈ t) → Frame w w' fun q => q ∈ t ∨ c.target? = some q := fun hfr =>
    ⟨fun q hq => hfr.nodes q fun hqt => hq (.inl hqt), hfr.vars⟩
  cases c with
  | init p s d =>
    cases hstep
    refine ⟨fun q hq => Function.update_of_ne ?_ _ _, fun _ _ => rfl⟩
    rintro rfl
    exact hq (.inr rfl)
  | insert p =>
    obtain ⟨s, hp⟩ := Option.ne_none_iff_exists'.1 hlegal
    have hrun := copStrdictInsert_ok h hf hp
    obtain ⟨⟨r', st⟩, hins, hstep⟩ := bind_ok hstep
    cases hstep
    rw [hins] at hrun
    split at hrun
    · cases hrun
      exact .refl _ _
    · cases hrun
      exact hmono (frame_set (slotAt_mem World.root t _) _)
  | get s store =>
    obtain ⟨⟨r', x⟩, -, hstep⟩ := bind_ok hstep
    cases hstep
    exact .refl _ _
  | update s d =>
    have hwalk := h.walk hlegal hf
    simp only [World.step, copStrdictUpdate, hwalk] at hstep
    cases hk : D.bound.lookup (s.toKey D.mem) with
    | none =>
      rw [hk] at hstep
      cases hstep
      exact .refl _ _
    | some p =>
      rw [hk] at hstep
      cases hstep
      have hp : p ∈ t := h.mem_iff.2 ⟨_, hk⟩
      refine hmono ⟨fun q hq => Function.update_of_ne ?_ _ _, fun _ _ => rfl⟩
      rintro rfl
      exact hq hp
  | delete s =>
    have hfound := h.found_eq hlegal
    have hheight := h.height.trans_lt hf
    cases hk : D.bound.lookup (s.toKey D.mem) with
    | none =>
      rw [hk] at hfound
      simp only [World.step, copStrdictDelete_absent h.tree hfound hheight] at hstep
      cases hstep
      exact .refl _ _
    | some p =>
      rw [hk] at hfound
      obtain ⟨st', hrun, hrem⟩ := copStrdictDelete_ok h.tree hfound
      simp only [World.step, hrun fuel hheight] at hstep
      cases hstep
      refine hmono ⟨fun q hq => node_eq (hrem.item q) fun i => hrem.same (.kid q i) ?_ hq, fun u hu => ?_⟩
      · rintro ⟨⟩
      · exact hrem.same (.root u) (fun heq => hu (by cases heq; rfl)) trivial
  | poke m =>
    cases hstep
    exact ⟨fun _ _ => rfl, fun _ _ => rfl⟩

/-! ### Several finite maps -/

/-- A family of dictionaries as finite maps, one for each root variable. -/
structure Dicts (δ : Type) where
  /-- The nodes that are bound, by dictionary and key. -/
  bound : ℕ → Finmap fun _ : Key => Ptr
  /-- What each node was last initialised with. -/
  strh : Ptr → Option Strh
  /-- The data of each node. -/
  data : Ptr → δ
  /-- The memory the bytes of keys are in. -/
  mem : Bytes

namespace Dicts

/-- All are empty, and no node is initialised. -/
def empty (data : Ptr → δ) (m : Bytes) : Dicts δ := ⟨fun _ => ∅, fun _ => none, data, m⟩

/-- The dictionary at `v`. -/
def dict (E : Dicts δ) (v : ℕ) : Dict δ := ⟨E.bound v, E.strh, E.data, E.mem⟩

/-- The node is in another dictionary than the one at `v`. -/
def Elsewhere (E : Dicts δ) (v : ℕ) (p : Ptr) : Prop := ∃ u, u ≠ v ∧ ∃ k, (E.bound u).lookup k = some p

/-- What the caller may do: the rules of the dictionary that is called, where a node that is in another dictionary
is not set up and not inserted; keys of nodes that are in any dictionary do not change. -/
def Legal (E : Dicts δ) (a : ℕ × Call δ) : Prop :=
  (E.dict a.1).Legal a.2 ∧
    match a.2 with
    | .init p _ _ | .insert p => ¬ E.Elsewhere a.1 p
    | .poke m => ∀ v, (E.dict v).Legal (.poke m)
    | _ => True

/-- What the calls do to the maps: the dictionary that is called does what it does alone. -/
def next (E : Dicts δ) (a : ℕ × Call δ) : Dicts δ :=
  let D := (E.dict a.1).next a.2
  ⟨Function.update E.bound a.1 D.bound, D.strh, D.data, D.mem⟩

/-- What the calls return. -/
def Allows (E : Dicts δ) (a : ℕ × Call δ) (r : Ret δ) : Prop := (E.dict a.1).Allows a.2 r

/-- The contract of several dictionaries. -/
def contract : Contract (Dicts δ) (ℕ × Call δ) (Ret δ) := ⟨Legal, next, Allows⟩

open Classical in
/-- A dictionary at `v` which knows nothing of the nodes that are in others. -/
noncomputable def alone (E : Dicts δ) (v : ℕ) (D : Dict δ) : Dict δ :=
  { D with strh := fun p => if E.Elsewhere v p then none else D.strh p }

variable {E : Dicts δ} {v : ℕ} {D : Dict δ} {p : Ptr}

theorem keyOf_dict (v : ℕ) (p : Ptr) : (E.dict v).keyOf p = (E.strh p).map (·.toKey E.mem) := rfl

theorem strh_alone (h : ¬ E.Elsewhere v p) : (E.alone v D).strh p = D.strh p := if_neg h

theorem strh_alone_elsewhere (h : E.Elsewhere v p) : (E.alone v D).strh p = none := if_pos h

theorem keyOf_alone (h : ¬ E.Elsewhere v p) : (E.alone v D).keyOf p = D.keyOf p := by
  rw [Dict.keyOf, strh_alone h]
  rfl

/-- The dictionary at `v`, which knows nothing of the nodes that are in others. -/
noncomputable def view (E : Dicts δ) (v : ℕ) : Dict δ := E.alone v (E.dict v)

/-- A legal call is legal for the dictionary that is called, also if it does not know of the nodes in others. -/
theorem legal_view {c : Call δ} (h : E.Legal (v, c)) (hpoke : ∀ m, c ≠ .poke m) : (E.view v).Legal c := by
  cases c with
  | init p s d => exact h.1
  | insert p =>
    have hstrh : (E.dict v).strh p ≠ none := h.1
    rw [← strh_alone h.2] at hstrh
    exact hstrh
  | get s store => exact h.1
  | update s d => exact h.1
  | delete s => exact h.1
  | poke m => exact absurd rfl (hpoke m)

theorem allows_of_view {c : Call δ} {r : Ret δ} (h : E.Legal (v, c)) (hr : (E.view v).Allows c r) :
    E.Allows (v, c) r := by
  cases c with
  | insert p =>
    cases r with
    | status i =>
      have hkey := keyOf_alone (D := E.dict v) h.2
      obtain ⟨k, hk, hi⟩ := hr
      exact ⟨k, hkey ▸ hk, hi⟩
    | void | value | node => exact hr
  | init | get | update | delete | poke => cases r <;> exact hr

/-- The call does the same to the dictionary that is called, whether it knows of the nodes in others or not. -/
theorem next_view {c : Call δ} (h : E.Legal (v, c)) : (E.view v).next c = E.alone v ((E.dict v).next c) := by
  cases c with
  | init p s d =>
    have hp : ¬ E.Elsewhere v p := h.2
    simp only [Dict.next, view, alone, Dict.mk.injEq, true_and, and_true]
    funext q
    by_cases hq : q = p
    · subst hq
      rw [Function.update_self, Function.update_self, if_neg hp]
    · rw [Function.update_of_ne hq, Function.update_of_ne hq]
  | insert p =>
    have hkey : (E.view v).keyOf p = (E.dict v).keyOf p := keyOf_alone h.2
    simp only [Dict.next, hkey]
    have hbound : (E.view v).bound = (E.dict v).bound := rfl
    rw [hbound]
    split
    · split
      · rfl
      · rfl
    · rfl
  | get s store => rfl
  | update s d =>
    have hbound : (E.view v).bound.lookup (s.toKey (E.view v).mem) = (E.dict v).bound.lookup (s.toKey (E.dict v).mem) :=
      rfl
    simp only [Dict.next, hbound]
    split
    · rfl
    · rfl
  | delete s => rfl
  | poke m => rfl

theorem dict_next_self (E : Dicts δ) (v : ℕ) (c : Call δ) : (E.next (v, c)).dict v = (E.dict v).next c := by
  simp [Dicts.next, Dicts.dict]

theorem bound_next_self (E : Dicts δ) (v : ℕ) (c : Call δ) : (E.next (v, c)).bound v = ((E.dict v).next c).bound :=
  Function.update_self ..

theorem bound_next_of_ne (E : Dicts δ) {u v : ℕ} (hu : u ≠ v) (c : Call δ) : (E.next (v, c)).bound u = E.bound u :=
  Function.update_of_ne hu _ _

/-- A call sets up the node it is about, and no other. -/
theorem strh_next (E : Dicts δ) (v : ℕ) {c : Call δ} {p : Ptr} (hp : c.target? ≠ some p) :
    (E.next (v, c)).strh p = E.strh p := by
  cases c with
  | init q s d => exact Function.update_of_ne (fun heq => hp (by rw [heq]; rfl)) _ _
  | insert q =>
    change ((E.dict v).next (.insert q)).strh p = _
    rw [Dict.strh_next_insert]
    rfl
  | update s d =>
    change ((E.dict v).next (.update s d)).strh p = _
    rw [Dict.next]
    split <;> rfl
  | get | delete | poke => rfl

end Dicts

/-! ### The relation -/

/-- The finite maps `E` are what the heap holds, after `n` calls. -/
structure HoldsAll (n : ℕ) (E : Dicts δ) (w : World δ) (t : ℕ → DigitTree chidNb Ptr) : Prop where
  /-- Memory is the same. -/
  mem : w.mem = E.mem
  /-- The nodes below each root variable form a tree. -/
  tree : ∀ v, TreeAt w.store (w.store.vars v) (t v)
  /-- It is laid out by the digits of the keys. -/
  laid : ∀ v, LaidOut w.store (t v)
  /-- It is no higher than there were calls. -/
  height : ∀ v, (t v).height ≤ n
  /-- The nodes of the trees are the bound nodes. -/
  bound : ∀ v k p, (E.bound v).lookup k = some p ↔ p ∈ t v ∧ (E.dict v).keyOf p = some k
  /-- No node is in two trees. -/
  apart : ∀ u v p, p ∈ t u → p ∈ t v → u = v
  /-- Initialised nodes have the fields their `cop_strh` gives. -/
  hasKey : ∀ p s, E.strh p = some s → HasKey w.store p s
  /-- Nodes have their data. -/
  data : ∀ p, (w.store.nodes p).data = E.data p
  /-- Initialised nodes outside the trees have no children. -/
  kids : ∀ p, E.strh p ≠ none → (∀ v, p ∉ t v) → ∀ i, (w.store.nodes p).kids i = none
  /-- The nodes of the trees are initialised. -/
  known : ∀ v, ∀ p ∈ t v, E.strh p ≠ none

namespace HoldsAll

variable {n : ℕ} {E : Dicts δ} {w : World δ} {t : ℕ → DigitTree chidNb Ptr}

theorem mem_iff (h : HoldsAll n E w t) {v : ℕ} {p : Ptr} : p ∈ t v ↔ ∃ k, (E.bound v).lookup k = some p := by
  constructor
  · intro hp
    obtain ⟨s, hs⟩ := Option.ne_none_iff_exists'.1 (h.known v p hp)
    exact ⟨s.toKey E.mem, (h.bound v _ p).2 ⟨hp, by rw [Dicts.keyOf_dict, hs]; rfl⟩⟩
  · rintro ⟨k, hk⟩
    exact ((h.bound v k p).1 hk).1

theorem elsewhere_iff (h : HoldsAll n E w t) {v : ℕ} {p : Ptr} : E.Elsewhere v p ↔ ∃ u, u ≠ v ∧ p ∈ t u := by
  simp only [Dicts.Elsewhere, h.mem_iff]

/-- A node of a tree is not elsewhere. -/
theorem not_elsewhere (h : HoldsAll n E w t) {v : ℕ} {p : Ptr} (hp : p ∈ t v) : ¬ E.Elsewhere v p := by
  rw [h.elsewhere_iff]
  rintro ⟨u, hu, hpu⟩
  exact hu (h.apart u v p hpu hp)

/-- What the heap holds for each dictionary, seen from its root variable. -/
theorem view (h : HoldsAll n E w t) (v : ℕ) : Holds n (E.view v) (w.view v) (t v) where
  mem := h.mem
  tree := by
    rw [World.root_view]
    exact ⟨(h.tree v).rep.frame fun _ _ _ => rfl, (h.tree v).once⟩
  laid := h.laid v
  height := h.height v
  bound k p := by
    refine (h.bound v k p).trans (and_congr_right fun hp => ?_)
    rw [Dicts.view, Dicts.keyOf_alone (h.not_elsewhere hp)]
  hasKey p s hp := by
    by_cases he : E.Elsewhere v p
    · rw [Dicts.view, Dicts.strh_alone_elsewhere he] at hp
      cases hp
    · rw [Dicts.view, Dicts.strh_alone he] at hp
      exact ⟨(h.hasKey p s hp).key, (h.hasKey p s hp).keyData, (h.hasKey p s hp).fits⟩
  data := h.data
  kids p hp hpt i := by
    by_cases he : E.Elsewhere v p
    · exact absurd (Dicts.strh_alone_elsewhere he) hp
    · rw [Dicts.view, Dicts.strh_alone he] at hp
      refine h.kids p hp (fun u hu => he ?_) i
      refine h.elsewhere_iff.2 ⟨u, ?_, hu⟩
      rintro rfl
      exact hpt hu
  known p hp := by
    rw [Dicts.view, Dicts.strh_alone (h.not_elsewhere hp)]
    exact h.known v p hp

theorem target_free (h : HoldsAll n E w t) {v : ℕ} {c : Call δ} (hlegal : E.Legal (v, c)) {p : Ptr}
    (hp : c.target? = some p) (u : ℕ) : p ∉ t u := by
  cases c with
  | init q s d =>
    cases hp
    intro hpu
    by_cases hu : u = v
    · subst hu
      obtain ⟨k, hk⟩ := h.mem_iff.1 hpu
      exact hlegal.1.1 k hk
    · exact hlegal.2 (h.elsewhere_iff.2 ⟨u, hu, hpu⟩)
  | insert | get | update | delete | poke => cases hp

/-- **A call keeps all dictionaries.** What holds of the dictionary that was called, seen from its root variable,
and what the call leaves alone, give what holds of all. -/
theorem of_view (h : HoldsAll n E w t) {v : ℕ} {c : Call δ} (hlegal : E.Legal (v, c)) (hpoke : ∀ m, c ≠ .poke m)
    {w' : World δ} {t' : DigitTree chidNb Ptr} (hv : Holds (n + 1) ((E.view v).next c) (w'.view v) t')
    (hframe : Frame (w.view v) (w'.view v) fun q => q ∈ t v ∨ c.target? = some q) :
    HoldsAll (n + 1) (E.next (v, c)) w' (Function.update t v t') := by
  rw [Dicts.next_view hlegal] at hv
  have htree := hv.tree
  rw [World.root_view] at htree
  -- the other dictionaries, and their nodes
  have hmem : (E.next (v, c)).mem = E.mem := by
    change ((E.dict v).next c).mem = E.mem
    cases c with
    | insert p =>
      simp only [Dict.next]
      split
      · split <;> rfl
      · rfl
    | update s d =>
      simp only [Dict.next]
      split <;> rfl
    | poke m => exact absurd rfl (hpoke m)
    | init | get | delete => rfl
  have hvars : ∀ u, u ≠ v → w'.store.vars u = w.store.vars u := fun u hu => by
    have h0 : Equiv.swap 0 v u ≠ 0 := fun h0 => hu (by
      rw [← Equiv.swap_apply_left 0 v] at h0
      exact (Equiv.swap 0 v).injective (h0.trans (by simp)))
    have := hframe.vars _ h0
    rwa [World.vars_view, World.vars_view] at this
  have hother : ∀ u, u ≠ v → ∀ q ∈ t u, w'.store.nodes q = w.store.nodes q ∧ (E.next (v, c)).strh q = E.strh q :=
    fun u hu q hq => by
      have hq' : ¬ (c.target? = some q) := fun hc => h.target_free hlegal hc u hq
      refine ⟨hframe.nodes q ?_, Dicts.strh_next E v hq'⟩
      rintro (hqv | hc)
      · exact hu (h.apart u v q hq hqv)
      · exact hq' hc
  have helse : ∀ q ∈ t', ¬ E.Elsewhere v q := fun q hq he => hv.known q hq (Dicts.strh_alone_elsewhere he)
  have hapart : ∀ u, u ≠ v → ∀ q ∈ t u, q ∉ t' := fun u hu q hq hq' =>
    helse q hq' (h.elsewhere_iff.2 ⟨u, hu, hq⟩)
  refine ⟨hv.mem, fun u => ?_, fun u => ?_, fun u => ?_, fun u k p => ?_, fun u u' p hp hp' => ?_,
    fun p s hp => ?_, hv.data, fun p hp hpt i => ?_, fun u p hp => ?_⟩
  · by_cases hu : u = v
    · subst hu
      rw [Function.update_self]
      exact ⟨htree.rep.frame fun _ _ _ => rfl, htree.once⟩
    · rw [Function.update_of_ne hu, hvars u hu]
      refine ⟨(h.tree u).rep.frame fun q hq i => ?_, (h.tree u).once⟩
      rw [Store.links_kid, Store.links_kid, (hother u hu q hq).1]
  · by_cases hu : u = v
    · subst hu
      rw [Function.update_self]
      exact hv.laid
    · rw [Function.update_of_ne hu]
      exact Laid.congr (h.laid u) fun q hq j => by rw [(hother u hu q hq).1]
  · by_cases hu : u = v
    · subst hu
      rw [Function.update_self]
      exact hv.height
    · rw [Function.update_of_ne hu]
      exact (h.height u).trans (Nat.le_succ n)
  · by_cases hu : u = v
    · subst hu
      rw [Dicts.dict_next_self, Function.update_self]
      rw [Dicts.bound_next_self]
      refine (hv.bound k p).trans (and_congr_right fun hp => ?_)
      rw [Dicts.keyOf_alone (helse p hp)]
    · rw [Dicts.bound_next_of_ne E hu, Function.update_of_ne hu, h.bound u k p]
      refine and_congr_right fun hp => ?_
      rw [Dicts.keyOf_dict, Dicts.keyOf_dict, (hother u hu p hp).2, hmem]
  · by_cases hu : u = v
    · subst hu
      rw [Function.update_self] at hp
      by_contra hne
      rw [Function.update_of_ne (Ne.symm hne)] at hp'
      exact hapart u' (Ne.symm hne) p hp' hp
    · rw [Function.update_of_ne hu] at hp
      by_cases hu' : u' = v
      · subst hu'
        rw [Function.update_self] at hp'
        exact absurd hp' (hapart u hu p hp)
      · rw [Function.update_of_ne hu'] at hp'
        exact h.apart u u' p hp hp'
  · by_cases he : E.Elsewhere v p
    · obtain ⟨u, hu, hpu⟩ := h.elsewhere_iff.1 he
      obtain ⟨hnode, hstrh⟩ := hother u hu p hpu
      rw [hstrh] at hp
      exact (h.hasKey p s hp).of_item (by rw [hnode])
    · have hkey : HasKey (w'.view v).store p s := hv.hasKey p s ((Dicts.strh_alone he).trans hp)
      exact ⟨hkey.key, hkey.keyData, hkey.fits⟩
  · have he : ¬ E.Elsewhere v p := fun he => by
      obtain ⟨u, hu, hpu⟩ := h.elsewhere_iff.1 he
      have hpt := hpt u
      rw [Function.update_of_ne hu] at hpt
      exact hpt hpu
    have hpt' : p ∉ t' := fun hpt' => hpt v (by rwa [Function.update_self])
    exact hv.kids p (fun hnone => hp ((Dicts.strh_alone he).symm.trans hnone)) hpt' i
  · by_cases hu : u = v
    · subst hu
      rw [Function.update_self] at hp
      have hknown := hv.known p hp
      rw [Dicts.strh_alone (helse p hp)] at hknown
      exact hknown
    · rw [Function.update_of_ne hu] at hp
      rw [(hother u hu p hp).2]
      exact h.known u p hp

theorem poke (h : HoldsAll n E w t) {v : ℕ} {m : Bytes} (hlegal : E.Legal (v, .poke m)) :
    HoldsAll (n + 1) (E.next (v, .poke m)) { w with mem := m } t := by
  have hbound : ∀ u, (E.next (v, .poke m)).bound u = E.bound u := fun u => by
    by_cases hu : u = v
    · subst hu
      exact Dicts.bound_next_self E u _
    · exact Dicts.bound_next_of_ne E hu _
  refine { h with mem := rfl, height := fun u => (h.height u).trans (Nat.le_succ n), bound := fun u k p => ?_ }
  rw [hbound]
  constructor
  · exact fun hk => ⟨((h.bound u k p).1 hk).1, hlegal.2 u k p hk⟩
  · rintro ⟨hp, hkey⟩
    -- the node was bound under its old key, and still has that key
    obtain ⟨k', hk'⟩ := h.mem_iff.1 hp
    obtain rfl : k' = k := Option.some.inj ((hlegal.2 u k' p hk').symm.trans hkey)
    exact hk'

theorem step (h : HoldsAll n E w t) {fuel : ℕ} (hf : n < fuel) {v : ℕ} {c : Call δ} (hlegal : E.Legal (v, c)) :
    ∃ r w', w.stepAt fuel v c = .ok (r, w') ∧ E.Allows (v, c) r ∧ ∃ t', HoldsAll (n + 1) (E.next (v, c)) w' t' := by
  by_cases hpoke : ∃ m, c = .poke m
  · obtain ⟨m, rfl⟩ := hpoke
    exact ⟨.void, { w with mem := m }, rfl, trivial, t, h.poke hlegal⟩
  · have hpoke' : ∀ m, c ≠ .poke m := fun m hm => hpoke ⟨m, hm⟩
    have hview := h.view v
    have hlegal' := Dicts.legal_view hlegal hpoke'
    obtain ⟨r, w₁, hstep, hallows, t', ht'⟩ := holds_step hview hf c hlegal'
    have hframe := step_frame hview hf hlegal' hstep
    have hw : w₁ = (w₁.view v).view v := (World.view_view v w₁).symm
    rw [hw] at ht' hframe
    exact ⟨r, w₁.view v, World.stepAt_of_step hstep, Dicts.allows_of_view hlegal hallows, _,
      h.of_view hlegal hpoke' ht' hframe⟩

theorem get (h : HoldsAll n E w t) {fuel : ℕ} (hf : n < fuel) (v : ℕ) {s : Strh} (hs : s.Fits) (store : Bool) :
    ∃ r x, w.stepAt fuel v (.get s store) = .ok (.value r x, w) ∧
      match (E.bound v).lookup (s.toKey E.mem) with
      | some p => r = 0 ∧ x = if store then some (E.data p) else none
      | none => r ≠ 0 ∧ x = none := by
  obtain ⟨ret, w', hstep, hallows, -⟩ := h.step hf (v := v) (c := .get s store) ⟨hs, trivial⟩
  obtain ⟨⟨r, x⟩, hget, hret⟩ := bind_ok hstep
  cases hret
  exact ⟨r, x, hstep, hallows⟩

end HoldsAll

/-! ### Runs -/

/-- Before any call, with null roots, the heap holds empty maps. -/
theorem holdsAll_empty {w : World δ} (hroots : ∀ v, w.store.vars v = none) :
    HoldsAll 0 (Dicts.empty (fun p => (w.store.nodes p).data) w.mem) w fun _ => nil where
  mem := rfl
  tree v := ⟨hroots v, trivial⟩
  laid _ := trivial
  height _ := le_rfl
  bound v k p := by simp [Dicts.empty]
  apart _ _ p hp := absurd hp (not_mem_nil p)
  hasKey p s h := by simp [Dicts.empty] at h
  data _ := rfl
  kids p h := by simp [Dicts.empty] at h
  known _ p h := absurd h (not_mem_nil p)

/-- A heap that holds maps answers every legal sequence of calls, as long as there is fuel for one turn of a loop
for each call, and then holds the maps the calls lead to. -/
theorem holdsAll_run {n fuel : ℕ} {E : Dicts δ} {w : World δ} (h : ∃ t, HoldsAll n E w t)
    {calls : List (ℕ × Call δ)} (hlegal : Dicts.contract.LegalRun E calls) (hf : n + calls.length ≤ fuel) :
    ∃ rets w', run (fun w a => World.stepAt fuel a.1 w a.2) w calls = .ok (rets, w') ∧
      Dicts.contract.AllowsRun E calls rets ∧
      ∃ t, HoldsAll (n + calls.length) (Dicts.contract.nextRun E calls) w' t :=
  run_refines (C := Dicts.contract) (R := fun n E w => ∃ t, HoldsAll n E w t)
    (fun _ _ _ _ hn ⟨_, ht⟩ hc => ht.step hn hc) hf h hlegal

/-- **Several dictionaries refine as many finite maps.** From null roots, in any memory and with anything in the nodes,
every interleaving of calls on any number of dictionaries that keeps to the rules is carried out, and answered call by
call as finite maps from keys to nodes would answer, one for each root variable; a call changes no other map than its
own. Nodes that are deleted from one dictionary may be inserted into another. -/
theorem strdicts_refine (w : World δ) (hroots : ∀ v, w.store.vars v = none) (calls : List (ℕ × Call δ))
    (hlegal : Dicts.contract.LegalRun (Dicts.empty (fun p => (w.store.nodes p).data) w.mem) calls)
    (fuel : ℕ) (hfuel : calls.length ≤ fuel) :
    ∃ rets w', run (fun w a => World.stepAt fuel a.1 w a.2) w calls = .ok (rets, w') ∧
      Dicts.contract.AllowsRun (Dicts.empty (fun p => (w.store.nodes p).data) w.mem) calls rets ∧
      ∃ t, HoldsAll calls.length
        (Dicts.contract.nextRun (Dicts.empty (fun p => (w.store.nodes p).data) w.mem) calls) w' t := by
  have hlen : 0 + calls.length ≤ fuel := by omega
  have h := holdsAll_run ⟨_, holdsAll_empty hroots⟩ hlegal hlen
  rw [Nat.zero_add] at h
  exact h

/-! ### Calls on one of them -/

namespace Dicts

/-- While the other dictionaries are empty, the rules are those of the one that is called. -/
theorem legalRun_map {E : Dicts δ} {v : ℕ} (hempty : ∀ u, u ≠ v → E.bound u = ∅) {calls : List (Call δ)}
    (h : Dict.contract.LegalRun (E.dict v) calls) : Dicts.contract.LegalRun E (calls.map (Prod.mk v)) := by
  induction calls generalizing E with
  | nil => trivial
  | cons c calls ih =>
    obtain ⟨hc, hrest⟩ := h
    have hother : ∀ u, u ≠ v → ∀ k p, (E.bound u).lookup k ≠ some p := fun u hu k p => by simp [hempty u hu]
    refine ⟨⟨hc, ?_⟩, ih (fun u hu => ?_) ?_⟩
    · cases c with
      | init p _ _ => exact fun ⟨u, hu, k, hk⟩ => hother u hu k p hk
      | insert p => exact fun ⟨u, hu, k, hk⟩ => hother u hu k p hk
      | poke m =>
        intro u k p hk
        by_cases hu : u = v
        · subst hu
          exact hc k p hk
        · exact absurd hk (hother u hu k p)
      | get | update | delete => trivial
    · exact (bound_next_of_ne E hu c).trans (hempty u hu)
    · exact (dict_next_self E v c).symm ▸ hrest

theorem dict_nextRun_map (E : Dicts δ) (v : ℕ) (calls : List (Call δ)) :
    (Dicts.contract.nextRun E (calls.map (Prod.mk v))).dict v = Dict.contract.nextRun (E.dict v) calls := by
  induction calls generalizing E with
  | nil => rfl
  | cons c calls ih => exact (ih (E.next (v, c))).trans (congrArg (Dict.contract.nextRun · calls) (dict_next_self E v c))

theorem bound_nextRun_map (E : Dicts δ) {u v : ℕ} (hu : u ≠ v) (calls : List (Call δ)) :
    (Dicts.contract.nextRun E (calls.map (Prod.mk v))).bound u = E.bound u := by
  induction calls generalizing E with
  | nil => rfl
  | cons c calls ih => exact (ih (E.next (v, c))).trans (bound_next_of_ne E hu c)

end Dicts

/-- A node that had another below it moves from one dictionary to a second. -/
def movedCalls : List (ℕ × Call ℕ) :=
  deletedCalls.map (Prod.mk 0) ++ [(3, .get ⟨1, 5, 0⟩ true), (3, .insert 1), (0, .get ⟨1, 1, 0⟩ true)]

/-- It is in no dictionary once it is deleted. -/
theorem deletedCalls_lookup (k : Key) :
    (Dict.contract.nextRun (Dict.empty (fun _ => 0) fun _ => 0) deletedCalls).bound.lookup k ≠ some 1 := by
  have hnot : ∀ k : Key, k ∉ (∅ : Finmap fun _ : Key => Ptr) := fun k => Finmap.notMem_empty
  have h5 : Strh.toKey (fun _ => 0) ⟨1, 5, 0⟩ = ⟨1, 5, [0]⟩ := rfl
  have h1 : Strh.toKey (fun _ => 0) ⟨1, 1, 0⟩ = ⟨1, 1, [0]⟩ := rfl
  have hbound : (Dict.contract.nextRun (Dict.empty (fun _ => 0) fun _ => 0) deletedCalls).bound =
      (((∅ : Finmap fun _ : Key => Ptr).insert ⟨1, 5, [0]⟩ 1).insert ⟨1, 1, [0]⟩ 2).erase ⟨1, 5, [0]⟩ := by
    simp [deletedCalls, Contract.nextRun, Dict.contract, Dict.next, Dict.empty, Dict.keyOf, hnot, h5, h1]
  rw [hbound]
  by_cases hk5 : k = ⟨1, 5, [0]⟩
  · subst hk5
    simp
  · rw [Finmap.lookup_erase_ne hk5]
    by_cases hk1 : k = ⟨1, 1, [0]⟩
    · subst hk1
      simp
    · simp [Finmap.lookup_insert_of_ne, hk1, hk5]

theorem strdicts_refine_moved : ∃ rets w',
    run (fun w a => World.stepAt 8 a.1 w a.2) emptyWorld movedCalls = .ok (rets, w') ∧
      Dicts.contract.AllowsRun (Dicts.empty (fun _ => 0) fun _ => 0) movedCalls rets := by
  have hlegal : Dicts.contract.LegalRun (Dicts.empty (fun _ => 0) fun _ => 0) movedCalls := by
    refine Dicts.contract.legalRun_append.2 ⟨Dicts.legalRun_map (fun _ _ => rfl) deletedCalls_legal,
      ⟨⟨by decide, by decide⟩, trivial⟩, ⟨?_, fun ⟨u, hu, k, hk⟩ => ?_⟩, ⟨⟨by decide, by decide⟩, trivial⟩, trivial⟩
    · simp [deletedCalls, Contract.nextRun, Dicts.contract, Dicts.next, Dicts.dict, Dict.Legal]
    · -- it was deleted from the one dictionary it was in
      replace hk : ((Dicts.contract.nextRun (Dicts.empty (fun _ => 0) fun _ => 0)
          (deletedCalls.map (Prod.mk 0))).bound u).lookup k = some 1 := by
        simpa [Dicts.contract, Dicts.bound_next_of_ne _ hu] using hk
      by_cases h0 : u = 0
      · subst h0
        have hdict := congrArg Dict.bound (Dicts.dict_nextRun_map (Dicts.empty (fun _ => 0) fun _ => 0) 0 deletedCalls)
        exact deletedCalls_lookup k (hdict ▸ hk)
      · rw [Dicts.bound_nextRun_map _ h0] at hk
        simp [Dicts.empty] at hk
  obtain ⟨rets, w', hrun, hallows, -⟩ := strdicts_refine emptyWorld (fun _ => rfl) movedCalls hlegal 8 (by decide)
  exact ⟨rets, w', hrun, hallows⟩

end Cop.Strdict
