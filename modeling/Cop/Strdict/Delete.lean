import Cop.Strdict.Search

/-!
# Deleting a node, pointer by pointer

`cop_strdict_delete` turns the node it removes down the tree: it exchanges the four
child pointers of the node and of one of its children (after which the child is,
for a moment, its own child), writes the child into the slot the node was in, and
the node into the slot of the child that the child came from. When the node has no
children left, its slot is set to null.

Here the nodes below the root form a digit tree, and the loop is shown to compute
`DigitTree.pull`, whatever lies outside that tree.

## What is proved

* `swapKids_get` — what the exchange of the children does to every slot.
* `turned_rotated` — one turn of the loop is a rotation (`Theory.Rotated`).
* `deleteLoop_ok` — the loop ends, and has removed the node from its subtree
  (`Removed`).
* `copStrdictDelete_ok`, `copStrdictDelete_absent` — the whole function, on a key that
  is there and on one that is not.
* `copStrdictDelete_frame` — the effect of the function on the whole heap.
-/

namespace Cop.Strdict

open Theory DigitTree

variable {δ : Type}

/-! ### The child that moves up -/

/-- Every child number is reached by the loop of `findkid`, whatever the offset. -/
theorem exists_chid (j : Fin chidNb) (offset : ℕ) : ∃ i ∈ List.range chidNb, chid (i + offset) = j := by
  have hj : (j : ℕ) < 4 := j.isLt
  refine ⟨(j + 4 - offset % 4) % 4, List.mem_range.2 (Nat.mod_lt _ (by decide)), Fin.ext ?_⟩
  rw [chid_val]
  omega

/-- The choice `findkid` makes, in terms of trees: the first child that is not empty,
from the one numbered by the next digit of the key on. -/
def kidPick (key d : ℕ) (s : Fin chidNb → DigitTree chidNb Ptr) : Option (Fin chidNb) :=
  (List.range chidNb).findSome? fun i =>
    let kid := chid (i + key >>> (chidBits * d))
    if (s kid).root? ≠ none then some kid else none

/-- `findkid` chooses a child as long as there is one. -/
def kidChooser (key : ℕ) : Chooser chidNb Ptr where
  pick := kidPick key
  nil_of_none {d s} h j := by
    obtain ⟨i, hi, rfl⟩ := exists_chid j (key >>> (chidBits * d))
    have := List.findSome?_eq_none_iff.1 h i hi
    cases hs : s (chid (i + key >>> (chidBits * d))) with
    | nil => rfl
    | node p r => simp [hs] at this
  ne_nil {d s i} h hnil := by
    obtain ⟨j, -, hj⟩ := List.exists_of_findSome?_eq_some h
    dsimp only at hj
    split at hj
    · cases hj
      rename_i hne
      exact hne (by rw [hnil]; rfl)
    · cases hj

theorem findkid_eq {st : Store δ} {p : Ptr} {s : Fin chidNb → DigitTree chidNb Ptr}
    (h : ∀ i, Represents st.links (st.get (.kid p i)) (s i)) (key d : ℕ) :
    findkid st p (key >>> (chidBits * d)) = (kidChooser key).pick d s := by
  simp only [findkid, kidChooser, kidPick, (h _).root?_eq]

/-! ### One turn of the loop -/

/-- One step of the exchange. -/
def swapKid (pRet pKid : Ptr) (st : Store δ) (i : Fin chidNb) : Store δ :=
  (st.set (.kid pRet i) (st.get (.kid pKid i))).set (.kid pKid i) (st.get (.kid pRet i))

theorem swapKids_eq (st : Store δ) (pRet pKid : Ptr) :
    swapKids st pRet pKid = (List.finRange chidNb).foldl (swapKid pRet pKid) st := rfl

theorem swapKid_get (p q : Ptr) (st : Store δ) (i : Fin chidNb) (r : Ptr) (j : Fin chidNb) :
    (swapKid p q st i).get (.kid r j) = st.get (.kid (if j = i then Equiv.swap p q r else r) j) := by
  by_cases hj : j = i
  · subst hj
    rw [if_pos rfl, swapKid, Store.get_set, Store.get_set]
    by_cases hq : r = q
    · subst hq
      rw [if_pos rfl, Equiv.swap_apply_right]
    · rw [if_neg (by simp [hq])]
      by_cases hp : r = p
      · subst hp
        rw [if_pos rfl, Equiv.swap_apply_left]
      · rw [if_neg (by simp [hp]), Equiv.swap_apply_of_ne_of_ne hp hq]
  · rw [if_neg hj, swapKid, Store.get_set_of_ne _ (by simp [hj]), Store.get_set_of_ne _ (by simp [hj])]

theorem swapKid_get_root (p q : Ptr) (st : Store δ) (i : Fin chidNb) (v : ℕ) :
    (swapKid p q st i).get (.root v) = st.get (.root v) := rfl

theorem foldl_swapKid_get {l : List (Fin chidNb)} (hl : l.Nodup) (p q : Ptr) (st : Store δ) (r : Ptr)
    (j : Fin chidNb) :
    (l.foldl (swapKid p q) st).get (.kid r j) = st.get (.kid (if j ∈ l then Equiv.swap p q r else r) j) := by
  induction l generalizing st with
  | nil => simp
  | cons i l ih =>
    obtain ⟨hi, hl⟩ := List.nodup_cons.1 hl
    rw [List.foldl_cons, ih hl, swapKid_get]
    by_cases hj : j = i
    · subst hj
      simp [hi]
    · simp [hj]

theorem swapKids_get (st : Store δ) (p q r : Ptr) (j : Fin chidNb) :
    (swapKids st p q).get (.kid r j) = st.get (.kid (Equiv.swap p q r) j) := by
  rw [swapKids_eq, foldl_swapKid_get (List.nodup_finRange chidNb), if_pos (List.mem_finRange j)]

theorem swapKids_get_root (st : Store δ) (p q : Ptr) (v : ℕ) :
    (swapKids st p q).get (.root v) = st.get (.root v) := by
  rw [swapKids_eq]
  generalize List.finRange chidNb = l
  induction l generalizing st with
  | nil => rfl
  | cons i l ih => rw [List.foldl_cons, ih, swapKid_get_root]

theorem swapKids_item (st : Store δ) (p q r : Ptr) : ((swapKids st p q).nodes r).item = (st.nodes r).item := by
  rw [swapKids_eq]
  generalize List.finRange chidNb = l
  induction l generalizing st with
  | nil => rfl
  | cons i l ih => rw [List.foldl_cons, ih, swapKid, Store.item_set, Store.item_set]

/-- The store after a turn of the loop in which `pKid`, in place `i`, moves up. -/
def turned (st : Store δ) (ppRoot : Loc) (pRet pKid : Ptr) (i : Fin chidNb) : Store δ :=
  ((swapKids st pRet pKid).set ppRoot (some pKid)).set (.kid pKid i) (some pRet)

theorem turned_item (st : Store δ) (ℓ : Loc) (p q : Ptr) (i : Fin chidNb) (r : Ptr) :
    ((turned st ℓ p q i).nodes r).item = (st.nodes r).item := by
  rw [turned, Store.item_set, Store.item_set, swapKids_item]

theorem turned_rotated {st : Store δ} {ℓ : Loc} {p q : Ptr} (i : Fin chidNb) (hpq : p ≠ q)
    (hp : ∀ j, ℓ ≠ .kid p j) (hq : ∀ j, ℓ ≠ .kid q j) :
    Rotated st.links (turned st ℓ p q i).links ℓ p q i where
  top := by
    change (turned st ℓ p q i).get ℓ = some q
    rw [turned, Store.get_set_of_ne _ (hq i), Store.get_set_self]
  up j := by
    change (turned st ℓ p q i).get (.kid q j) = if j = i then some p else st.get (.kid p j)
    rw [turned, Store.get_set]
    by_cases hj : j = i
    · rw [if_pos (by rw [hj]), if_pos hj]
    · rw [if_neg (by simp [hj]), if_neg hj, Store.get_set_of_ne _ (hq j).symm, swapKids_get, Equiv.swap_apply_right]
  down j := by
    change (turned st ℓ p q i).get (.kid p j) = st.get (.kid q j)
    rw [turned, Store.get_set_of_ne _ (by simp [hpq]), Store.get_set_of_ne _ (hp j).symm, swapKids_get,
      Equiv.swap_apply_left]
  same ℓ' hℓ hp' hq' := by
    change (turned st ℓ p q i).get ℓ' = st.get ℓ'
    rw [turned, Store.get_set_of_ne _ (hq' i), Store.get_set_of_ne _ hℓ]
    cases ℓ' with
    | root v => exact swapKids_get_root st p q v
    | kid r j =>
      have hrp : r ≠ p := fun h => hp' j (by rw [h])
      have hrq : r ≠ q := fun h => hq' j (by rw [h])
      rw [swapKids_get, Equiv.swap_apply_of_ne_of_ne hrp hrq]

/-! ### The loop -/

/-- `p`, the root of the tree `t` at the slot `ℓ`, has been removed from it, which leaves
`t'`; nothing else was written. -/
structure Removed (st st' : Store δ) (ℓ : Loc) (p : Ptr) (t t' : DigitTree chidNb Ptr) : Prop where
  /-- What is left. -/
  rep : Represents st'.links (st'.get ℓ) t'
  /-- Only the slot and child pointers of the tree were written. -/
  same : SameOutside st.links st'.links ℓ t
  /-- The removed node has no children. -/
  kids : ∀ i, (st'.nodes p).kids i = none
  /-- Keys and data are what they were. -/
  item : ∀ q, (st'.nodes q).item = (st.nodes q).item

/-- **The loop of `cop_strdict_delete`** ends, and with the assignment after it removes the
node it is about. -/
theorem deleteLoop_ok (key : ℕ) {t : DigitTree chidNb Ptr} {e : Ptr} {s : Fin chidNb → DigitTree chidNb Ptr}
    (ht : t = .node e s) (st : Store δ) (ℓ : Loc) (p : Ptr) (d : ℕ) (hrep : Represents st.links (st.get ℓ) (.node p s))
    (ho : (node p s).Once) (hout : ℓ.Outside (.node p s)) {fuel : ℕ} (hf : t.height < fuel) :
    ∃ st' ℓ', loop (deleteTurn p) fuel (st, ℓ, key >>> (chidBits * d)) = .ok (st', ℓ') ∧
      Removed st (st'.set ℓ' none) ℓ p (.node p s) (pull (kidChooser key) d (.node p s)) := by
  induction t generalizing e s st ℓ p d fuel with
  | nil => cases ht
  | node e s ih =>
    cases ht
    obtain ⟨n, rfl⟩ : ∃ n, fuel = n + 1 := ⟨fuel - 1, by omega⟩
    have hfind := findkid_eq hrep.2 key d
    have hmem : p ∈ node p s := mem_node.2 (.inl rfl)
    cases hpick : (kidChooser key).pick d s with
    | none =>
      have hkids : ∀ i, (st.nodes p).kids i = none := fun i => by
        have := hrep.2 i
        rw [(kidChooser key).nil_of_none hpick i] at this
        exact this
      refine ⟨st, ℓ, loop_done (by simp [deleteTurn, hfind, hpick]) n, ?_⟩
      rw [pull_leaf hpick]
      refine ⟨Store.get_set_self st ℓ none, fun ℓ' hne _ => Store.get_set_of_ne st hne none, fun i => ?_, by simp⟩
      have hne : (.kid p i : Loc) ≠ ℓ := by
        rintro rfl
        exact hout hmem
      rw [← Store.get_kid, Store.get_set_of_ne st hne, Store.get_kid, hkids i]
    | some i =>
      obtain ⟨q, r, hi⟩ := exists_node_of_pick hpick
      have hqi : q ∈ s i := by simp [hi]
      have hq : q ∈ node p s := mem_node.2 (.inr ⟨i, hqi⟩)
      have hpq : p ≠ q := fun h => ho.1 i (h ▸ hqi)
      have hne : ∀ b ∈ node p s, ∀ j, ℓ ≠ .kid b j := by
        rintro b hb j rfl
        exact hout hb
      have hkid : (st.nodes p).kids i = some q := by
        have := hrep.2 i
        rw [hi] at this
        exact this.1
      have hturn : deleteTurn p (st, ℓ, key >>> (chidBits * d)) =
          .ok (.more (turned st ℓ p q i, .kid q i, key >>> (chidBits * (d + 1)))) := by
        simp [deleteTurn, hfind, hpick, hkid, turned, shiftRight_succ]
      have hrot : Rotated st.links _ ℓ p q i := turned_rotated i hpq (hne p hmem) (hne q hq)
      obtain ⟨hrep', ho', hout', -⟩ := hrot.rep hrep ho hout hi
      have hlt := height_kid_lt e s i
      obtain ⟨st', ℓ', hloop, hrem⟩ :=
        ih i hi (turned st ℓ p q i) (.kid q i) p (d + 1) hrep' ho' hout' (show (s i).height < n by omega)
      refine ⟨st', ℓ', by rw [loop_more hturn, hloop], ?_⟩
      -- the tree below `p` is now the old child with its root taken out
      have hpull : pull (kidChooser key) (d + 1) (node p r) = pull (kidChooser key) (d + 1) (s i) := by
        rw [hi, pull_root]
      obtain ⟨hu, hsame⟩ := hrot.pulled hrep ho hout hi hrem.rep hrem.same
      rw [hpull] at hu
      rw [pull_node hpick hi]
      exact ⟨hu, hsame, hrem.kids, fun b => (hrem.item b).trans (turned_item st ℓ p q i b)⟩

/-! ### The whole function -/

/-- The nodes below the pointer `q` form the tree `t`, and none is reached twice. -/
structure TreeAt (st : Store δ) (q : Option Ptr) (t : DigitTree chidNb Ptr) : Prop where
  /-- The nodes below `q`. -/
  rep : Represents st.links q t
  /-- There is no sharing. -/
  once : t.Once

/-- The nodes of the tree lie along the digits of their keys. -/
def LaidOut (st : Store δ) (t : DigitTree chidNb Ptr) : Prop := t.Laid (fun p => digit (st.nodes p).key) 0

theorem LaidOut.of_item {st st' : Store δ} {t : DigitTree chidNb Ptr} (h : LaidOut st t)
    (hitem : ∀ p, (st'.nodes p).item = (st.nodes p).item) : LaidOut st' t :=
  Laid.congr h fun p _ j => congrArg (digit · j) (congrArg Prod.fst (hitem p))

/-- The path of the search for a key. -/
def keyPath (hit : Ptr → Bool) (key : ℕ) (t : DigitTree chidNb Ptr) : List (Fin chidNb) :=
  searchPath hit (digit key) 0 t

/-- The tree after the deletion of the node the search for a key ends at. -/
def deleted (hit : Ptr → Bool) (key : ℕ) (t : DigitTree chidNb Ptr) : DigitTree chidNb Ptr :=
  removeAt (kidChooser key) 0 (keyPath hit key t) t

/-- Only a node with the searched key is found; and one is, if there is one in the tree. -/
theorem found_hit {m : Bytes} {st : Store δ} {t : DigitTree chidNb Ptr} {ikey ptr len : ℕ} (hl : LaidOut st t)
    {p : Ptr} (hp : p ∈ t) (hm : keyMatches m st ikey ptr len p) :
    ∃ r, (found (keyMatches m st ikey ptr len) (digit ikey) 0 t).root? = some r ∧ r ∈ t ∧
      keyMatches m st ikey ptr len r := by
  have hkey : (st.nodes p).key = ikey := by
    simp only [keyMatches, Bool.and_eq_true, beq_iff_eq] at hm
    exact hm.1
  obtain ⟨r, hr⟩ := find_complete hl hp hm fun j => by rw [hkey]
  exact ⟨r, hr, sub_mem (mem_of_root? hr), found_root hr⟩

theorem copStrdictDelete_ok {m : Bytes} {st : Store δ} {ppRoot : Loc} {pKey : Strh} {t : DigitTree chidNb Ptr}
    (h : TreeAt st (st.get ppRoot) t) {r : Ptr}
    (hr : (found (keyMatches m st (getikey pKey) pKey.ptr pKey.len) (digit (getikey pKey)) 0 t).root? = some r) :
    ∃ st', (∀ fuel, t.height < fuel → copStrdictDelete fuel m st ppRoot pKey = .ok (some r, st')) ∧
      Removed st st' ppRoot r t (deleted (keyMatches m st (getikey pKey) pKey.ptr pKey.len) (getikey pKey) t) := by
  generalize hhit : keyMatches m st (getikey pKey) pKey.ptr pKey.len = hit at hr ⊢
  have hπ : Reaches (keyPath hit (getikey pKey) t) t := reaches_searchPath 0 t
  have hout := h.rep.outside
  cases hu : sub (keyPath hit (getikey pKey) t) t with
  | nil => rw [found, ← keyPath, hu] at hr; cases hr
  | node e s =>
    obtain rfl : e = r := by
      rw [found, ← keyPath, hu] at hr
      simpa using hr
    have hheight : (node e s).height ≤ t.height := hu ▸ height_sub_le _ t
    have hrep : Represents st.links (st.get (slotAt ppRoot (keyPath hit (getikey pKey) t) t)) (node e s) :=
      hu ▸ h.rep.slotAt hπ
    have hslot : (slotAt ppRoot (keyPath hit (getikey pKey) t) t).Outside (node e s) :=
      hu ▸ slotAt_outside h.once hout _
    -- the loop from the slot at which the search ends, with the least fuel that will do
    obtain ⟨st', ℓ', hrun, hrem⟩ := deleteLoop_ok (t := node e s) (getikey pKey) rfl st _ e
      (0 + (keyPath hit (getikey pKey) t).length) hrep (hu ▸ h.once.sub _) hslot
      (show (node e s).height < t.height + 1 by omega)
    refine ⟨st'.set ℓ' none, fun fuel hf => ?_, ?_, ?_, hrem.kids, hrem.item⟩
    · have hrun' := loop_mono hrun hf
      have hsearch : loop (searchTurn st hit) fuel _ = _ := search_ok h.rep (getikey pKey) 0 hf
      rw [← keyPath, hr] at hsearch
      simp only [Nat.mul_zero, Nat.shiftRight_zero] at hsearch
      simp only [copStrdictDelete, hhit, hsearch]
      change (loop (deleteTurn e) fuel _ >>= _) = _
      rw [hrun']
      rfl
    · refine Represents.replace h.rep h.once hout hπ ?_ (hu ▸ hrem.same)
      rw [hu]
      exact hrem.rep
    · exact SameOutside.of_slotAt (hu ▸ hrem.same)

theorem copStrdictDelete_absent {m : Bytes} {st : Store δ} {ppRoot : Loc} {pKey : Strh}
    {t : DigitTree chidNb Ptr} (h : TreeAt st (st.get ppRoot) t)
    (hr : (found (keyMatches m st (getikey pKey) pKey.ptr pKey.len) (digit (getikey pKey)) 0 t).root? = none)
    {fuel : ℕ} (hf : t.height < fuel) : copStrdictDelete fuel m st ppRoot pKey = .ok (none, st) := by
  generalize hhit : keyMatches m st (getikey pKey) pKey.ptr pKey.len = hit at hr
  have hsearch : loop (searchTurn st hit) fuel _ = _ := search_ok h.rep (getikey pKey) 0 hf
  rw [hr] at hsearch
  simp only [Nat.mul_zero, Nat.shiftRight_zero] at hsearch
  simp only [copStrdictDelete, hhit, hsearch]
  rfl

/-- **Deletion at the level of pointers.** On a heap in which the nodes below `*pp_root`
form a tree without sharing, laid out by the digits of their keys, and on a key that is
in it, the function returns, with enough fuel the same for all fuel; what it returns is
a node with that key, whose child pointers are all null; the nodes below `*pp_root` form
a tree without sharing of all nodes but that one; no key, key pointer or data of any node
is changed; no pointer is written but `*pp_root` and child pointers of nodes of the old
tree; and all nodes stay where they are except those on one path `c` down from the
returned node, which move up by one level. -/
theorem copStrdictDelete_frame (m : Bytes) (st : Store δ) (ppRoot : Loc) (pKey : Strh)
    (t : DigitTree chidNb Ptr) (htree : TreeAt st (st.get ppRoot) t) (hlaid : LaidOut st t)
    (hkey : ∃ p ∈ t, keyMatches m st (getikey pKey) pKey.ptr pKey.len p) :
    ∃ r st' t', (∀ fuel, t.height < fuel → copStrdictDelete fuel m st ppRoot pKey = .ok (some r, st')) ∧
      r ∈ t ∧ keyMatches m st (getikey pKey) pKey.ptr pKey.len r ∧
      TreeAt st' (st'.get ppRoot) t' ∧ (∀ p, p ∈ t' ↔ p ∈ t ∧ p ≠ r) ∧
      (∀ i, (st'.nodes r).kids i = none) ∧
      (∀ p, (st'.nodes p).item = (st.nodes p).item) ∧
      (∀ ℓ : Loc, ℓ ≠ ppRoot → ℓ.Outside t → st'.get ℓ = st.get ℓ) ∧
      ∃ π c : List (Fin chidNb), t.at? π = some r ∧
        (∀ j < c.length, ∃ p, t.at? (π ++ c.take (j + 1)) = some p ∧ t'.at? (π ++ c.take j) = some p) ∧
        (∀ σ p, t.at? σ = some p → p ≠ r → (∀ j < c.length, σ ≠ π ++ c.take (j + 1)) →
          t'.at? σ = some p) := by
  obtain ⟨p, hp, hm⟩ := hkey
  obtain ⟨r, hr, hrt, hrm⟩ := found_hit hlaid hp hm
  obtain ⟨st', hrun, hrem⟩ := copStrdictDelete_ok htree hr
  generalize keyMatches m st (getikey pKey) pKey.ptr pKey.len = hit at hr hrm hrem ⊢
  have hπ : Reaches (keyPath hit (getikey pKey) t) t := reaches_searchPath 0 t
  have hat : t.at? (keyPath hit (getikey pKey) t) = some r := by
    rw [← List.append_nil (keyPath hit (getikey pKey) t), at?_append, at?_eq_root?]
    exact hr
  exact ⟨r, st', deleted hit (getikey pKey) t, hrun, hrt, hrm, ⟨hrem.rep, once_removeAt htree.once⟩,
    fun _ => mem_removeAt hπ htree.once hr, hrem.kids, hrem.item, hrem.same, keyPath hit (getikey pKey) t,
    chain (kidChooser (getikey pKey)) (0 + (keyPath hit (getikey pKey) t).length)
      (sub (keyPath hit (getikey pKey) t) t),
    hat, fun _ hj => at?_removeAt_chain hπ hj, fun _ _ hσ hne hoff => at?_removeAt_off hπ hat hσ hne hoff⟩

/-- Two nodes: 2 is child 0 of 1. Their keys are the empty string with hashes 0 and 16. -/
def sampleNode (p : Ptr) : Node ℕ where
  key := 16 * (p - 1)
  keyData := 0
  data := p
  kids i := if p = 1 ∧ i = 0 then some 2 else none

/-- The store in which every root variable points to node 1. -/
def sampleStore : Store ℕ := ⟨fun _ => some 1, sampleNode⟩

/-- The tree below node 1. -/
def sampleTree : DigitTree chidNb Ptr := replace (leaf 2) [0] (leaf 1)

theorem sampleTree_at : TreeAt sampleStore (some 1) sampleTree where
  rep := by
    refine ⟨rfl, fun i => ?_⟩
    by_cases hi : i = 0
    · subst hi
      exact ⟨rfl, fun j => rfl⟩
    · simp [hi, Represents, sampleStore, sampleNode]
  once := once_insertAt (by simp [leaf, Once]) (by simp)

theorem sampleTree_laid : LaidOut sampleStore sampleTree :=
  laid_insertAt (by simp [leaf, Laid]) fun j hj => by
    obtain rfl : j = 0 := by simpa using hj
    rfl

theorem copStrdictDelete_frame_sample :
    ∃ r st', copStrdictDelete 3 (fun _ => 0) sampleStore (.root 0) ⟨0, 0, 0⟩ = .ok (some r, st') ∧
      r ∈ sampleTree ∧ ∃ t', TreeAt st' (st'.get (.root 0)) t' ∧ ∀ p, p ∈ t' ↔ p ∈ sampleTree ∧ p ≠ r := by
  obtain ⟨r, st', t', hrun, hr, -, ht, hmem, -⟩ := copStrdictDelete_frame (fun _ => 0) sampleStore (.root 0)
    ⟨0, 0, 0⟩ sampleTree sampleTree_at sampleTree_laid ⟨1, by simp [sampleTree, replace, leaf], by decide⟩
  exact ⟨r, st', hrun 3 (by decide), hr, t', ht, hmem⟩

end Cop.Strdict
