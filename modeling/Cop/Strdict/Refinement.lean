import Cop.Strdict.Delete
import Cop.Strdict.Dict

/-!
# The dictionary refines a finite map

The program of `Cop.Strdict.Model` keeps the contract of `Cop.Strdict.Dict`, over
runs of any length, also when keys collide in length and hash.

## The relation

`Holds n D w` relates a finite map `D` to memory and heap `w` after `n` calls. The
nodes below the root form a tree without sharing, laid out by the digits of their
keys, of height at most `n`; its nodes are exactly the bound ones, each under its own
key; every node that was initialised has the fields its `cop_strh` gives, and, when it
is not in the tree, no children.

## What is proved

* `keyMatches_iff` — comparing the 64-bit keys and the bytes is comparing keys.
* `Holds.found_eq` — the search finds what the map binds.
* `holds_init` to `holds_poke` — one lemma for each call.
* `strdict_refines` — the refinement.
-/

namespace Cop.Strdict

open Theory DigitTree

variable {δ : Type}

/-! ### Packed keys -/

theorem getikey_eq {s : Strh} (h : s.Fits) : getikey s = s.len * 2 ^ 32 + s.hash := by
  have hlen := h.len
  have hlt : s.len * 2 ^ 32 < 2 ^ 64 := by omega
  rw [getikey, Nat.shiftLeft_eq, Nat.mod_eq_of_lt hlt, ← Nat.shiftLeft_eq,
    ← Nat.shiftLeft_add_eq_or_of_lt h.hash, Nat.shiftLeft_eq]

/-- Length and hash are read back from a packed key. -/
theorem getikey_inj {s s' : Strh} (h : s.Fits) (h' : s'.Fits) :
    getikey s = getikey s' ↔ s.len = s'.len ∧ s.hash = s'.hash := by
  have h1 := h.hash
  have h2 := h'.hash
  rw [getikey_eq h, getikey_eq h']
  omega

theorem keytolen_getikey {s : Strh} (h : s.Fits) : keytolen (getikey s) = s.len := by
  have h1 := h.len
  have h2 := h.hash
  rw [keytolen, getikey_eq h, Nat.shiftRight_eq_div_pow]
  omega

/-- The node `p` has the fields `cop_strdict_node_init` gives it for `s`. -/
structure HasKey (st : Store δ) (p : Ptr) (s : Strh) : Prop where
  /-- The 64-bit key. -/
  key : (st.nodes p).key = getikey s
  /-- The address of the bytes. -/
  keyData : (st.nodes p).keyData = s.ptr
  /-- Length and hash are within 32 bits. -/
  fits : s.Fits

theorem HasKey.of_item {st st' : Store δ} {p : Ptr} {s : Strh} (h : HasKey st p s)
    (hitem : (st'.nodes p).item = (st.nodes p).item) : HasKey st' p s :=
  ⟨(congrArg Prod.fst hitem).trans h.key, (congrArg (fun i => i.2.1) hitem).trans h.keyData, h.fits⟩

theorem keyMatches_iff {m : Bytes} {st : Store δ} {p : Ptr} {s s' : Strh} (h : HasKey st p s) (hs' : s'.Fits) :
    keyMatches m st (getikey s') s'.ptr s'.len p ↔ s.toKey m = s'.toKey m := by
  simp only [keyMatches, Bool.and_eq_true, beq_iff_eq, h.key, h.keyData, getikey_inj h.fits hs', memcmpEq_iff,
    Strh.toKey, Key.mk.injEq]
  constructor
  · rintro ⟨⟨hl, hh⟩, hb⟩
    exact ⟨hl, hh, by rw [hl]; exact hb⟩
  · rintro ⟨hl, hh, hb⟩
    rw [hl] at hb
    exact ⟨⟨hl, hh⟩, hb⟩

/-! ### The relation -/

/-- The finite map `D` is what the heap holds, after `n` calls. -/
structure Holds (n : ℕ) (D : Dict δ) (w : World δ) (t : DigitTree chidNb Ptr) : Prop where
  /-- Memory is the same. -/
  mem : w.mem = D.mem
  /-- The nodes below the root form a tree. -/
  tree : TreeAt w.store (w.store.get World.root) t
  /-- It is laid out by the digits of the keys. -/
  laid : LaidOut w.store t
  /-- It is no higher than there were calls. -/
  height : t.height ≤ n
  /-- The nodes of the tree are the bound nodes. -/
  bound : ∀ k p, D.bound.lookup k = some p ↔ p ∈ t ∧ D.keyOf p = some k
  /-- Initialised nodes have the fields their `cop_strh` gives. -/
  hasKey : ∀ p s, D.strh p = some s → HasKey w.store p s
  /-- Nodes have their data. -/
  data : ∀ p, (w.store.nodes p).data = D.data p
  /-- Initialised nodes outside the tree have no children. -/
  kids : ∀ p, D.strh p ≠ none → p ∉ t → ∀ i, (w.store.nodes p).kids i = none
  /-- The nodes of the tree are initialised. -/
  known : ∀ p ∈ t, D.strh p ≠ none

namespace Holds

variable {n : ℕ} {D : Dict δ} {w : World δ} {t : DigitTree chidNb Ptr}

/-- **The search finds what the map binds.** -/
theorem found_eq (h : Holds n D w t) {s : Strh} (hs : s.Fits) :
    (found (keyMatches w.mem w.store (getikey s) s.ptr s.len) (digit (getikey s)) 0 t).root? =
      D.bound.lookup (s.toKey D.mem) := by
  -- a node of the tree matches when its key is the searched one
  have hmatch : ∀ p ∈ t, keyMatches w.mem w.store (getikey s) s.ptr s.len p ↔
      D.keyOf p = some (s.toKey D.mem) := fun p hp => by
    obtain ⟨s', hs'⟩ := Option.ne_none_iff_exists'.1 (h.known p hp)
    rw [keyMatches_iff (h.hasKey p s' hs') hs, Dict.keyOf, hs', Option.map_some, Option.some_inj, h.mem]
  cases hr : (found (keyMatches w.mem w.store (getikey s) s.ptr s.len) (digit (getikey s)) 0 t).root? with
  | some r =>
    have hrt : r ∈ t := sub_mem (mem_of_root? hr)
    exact ((h.bound _ r).2 ⟨hrt, (hmatch r hrt).1 (found_root hr)⟩).symm
  | none =>
    cases hk : D.bound.lookup (s.toKey D.mem) with
    | none => rfl
    | some p =>
      obtain ⟨hp, hkey⟩ := (h.bound _ p).1 hk
      obtain ⟨r, hr', -⟩ := found_hit h.laid hp ((hmatch p hp).2 hkey)
      rw [hr] at hr'
      cases hr'

theorem mem_iff (h : Holds n D w t) {p : Ptr} : p ∈ t ↔ ∃ k, D.bound.lookup k = some p := by
  constructor
  · intro hp
    obtain ⟨s, hs⟩ := Option.ne_none_iff_exists'.1 (h.known p hp)
    exact ⟨s.toKey D.mem, (h.bound _ p).2 ⟨hp, by rw [Dict.keyOf, hs]; rfl⟩⟩
  · rintro ⟨k, hk⟩
    exact ((h.bound k p).1 hk).1

theorem walk (h : Holds n D w t) {s : Strh} (hs : s.Fits) {fuel : ℕ} (hf : n < fuel) :
    loop (walkTurn w.store (keyMatches w.mem w.store (getikey s) s.ptr s.len)) fuel
      (w.store.get World.root, getikey s) = .ok (D.bound.lookup (s.toKey D.mem)) := by
  rw [← h.found_eq hs]
  exact walk_ok h.tree.rep (getikey s) 0 (h.height.trans_lt hf)

end Holds

/-! ### One call -/

section Calls

variable {n fuel : ℕ} {D : Dict δ} {w : World δ} {t : DigitTree chidNb Ptr}

/-- A call is answered as the contract allows, and leads to a heap that holds the next map. -/
def Answered (fuel n : ℕ) (D : Dict δ) (w : World δ) (c : Call δ) : Prop :=
  ∃ r w', w.step fuel c = .ok (r, w') ∧ D.Allows c r ∧ ∃ t', Holds (n + 1) (D.next c) w' t'

theorem holds_init (h : Holds n D w t) {p : Ptr} {s : Strh} {d : δ} (hlegal : D.Legal (.init p s d)) :
    Answered fuel n D w (.init p s d) := by
  obtain ⟨hfree, hs⟩ := hlegal
  have hpt : p ∉ t := fun hp => by
    obtain ⟨k, hk⟩ := h.mem_iff.1 hp
    exact hfree k hk
  have hne : ∀ q ∈ t, q ≠ p := fun q hq he => hpt (he ▸ hq)
  have hnode : ∀ q, q ≠ p → (copStrdictNodeInit w.store p s d).nodes q = w.store.nodes q := fun q hq =>
    Function.update_of_ne hq _ _
  have hself : (copStrdictNodeInit w.store p s d).nodes p = ⟨getikey s, s.ptr, d, fun _ => none⟩ :=
    Function.update_self ..
  have hkey : ∀ q, q ≠ p → (D.next (.init p s d)).keyOf q = D.keyOf q := fun q hq => by
    simp [Dict.keyOf, Dict.next, Function.update_of_ne hq]
  refine ⟨.void, _, rfl, trivial, t, h.mem, ⟨?_, h.tree.once⟩, ?_, by have := h.height; omega, fun k q => ?_,
    fun q s' hq => ?_, fun q => ?_, fun q hq hqt i => ?_, fun q hq => ?_⟩
  · exact h.tree.rep.frame fun q hq i => by simp [hnode q (hne q hq)]
  · exact Laid.congr h.laid fun q hq j => by simp [hnode q (hne q hq)]
  · refine (h.bound k q).trans (and_congr_right fun hq => ?_)
    rw [hkey q (hne q hq)]
  · by_cases hqp : q = p
    · subst hqp
      obtain rfl : s = s' := by simpa [Dict.next] using hq
      exact ⟨by rw [hself], by rw [hself], hs⟩
    · have hq' : D.strh q = some s' := by simpa [Dict.next, Function.update_of_ne hqp] using hq
      exact (h.hasKey q s' hq').of_item (by rw [hnode q hqp])
  · by_cases hqp : q = p
    · subst hqp
      simp [hself, Dict.next]
    · simp [hnode q hqp, Dict.next, Function.update_of_ne hqp, h.data q]
  · by_cases hqp : q = p
    · subst hqp
      rw [hself]
    · rw [hnode q hqp]
      exact h.kids q (by simpa [Dict.next, Function.update_of_ne hqp] using hq) hqt i
  · simpa [Dict.next, Function.update_of_ne (hne q hq)] using h.known q hq

theorem holds_get (h : Holds n D w t) (hf : n < fuel) {s : Strh} {store : Bool} (hs : s.Fits) :
    Answered fuel n D w (.get s store) := by
  have hwalk := h.walk hs hf
  have hholds : Holds (n + 1) D w t := { h with height := h.height.trans (Nat.le_succ n) }
  cases hk : D.bound.lookup (s.toKey D.mem) with
  | none =>
    rw [hk] at hwalk
    refine ⟨.value (-1) none, w, ?_, ?_, t, hholds⟩
    · simp only [World.step, copStrdictGet, hwalk]
      rfl
    · simp [Dict.Allows, hk]
  | some p =>
    rw [hk] at hwalk
    refine ⟨.value 0 (if store then some (D.data p) else none), w, ?_, ?_, t, hholds⟩
    · simp only [World.step, copStrdictGet, hwalk, ← h.data p]
      rfl
    · simp [Dict.Allows, hk]

theorem holds_update (h : Holds n D w t) (hf : n < fuel) {s : Strh} {v : δ} (hs : s.Fits) :
    Answered fuel n D w (.update s v) := by
  have hwalk := h.walk hs hf
  cases hk : D.bound.lookup (s.toKey D.mem) with
  | none =>
    rw [hk] at hwalk
    refine ⟨.status (-1), w, ?_, ?_, t, ?_⟩
    · simp only [World.step, copStrdictUpdate, hwalk]
      rfl
    · simpa [Dict.Allows] using Finmap.lookup_eq_none.1 hk
    · simp only [Dict.next, hk]
      exact { h with height := h.height.trans (Nat.le_succ n) }
  | some p =>
    rw [hk] at hwalk
    have hitem : ∀ q, ((w.store.setData p v).nodes q).key = (w.store.nodes q).key ∧
        ((w.store.setData p v).nodes q).keyData = (w.store.nodes q).keyData ∧
        ((w.store.setData p v).nodes q).kids = (w.store.nodes q).kids := fun q => by
      by_cases hqp : q = p
      · subst hqp
        simp [Store.setData, Store.setNode]
      · simp [Store.setData, Store.setNode, Function.update_of_ne hqp]
    refine ⟨.status 0, { w with store := w.store.setData p v }, ?_, ?_, t, ?_⟩
    · simp only [World.step, copStrdictUpdate, hwalk]
      rfl
    · simpa [Dict.Allows] using Finmap.mem_iff.2 ⟨p, hk⟩
    · simp only [Dict.next, hk]
      refine ⟨h.mem, ⟨h.tree.rep.frame fun q _ i => by simp [(hitem q).2.2], h.tree.once⟩,
        Laid.congr h.laid fun q _ j => by rw [(hitem q).1], h.height.trans (Nat.le_succ n), h.bound,
        fun q s' hq => ?_, fun q => ?_, fun q hq hqt i => by rw [(hitem q).2.2, h.kids q hq hqt i], h.known⟩
      · have := h.hasKey q s' hq
        exact ⟨(hitem q).1.trans this.key, (hitem q).2.1.trans this.keyData, this.fits⟩
      · by_cases hqp : q = p
        · subst hqp
          simp [Store.setData, Store.setNode]
        · simp [Store.setData, Store.setNode, Function.update_of_ne hqp, h.data q]

theorem copStrdictInsert_ok (h : Holds n D w t) (hf : n < fuel) {p : Ptr} {s : Strh} (hp : D.strh p = some s) :
    copStrdictInsert fuel w.mem w.store World.root p =
      match D.bound.lookup (s.toKey D.mem) with
      | some _ => .ok (-1, w.store)
      | none => .ok (0, w.store.set (slotAt World.root
          (keyPath (keyMatches w.mem w.store (getikey s) s.ptr s.len) (getikey s) t) t) (some p)) := by
  have hkey := h.hasKey p s hp
  have hsearch : loop (searchTurn w.store (keyMatches w.mem w.store (getikey s) s.ptr s.len)) fuel
      (World.root, w.store.get World.root, getikey s) = _ :=
    search_ok h.tree.rep (getikey s) 0 (h.height.trans_lt hf)
  rw [h.found_eq hkey.fits] at hsearch
  simp only [copStrdictInsert, hkey.key, hkey.keyData, keytolen_getikey hkey.fits, hsearch]
  cases D.bound.lookup (s.toKey D.mem) <;> rfl

/-- A search for an absent key falls off the tree. -/
theorem Holds.sub_eq_nil (h : Holds n D w t) {s : Strh} (hs : s.Fits) (hk : D.bound.lookup (s.toKey D.mem) = none) :
    sub (keyPath (keyMatches w.mem w.store (getikey s) s.ptr s.len) (getikey s) t) t = nil := by
  have hfound := h.found_eq hs
  rw [hk, found, ← keyPath] at hfound
  cases hsub : sub (keyPath (keyMatches w.mem w.store (getikey s) s.ptr s.len) (getikey s) t) t with
  | nil => rfl
  | node e r =>
    rw [hsub] at hfound
    cases hfound

/-- Setting a slot of the tree gives no child to a node outside it. -/
theorem kids_set_slotAt (st : Store δ) (t : DigitTree chidNb Ptr) (π : List (Fin chidNb)) (p : Ptr) {q : Ptr}
    (hq : q ∉ t) (i : Fin chidNb) :
    ((st.set (slotAt World.root π t) (some p)).nodes q).kids i = (st.nodes q).kids i := by
  have hslot : (.kid q i : Loc) ≠ slotAt World.root π t := by
    intro heq
    rcases slotAt_mem World.root t π with he | ⟨q', hq', i', he⟩
    · rw [he] at heq
      cases heq
    · rw [he] at heq
      cases heq
      exact hq hq'
  rw [← Store.get_kid, Store.get_set_of_ne _ hslot, Store.get_kid]

theorem Holds.bound_insert (h : Holds n D w t) {k₀ : Key} {p : Ptr} (hk : D.bound.lookup k₀ = none)
    (hp : D.keyOf p = some k₀) (k : Key) (q : Ptr) :
    (D.bound.insert k₀ p).lookup k = some q ↔ (q = p ∨ q ∈ t) ∧ D.keyOf q = some k := by
  by_cases hkk : k = k₀
  · subst hkk
    rw [Finmap.lookup_insert, Option.some_inj]
    constructor
    · rintro rfl
      exact ⟨.inl rfl, hp⟩
    · rintro ⟨rfl | hq, hqk⟩
      · rfl
      · rw [(h.bound _ q).2 ⟨hq, hqk⟩] at hk
        cases hk
  · rw [Finmap.lookup_insert_of_ne _ hkk, h.bound]
    constructor
    · exact fun hq => ⟨.inr hq.1, hq.2⟩
    · rintro ⟨rfl | hq, hqk⟩
      · exact absurd (Option.some.inj (hqk.symm.trans hp)) hkk
      · exact ⟨hq, hqk⟩

theorem Holds.bound_erase (h : Holds n D w t) {k₀ : Key} {r : Ptr} (hk : D.bound.lookup k₀ = some r) (k : Key)
    (q : Ptr) : (D.bound.erase k₀).lookup k = some q ↔ (q ∈ t ∧ q ≠ r) ∧ D.keyOf q = some k := by
  obtain ⟨-, hrkey⟩ := (h.bound _ r).1 hk
  by_cases hkk : k = k₀
  · subst hkk
    rw [Finmap.lookup_erase]
    constructor
    · exact fun hq => absurd hq (by simp)
    · rintro ⟨⟨hq, hne⟩, hqk⟩
      have hbound := (h.bound _ q).2 ⟨hq, hqk⟩
      rw [hk] at hbound
      exact absurd (Option.some.inj hbound).symm hne
  · rw [Finmap.lookup_erase_ne hkk, h.bound]
    constructor
    · rintro ⟨hq, hqk⟩
      refine ⟨⟨hq, ?_⟩, hqk⟩
      rintro rfl
      exact hkk (Option.some.inj (hqk.symm.trans hrkey))
    · exact fun hq => ⟨hq.1.1, hq.2⟩

/-- A node of an absent key, put in where the search falls off, is bound. -/
theorem Holds.insert_absent (h : Holds n D w t) {p : Ptr} {s : Strh} (hp : D.strh p = some s)
    (hk : D.bound.lookup (s.toKey D.mem) = none) {π : List (Fin chidNb)}
    (hπ : π = keyPath (keyMatches w.mem w.store (getikey s) s.ptr s.len) (getikey s) t) :
    Holds (n + 1) (D.next (.insert p)) { w with store := w.store.set (slotAt World.root π t) (some p) }
      (replace (leaf p) π t) := by
  have hkeyOf : D.keyOf p = some (s.toKey D.mem) := by simp [Dict.keyOf, hp]
  have hkey := h.hasKey p s hp
  have hmem : s.toKey D.mem ∉ D.bound := Finmap.lookup_eq_none.1 hk
  have hpt : p ∉ t := by
    intro hpt
    rw [(h.bound _ p).2 ⟨hpt, hkeyOf⟩] at hk
    cases hk
  have hreach : Reaches π t := hπ ▸ reaches_searchPath 0 t
  have hnil : sub π t = nil := hπ ▸ h.sub_eq_nil hkey.fits hk
  have hitem : ∀ q, ((w.store.set (slotAt World.root π t) (some p)).nodes q).item = (w.store.nodes q).item :=
    fun q => Store.item_set _ _ _ q
  have hkids := fun q (hq : q ∉ t) i => kids_set_slotAt w.store t π p hq i
  have hin : ∀ q, q ∈ replace (leaf p) π t ↔ q = p ∨ q ∈ t := fun q => mem_insertAt hreach h.tree.once hnil
  simp only [Dict.next, hkeyOf, hmem, if_false]
  refine ⟨h.mem, ⟨?_, once_insertAt h.tree.once hpt⟩, ?_, ?_, fun k q => ?_, fun q s' hq => ?_, fun q => ?_,
    fun q hq hqt i => ?_, fun q hq => ?_⟩
  · refine Represents.replace h.tree.rep h.tree.once h.tree.rep.outside hreach ?_
      fun ℓ' hne _ => Store.get_set_of_ne _ hne _
    exact ⟨Store.get_set_self _ _ _, fun i => (hkids p hpt i).trans (h.kids p (by simp [hp]) hpt i)⟩
  · apply laid_insertAt (h.laid.of_item (by simp))
    intro j hj
    subst hπ
    rw [(hkey.of_item (hitem p)).key]
    exact searchPath_getElem 0 t j hj
  · exact (height_insertAt_le hreach hnil).trans (Nat.succ_le_succ h.height)
  · rw [hin]
    exact h.bound_insert hk hkeyOf k q
  · exact (h.hasKey q s' hq).of_item (hitem q)
  · exact (congrArg (fun i => i.2.2) (hitem q)).trans (h.data q)
  · have hqt' : q ∉ t := fun hq' => hqt ((hin q).2 (.inr hq'))
    rw [hkids q hqt' i]
    exact h.kids q hq hqt' i
  · rcases (hin q).1 hq with rfl | hq
    · simp [hp]
    · exact h.known q hq

theorem holds_insert (h : Holds n D w t) (hf : n < fuel) {p : Ptr} (hlegal : D.Legal (.insert p)) :
    Answered fuel n D w (.insert p) := by
  obtain ⟨s, hp⟩ := Option.ne_none_iff_exists'.1 hlegal
  have hkeyOf : D.keyOf p = some (s.toKey D.mem) := by simp [Dict.keyOf, hp]
  have hrun := copStrdictInsert_ok h hf hp
  cases hk : D.bound.lookup (s.toKey D.mem) with
  | some q =>
    rw [hk] at hrun
    have hmem : s.toKey D.mem ∈ D.bound := Finmap.mem_iff.2 ⟨q, hk⟩
    refine ⟨.status (-1), w, ?_, ⟨_, hkeyOf, by simp [hmem]⟩, t, ?_⟩
    · simp only [World.step, hrun]
      rfl
    · simp only [Dict.next, hkeyOf, hmem, if_true]
      exact { h with height := h.height.trans (Nat.le_succ n) }
  | none =>
    rw [hk] at hrun
    have hmem : s.toKey D.mem ∉ D.bound := Finmap.lookup_eq_none.1 hk
    refine ⟨.status 0, _, ?_, ⟨_, hkeyOf, by simp [hmem]⟩, _, h.insert_absent hp hk rfl⟩
    simp only [World.step, hrun]
    rfl

theorem holds_delete (h : Holds n D w t) (hf : n < fuel) {s : Strh} (hs : s.Fits) :
    Answered fuel n D w (.delete s) := by
  have hfound := h.found_eq hs
  cases hk : D.bound.lookup (s.toKey D.mem) with
  | none =>
    rw [hk] at hfound
    have hrun := copStrdictDelete_absent h.tree hfound (h.height.trans_lt hf)
    have hmem : s.toKey D.mem ∉ D.bound := Finmap.lookup_eq_none.1 hk
    refine ⟨.node none, w, ?_, by simp [Dict.Allows, hk], t, ?_⟩
    · simp only [World.step, hrun]
      rfl
    · refine { h with height := h.height.trans (Nat.le_succ n), bound := fun k p => ?_ }
      by_cases hkk : k = s.toKey D.mem
      · subst hkk
        rw [Dict.next, Finmap.lookup_erase]
        exact hk ▸ h.bound _ p
      · rw [Dict.next, Finmap.lookup_erase_ne hkk]
        exact h.bound k p
  | some r =>
    rw [hk] at hfound
    obtain ⟨st', hrun, hrem⟩ := copStrdictDelete_ok h.tree hfound
    generalize keyMatches w.mem w.store (getikey s) s.ptr s.len = hit at hfound hrem
    have hπ : Reaches (keyPath hit (getikey s) t) t := reaches_searchPath 0 t
    have hin : ∀ q, q ∈ deleted hit (getikey s) t ↔ q ∈ t ∧ q ≠ r := fun q =>
      mem_removeAt hπ h.tree.once hfound
    refine ⟨.node (some r), { w with store := st' }, ?_, by simp [Dict.Allows, hk],
      deleted hit (getikey s) t, h.mem, ⟨hrem.rep, once_removeAt h.tree.once⟩,
      laid_removeAt (h.laid.of_item hrem.item), ?_, fun k q => ?_,
      fun q s' hq => (h.hasKey q s' hq).of_item (hrem.item q), fun q => ?_, fun q hq hqt i => ?_, fun q hq => ?_⟩
    · simp only [World.step, hrun fuel (h.height.trans_lt hf)]
      rfl
    · have hle : (deleted hit (getikey s) t).height ≤ t.height := height_removeAt_le hπ
      exact (hle.trans h.height).trans (Nat.le_succ n)
    · rw [hin]
      exact h.bound_erase hk k q
    · exact (congrArg (fun i => i.2.2) (hrem.item q)).trans (h.data q)
    · by_cases hqr : q = r
      · subst hqr
        exact hrem.kids i
      · have hqt' : q ∉ t := fun hq' => hqt ((hin q).2 ⟨hq', hqr⟩)
        have hsame : st'.get (.kid q i) = w.store.get (.kid q i) := hrem.same (.kid q i) (by simp [World.root]) hqt'
        rw [← Store.get_kid, hsame]
        exact h.kids q hq hqt' i
    · exact h.known q ((hin q).1 hq).1

theorem holds_poke (h : Holds n D w t) {m : Bytes} (hlegal : D.Legal (.poke m)) :
    Answered fuel n D w (.poke m) := by
  refine ⟨.void, { w with mem := m }, rfl, trivial, t,
    { h with mem := rfl, height := h.height.trans (Nat.le_succ n), bound := fun k p => ?_ }⟩
  constructor
  · exact fun hk => ⟨((h.bound k p).1 hk).1, hlegal k p hk⟩
  · rintro ⟨hp, hkey⟩
    -- the node was bound under its old key, and still has that key
    obtain ⟨k', hk'⟩ := h.mem_iff.1 hp
    have := hlegal k' p hk'
    obtain rfl : k' = k := Option.some.inj (this.symm.trans hkey)
    exact hk'

theorem holds_step (h : Holds n D w t) (hf : n < fuel) (c : Call δ) (hlegal : D.Legal c) :
    Answered fuel n D w c := by
  cases c with
  | init p s d => exact holds_init h hlegal
  | insert p => exact holds_insert h hf hlegal
  | get s store => exact holds_get h hf hlegal
  | update s v => exact holds_update h hf hlegal
  | delete s => exact holds_delete h hf hlegal
  | poke m => exact holds_poke h hlegal

end Calls

/-! ### Runs -/

/-- Before any call, with a null root, the heap holds the empty map. -/
theorem holds_empty {w : World δ} (hroot : w.store.get World.root = none) :
    Holds 0 (Dict.empty (fun p => (w.store.nodes p).data) w.mem) w nil where
  mem := rfl
  tree := ⟨hroot, trivial⟩
  laid := trivial
  height := le_rfl
  bound k p := by simp [Dict.empty]
  hasKey p s h := by simp [Dict.empty] at h
  data p := rfl
  kids p h := by simp [Dict.empty] at h
  known p h := absurd h (not_mem_nil p)

/-- A heap that holds a map answers every legal sequence of calls, as long as there is fuel for one turn of
a loop for each call, and then holds the map the calls lead to. -/
theorem holds_run {n fuel : ℕ} {D : Dict δ} {w : World δ} (h : ∃ t, Holds n D w t) {calls : List (Call δ)}
    (hlegal : Dict.contract.LegalRun D calls) (hf : n + calls.length ≤ fuel) :
    ∃ rets w', run (World.step fuel) w calls = .ok (rets, w') ∧ Dict.contract.AllowsRun D calls rets ∧
      ∃ t, Holds (n + calls.length) (Dict.contract.nextRun D calls) w' t :=
  run_refines (C := Dict.contract) (R := fun n D w => ∃ t, Holds n D w t)
    (fun _ _ _ c hn ⟨_, ht⟩ hc => holds_step ht hn c hc) hf h hlegal

/-- **The dictionary refines a finite map.** From a null root, in any memory and with
anything in the nodes, every sequence of calls that keeps to the rules is carried out (with
fuel for as many turns of a loop as there are calls), and answered call by call as a finite
map from keys to nodes would answer. -/
theorem strdict_refines (w : World δ) (hroot : w.store.get World.root = none) (calls : List (Call δ))
    (hlegal : Dict.contract.LegalRun (Dict.empty (fun p => (w.store.nodes p).data) w.mem) calls)
    (fuel : ℕ) (hfuel : calls.length ≤ fuel) :
    ∃ rets w', run (World.step fuel) w calls = .ok (rets, w') ∧
      Dict.contract.AllowsRun (Dict.empty (fun p => (w.store.nodes p).data) w.mem) calls rets ∧
      ∃ t, Holds calls.length (Dict.contract.nextRun (Dict.empty (fun p => (w.store.nodes p).data) w.mem) calls) w' t := by
  have hlen : 0 + calls.length ≤ fuel := by omega
  have h := holds_run ⟨nil, holds_empty hroot⟩ hlegal hlen
  rw [Nat.zero_add] at h
  exact h

/-- An empty heap, in a memory of zeros. -/
def emptyWorld : World ℕ := ⟨fun _ => 0, ⟨fun _ => none, fun _ => ⟨0, 0, 0, fun _ => none⟩⟩⟩

/-- Two keys that share a digit are bound, and the node above is deleted. -/
def deletedCalls : List (Call ℕ) :=
  [.init 1 ⟨1, 5, 0⟩ 7, .init 2 ⟨1, 1, 0⟩ 8, .insert 1, .insert 2, .delete ⟨1, 5, 0⟩]

theorem deletedCalls_legal : Dict.contract.LegalRun (Dict.empty (fun _ => 0) fun _ => 0) deletedCalls := by
  refine ⟨⟨fun k => by simp [Dict.empty], by decide, by decide⟩, ⟨fun k => ?_, by decide, by decide⟩, ?_, ?_,
    ⟨by decide, by decide⟩, trivial⟩
  · simp [Dict.empty, Dict.contract, Dict.next]
  all_goals simp [Dict.contract, Dict.Legal]

/-- The node that was deleted is inserted again as it is. -/
def sampleCalls : List (Call ℕ) := deletedCalls ++ [.get ⟨1, 1, 0⟩ true, .insert 1, .get ⟨1, 5, 0⟩ true]

theorem strdict_refines_sample : ∃ rets w', run (World.step 8) emptyWorld sampleCalls = .ok (rets, w') ∧
    Dict.contract.AllowsRun (Dict.empty (fun _ => 0) fun _ => 0) sampleCalls rets := by
  have hlegal : Dict.contract.LegalRun (Dict.empty (fun _ => 0) fun _ => 0) sampleCalls := by
    refine Dict.contract.legalRun_append.2 ⟨deletedCalls_legal, ⟨by decide, by decide⟩, ?_, ⟨by decide, by decide⟩, trivial⟩
    simp [deletedCalls, Contract.nextRun, Dict.contract, Dict.Legal]
  obtain ⟨rets, w', hrun, hallows, -⟩ := strdict_refines emptyWorld rfl sampleCalls hlegal 8 (by decide)
  exact ⟨rets, w', hrun, hallows⟩

end Cop.Strdict
