import Cop.Strdict.Enumerate
import Cop.Strdict.Several

/-!
# Rebuilding a dictionary from its nodes

`cop_strdict_node_to_key` and `cop_strdict_node_to_data` give back what a node was set up
with. A caller that enumerates a dictionary and inserts into another, for each node it
is given, a node of its own set up with that key and that data, has a second dictionary.

## The model

* `collect` is a callback that keeps the nodes it is given, in the order it is given them.
* `copyNodes` is what the caller does with those nodes; `fresh` gives the node that each
  is copied to.

## What is proved

* `copStrdictNodeToKey_eq` — the key of a node is read back from its 64 bits.
* `collect_eq` — the nodes collected are the nodes of the tree.
* `copyNodes_ok` — every copy is inserted, under the key of its original.
* `strdict_rebuilt` — the second dictionary binds the same keys to copies with the same data,
  every lookup answers the same on both, and no other dictionary is changed.
-/

namespace Cop.Strdict

open Theory DigitTree

variable {δ : Type}

/-! ### The program -/

/-- `cop_strdict_init`. -/
def copStrdictInit : Option Ptr := none

/-- `cop_strdict_node_to_key`. The length is assigned to a `uint_fast32_t`. -/
def copStrdictNodeToKey (T : Target) (st : Store δ) (pNode : Ptr) : Strh where
  hash := (st.nodes pNode).key &&& 0xFFFFFFFF
  len := ((st.nodes pNode).key >>> 32) % 2 ^ T.fast32
  ptr := (st.nodes pNode).keyData

/-- `cop_strdict_node_to_data`. -/
def copStrdictNodeToData (st : Store δ) (pNode : Ptr) : δ := (st.nodes pNode).data

/-- A callback that keeps the nodes it is given, and does nothing to them. -/
def collect (st : Store δ) : CopStrdictEnumerateFn (List Ptr) δ where
  call ps p _ := (0, ps ++ [p])
  left _ p := some (st.nodes p)

/-- For each node, set up another one with its key and its data, and insert that into the dictionary at `u`. The
answers of `cop_strdict_insert` are collected. -/
def copyNodes (T : Target) (fuel : ℕ) (fresh : Ptr → Ptr) (u : ℕ) : List Ptr → World δ → Exec Fault (List ℤ × World δ)
  | [], w => return ([], w)
  | p :: ps, w => do
    let st := copStrdictNodeInit w.store (fresh p) (copStrdictNodeToKey T w.store p) (copStrdictNodeToData w.store p)
    let (r, st) ← copStrdictInsert fuel w.mem st (.root u) (fresh p)
    let (rs, w) ← copyNodes T fuel fresh u ps { w with store := st }
    return (r :: rs, w)

/-! ### What is read back -/

/-- **The key of a node is read back.** -/
theorem copStrdictNodeToKey_eq (T : Target) {st : Store δ} {p : Ptr} {s : Strh} (h : HasKey st p s) :
    copStrdictNodeToKey T st p = s := by
  have hlen := h.fits.len
  have hhash := h.fits.hash
  have hle := T.two_pow_le
  obtain ⟨len, hash, ptr⟩ := s
  have hmask : (0xFFFFFFFF : ℕ) = 2 ^ 32 - 1 := rfl
  simp only [copStrdictNodeToKey, h.key, h.keyData, getikey_eq h.fits, Nat.shiftRight_eq_div_pow, hmask,
    Nat.and_two_pow_sub_one_eq_mod, Strh.mk.injEq, and_true]
  dsimp only at hlen hhash
  have hdiv : (len * 2 ^ 32 + hash) / 2 ^ 32 = len := by omega
  rw [hdiv, Nat.mod_eq_of_lt (by omega)]
  omega

theorem play_collect (st : Store δ) (ms : List Move) (s : Scan (List Ptr)) :
    (play (collect st) ms s).1 = 0 ∧
      (play (collect st) ms s).2.context = s.context ++ (ms.filterMap Move.place?).map Prod.fst := by
  induction ms generalizing s with
  | nil => exact ⟨rfl, (List.append_nil _).symm⟩
  | cons m ms ih =>
    cases m with
    | read p => exact ih (s.read p)
    | call v =>
      obtain ⟨hr, hc⟩ := ih (s.call (collect st) v.1 v.2).2
      have hplay : play (collect st) (.call v :: ms) s = play (collect st) ms (s.call (collect st) v.1 v.2).2 := by
        rw [play]
        exact if_neg (not_not.2 rfl)
      rw [hplay]
      refine ⟨hr, hc.trans ?_⟩
      rw [List.filterMap_cons_some (rfl : Move.place? (.call v) = some v), List.map_cons]
      exact List.append_assoc s.context [v.1] _

/-- The nodes of a tree, leaves first. -/
def nodesOf (t : DigitTree chidNb Ptr) : List Ptr := (t.postorder 0).map Prod.fst

theorem mem_nodesOf {t : DigitTree chidNb Ptr} {p : Ptr} : p ∈ nodesOf t ↔ p ∈ t := by
  rw [nodesOf, List.mem_map]
  constructor
  · rintro ⟨v, hv, rfl⟩
    exact mem_of_mem_postorder hv
  · intro hp
    obtain ⟨e, he⟩ := exists_mem_postorder (d := 0) hp
    exact ⟨(p, e), he, rfl⟩

theorem nodup_nodesOf {t : DigitTree chidNb Ptr} (ho : t.Once) : (nodesOf t).Nodup :=
  List.pairwise_map.2 ((postorder_pairwise ho).imp fun h => h.1)

/-- **The nodes collected** are the nodes of the tree. -/
theorem collect_eq {st : Store δ} {q : Option Ptr} {t : DigitTree chidNb Ptr} (h : TreeAt st q t) {fuel : ℕ}
    (hf : t.height ≤ fuel) :
    ∃ s, copStrdictEnumerate st (collect st) fuel q [] = .ok (0, s) ∧ s.context = nodesOf t := by
  obtain ⟨hr, hc⟩ := play_collect st (script 0 t) ⟨[], []⟩
  rw [script_calls, List.nil_append] at hc
  refine ⟨_, ?_, hc⟩
  rw [copStrdictEnumerate_eq h hf]
  exact congrArg Except.ok (Prod.ext hr rfl)

/-! ### One copy -/

/-- `E'` is `E` with copies of the nodes `ps` of the dictionary at `v` bound in the one at `u`. -/
structure Copied (E E' : Dicts δ) (v u : ℕ) (fresh : Ptr → Ptr) (ps : List Ptr) : Prop where
  /-- The other dictionaries are what they were. -/
  others : ∀ x, x ≠ u → E'.bound x = E.bound x
  /-- The copies are bound, under the keys of the nodes. -/
  bound : ∀ k q, (E'.bound u).lookup k = some q ↔
    (E.bound u).lookup k = some q ∨ ∃ p ∈ ps, (E.dict v).keyOf p = some k ∧ q = fresh p
  /-- They have the data of the nodes. -/
  data : ∀ p ∈ ps, E'.data (fresh p) = E.data p
  /-- No other node is set up or changed. -/
  same : ∀ q, (∀ p ∈ ps, q ≠ fresh p) → E'.strh q = E.strh q ∧ E'.data q = E.data q
  /-- Memory is not written. -/
  mem : E'.mem = E.mem

theorem keyOf_next_init (E : Dicts δ) (u : ℕ) (q : Ptr) (s : Strh) (d : δ) :
    ((E.next (u, .init q s d)).dict u).keyOf q = some (s.toKey E.mem) := by
  rw [Dicts.dict_next_self]
  simp [Dict.next, Dict.keyOf, Dicts.dict]

theorem bound_next_init (E : Dicts δ) (u : ℕ) (q : Ptr) (s : Strh) (d : δ) :
    ((E.next (u, .init q s d)).dict u).bound = E.bound u := Dicts.bound_next_self ..

theorem copied_one {E : Dicts δ} {u v : ℕ} {p : Ptr} {s : Strh} (hp : E.strh p = some s)
    (habs : s.toKey E.mem ∉ E.bound u) (fresh : Ptr → Ptr) :
    Copied E ((E.next (u, .init (fresh p) s (E.data p))).next (u, .insert (fresh p))) v u fresh [p] := by
  have hbound := bound_next_init E u (fresh p) s (E.data p)
  have hnext : ((E.next (u, .init (fresh p) s (E.data p))).dict u).next (.insert (fresh p)) =
      ⟨(E.bound u).insert (s.toKey E.mem) (fresh p), Function.update E.strh (fresh p) (some s),
        Function.update E.data (fresh p) (E.data p), E.mem⟩ := by
    rw [Dict.next_insert (keyOf_next_init E u (fresh p) s (E.data p)) (hbound ▸ habs), Dicts.dict_next_self]
    rfl
  have hstrh : ((E.next (u, .init (fresh p) s (E.data p))).next (u, .insert (fresh p))).strh =
      Function.update E.strh (fresh p) (some s) := congrArg Dict.strh hnext
  have hdata : ((E.next (u, .init (fresh p) s (E.data p))).next (u, .insert (fresh p))).data =
      Function.update E.data (fresh p) (E.data p) := congrArg Dict.data hnext
  have hnone : (E.bound u).lookup (s.toKey E.mem) = none := Finmap.lookup_eq_none.2 habs
  have hkey : (E.dict v).keyOf p = some (s.toKey E.mem) := by
    rw [Dicts.keyOf_dict, hp]
    rfl
  refine ⟨fun x hx => ?_, fun k q => ?_, fun p' hp' => ?_, fun q hq => ?_, congrArg Dict.mem hnext⟩
  · rw [Dicts.bound_next_of_ne _ hx, Dicts.bound_next_of_ne _ hx]
  · simp only [Dicts.bound_next_self, hnext, List.mem_singleton, exists_eq_left, hkey, Option.some_inj]
    by_cases hk : k = s.toKey E.mem
    · subst hk
      rw [Finmap.lookup_insert, hnone, Option.some_inj]
      simp [eq_comm]
    · rw [Finmap.lookup_insert_of_ne _ hk]
      exact ⟨.inl, fun h => h.resolve_right fun h' => hk h'.1.symm⟩
  · rw [List.mem_singleton.1 hp', hdata, Function.update_self]
  · have hne : q ≠ fresh p := hq p (List.mem_singleton.2 rfl)
    rw [hstrh, hdata, Function.update_of_ne hne, Function.update_of_ne hne]
    exact ⟨rfl, rfl⟩

theorem Copied.cons {E E₁ E' : Dicts δ} {u v : ℕ} {fresh : Ptr → Ptr} {p : Ptr} {ps : List Ptr}
    (h₁ : Copied E E₁ v u fresh [p]) (h : Copied E₁ E' v u fresh ps) (hps : ∀ q ∈ ps, q ≠ fresh p)
    (hinj : ∀ q ∈ ps, fresh p ≠ fresh q) : Copied E E' v u fresh (p :: ps) := by
  have hsame : ∀ q, q ≠ fresh p → E₁.strh q = E.strh q ∧ E₁.data q = E.data q := fun q hq =>
    h₁.same q fun p' hp' => by rwa [List.mem_singleton.1 hp']
  have hkey : ∀ q ∈ ps, (E₁.dict v).keyOf q = (E.dict v).keyOf q := fun q hq => by
    rw [Dicts.keyOf_dict, Dicts.keyOf_dict, (hsame q (hps q hq)).1, h₁.mem]
  refine ⟨fun x hx => (h.others x hx).trans (h₁.others x hx), fun k q => ?_, fun q hq => ?_, fun q hq => ?_,
    h.mem.trans h₁.mem⟩
  · rw [h.bound, h₁.bound, or_assoc, List.exists_mem_cons_iff, List.exists_mem_cons_iff]
    refine or_congr_right (or_congr (or_iff_left (by simp)) ?_)
    refine exists_congr fun q' => and_congr_right fun hq' => ?_
    rw [hkey q' hq']
  · rcases List.mem_cons.1 hq with rfl | hq
    · rw [(h.same (fresh q) hinj).2]
      exact h₁.data q (List.mem_singleton.2 rfl)
    · rw [h.data q hq, (hsame q (hps q hq)).2]
  · obtain ⟨hstrh, hdata⟩ := h.same q fun p' hp' => hq p' (List.mem_cons_of_mem _ hp')
    obtain ⟨hstrh₁, hdata₁⟩ := hsame q (hq p List.mem_cons_self)
    exact ⟨hstrh.trans hstrh₁, hdata.trans hdata₁⟩

/-! ### All copies -/

/-- What the caller sees to: the nodes `ps` are in the dictionary at `v`, none of them twice; they have nodes of
their own to be copied to, which are in no dictionary; and the dictionary at `u` has none of their keys. -/
structure CanCopy (E : Dicts δ) (v u : ℕ) (fresh : Ptr → Ptr) (ps : List Ptr) : Prop where
  /-- The nodes are in the dictionary. -/
  mem : ∀ p ∈ ps, ∃ k, (E.bound v).lookup k = some p
  /-- They are different nodes. -/
  nodup : ps.Nodup
  /-- They have nodes of their own to be copied to. -/
  inj : ∀ p ∈ ps, ∀ q ∈ ps, fresh p = fresh q → p = q
  /-- Those are in no dictionary. -/
  free : ∀ p ∈ ps, ∀ x k, (E.bound x).lookup k ≠ some (fresh p)
  /-- The keys are not there yet. -/
  absent : ∀ p ∈ ps, ∀ k, (E.dict v).keyOf p = some k → k ∉ E.bound u

/-- After one copy, the others can still be made. -/
theorem CanCopy.tail {n : ℕ} {E E₁ : Dicts δ} {w : World δ} {t : ℕ → DigitTree chidNb Ptr} (h : HoldsAll n E w t)
    {v u : ℕ} (hvu : v ≠ u) {fresh : Ptr → Ptr} {p : Ptr} {ps : List Ptr} (hcan : CanCopy E v u fresh (p :: ps))
    (hone : Copied E E₁ v u fresh [p]) : CanCopy E₁ v u fresh ps := by
  have hp : p ∈ p :: ps := List.mem_cons_self
  have htail : ∀ {q}, q ∈ ps → q ∈ p :: ps := List.mem_cons_of_mem p
  have hne : ∀ q ∈ ps, q ≠ p := fun q hq heq => (List.nodup_cons.1 hcan.nodup).1 (heq ▸ hq)
  have hbound : ∀ k q, (E₁.bound u).lookup k = some q →
      (E.bound u).lookup k = some q ∨ (E.dict v).keyOf p = some k ∧ q = fresh p := fun k q hq => by
    simpa only [List.mem_singleton, exists_eq_left] using (hone.bound k q).1 hq
  refine ⟨fun q hq => ?_, (List.nodup_cons.1 hcan.nodup).2, fun q hq r hr => hcan.inj q (htail hq) r (htail hr),
    fun q hq x k hk => ?_, fun q hq k hk hmem => ?_⟩
  · rw [hone.others v hvu]
    exact hcan.mem q (htail hq)
  · by_cases hx : x = u
    · subst hx
      rcases hbound k _ hk with hold | ⟨-, heq⟩
      · exact hcan.free q (htail hq) x k hold
      · exact hne q hq (hcan.inj q (htail hq) p hp heq)
    · rw [hone.others x hx] at hk
      exact hcan.free q (htail hq) x k hk
  · obtain ⟨kq, hkq⟩ := hcan.mem q (htail hq)
    have hfresh : q ≠ fresh p := fun heq => hcan.free p hp v kq (heq ▸ hkq)
    have hkey : (E.dict v).keyOf q = some k := by
      rw [Dicts.keyOf_dict, hone.mem, (hone.same q fun p' hp' => by rwa [List.mem_singleton.1 hp']).1] at hk
      exact hk
    obtain ⟨r, hr⟩ := Finmap.mem_iff.1 hmem
    rcases hbound k r hr with hold | ⟨hpk, -⟩
    · exact hcan.absent q (htail hq) k hkey (Finmap.mem_of_lookup_eq_some hold)
    · -- two nodes of one dictionary have different keys
      have hqb := (h.bound v k q).2 ⟨h.mem_iff.2 (hcan.mem q (htail hq)), hkey⟩
      have hpb := (h.bound v k p).2 ⟨h.mem_iff.2 (hcan.mem p hp), hpk⟩
      exact hne q hq (Option.some.inj (hqb.symm.trans hpb))

/-- **All copies.** Every insertion succeeds, and the copies are bound. -/
theorem copyNodes_ok (T : Target) {n fuel : ℕ} {E : Dicts δ} {w : World δ} {t : ℕ → DigitTree chidNb Ptr}
    (h : HoldsAll n E w t) {v u : ℕ} (hvu : v ≠ u) {fresh : Ptr → Ptr} {ps : List Ptr}
    (hcan : CanCopy E v u fresh ps) (hn : n + 2 * ps.length ≤ fuel) :
    ∃ w' E' t', copyNodes T fuel fresh u ps w = .ok (List.replicate ps.length 0, w') ∧
      HoldsAll (n + 2 * ps.length) E' w' t' ∧ Copied E E' v u fresh ps := by
  induction ps generalizing n E w t with
  | nil =>
    exact ⟨w, E, t, rfl, h, fun _ _ => rfl, fun k q => by simp, fun p hp => by simp at hp, fun _ _ => ⟨rfl, rfl⟩, rfl⟩
  | cons p ps ih =>
    rw [List.length_cons] at hn
    have hp : p ∈ p :: ps := List.mem_cons_self
    have hpt := h.mem_iff.2 (hcan.mem p hp)
    obtain ⟨s, hs⟩ := Option.ne_none_iff_exists'.1 (h.known v p hpt)
    have hkey := h.hasKey p s hs
    have hkeyOf : (E.dict v).keyOf p = some (s.toKey E.mem) := by
      rw [Dicts.keyOf_dict, hs]
      rfl
    have habs := hcan.absent p hp _ hkeyOf
    -- the copy is set up
    have hlegal : E.Legal (u, .init (fresh p) s (E.data p)) :=
      ⟨⟨hcan.free p hp u, hkey.fits⟩, fun ⟨x, _, k, hk⟩ => hcan.free p hp x k hk⟩
    obtain ⟨r₁, w₁, hstep₁, -, t₁, h₁⟩ := h.step (show n < fuel by omega) hlegal
    cases hstep₁
    -- and inserted
    have hlegal₁ : (E.next (u, .init (fresh p) s (E.data p))).Legal (u, .insert (fresh p)) := by
      refine ⟨by simp [Dicts.next, Dicts.dict, Dict.next, Dict.Legal], ?_⟩
      rintro ⟨x, hx, k, hk⟩
      rw [Dicts.bound_next_of_ne _ hx] at hk
      exact hcan.free p hp x k hk
    obtain ⟨r₂, w₂, hstep₂, hallows, t₂, h₂⟩ := h₁.step (show n + 1 < fuel by omega) hlegal₁
    obtain ⟨⟨r, st⟩, hins, hstep₂⟩ := bind_ok hstep₂
    cases hstep₂
    obtain rfl : r = 0 := by
      obtain ⟨k, hk, hr⟩ := hallows
      obtain rfl : s.toKey E.mem = k := Option.some.inj ((keyOf_next_init ..).symm.trans hk)
      exact hr.2 (bound_next_init E u (fresh p) s (E.data p) ▸ habs)
    have hone := copied_one (v := v) hs habs fresh
    have htail : ∀ {q}, q ∈ ps → q ∈ p :: ps := List.mem_cons_of_mem p
    obtain ⟨w', E', t', hrun, h', hcopied⟩ := ih h₂ (hcan.tail h hvu hone) (by omega)
    refine ⟨w', E', t', ?_, ?_, hone.cons hcopied (fun q hq heq => ?_) fun q hq heq => ?_⟩
    · rw [copyNodes, copStrdictNodeToKey_eq T hkey, copStrdictNodeToData, h.data p, bind_of_ok hins]
      change (copyNodes T fuel fresh u ps _ >>= _) = _
      rw [bind_of_ok hrun]
      rfl
    · rw [List.length_cons, show n + 2 * (ps.length + 1) = n + 1 + 1 + 2 * ps.length by omega]
      exact h'
    · -- a node of the dictionary at `v` is no copy
      obtain ⟨k, hk⟩ := hcan.mem q (htail hq)
      exact hcan.free p hp v k (heq ▸ hk)
    · obtain rfl := hcan.inj p hp q (htail hq) heq
      exact (List.nodup_cons.1 hcan.nodup).1 hq

/-! ### The second dictionary -/

/-- The dictionary at `u` of `E'`, in the heap `w'`, is a copy of the one at `v` of `E`. -/
structure Rebuilt (E E' : Dicts δ) (v u : ℕ) (fresh : Ptr → Ptr) : Prop where
  /-- It binds the same keys, to the copies. -/
  bound : ∀ k, (E'.bound u).lookup k = ((E.bound v).lookup k).map fresh
  /-- The copies have the data of the nodes, which is what it was. -/
  data : ∀ k p, (E.bound v).lookup k = some p → E'.data (fresh p) = E.data p ∧ E'.data p = E.data p
  /-- The other dictionaries are what they were. -/
  others : ∀ x, x ≠ u → E'.bound x = E.bound x
  /-- Memory is not written. -/
  mem : E'.mem = E.mem

/-- Copies of all nodes of a dictionary, in an empty one. -/
theorem rebuilt_of_copied {n : ℕ} {E E' : Dicts δ} {w : World δ} {t : ℕ → DigitTree chidNb Ptr}
    (h : HoldsAll n E w t) {v u : ℕ} (hempty : E.bound u = ∅) {fresh : Ptr → Ptr} {ps : List Ptr}
    (hps : ∀ p, p ∈ ps ↔ p ∈ t v) (hfree : ∀ p ∈ t v, ∀ x, fresh p ∉ t x) (hc : Copied E E' v u fresh ps) :
    Rebuilt E E' v u fresh := by
  refine ⟨fun k => Option.ext fun q => ?_, fun k p hp => ?_, hc.others, hc.mem⟩
  · rw [hc.bound, hempty, Finmap.lookup_empty, Option.map_eq_some_iff]
    constructor
    · rintro (hnone | ⟨p, hp, hk, rfl⟩)
      · cases hnone
      · exact ⟨p, (h.bound v k p).2 ⟨(hps p).1 hp, hk⟩, rfl⟩
    · rintro ⟨p, hp, rfl⟩
      obtain ⟨hpt, hk⟩ := (h.bound v k p).1 hp
      exact .inr ⟨p, (hps p).2 hpt, hk, rfl⟩
  · have hpt := ((h.bound v k p).1 hp).1
    refine ⟨hc.data p ((hps p).2 hpt), (hc.same p fun q hq heq => ?_).2⟩
    exact hfree q ((hps q).1 hq) v (heq ▸ hpt)

/-- **A dictionary is rebuilt from its nodes.** In every heap that legal calls on any number of dictionaries lead to:
enumerating one of them calls the callback with each node once and returns zero; copying the nodes that were collected,
by their keys and their data, into an empty dictionary inserts every copy, as long as the nodes they are copied to are
different ones and in no dictionary; and then the two dictionaries have the same keys and data, and every
`cop_strdict_get` answers the same on both. -/
theorem strdict_rebuilt (T : Target) (w : World δ) (hroots : ∀ v, w.store.vars v = none) (calls : List (ℕ × Call δ))
    (hlegal : Dicts.contract.LegalRun (Dicts.empty (fun p => (w.store.nodes p).data) w.mem) calls)
    (E : Dicts δ) (hE : E = Dicts.contract.nextRun (Dicts.empty (fun p => (w.store.nodes p).data) w.mem) calls)
    (v u : ℕ) (hvu : v ≠ u) (hempty : E.bound u = ∅) (fresh : Ptr → Ptr)
    (hinj : ∀ k k' p q, (E.bound v).lookup k = some p → (E.bound v).lookup k' = some q → fresh p = fresh q → p = q)
    (hfree : ∀ k p, (E.bound v).lookup k = some p → ∀ x k', (E.bound x).lookup k' ≠ some (fresh p))
    (fuel : ℕ) (hfuel : calls.length ≤ fuel) :
    ∃ rets w₁ s, run (fun w a => World.stepAt fuel a.1 w a.2) w calls = .ok (rets, w₁) ∧
      copStrdictEnumerate w₁.store (collect w₁.store) fuel (w₁.store.vars v) [] = .ok (0, s) ∧
      s.context.Nodup ∧ (∀ p, p ∈ s.context ↔ ∃ k, (E.bound v).lookup k = some p) ∧
      ∀ fuel', calls.length + 2 * s.context.length < fuel' → ∃ w₂ E',
        copyNodes T fuel' fresh u s.context w₁ = .ok (List.replicate s.context.length 0, w₂) ∧
        Rebuilt E E' v u fresh ∧ (∃ n t, HoldsAll n E' w₂ t) ∧
        ∀ (key : Strh) (store : Bool), key.Fits → ∃ r r' x,
          w₂.stepAt fuel' v (.get key store) = .ok (.value r x, w₂) ∧
          w₂.stepAt fuel' u (.get key store) = .ok (.value r' x, w₂) ∧ (r = 0 ↔ r' = 0) := by
  subst hE
  have hlen : 0 + calls.length ≤ fuel := by omega
  obtain ⟨rets, w₁, hrun, -, t, ht⟩ := holdsAll_run ⟨_, holdsAll_empty hroots⟩ hlegal hlen
  rw [Nat.zero_add] at ht
  obtain ⟨s, henum, hctx⟩ := collect_eq (ht.tree v) ((ht.height v).trans hfuel)
  have hps : ∀ p, p ∈ s.context ↔ p ∈ t v := fun p => by rw [hctx, mem_nodesOf]
  have hnodup : s.context.Nodup := hctx ▸ nodup_nodesOf (ht.tree v).once
  refine ⟨rets, w₁, s, hrun, henum, hnodup, fun p => (hps p).trans ht.mem_iff, fun fuel' hf => ?_⟩
  have hcan : CanCopy (Dicts.contract.nextRun (Dicts.empty (fun p => (w.store.nodes p).data) w.mem) calls) v u fresh
      s.context := by
    refine ⟨fun p hp => ht.mem_iff.1 ((hps p).1 hp), hnodup, fun p hp q hq heq => ?_, fun p hp => ?_,
      fun p _ k _ hk => ?_⟩
    · obtain ⟨k, hk⟩ := ht.mem_iff.1 ((hps p).1 hp)
      obtain ⟨k', hk'⟩ := ht.mem_iff.1 ((hps q).1 hq)
      exact hinj k k' p q hk hk' heq
    · obtain ⟨k, hk⟩ := ht.mem_iff.1 ((hps p).1 hp)
      exact hfree k p hk
    · rw [hempty] at hk
      exact Finmap.notMem_empty hk
  obtain ⟨w₂, E', t', hcopy, h', hcopied⟩ := copyNodes_ok T ht hvu hcan hf.le
  have hrebuilt := rebuilt_of_copied ht hempty hps (fun p hp x hx => by
    obtain ⟨k, hk⟩ := ht.mem_iff.1 hp
    obtain ⟨k', hk'⟩ := ht.mem_iff.1 hx
    exact hfree k p hk x k' hk') hcopied
  refine ⟨w₂, E', hcopy, hrebuilt, ⟨_, t', h'⟩, fun key store hkey => ?_⟩
  obtain ⟨r, x, hget, hr⟩ := h'.get hf v hkey store
  obtain ⟨r', x', hget', hr'⟩ := h'.get hf u hkey store
  rw [hrebuilt.bound] at hr'
  rw [hrebuilt.others v hvu] at hr
  cases hk : (Dicts.contract.nextRun (Dicts.empty (fun p => (w.store.nodes p).data) w.mem) calls).bound v |>.lookup
      (key.toKey E'.mem) with
  | none =>
    rw [hk] at hr hr'
    obtain ⟨hne, rfl⟩ := hr
    obtain ⟨hne', rfl⟩ := hr'
    exact ⟨r, r', none, hget, hget', iff_of_false hne hne'⟩
  | some p =>
    rw [hk] at hr hr'
    obtain ⟨hp', hp⟩ := hrebuilt.data _ p hk
    obtain ⟨rfl, rfl⟩ := hr
    obtain ⟨rfl, rfl⟩ := hr'
    rw [hp'] at hget'
    rw [hp] at hget
    exact ⟨0, 0, _, hget, hget', Iff.rfl⟩

theorem threeCalls_lookup (k : Key) (p : Ptr) :
    (Dict.contract.nextRun (Dict.empty (fun _ => 0) fun _ => 0) threeCalls).bound.lookup k = some p ↔
      (k, p) ∈ [((⟨1, 9, [0]⟩ : Key), 3), (⟨1, 1, [0]⟩, 2), (⟨1, 5, [0]⟩, 1)] := by
  have hnot : ∀ k : Key, k ∉ (∅ : Finmap fun _ : Key => Ptr) := fun k => Finmap.notMem_empty
  have hkeys : Strh.toKey (fun _ => 0) ⟨1, 5, 0⟩ = ⟨1, 5, [0]⟩ ∧ Strh.toKey (fun _ => 0) ⟨1, 1, 0⟩ = ⟨1, 1, [0]⟩ ∧
      Strh.toKey (fun _ => 0) ⟨1, 9, 0⟩ = ⟨1, 9, [0]⟩ := ⟨rfl, rfl, rfl⟩
  have hbound : (Dict.contract.nextRun (Dict.empty (fun _ => 0) fun _ => 0) threeCalls).bound =
      (((∅ : Finmap fun _ : Key => Ptr).insert ⟨1, 5, [0]⟩ 1).insert ⟨1, 1, [0]⟩ 2).insert ⟨1, 9, [0]⟩ 3 := by
    simp [threeCalls, Contract.nextRun, Dict.contract, Dict.next, Dict.empty, Dict.keyOf, hnot, hkeys]
  rw [hbound]
  by_cases hk9 : k = ⟨1, 9, [0]⟩
  · subst hk9
    simp [eq_comm]
  · rw [Finmap.lookup_insert_of_ne _ hk9]
    by_cases hk1 : k = ⟨1, 1, [0]⟩
    · subst hk1
      simp [eq_comm]
    · rw [Finmap.lookup_insert_of_ne _ hk1]
      by_cases hk5 : k = ⟨1, 5, [0]⟩
      · subst hk5
        simp [eq_comm]
      · simp [Finmap.lookup_insert_of_ne, hk9, hk1, hk5]

/-- The same calls on one of several dictionaries. -/
def threeMaps : Dicts ℕ := Dicts.contract.nextRun (Dicts.empty (fun _ => 0) fun _ => 0) (threeCalls.map (Prod.mk 0))

theorem threeMaps_lookup (k : Key) (p : Ptr) : (threeMaps.bound 0).lookup k = some p ↔
    (k, p) ∈ [((⟨1, 9, [0]⟩ : Key), 3), (⟨1, 1, [0]⟩, 2), (⟨1, 5, [0]⟩, 1)] := by
  have hself : threeMaps.bound 0 = (Dict.contract.nextRun (Dict.empty (fun _ => 0) fun _ => 0) threeCalls).bound :=
    congrArg Dict.bound (Dicts.dict_nextRun_map (Dicts.empty (fun _ => 0) fun _ => 0) 0 threeCalls)
  rw [hself, threeCalls_lookup]

theorem threeMaps_nodes (p : Ptr) : (∃ k, (threeMaps.bound 0).lookup k = some p) ↔ p ∈ [3, 2, 1] := by
  simp only [threeMaps_lookup]
  constructor
  · rintro ⟨k, hk⟩
    exact List.mem_map_of_mem (f := Prod.snd) hk
  · intro hp
    simp only [List.mem_cons, List.not_mem_nil, or_false] at hp
    rcases hp with rfl | rfl | rfl
    · exact ⟨⟨1, 9, [0]⟩, by simp⟩
    · exact ⟨⟨1, 1, [0]⟩, by simp⟩
    · exact ⟨⟨1, 5, [0]⟩, by simp⟩

theorem threeMaps_empty {u : ℕ} (hu : u ≠ 0) : threeMaps.bound u = ∅ := Dicts.bound_nextRun_map _ hu threeCalls

theorem strdict_rebuilt_three : ∃ rets w₁ s w₂ E',
    run (fun w a => World.stepAt 6 a.1 w a.2) emptyWorld (threeCalls.map (Prod.mk 0)) = .ok (rets, w₁) ∧
    copStrdictEnumerate w₁.store (collect w₁.store) 6 (w₁.store.vars 0) [] = .ok (0, s) ∧ s.context.Perm [3, 2, 1] ∧
    copyNodes lp64 13 (· + 10) 1 s.context w₁ = .ok ([0, 0, 0], w₂) ∧ Rebuilt threeMaps E' 0 1 (· + 10) ∧
    (E'.bound 1).lookup ⟨1, 5, [0]⟩ = some 11 ∧
    ∃ r r' x, w₂.stepAt 13 0 (.get ⟨1, 5, 0⟩ true) = .ok (.value r x, w₂) ∧
      w₂.stepAt 13 1 (.get ⟨1, 5, 0⟩ true) = .ok (.value r' x, w₂) ∧ (r = 0 ↔ r' = 0) := by
  have hfree : ∀ k p, (threeMaps.bound 0).lookup k = some p → ∀ x k', (threeMaps.bound x).lookup k' ≠ some (p + 10) := by
    intro k p _ x k' hk'
    by_cases hx : x = 0
    · subst hx
      have hmem := (threeMaps_nodes _).1 ⟨k', hk'⟩
      simp at hmem
    · rw [threeMaps_empty hx] at hk'
      simp at hk'
  obtain ⟨rets, w₁, s, hrun, henum, hnodup, hmem, hcopy⟩ := strdict_rebuilt lp64 emptyWorld (fun _ => rfl) _
    (Dicts.legalRun_map (fun _ _ => rfl) threeCalls_legal) threeMaps rfl 0 1 (by decide) (threeMaps_empty (by decide))
    (· + 10) (fun _ _ p q _ _ h => Nat.add_right_cancel h) hfree 6 (by decide)
  have hperm : s.context.Perm [3, 2, 1] :=
    (List.perm_ext_iff_of_nodup hnodup (by decide)).2 fun p => (hmem p).trans (threeMaps_nodes p)
  have hlength : s.context.length = 3 := hperm.length_eq
  rw [hlength] at hcopy
  obtain ⟨w₂, E', hcopied, hrebuilt, -, hget⟩ := hcopy 13 (by decide)
  refine ⟨rets, w₁, s, w₂, E', hrun, henum, hperm, hcopied, hrebuilt, ?_, hget ⟨1, 5, 0⟩ true ⟨by decide, by decide⟩⟩
  rw [hrebuilt.bound, (threeMaps_lookup ⟨1, 5, [0]⟩ 1).2 (by simp)]
  rfl

end Cop.Strdict
