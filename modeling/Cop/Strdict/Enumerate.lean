import Cop.Theory.Postorder
import Cop.Strdict.Refinement

/-!
# Enumerating the dictionary

`cop_strdict_enumerate` gives the nodes of a dictionary to a callback, children before
their parents, until the callback answers anything but zero. The header says that the
callback may free the node it is given.

## The model

* A callback keeps what it likes in a context `σ`, so that its answers may depend on all
  the calls made so far. It may also do what it likes with the nodes it was given:
  `left` says what is left of them, which is nothing of a node it has freed. It leaves the
  child pointers of the other nodes alone.
* A `Scan` is the context and all that has happened: each `Event` is the read of a child
  pointer, or a call. `readKid` reads what the callback has left of a node it was given, and
  it is a fault if the node was freed.
* The recursion is on fuel, one unit for each level. `depth` is not bounded, as an `int`
  is: it would take more than `2 ^ 31 - 32` nodes with one 64-bit key to exceed an `int` of
  32 bits (`Cop.Strdict.Depth`).

A `script` is what the enumeration of a tree does when it is not stopped, and `play` does
that until the callback answers anything but zero.

## What is proved

* `copStrdictEnumerateRec_eq` — the program plays the script of the tree, whatever the callback
  has done to the nodes it was given.
* `script_calls` — the calls of a script are the nodes of the tree, leaves first.
* `script_spares` — a script reads nothing of a node after the call it is given to.
* `play_played` — what is left of a script that is stopped.
* `copStrdictEnumerate_leavesFirst` — the promise of the header, for every dictionary that calls
  can lead to.
-/

namespace Cop.Strdict

open Theory DigitTree

/-! ### The program -/

/-- `cop_strdict_enumerate_fn`, and what it keeps. -/
structure CopStrdictEnumerateFn (σ δ : Type) where
  /-- `p_fn(p_context, p_node, depth)`: the answer, and what is kept then. -/
  call : σ → Ptr → ℕ → ℤ × σ
  /-- What is left of a node that it was given. -/
  left : σ → Ptr → Option (Node δ)

/-- A call of the callback. -/
structure Visit where
  /-- The node that is passed. -/
  node : Ptr
  /-- The depth that is passed. -/
  depth : ℕ
  /-- What the callback answers. -/
  answer : ℤ

/-- What happens in an enumeration. -/
inductive Event where
  /-- A child pointer of a node is read. -/
  | read (pNode : Ptr)
  /-- The callback is called. -/
  | call (v : Visit)

/-- The call an event is. -/
def Event.visit? : Event → Option Visit
  | .read _ => none
  | .call v => some v

/-- The calls among the events. -/
def visits (es : List Event) : List Visit := es.filterMap Event.visit?

/-- The context of the callback, and what has happened. -/
structure Scan (σ : Type) where
  /-- What the callback keeps. -/
  context : σ
  /-- The events so far. -/
  events : List Event

variable {σ δ : Type}

namespace Scan

/-- The nodes that were given to the callback. -/
def passed (s : Scan σ) : List Ptr := (visits s.events).map Visit.node

/-- A child pointer of `p` is read. -/
def read (s : Scan σ) (p : Ptr) : Scan σ := { s with events := s.events ++ [.read p] }

/-- The callback is called. -/
def call (fn : CopStrdictEnumerateFn σ δ) (s : Scan σ) (p : Ptr) (depth : ℕ) : ℤ × Scan σ :=
  let (r, context) := fn.call s.context p depth
  (r, ⟨context, s.events ++ [.call ⟨p, depth, r⟩]⟩)

end Scan

section Program

variable (st : Store δ) (fn : CopStrdictEnumerateFn σ δ)

/-- What is at `p`. -/
def nodeAt (s : Scan σ) (p : Ptr) : Option (Node δ) :=
  if p ∈ s.passed then fn.left s.context p else some (st.nodes p)

/-- `p_node->kids[i]`. -/
def readKid (s : Scan σ) (pNode : Ptr) (i : Fin chidNb) : Exec Fault (Option Ptr × Scan σ) :=
  match nodeAt st fn s pNode with
  | none => .error (.fault .useAfterFree)
  | some n => .ok (n.kids i, s.read pNode)

/-- The `for` loop of `cop_strdict_enumerate_rec`, over the children that are left; `enumerateRec` is the
recursive call. It leaves early with the answer that ends the enumeration. -/
def enumerateKids (enumerateRec : Ptr → Scan σ → Exec Fault (ℤ × Scan σ)) (pNode : Ptr) :
    List (Fin chidNb) → Scan σ → Exec Fault (Turn (Scan σ) (ℤ × Scan σ))
  | [], s => .ok (.more s)
  | i :: is, s => do
    let (kid, s) ← readKid st fn s pNode i
    match kid with
    | none => enumerateKids enumerateRec pNode is s
    | some _ =>
      let (kid, s) ← readKid st fn s pNode i
      match kid with
      | none => .error (.fault .nullDeref)
      | some pKid =>
        let (r, s) ← enumerateRec pKid s
        if r ≠ 0 then return .done (r, s) else enumerateKids enumerateRec pNode is s

/-- `cop_strdict_enumerate_rec`. -/
def copStrdictEnumerateRec : ℕ → ℕ → Ptr → Scan σ → Exec Fault (ℤ × Scan σ)
  | 0, _, _, _ => .error .fuel
  | fuel + 1, depth, pNode, s => do
    match ← enumerateKids st fn (copStrdictEnumerateRec fuel (depth + 1)) pNode (List.finRange chidNb) s with
    | .done (r, s) => return (r, s)
    | .more s => return s.call fn pNode depth

/-- `cop_strdict_enumerate`. -/
def copStrdictEnumerate (fuel : ℕ) (pRoot : Option Ptr) (pContext : σ) : Exec Fault (ℤ × Scan σ) :=
  match pRoot with
  | none => return (0, ⟨pContext, []⟩)
  | some pRoot => copStrdictEnumerateRec st fn fuel 0 pRoot ⟨pContext, []⟩

end Program

/-! ### Scripts -/

/-- What an enumeration does, without the answers. -/
inductive Move where
  /-- Read a child pointer of `p`. -/
  | read (p : Ptr)
  /-- Pass a node, with its depth. -/
  | call (v : Ptr × ℕ)

namespace Move

/-- The node a move is about. -/
def node : Move → Ptr
  | .read p => p
  | .call v => v.1

/-- What is passed. -/
def place? : Move → Option (Ptr × ℕ)
  | .read _ => none
  | .call v => some v

/-- The second move does not read what the first has passed. -/
def Spares (m m' : Move) : Prop := ∀ v, m = .call v → m' ≠ .read v.1

end Move

/-- What a call passes. -/
def Visit.place (v : Visit) : Ptr × ℕ := (v.node, v.depth)

/-- The move an event is. -/
def Event.move : Event → Move
  | .read p => .read p
  | .call v => .call v.place

/-- The enumeration of a tree that is not stopped: a child pointer that is not null is read again, to go on with
the child. -/
def script : ℕ → DigitTree chidNb Ptr → List Move
  | _, .nil => []
  | d, .node p s =>
    (List.finRange chidNb).flatMap
      (fun i => .read p :: ((s i).root?.toList.map fun _ => .read p) ++ script (d + 1) (s i)) ++ [.call (p, d)]

/-- Make the moves until the callback answers anything but zero. -/
def play (fn : CopStrdictEnumerateFn σ δ) : List Move → Scan σ → ℤ × Scan σ
  | [], s => (0, s)
  | .read p :: ms, s => play fn ms (s.read p)
  | .call v :: ms, s =>
    let a := s.call fn v.1 v.2
    if a.1 ≠ 0 then a else play fn ms a.2

/-- What is done for child `i` of `p`, the tree below which is `u`. -/
def kidScript (d : ℕ) (p : Ptr) (u : DigitTree chidNb Ptr) : List Move :=
  .read p :: (u.root?.toList.map fun _ => .read p) ++ script d u

theorem script_node (d : ℕ) (p : Ptr) (s : Fin chidNb → DigitTree chidNb Ptr) :
    script d (.node p s) =
      (List.finRange chidNb).flatMap (fun i => kidScript (d + 1) p (s i)) ++ [.call (p, d)] := rfl

/-- **The calls of a script** are the nodes of the tree, leaves first. -/
theorem script_calls (d : ℕ) (t : DigitTree chidNb Ptr) : (script d t).filterMap Move.place? = t.postorder d := by
  induction t generalizing d with
  | nil => rfl
  | node p s ih =>
    have hreads : ∀ i, ((s i).root?.toList.map fun _ => Move.read p).filterMap Move.place? = [] := fun i => by
      rw [List.filterMap_map]
      exact List.filterMap_eq_nil_iff.2 fun _ _ => rfl
    have hkid : ∀ i, (kidScript (d + 1) p (s i)).filterMap Move.place? = (s i).postorder (d + 1) := fun i => by
      rw [kidScript, List.cons_append, List.filterMap_cons_none rfl, List.filterMap_append, hreads, List.nil_append,
        ih i (d + 1)]
    rw [script_node, List.filterMap_append, List.filterMap_flatMap]
    simp only [hkid]
    rfl

theorem node_of_mem_kidScript {d : ℕ} {p : Ptr} {u : DigitTree chidNb Ptr} {m : Move} (h : m ∈ kidScript d p u) :
    m = .read p ∨ m ∈ script d u := by
  simp only [kidScript, List.cons_append, List.mem_cons, List.mem_append, List.mem_map] at h
  rcases h with rfl | ⟨-, -, rfl⟩ | h
  · exact .inl rfl
  · exact .inl rfl
  · exact .inr h

theorem node_of_mem_script {d : ℕ} {t : DigitTree chidNb Ptr} {m : Move} (h : m ∈ script d t) : m.node ∈ t := by
  induction t generalizing d with
  | nil => simp [script] at h
  | node p s ih =>
    rw [script_node, List.mem_append, List.mem_flatMap, List.mem_singleton] at h
    rcases h with ⟨i, -, hi⟩ | rfl
    · rcases node_of_mem_kidScript hi with rfl | hi
      · exact mem_node.2 (.inl rfl)
      · exact mem_node.2 (.inr ⟨i, ih i hi⟩)
    · exact mem_node.2 (.inl rfl)

/-- **No read after the call**: a script reads nothing of a node that it has passed. -/
theorem script_spares {d : ℕ} {t : DigitTree chidNb Ptr} (ho : t.Once) : (script d t).Pairwise Move.Spares := by
  induction t generalizing d with
  | nil => exact List.Pairwise.nil
  | node p s ih =>
    -- reading spares whatever is read
    have hread : ∀ m, Move.Spares (.read p) m := fun m v h => nomatch h
    rw [script_node, List.pairwise_append, List.pairwise_flatMap]
    refine ⟨⟨fun i _ => ?_, ?_⟩, List.pairwise_singleton .., ?_⟩
    · rw [kidScript, List.cons_append, List.pairwise_cons, List.pairwise_append, List.pairwise_map]
      refine ⟨fun m _ => hread m, List.pairwise_of_forall fun _ _ => hread _, ih i (ho.2.2 i), fun m hm m' _ => ?_⟩
      obtain ⟨-, -, rfl⟩ := List.mem_map.1 hm
      exact hread m'
    · refine (List.nodup_finRange chidNb).imp fun {i j} hij m hm m' hm' v hv hv' => ?_
      subst hv hv'
      have hi : v.1 ∈ s i := by
        rcases node_of_mem_kidScript hm with h | h
        · cases h
        · exact node_of_mem_script h
      rcases node_of_mem_kidScript hm' with h | h
      · cases h
        exact ho.1 i hi
      · exact ho.2.1 i j hij v.1 hi (node_of_mem_script h)
    · intro m _ m' hm' v _ hv'
      rw [List.mem_singleton.1 hm'] at hv'
      cases hv'

/-! ### Playing a script -/

section Play

variable {st : Store δ} {fn : CopStrdictEnumerateFn σ δ}

theorem play_append (ms ms' : List Move) (s : Scan σ) :
    play fn (ms ++ ms') s = if (play fn ms s).1 ≠ 0 then play fn ms s else play fn ms' (play fn ms s).2 := by
  induction ms generalizing s with
  | nil => rfl
  | cons m ms ih =>
    cases m with
    | read p => exact ih _
    | call v =>
      simp only [List.cons_append, play]
      split
      · rfl
      · exact ih _

theorem play_call (v : Ptr × ℕ) (s : Scan σ) : play fn [.call v] s = s.call fn v.1 v.2 := by
  by_cases hr : (s.call fn v.1 v.2).1 = 0
  · simp only [play, hr, ne_eq, not_true, if_false]
    exact Prod.ext hr.symm rfl
  · simp only [play, ne_eq, hr, not_false_iff, if_true]

/-- The callback answers as it does, call by call. -/
def Told (fn : CopStrdictEnumerateFn σ δ) : σ → List Visit → Prop
  | _, [] => True
  | c, v :: vs => (fn.call c v.node v.depth).1 = v.answer ∧ Told fn (fn.call c v.node v.depth).2 vs

/-- The events `es` are the moves `ms` up to the first answer that is not zero, which is `r`. -/
structure Played (ms : List Move) (es : List Event) (r : ℤ) : Prop where
  /-- The moves that are made are the first ones. -/
  moves : es.map Event.move <+: ms
  /-- All are made if no answer stops them. -/
  all : (∀ v ∈ visits es, v.answer = 0) → es.map Event.move = ms ∧ r = 0
  /-- An answer that is not zero is the last. -/
  stop : ∀ pre v post, visits es = pre ++ v :: post → v.answer ≠ 0 → post = [] ∧ r = v.answer

namespace Played

variable {ms : List Move} {es : List Event} {r : ℤ} {v : Visit}

theorem nil : Played [] [] 0 := ⟨List.nil_prefix, fun _ => ⟨rfl, rfl⟩, by simp [visits]⟩

theorem read (h : Played ms es r) (p : Ptr) : Played (.read p :: ms) (.read p :: es) r := by
  refine ⟨List.cons_prefix_cons.2 ⟨rfl, h.moves⟩, fun hall => ?_, h.stop⟩
  obtain ⟨hm, hr⟩ := h.all hall
  exact ⟨by rw [List.map_cons, hm]; rfl, hr⟩

theorem call (h : Played ms es r) (hv : v.answer = 0) : Played (.call v.place :: ms) (.call v :: es) r := by
  refine ⟨List.cons_prefix_cons.2 ⟨rfl, h.moves⟩, fun hall => ?_, fun pre w post hes hw => ?_⟩
  · obtain ⟨hm, hr⟩ := h.all fun w hw => hall w (List.mem_cons_of_mem _ hw)
    exact ⟨by rw [List.map_cons, hm]; rfl, hr⟩
  · cases pre with
    | nil =>
      obtain ⟨rfl, -⟩ := List.cons.inj hes
      exact absurd hv hw
    | cons w' pre => exact h.stop pre w post (List.cons.inj hes).2 hw

theorem last (ms : List Move) (hv : v.answer ≠ 0) : Played (.call v.place :: ms) [.call v] v.answer := by
  refine ⟨List.cons_prefix_cons.2 ⟨rfl, List.nil_prefix⟩, fun hall => ?_, fun pre w post hes _ => ?_⟩
  · exact absurd (hall v (List.mem_singleton.2 rfl)) hv
  · cases pre with
    | nil =>
      obtain ⟨rfl, rfl⟩ := List.cons.inj hes
      exact ⟨rfl, rfl⟩
    | cons w' pre => exact absurd (List.cons.inj hes).2 (by simp)

end Played

variable (fn) in
/-- **What is left of a script that is stopped.** -/
theorem play_played (ms : List Move) (s : Scan σ) :
    ∃ es, (play fn ms s).2.events = s.events ++ es ∧ Told fn s.context (visits es) ∧
      Played ms es (play fn ms s).1 := by
  induction ms generalizing s with
  | nil => exact ⟨[], (List.append_nil _).symm, trivial, .nil⟩
  | cons m ms ih =>
    cases m with
    | read p =>
      obtain ⟨es, hes, htold, hp⟩ := ih (s.read p)
      refine ⟨.read p :: es, ?_, htold, hp.read p⟩
      rw [play, hes, Scan.read, List.append_assoc]
      rfl
    | call v =>
      let u : Visit := ⟨v.1, v.2, (s.call fn v.1 v.2).1⟩
      have hev : (s.call fn v.1 v.2).2.events = s.events ++ [.call u] := rfl
      by_cases hr : (s.call fn v.1 v.2).1 = 0
      · have hplay : play fn (.call v :: ms) s = play fn ms (s.call fn v.1 v.2).2 := by
          rw [play]
          exact if_neg (not_not.2 hr)
        obtain ⟨es, hes, htold, hp⟩ := ih (s.call fn v.1 v.2).2
        rw [hplay]
        refine ⟨.call u :: es, ?_, ⟨rfl, htold⟩, hp.call (v := u) hr⟩
        rw [hes, hev, List.append_assoc]
        rfl
      · have hplay : play fn (.call v :: ms) s = s.call fn v.1 v.2 := by
          rw [play]
          exact if_pos hr
        rw [hplay]
        exact ⟨_, hev, ⟨rfl, trivial⟩, .last (v := u) ms hr⟩

/-- Playing a script passes nothing but what its calls pass. -/
theorem passed_play {ms : List Move} {s : Scan σ} {p : Ptr} (h : p ∈ (play fn ms s).2.passed) :
    p ∈ s.passed ∨ ∃ d, .call (p, d) ∈ ms := by
  obtain ⟨es, hes, -, hp⟩ := play_played fn ms s
  rw [Scan.passed, hes, visits, List.filterMap_append, List.map_append, List.mem_append] at h
  refine h.imp_right fun h => ?_
  obtain ⟨v, hv, rfl⟩ := List.mem_map.1 h
  obtain ⟨e, he, hev⟩ := List.mem_filterMap.1 hv
  cases e with
  | read p => cases hev
  | call w =>
    cases hev
    exact ⟨v.depth, hp.moves.subset (List.mem_map_of_mem he)⟩

/-- For a child of `p`, only nodes below the child are passed. -/
theorem passed_play_kidScript {d : ℕ} {p q : Ptr} {u : DigitTree chidNb Ptr} {s : Scan σ}
    (h : q ∈ (play fn (kidScript d p u) s).2.passed) : q ∈ s.passed ∨ q ∈ u := by
  refine (passed_play h).imp_right fun ⟨e, he⟩ => ?_
  rcases node_of_mem_kidScript he with h | h
  · cases h
  · exact node_of_mem_script h

@[simp] theorem passed_read (s : Scan σ) (p : Ptr) : (s.read p).passed = s.passed := by
  simp [Scan.passed, Scan.read, visits, Event.visit?]

/-! ### The program plays the script -/

/-- A node that was not passed is as it was. -/
theorem readKid_eq {s : Scan σ} {p : Ptr} (hp : p ∉ s.passed) (i : Fin chidNb) :
    readKid st fn s p i = .ok (st.get (.kid p i), s.read p) := by
  rw [readKid, nodeAt, if_neg hp]
  rfl

/-- **One turn of the loop**, for the child in place `i`. -/
theorem enumerateKids_cons {rec : Ptr → Scan σ → Exec Fault (ℤ × Scan σ)} {d : ℕ} {p : Ptr} {i : Fin chidNb}
    (is : List (Fin chidNb)) {u : DigitTree chidNb Ptr} {s : Scan σ} (hp : p ∉ s.passed)
    (hu : Represents st.links (st.get (.kid p i)) u)
    (hrec : ∀ q, u.root? = some q → rec q ((s.read p).read p) = .ok (play fn (script d u) ((s.read p).read p))) :
    enumerateKids st fn rec p (i :: is) s =
      if (play fn (kidScript d p u) s).1 ≠ 0 then .ok (.done (play fn (kidScript d p u) s))
      else enumerateKids st fn rec p is (play fn (kidScript d p u) s).2 := by
  have hp' : p ∉ (s.read p).passed := by rwa [passed_read]
  rw [enumerateKids, bind_of_ok (readKid_eq hp i)]
  cases u with
  | nil =>
    have hkid : st.get (.kid p i) = none := hu
    simp only [hkid]
    rfl
  | node q r =>
    have hkid : st.get (.kid p i) = some q := hu.1
    simp only [hkid]
    rw [bind_of_ok (readKid_eq hp' i)]
    simp only [hkid]
    rw [bind_of_ok (hrec q rfl)]
    rfl

/-- **The loop**, from any child on, if no node that is ahead was passed before. -/
theorem enumerateKids_eq {rec : Ptr → Scan σ → Exec Fault (ℤ × Scan σ)} {d : ℕ} {p : Ptr}
    {u : Fin chidNb → DigitTree chidNb Ptr} (ho : (node p u).Once)
    (hkids : ∀ i, Represents st.links (st.get (.kid p i)) (u i))
    (hrec : ∀ i q s, Represents st.links (some q) (u i) → (∀ b ∈ u i, b ∉ s.passed) →
      rec q s = .ok (play fn (script d (u i)) s))
    {is : List (Fin chidNb)} (hnd : is.Nodup) {s : Scan σ} (hp : p ∉ s.passed)
    (hnew : ∀ i ∈ is, ∀ q ∈ u i, q ∉ s.passed) :
    enumerateKids st fn rec p is s =
      if (play fn (is.flatMap fun i => kidScript d p (u i)) s).1 ≠ 0
        then .ok (.done (play fn (is.flatMap fun i => kidScript d p (u i)) s))
        else .ok (.more (play fn (is.flatMap fun i => kidScript d p (u i)) s).2) := by
  induction is generalizing s with
  | nil => rfl
  | cons i is ih =>
    obtain ⟨hi, hnd⟩ := List.nodup_cons.1 hnd
    have hturn := enumerateKids_cons is hp (hkids i) fun q hq => by
      have hrep : Represents st.links (some q) (u i) := hq ▸ (hkids i).root?_eq ▸ hkids i
      refine hrec i q _ hrep fun b hb => ?_
      rw [passed_read, passed_read]
      exact hnew i (List.mem_cons_self ..) b hb
    rw [hturn, List.flatMap_cons, play_append]
    by_cases hr : (play fn (kidScript d p (u i)) s).1 ≠ 0
    · simp only [if_pos hr]
    · simp only [if_neg hr]
      refine ih hnd (fun hq => ?_) fun j hj q hq hpassed => ?_
      · exact (passed_play_kidScript hq).elim hp (ho.1 i)
      · refine (passed_play_kidScript hpassed).elim (hnew j (List.mem_cons_of_mem _ hj) q hq) ?_
        exact ho.2.1 j i (fun hji => hi (hji ▸ hj)) q hq

/-- **The program plays the script of its tree**, if no node of the tree was passed before. -/
theorem copStrdictEnumerateRec_eq {t : DigitTree chidNb Ptr} (ho : t.Once) {p : Ptr}
    (hrep : Represents st.links (some p) t) {s : Scan σ} (hnew : ∀ q ∈ t, q ∉ s.passed) {fuel d : ℕ}
    (hf : t.height ≤ fuel) : copStrdictEnumerateRec st fn fuel d p s = .ok (play fn (script d t) s) := by
  induction t generalizing p s fuel d with
  | nil => cases hrep
  | node a u ih =>
    obtain ⟨hpa, hkids⟩ := hrep
    obtain rfl : p = a := Option.some.inj hpa
    obtain ⟨m, rfl⟩ : ∃ m, fuel = m + 1 := ⟨fuel - 1, by rw [height] at hf; omega⟩
    have hrec : ∀ i q s, Represents st.links (some q) (u i) → (∀ b ∈ u i, b ∉ s.passed) →
        copStrdictEnumerateRec st fn m (d + 1) q s = .ok (play fn (script (d + 1) (u i)) s) := fun i q s hq hs => by
      have hlt := height_kid_lt p u i
      exact ih i (ho.2.2 i) hq hs (by omega)
    have hloop := enumerateKids_eq ho hkids hrec (List.nodup_finRange chidNb) (hnew p (mem_node.2 (.inl rfl)))
      fun i _ q hq => hnew q (mem_node.2 (.inr ⟨i, hq⟩))
    rw [copStrdictEnumerateRec, script_node, play_append]
    by_cases hr : (play fn ((List.finRange chidNb).flatMap fun i => kidScript (d + 1) p (u i)) s).1 ≠ 0
    · rw [if_pos hr] at hloop ⊢
      exact bind_of_ok hloop _
    · rw [if_neg hr] at hloop ⊢
      rw [bind_of_ok hloop, play_call]
      rfl

end Play

/-! ### The promise of the header -/

/-- **Leaves first**: what the header promises of an enumeration of the tree `t` with the events `es` and the
result `r`. -/
structure LeavesFirst (t : DigitTree chidNb Ptr) (es : List Event) (r : ℤ) : Prop where
  /-- No node is passed twice. -/
  once : ((visits es).map Visit.node).Nodup
  /-- The nodes passed are nodes of the tree. -/
  mem : ∀ v ∈ visits es, v.node ∈ t
  /-- The depth passed with a node is its distance from the root. -/
  depth : ∀ v ∈ visits es, ∀ π, t.at? π = some v.node → v.depth = π.length
  /-- A node is passed after all nodes below it. -/
  below : ∀ pre v post, visits es = pre ++ v :: post → ∀ q, t.Below q v.node → q ∈ pre.map Visit.node
  /-- If all answers are zero, every node is passed, and the result is zero. -/
  all : (∀ v ∈ visits es, v.answer = 0) → (∀ p ∈ t, p ∈ (visits es).map Visit.node) ∧ r = 0
  /-- An answer that is not zero is the last, and the result. -/
  stop : ∀ pre v post, visits es = pre ++ v :: post → v.answer ≠ 0 → post = [] ∧ r = v.answer
  /-- Nothing of a node is read after the node was passed. -/
  spares : ∀ pre v post, es = pre ++ .call v :: post → .read v.node ∉ post

theorem place_visits (es : List Event) : (visits es).map Visit.place = (es.map Event.move).filterMap Move.place? := by
  rw [visits, List.map_filterMap, List.filterMap_map]
  congr 1
  funext e
  cases e <;> rfl

theorem leavesFirst_of_played {t : DigitTree chidNb Ptr} (ho : t.Once) {es : List Event} {r : ℤ}
    (h : Played (script 0 t) es r) : LeavesFirst t es r := by
  have hpre : (visits es).map Visit.place <+: t.postorder 0 := by
    rw [place_visits, ← script_calls]
    exact h.moves.filterMap _
  have hplace : ∀ v ∈ visits es, ∃ π, t.at? π = some v.node ∧ v.depth = 0 + π.length := fun v hv =>
    mem_postorder.1 (hpre.subset (List.mem_map_of_mem hv))
  refine ⟨?_, fun v hv => ?_, fun v hv π hπ => ?_, fun pre v post hvs q hq => ?_, fun hall => ⟨fun p hp => ?_, ?_⟩,
    h.stop, fun pre v post hes hread => ?_⟩
  · have hpair := (postorder_pairwise (d := 0) ho).sublist hpre.sublist
    rw [List.pairwise_map] at hpair
    exact List.pairwise_map.2 (hpair.imp fun hvw => hvw.1)
  · obtain ⟨π, hπ, -⟩ := hplace v hv
    exact mem_of_at? hπ
  · obtain ⟨σ, hσ, hd⟩ := hplace v hv
    rw [hd, ho.at?_inj hπ hσ, Nat.zero_add]
  · rw [hvs, List.map_append, List.map_cons] at hpre
    have := below_before ho hpre hq
    rwa [List.map_map] at this
  · obtain ⟨e, he⟩ := exists_mem_postorder (d := 0) hp
    rw [← script_calls, ← (h.all hall).1, ← place_visits] at he
    obtain ⟨v, hv, hve⟩ := List.mem_map.1 he
    exact List.mem_map.2 ⟨v, hv, congrArg Prod.fst hve⟩
  · exact (h.all hall).2
  · have hpair := (script_spares (d := 0) ho).sublist h.moves.sublist
    rw [hes, List.map_append, List.map_cons] at hpair
    have hspare := (List.pairwise_cons.1 (List.pairwise_append.1 hpair).2.1).1 _ (List.mem_map_of_mem hread)
    exact hspare _ rfl rfl

theorem copStrdictEnumerate_eq {st : Store δ} {q : Option Ptr} {t : DigitTree chidNb Ptr} (h : TreeAt st q t)
    {fuel : ℕ} (hf : t.height ≤ fuel) (fn : CopStrdictEnumerateFn σ δ) (pContext : σ) :
    copStrdictEnumerate st fn fuel q pContext = .ok (play fn (script 0 t) ⟨pContext, []⟩) := by
  cases q with
  | none =>
    have hnil : Represents st.links none (.nil : DigitTree chidNb Ptr) := rfl
    obtain rfl := h.rep.unique hnil
    rfl
  | some p => exact copStrdictEnumerateRec_eq h.once h.rep (fun q _ hq => absurd hq List.not_mem_nil) hf

/-- An enumeration of a tree ends, and is as the header says. -/
theorem copStrdictEnumerate_ok {st : Store δ} {q : Option Ptr} {t : DigitTree chidNb Ptr} (h : TreeAt st q t)
    {fuel : ℕ} (hf : t.height ≤ fuel) (fn : CopStrdictEnumerateFn σ δ) (pContext : σ) :
    ∃ r s, copStrdictEnumerate st fn fuel q pContext = .ok (r, s) ∧ Told fn pContext (visits s.events) ∧
      LeavesFirst t s.events r := by
  obtain ⟨es, hes, htold, hp⟩ := play_played fn (script 0 t) ⟨pContext, []⟩
  rw [List.nil_append] at hes
  subst hes
  exact ⟨_, _, copStrdictEnumerate_eq h hf fn pContext, htold, leavesFirst_of_played h.once hp⟩

/-- **Enumeration.** In every dictionary that legal calls lead to from a null root, and for every callback: the
enumeration ends without a fault, also if the callback has freed the nodes it was given, or has left anything else
there; and it is as the header promises. -/
theorem copStrdictEnumerate_leavesFirst (w : World δ) (hroot : w.store.get World.root = none) (calls : List (Call δ))
    (hlegal : Dict.contract.LegalRun (Dict.empty (fun p => (w.store.nodes p).data) w.mem) calls)
    (fuel : ℕ) (hfuel : calls.length ≤ fuel) :
    ∃ rets w' t, run (World.step fuel) w calls = .ok (rets, w') ∧ TreeAt w'.store (w'.store.get World.root) t ∧
      (∀ p, p ∈ t ↔ ∃ k, (Dict.contract.nextRun (Dict.empty (fun p => (w.store.nodes p).data) w.mem)
        calls).bound.lookup k = some p) ∧
      ∀ (σ : Type) (fn : CopStrdictEnumerateFn σ δ) (pContext : σ), ∃ r s,
        copStrdictEnumerate w'.store fn fuel (w'.store.get World.root) pContext = .ok (r, s) ∧
        Told fn pContext (visits s.events) ∧ LeavesFirst t s.events r := by
  have hlen : 0 + calls.length ≤ fuel := by omega
  obtain ⟨rets, w', hrun, -, t, ht⟩ := holds_run ⟨nil, holds_empty hroot⟩ hlegal hlen
  exact ⟨rets, w', t, hrun, ht.tree, fun p => ht.mem_iff, fun σ fn pContext =>
    copStrdictEnumerate_ok ht.tree (ht.height.trans hlen) fn pContext⟩

/-- Three nodes, one below the other. -/
def threeCalls : List (Call ℕ) :=
  [.init 1 ⟨1, 5, 0⟩ 7, .init 2 ⟨1, 1, 0⟩ 8, .init 3 ⟨1, 9, 0⟩ 9, .insert 1, .insert 2, .insert 3]

theorem threeCalls_legal : Dict.contract.LegalRun (Dict.empty (fun _ => 0) fun _ => 0) threeCalls := by
  have hfits : (⟨1, 5, 0⟩ : Strh).Fits ∧ (⟨1, 1, 0⟩ : Strh).Fits ∧ (⟨1, 9, 0⟩ : Strh).Fits :=
    ⟨⟨by decide, by decide⟩, ⟨by decide, by decide⟩, ⟨by decide, by decide⟩⟩
  have hempty : ∀ (k : Key) (p : Ptr), (Dict.empty (fun _ => 0) fun _ => 0 : Dict ℕ).bound.lookup k ≠ some p :=
    fun k p => by simp [Dict.empty]
  -- nothing is bound while the nodes are initialised
  refine ⟨⟨fun k => hempty k 1, hfits.1⟩, ⟨fun k => hempty k 2, hfits.2.1⟩, ⟨fun k => hempty k 3, hfits.2.2⟩,
    ?_, ?_, ?_, trivial⟩
  all_goals simp [Dict.contract, Dict.Legal]

/-- A callback that frees every node it is given, and stops at the second. -/
def freeTwo : CopStrdictEnumerateFn ℕ ℕ where
  call n _ _ := (if n = 1 then 5 else 0, n + 1)
  left _ _ := none

theorem copStrdictEnumerate_leavesFirst_three : ∃ rets w' t, run (World.step 6) emptyWorld threeCalls = .ok (rets, w') ∧
    ∃ r s, copStrdictEnumerate w'.store freeTwo 6 (w'.store.get World.root) 0 = .ok (r, s) ∧
      LeavesFirst t s.events r := by
  obtain ⟨rets, w', t, hrun, -, -, henum⟩ :=
    copStrdictEnumerate_leavesFirst emptyWorld rfl threeCalls threeCalls_legal 6 (by decide)
  obtain ⟨r, s, hs, -, hleaves⟩ := henum ℕ freeTwo 0
  exact ⟨rets, w', t, hrun, r, s, hs, hleaves⟩

example : ((run (World.step 6) emptyWorld threeCalls).bind fun a =>
    (copStrdictEnumerate a.2.store freeTwo 6 (a.2.store.get World.root) 0).map fun b =>
      (b.1, (visits b.2.events).map Visit.place)) = .ok (5, [(3, 2), (2, 1)]) := by decide

end Cop.Strdict
