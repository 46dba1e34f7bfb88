import Cop.Theory.Word
import Cop.Strdict.Enumerate

/-!
# How deep a dictionary is

A node may stand anywhere along the path the digits of its 64-bit key spell. A key has
32 digits of two bits; beyond them all paths go to child 0. Two nodes that share
all 32 digits share length and hash, so that a node is at depth 31 plus the number of
the nodes with its 64-bit key at most.

## The model

* `Dict.nodes`, `Dict.sharing` — the nodes that are bound, and those that have a given
  64-bit key.
* `Shallow` — nodes stand on the paths of their keys, at depth 31 plus the number of nodes with their
  64-bit key at most, and an enumeration goes no deeper.

## What is proved

* `digit_val`, `eq_of_digit` — the digits of a key, which determine it.
* `Holds.key_eq` — the 64-bit key of a bound node.
* `strdict_shallow` — the depths in every dictionary that calls can lead to.
-/

namespace Cop.Strdict

open Theory DigitTree

variable {δ : Type}

/-! ### Digits of a key -/

theorem digit_val (key j : ℕ) : (digit key j : ℕ) = key / 4 ^ j % 4 := by
  rw [digit, chid_val, Nat.shiftRight_eq_div_pow, chidBits, Nat.pow_mul]

theorem digit_eq_zero {key j : ℕ} (hkey : key < 2 ^ 64) (hj : 32 ≤ j) : (digit key j : ℕ) = 0 := by
  have hlt : key < 4 ^ j := lt_of_lt_of_le hkey (Nat.pow_le_pow_right (by decide) hj : 4 ^ 32 ≤ 4 ^ j)
  rw [digit_val, Nat.div_eq_of_lt hlt]

theorem eq_of_digit {key key' : ℕ} (hkey : key < 2 ^ 64) (hkey' : key' < 2 ^ 64)
    (h : ∀ j < 32, digit key j = digit key' j) : key = key' := by
  have h64 : (2 ^ 64 : ℕ) = 4 ^ 32 := rfl
  rw [h64] at hkey hkey'
  refine eq_of_digits hkey hkey' fun j hj => ?_
  rw [← digit_val, ← digit_val, h j hj]

/-! ### The nodes of a dictionary -/

namespace Dict

/-- The nodes that are bound. -/
def nodes (D : Dict δ) : Finset Ptr := (D.bound.keys.image D.bound.lookup).eraseNone

/-- Those of them with the 64-bit key `key`. -/
def sharing (D : Dict δ) (st : Store δ) (key : ℕ) : Finset Ptr := D.nodes.filter fun q => (st.nodes q).key = key

theorem mem_nodes {D : Dict δ} {p : Ptr} : p ∈ D.nodes ↔ ∃ k, D.bound.lookup k = some p := by
  simp only [nodes, Finset.mem_eraseNone, Finset.mem_image, Finmap.mem_keys]
  constructor
  · rintro ⟨k, -, hk⟩
    exact ⟨k, hk⟩
  · rintro ⟨k, hk⟩
    exact ⟨k, Finmap.mem_of_lookup_eq_some hk, hk⟩

end Dict

variable {n : ℕ} {D : Dict δ} {w : World δ} {t : DigitTree chidNb Ptr}

theorem Holds.key_eq (h : Holds n D w t) {k : Key} {p : Ptr} (hk : D.bound.lookup k = some p) :
    (w.store.nodes p).key = k.len * 2 ^ 32 + k.hash ∧ k.len < 2 ^ 32 ∧ k.hash < 2 ^ 32 := by
  obtain ⟨hp, hkey⟩ := (h.bound k p).1 hk
  obtain ⟨s, hs⟩ := Option.ne_none_iff_exists'.1 (h.known p hp)
  rw [Dict.keyOf, hs, Option.map_some, Option.some_inj] at hkey
  have hk' := h.hasKey p s hs
  subst hkey
  exact ⟨hk'.key.trans (getikey_eq hk'.fits), hk'.fits.len, hk'.fits.hash⟩

theorem Holds.mem_nodes_iff (h : Holds n D w t) {p : Ptr} : p ∈ D.nodes ↔ p ∈ t := Dict.mem_nodes.trans h.mem_iff.symm

theorem Holds.key_lt (h : Holds n D w t) {p : Ptr} (hp : p ∈ t) : (w.store.nodes p).key < 2 ^ 64 := by
  obtain ⟨k, hk⟩ := h.mem_iff.1 hp
  obtain ⟨hkey, hlen, hhash⟩ := h.key_eq hk
  omega

/-! ### Depths -/

/-- **Depths**: `w` holds the dictionary `D`, in the tree `t`. -/
structure Shallow (D : Dict δ) (w : World δ) (t : DigitTree chidNb Ptr) : Prop where
  /-- The path to a node consists of the two-bit digits of its 64-bit key, least significant first, and zeros beyond
  the 32nd digit. -/
  digits : ∀ π p, t.at? π = some p → ∀ j (hj : j < π.length),
    (π[j] : ℕ) = if j < 32 then (w.store.nodes p).key / 4 ^ j % 4 else 0
  /-- A node is at depth 31 plus the number of the nodes with its 64-bit key at most. -/
  depth_le : ∀ π p, t.at? π = some p → π.length ≤ 31 + (D.sharing w.store (w.store.nodes p).key).card
  /-- If no two keys share length and hash, no node is deeper than 32. -/
  distinct : (∀ k ∈ D.bound, ∀ k' ∈ D.bound, k.len = k'.len → k.hash = k'.hash → k = k') →
    ∀ π p, t.at? π = some p → π.length ≤ 32
  /-- The recursion of `cop_strdict_enumerate` goes no deeper than the nodes are. -/
  recursion : ∀ n, (∀ π p, t.at? π = some p → π.length ≤ n) →
    ∀ (σ : Type) (fn : CopStrdictEnumerateFn σ δ) (pContext : σ), ∃ r s,
      copStrdictEnumerate w.store fn (n + 1) (w.store.get World.root) pContext = .ok (r, s)

theorem Holds.digits (h : Holds n D w t) {π : List (Fin chidNb)} {p : Ptr} (hπ : t.at? π = some p) (j : ℕ)
    (hj : j < π.length) : (π[j] : ℕ) = if j < 32 then (w.store.nodes p).key / 4 ^ j % 4 else 0 := by
  have hdig : digit (w.store.nodes p).key (0 + j) = π[j] := laid_iff.1 h.laid π p hπ j hj
  rw [Nat.zero_add] at hdig
  rw [← hdig]
  split
  · exact digit_val _ j
  · exact digit_eq_zero (h.key_lt (mem_of_at? hπ)) (by omega)

theorem Holds.depth_le (h : Holds n D w t) {π : List (Fin chidNb)} {p : Ptr} (hπ : t.at? π = some p) :
    π.length ≤ 31 + (D.sharing w.store (w.store.nodes p).key).card := by
  have hlt : π.length < 32 + (D.sharing w.store (w.store.nodes p).key).card := by
    refine Laid.length_lt h.laid h.tree.once hπ fun q hq hdig => ?_
    -- nodes that share all 32 digits share the whole key
    have hkey := eq_of_digit (h.key_lt hq) (h.key_lt (mem_of_at? hπ)) hdig
    exact Finset.mem_filter.2 ⟨h.mem_nodes_iff.2 hq, hkey⟩
  omega

/-- Without two keys of the same length and hash, no two nodes share a 64-bit key. -/
theorem Holds.card_sharing_le (h : Holds n D w t)
    (hdistinct : ∀ k ∈ D.bound, ∀ k' ∈ D.bound, k.len = k'.len → k.hash = k'.hash → k = k') (key : ℕ) :
    (D.sharing w.store key).card ≤ 1 := by
  refine Finset.card_le_one.2 fun p hp q hq => ?_
  obtain ⟨hpD, hpk⟩ := Finset.mem_filter.1 hp
  obtain ⟨hqD, hqk⟩ := Finset.mem_filter.1 hq
  obtain ⟨k, hk⟩ := Dict.mem_nodes.1 hpD
  obtain ⟨k', hk'⟩ := Dict.mem_nodes.1 hqD
  obtain ⟨hkey, hlen, hhash⟩ := h.key_eq hk
  obtain ⟨hkey', hlen', hhash'⟩ := h.key_eq hk'
  have hkk : k = k' := hdistinct k (Finmap.mem_of_lookup_eq_some hk) k' (Finmap.mem_of_lookup_eq_some hk')
    (by omega) (by omega)
  subst hkk
  exact Option.some.inj (hk.symm.trans hk')

theorem Holds.shallow (h : Holds n D w t) : Shallow D w t where
  digits _ _ hπ := h.digits hπ
  depth_le _ _ hπ := h.depth_le hπ
  distinct hdistinct π p hπ := by
    have hle := h.depth_le hπ
    have hone := h.card_sharing_le hdistinct (w.store.nodes p).key
    omega
  recursion m hm σ fn pContext := by
    have hheight : t.height ≤ m + 1 := height_le_iff.2 fun π p hπ => Nat.lt_succ_of_le (hm π p hπ)
    obtain ⟨r, s, hrun, -⟩ := copStrdictEnumerate_ok h.tree hheight fn pContext
    exact ⟨r, s, hrun⟩

/-- **Digit paths and depths.** In every dictionary that legal calls lead to from a null root, a node stands on the
path of the digits of its 64-bit key, no deeper than 31 plus the number of the nodes with that key. -/
theorem strdict_shallow (w : World δ) (hroot : w.store.get World.root = none) (calls : List (Call δ))
    (hlegal : Dict.contract.LegalRun (Dict.empty (fun p => (w.store.nodes p).data) w.mem) calls)
    (fuel : ℕ) (hfuel : calls.length ≤ fuel) (D : Dict δ)
    (hD : D = Dict.contract.nextRun (Dict.empty (fun p => (w.store.nodes p).data) w.mem) calls) :
    ∃ rets w' t, run (World.step fuel) w calls = .ok (rets, w') ∧ TreeAt w'.store (w'.store.get World.root) t ∧
      (∀ p, p ∈ t ↔ p ∈ D.nodes) ∧
      (∀ k p, D.bound.lookup k = some p →
        (w'.store.nodes p).key = k.len * 2 ^ 32 + k.hash ∧ k.len < 2 ^ 32 ∧ k.hash < 2 ^ 32) ∧
      Shallow D w' t := by
  subst hD
  have hlen : 0 + calls.length ≤ fuel := by omega
  obtain ⟨rets, w', hrun, -, t, ht⟩ := holds_run ⟨nil, holds_empty hroot⟩ hlegal hlen
  exact ⟨rets, w', t, hrun, ht.tree, fun p => ht.mem_nodes_iff.symm, fun k p => ht.key_eq, ht.shallow⟩

theorem strdict_shallow_three : ∃ rets w' t, run (World.step 6) emptyWorld threeCalls = .ok (rets, w') ∧
    Shallow (Dict.contract.nextRun (Dict.empty (fun _ => 0) fun _ => 0) threeCalls) w' t := by
  obtain ⟨rets, w', t, hrun, -, -, -, hshallow⟩ :=
    strdict_shallow emptyWorld rfl threeCalls threeCalls_legal 6 (by decide) _ rfl
  exact ⟨rets, w', t, hrun, hshallow⟩

end Cop.Strdict
