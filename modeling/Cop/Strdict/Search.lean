import Cop.Strdict.Model

/-!
# Searching the dictionary

The loops that look for a key follow the two-bit digits of the key, lowest first.
When the nodes below the root form a tree, they end where the search of the
abstract digit tree ends, and the fuel they need is the height of the tree.

## What is proved

* `walk_ok` — the loop of `cop_strdict_get` and `cop_strdict_update` finds the root of
  the subtree `found` gives.
* `search_ok` — the loop of `cop_strdict_insert` and `cop_strdict_delete` leaves with
  the slot at the end of the search path.
-/

namespace Cop.Strdict

open Theory DigitTree

/-- Digit number `d` of a key. -/
def digit (key d : ℕ) : Fin chidNb := chid (key >>> (chidBits * d))

theorem chid_val (x : ℕ) : (chid x : ℕ) = x % 4 := Nat.and_two_pow_sub_one_eq_mod x 2

theorem shiftRight_succ (key d : ℕ) : key >>> (chidBits * d) >>> chidBits = key >>> (chidBits * (d + 1)) := by
  rw [← Nat.shiftRight_add, Nat.mul_succ]

variable {δ : Type} {st : Store δ} {hit : Ptr → Bool}

theorem walk_ok {q : Option Ptr} {t : DigitTree chidNb Ptr} (h : Represents st.links q t) (key d : ℕ) {fuel : ℕ}
    (hf : t.height < fuel) :
    loop (walkTurn st hit) fuel (q, key >>> (chidBits * d)) = .ok (found hit (digit key) d t).root? := by
  induction t generalizing q d fuel with
  | nil =>
    obtain rfl : q = none := h
    obtain ⟨n, rfl⟩ : ∃ n, fuel = n + 1 := ⟨fuel - 1, by omega⟩
    exact loop_done rfl n
  | node p s ih =>
    obtain ⟨rfl, hs⟩ := h
    obtain ⟨n, rfl⟩ : ∃ n, fuel = n + 1 := ⟨fuel - 1, by omega⟩
    by_cases hp : hit p
    · rw [found, searchPath_node_pos hp]
      exact loop_done (by simp [walkTurn, hp, sub]) n
    · have hlt := height_kid_lt p s (digit key d)
      rw [found, searchPath_node_neg hp,
        loop_more (t := (st.get (.kid p (digit key d)), key >>> (chidBits * (d + 1))))
          (by simp [walkTurn, hp, digit, shiftRight_succ]) n]
      exact ih (digit key d) (hs _) (d + 1) (by omega)

theorem search_ok {ℓ : Loc} {t : DigitTree chidNb Ptr} (h : Represents st.links (st.get ℓ) t) (key d : ℕ) {fuel : ℕ}
    (hf : t.height < fuel) :
    loop (searchTurn st hit) fuel (ℓ, st.get ℓ, key >>> (chidBits * d)) =
      .ok (slotAt ℓ (searchPath hit (digit key) d t) t, (found hit (digit key) d t).root?,
        key >>> (chidBits * (d + (searchPath hit (digit key) d t).length))) := by
  induction t generalizing ℓ d fuel with
  | nil =>
    have hq : st.get ℓ = none := h
    obtain ⟨n, rfl⟩ : ∃ n, fuel = n + 1 := ⟨fuel - 1, by omega⟩
    rw [hq]
    exact loop_done rfl n
  | node p s ih =>
    have hq : st.get ℓ = some p := h.1
    obtain ⟨n, rfl⟩ : ∃ n, fuel = n + 1 := ⟨fuel - 1, by omega⟩
    by_cases hp : hit p
    · rw [found, searchPath_node_pos hp, hq]
      exact loop_done (by simp [searchTurn, hp, sub, slotAt]) n
    · have hlt := height_kid_lt p s (digit key d)
      have hkid : Represents st.links (st.get (.kid p (digit key d))) (s (digit key d)) := h.2 _
      rw [found, searchPath_node_neg hp, hq,
        loop_more (t := (.kid p (digit key d), st.get (.kid p (digit key d)), key >>> (chidBits * (d + 1))))
          (by simp [searchTurn, hp, digit, shiftRight_succ]) n,
        ih (digit key d) hkid (d + 1) (by omega)]
      simp only [slotAt, sub, found, List.length_cons, Nat.add_assoc, Nat.add_comm 1]

end Cop.Strdict
