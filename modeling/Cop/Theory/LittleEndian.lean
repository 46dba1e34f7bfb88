import Cop.Theory.Extents
import Cop.Theory.Word
import Mathlib.Data.Nat.Digits.Defs

/-!
# Little-endian numbers

A number in a list of bytes, the least significant first; how programs assemble it from the bytes
with shifts, and take it apart into memory, byte after byte.

## What is proved

* `ofLe_toLe`, `ofLe_lt` — the bytes of a number are those of its residue.
* `orShifts_eq` — the number that is assembled.
* `storeShifts_eq` — the bytes that are written.
-/

namespace Cop.Theory

/-- The number in a list of bytes. -/
def ofLe (bs : List UInt8) : ℕ := Nat.ofDigits 256 (bs.map UInt8.toNat)

/-- The lowest `n` bytes of a number. -/
def toLe (n v : ℕ) : List UInt8 := (List.range n).map fun i => UInt8.ofNat ((v >>> (8 * i)) &&& 0xFF)

/-- `b[0] << 0 | b[1] << 8 | …`, in words of `w` bits. -/
def orShifts (w : ℕ) (b : ℕ → UInt8) : ℕ → ℕ
  | 0 => 0
  | n + 1 => orShifts w b n ||| Word.shl w (b n).toNat (8 * n)

/-- `b[0] = v & 0xFF; b[1] = (v >> 8) & 0xFF; …`. -/
def storeShifts (m : ℕ → UInt8) (b v : ℕ) : ℕ → ℕ → UInt8
  | 0 => m
  | n + 1 => Function.update (storeShifts m b v n) (b + n) (UInt8.ofNat ((v >>> (8 * n)) &&& 0xFF))

@[simp] theorem length_toLe (n v : ℕ) : (toLe n v).length = n := by simp [toLe]

theorem toLe_succ (n v : ℕ) : toLe (n + 1) v = toLe n v ++ [UInt8.ofNat ((v >>> (8 * n)) &&& 0xFF)] := by
  simp [toLe, List.range_succ]

@[simp] theorem ofLe_nil : ofLe [] = 0 := rfl

theorem ofLe_cons (b : UInt8) (bs : List UInt8) : ofLe (b :: bs) = b.toNat + 256 * ofLe bs := rfl

theorem ofLe_snoc (bs : List UInt8) (b : UInt8) : ofLe (bs ++ [b]) = ofLe bs + 256 ^ bs.length * b.toNat := by
  rw [ofLe, List.map_append, Nat.ofDigits_append, List.map_singleton, Nat.ofDigits_singleton, List.length_map]
  rfl

theorem ofLe_lt (bs : List UInt8) : ofLe bs < 256 ^ bs.length := by
  have h := Nat.ofDigits_lt_base_pow_length (b := 256) (l := bs.map UInt8.toNat) (by decide) fun x hx => by
    obtain ⟨b, -, rfl⟩ := List.mem_map.1 hx
    exact b.toNat_lt
  rwa [List.length_map] at h

theorem toNat_byte (n v : ℕ) : (UInt8.ofNat ((v >>> (8 * n)) &&& 0xFF)).toNat = v / 256 ^ n % 256 := by
  have hmask : (v >>> (8 * n)) &&& 0xFF = v / 256 ^ n % 256 := by
    rw [show (0xFF : ℕ) = 2 ^ 8 - 1 from rfl, Nat.and_two_pow_sub_one_eq_mod, Nat.shiftRight_eq_div_pow, Nat.pow_mul]
  rw [hmask, UInt8.toNat_ofNat']
  exact Nat.mod_mod _ _

/-- **The bytes of a number** are those of its residue. -/
theorem ofLe_toLe (n v : ℕ) : ofLe (toLe n v) = v % 256 ^ n := by
  induction n with
  | zero => rw [Nat.pow_zero, Nat.mod_one]; rfl
  | succ n ih => rw [toLe_succ, ofLe_snoc, ih, length_toLe, toNat_byte, Nat.mod_pow_succ]

/-- It depends on the bytes that are used only. -/
theorem orShifts_congr {w n : ℕ} {b c : ℕ → UInt8} (h : ∀ i < n, b i = c i) : orShifts w b n = orShifts w c n := by
  induction n with
  | zero => rfl
  | succ n ih => rw [orShifts, orShifts, ih fun i hi => h i (by omega), h n (Nat.lt_succ_self n)]

/-- **The number that is assembled**, if it fits in a word. -/
theorem orShifts_eq {w n : ℕ} (b : ℕ → UInt8) (h : 8 * n ≤ w) : orShifts w b n = ofLe ((List.range n).map b) := by
  induction n with
  | zero => rfl
  | succ n ih =>
    have hlt : ofLe ((List.range n).map b) < 2 ^ (8 * n) := by
      have hlt := ofLe_lt ((List.range n).map b)
      rwa [List.length_map, List.length_range, show 256 ^ n = 2 ^ (8 * n) from (Nat.pow_mul 2 8 n).symm] at hlt
    have hfit : 2 ^ (8 * n) * (b n).toNat < 2 ^ w :=
      calc 2 ^ (8 * n) * (b n).toNat < 2 ^ (8 * n) * 2 ^ 8 :=
            Nat.mul_lt_mul_of_pos_left (b n).toNat_lt (Nat.two_pow_pos _)
        _ = 2 ^ (8 * (n + 1)) := (Nat.pow_add 2 (8 * n) 8).symm
        _ ≤ 2 ^ w := Nat.pow_le_pow_right (by decide) h
    rw [orShifts, ih (by omega), Word.shl_of_lt hfit, Word.or_two_pow_mul hlt, List.range_succ, List.map_append,
      List.map_singleton, ofLe_snoc, List.length_map, List.length_range,
      show 256 ^ n = 2 ^ (8 * n) from (Nat.pow_mul 2 8 n).symm]

/-- **The bytes that are written** are those of the number. -/
theorem storeShifts_eq (m : ℕ → UInt8) (b v n : ℕ) : storeShifts m b v n = put m b (toLe n v) := by
  induction n with
  | zero => exact (put_nil m b).symm
  | succ n ih => rw [storeShifts, ih, toLe_succ, put_append, length_toLe, put_singleton]

end Cop.Theory
