import Cop.Strdict.Strtypes
import Cop.Theory.Word
import Mathlib.Data.Int.ModEq
import Mathlib.Data.List.Induction
import Mathlib.Data.UInt
import Mathlib.Tactic.Ring

/-!
# The hash of a string and FNV-1a

`cop_strh_init_shallow` reads its bytes through plain `char`. Where that is signed, a byte from
128 on is widened with its sign, and the exclusive-or inverts all the bits of the hash above the
lowest eight. From then on the hash is off by a multiple of 256, which every byte changes: it is
`drift`, in units of 256. A later byte from 128 on may bring it back to zero.

## What is proved

* `byteStep_modEq`, `foldHash_modEq` — the hash is FNV-1a, and 256 times the drift.
* `foldHash_eq_iff` — it is FNV-1a exactly where the drift is a multiple of `2 ^ 24`.
* `drift_odd` — an odd number of bytes from 128 on is never a match.
* `hash_eq_fnv1a_iff` — when the function stores FNV-1a.
* `hash_of_e9` — a string of one byte, for which it does not.
-/

namespace Cop.Strdict

open Theory

variable {T : Target} {m : Bytes} {p n : ℕ}

/-- One byte, on FNV-1a and how far the hash is off, in units of 256. -/
def driftStep : ℕ × ℤ → UInt8 → ℕ × ℤ
  | (f, d), b => (fnvStep f b, if b.toNat < 128 then fnvPrime * d else -fnvPrime * (1 + 2 * (f / 256 : ℕ) + d))

/-- How far the hash is off after some bytes, in units of 256. -/
def drift (bs : List UInt8) : ℤ := (bs.foldl driftStep (fnvOffset, 0)).2

theorem fnv1a_snoc (bs : List UInt8) (b : UInt8) : fnv1a (bs ++ [b]) = fnvStep (fnv1a bs) b := by
  rw [fnv1a, fnv1a, List.foldl_append, List.foldl_cons, List.foldl_nil]

theorem driftSteps_eq (bs : List UInt8) : bs.foldl driftStep (fnvOffset, 0) = (fnv1a bs, drift bs) := by
  have hfst : (bs.foldl driftStep (fnvOffset, 0)).1 = fnv1a bs := by
    induction bs using List.reverseRecOn with
    | nil => rfl
    | append_singleton bs b ih =>
      rw [List.foldl_append, fnv1a_snoc, ← ih]
      rfl
  rw [← hfst]
  rfl

theorem drift_snoc (bs : List UInt8) (b : UInt8) :
    drift (bs ++ [b]) = if b.toNat < 128 then fnvPrime * drift bs
      else -fnvPrime * (1 + 2 * (fnv1a bs / 256 : ℕ) + drift bs) := by
  rw [drift, List.foldl_append, driftSteps_eq]
  rfl

/-! ### One byte -/

theorem xor_low (g : ℕ) {b : ℕ} (hb : b < 256) : g ^^^ b = 256 * (g / 256) + (g % 256 ^^^ b) := by
  have hdiv : (g ^^^ b) / 2 ^ 8 = g / 2 ^ 8 ^^^ b / 2 ^ 8 := Nat.xor_div_two_pow
  have hmod : (g ^^^ b) % 2 ^ 8 = g % 2 ^ 8 ^^^ b % 2 ^ 8 := Nat.xor_mod_two_pow
  rw [Nat.div_eq_of_lt (show b < 2 ^ 8 from hb), Nat.xor_zero] at hdiv
  rw [Nat.mod_eq_of_lt (show b < 2 ^ 8 from hb)] at hmod
  have hsplit := Nat.div_add_mod (g ^^^ b) (2 ^ 8)
  rw [hdiv, hmod] at hsplit
  exact hsplit.symm

/-- A byte that is widened with its sign inverts the others as well. -/
theorem xor_high {g b : ℕ} (hg : g < 2 ^ 32) (hb : b < 256) :
    g ^^^ (2 ^ 32 - 256 + b) = 256 * (2 ^ 24 - (g / 256 + 1)) + (g % 256 ^^^ b) := by
  have hdiv : (g ^^^ (2 ^ 32 - 256 + b)) / 2 ^ 8 = g / 2 ^ 8 ^^^ (2 ^ 32 - 256 + b) / 2 ^ 8 := Nat.xor_div_two_pow
  have hmod : (g ^^^ (2 ^ 32 - 256 + b)) % 2 ^ 8 = g % 2 ^ 8 ^^^ (2 ^ 32 - 256 + b) % 2 ^ 8 := Nat.xor_mod_two_pow
  rw [show (2 ^ 32 - 256 + b) / 2 ^ 8 = 2 ^ 24 - 1 by omega, Word.xor_ones (show g / 2 ^ 8 < 2 ^ 24 by omega)] at hdiv
  rw [show (2 ^ 32 - 256 + b) % 2 ^ 8 = b by omega] at hmod
  have hsplit := Nat.div_add_mod (g ^^^ (2 ^ 32 - 256 + b)) (2 ^ 8)
  rw [hdiv, hmod] at hsplit
  exact hsplit.symm

theorem byteStep_high (hs : T.charSigned = true) (h : ℕ) {b : UInt8} (hb : 128 ≤ b.toNat) :
    byteStep T h b = ((h ^^^ (2 ^ 32 - 256 + b.toNat)) * fnvPrime) % 2 ^ 32 := by
  have hlt : b.toNat < 256 := b.toNat_lt
  have hlow : (2 ^ T.fast32 - 256 + b.toNat) % 2 ^ 32 = (2 ^ 32 - 256 + b.toNat) % 2 ^ 32 := by
    rcases T.fast32_eq with hw | hw
    · rw [hw]
    · rw [hw]
      omega
  have hxor : (h ^^^ (2 ^ T.fast32 - 256 + b.toNat)) % 2 ^ 32 = (h ^^^ (2 ^ 32 - 256 + b.toNat)) % 2 ^ 32 := by
    rw [Nat.xor_mod_two_pow, hlow, ← Nat.xor_mod_two_pow]
  rw [byteStep, hashStep_eq, charValue, if_pos ⟨hs, hb⟩, Nat.mul_mod, hxor, ← Nat.mul_mod]

/-- Where plain `char` is unsigned, the code takes steps of FNV-1a. -/
theorem foldHash_unsigned (hs : T.charSigned = false) (bs : List UInt8) : foldHash T bs = fnv1a bs := by
  refine List.foldl_ext _ _ _ fun h b _ => ?_
  rw [byteStep, hashStep_eq, charValue, if_neg (by simp [hs]), fnvStep]

/-- **One byte keeps the hash off by the drift**, in units of 256. -/
theorem byteStep_modEq (hs : T.charSigned = true) {f g : ℕ} {d : ℤ} (hg : g < 2 ^ 32)
    (h : (g : ℤ) ≡ f + 256 * d [ZMOD 2 ^ 32]) (b : UInt8) : (byteStep T g b : ℤ) ≡
      fnvStep f b + 256 * (if b.toNat < 128 then fnvPrime * d else -fnvPrime * (1 + 2 * (f / 256 : ℕ) + d)) [ZMOD 2 ^ 32] := by
  have hb : b.toNat < 256 := b.toNat_lt
  -- the lowest eight bits are the same, and the others are off by the drift
  have hlow : g % 256 = f % 256 := by
    have h := h.of_dvd (show (256 : ℤ) ∣ 2 ^ 32 by decide)
    unfold Int.ModEq at h
    omega
  have hupper : (256 * (g / 256 : ℕ) : ℤ) ≡ 256 * (f / 256 : ℕ) + 256 * d [ZMOD 2 ^ 32] := by
    unfold Int.ModEq at h ⊢
    omega
  obtain ⟨x, hx⟩ : ∃ x, f % 256 ^^^ b.toNat = x := ⟨_, rfl⟩
  have hfnv : (fnvStep f b : ℤ) ≡ (256 * (f / 256 : ℕ) + x) * fnvPrime [ZMOD 2 ^ 32] := by
    rw [fnvStep, xor_low _ hb, hx]
    exact_mod_cast Nat.mod_modEq _ _
  split
  · rename_i h128
    have hstep : (byteStep T g b : ℤ) ≡ (256 * (g / 256 : ℕ) + x) * fnvPrime [ZMOD 2 ^ 32] := by
      rw [byteStep_ascii T _ h128, fnvStep, xor_low _ hb, hlow, hx]
      exact_mod_cast Nat.mod_modEq _ _
    calc (byteStep T g b : ℤ) ≡ (256 * (g / 256 : ℕ) + x) * fnvPrime [ZMOD 2 ^ 32] := hstep
      _ ≡ (256 * (f / 256 : ℕ) + 256 * d + x) * fnvPrime [ZMOD 2 ^ 32] := (hupper.add_right _).mul_right _
      _ = (256 * (f / 256 : ℕ) + x) * fnvPrime + 256 * (fnvPrime * d) := by ring
      _ ≡ fnvStep f b + 256 * (fnvPrime * d) [ZMOD 2 ^ 32] := hfnv.symm.add_right _
  · rename_i h128
    have hstep : (byteStep T g b : ℤ) ≡ (256 * (2 ^ 24 - (g / 256 + 1) : ℕ) + x) * fnvPrime [ZMOD 2 ^ 32] := by
      rw [byteStep_high hs _ (by omega), xor_high hg hb, hlow, hx]
      exact_mod_cast Nat.mod_modEq _ _
    have hinv : (256 * (2 ^ 24 - (g / 256 + 1) : ℕ) : ℤ) ≡ -256 - 256 * (f / 256 : ℕ) - 256 * d [ZMOD 2 ^ 32] := by
      unfold Int.ModEq at hupper ⊢
      omega
    calc (byteStep T g b : ℤ) ≡ (256 * (2 ^ 24 - (g / 256 + 1) : ℕ) + x) * fnvPrime [ZMOD 2 ^ 32] := hstep
      _ ≡ (-256 - 256 * (f / 256 : ℕ) - 256 * d + x) * fnvPrime [ZMOD 2 ^ 32] := (hinv.add_right _).mul_right _
      _ = (256 * (f / 256 : ℕ) + x) * fnvPrime + 256 * (-fnvPrime * (1 + 2 * (f / 256 : ℕ) + d)) := by ring
      _ ≡ fnvStep f b + 256 * (-fnvPrime * (1 + 2 * (f / 256 : ℕ) + d)) [ZMOD 2 ^ 32] := hfnv.symm.add_right _

/-! ### All bytes -/

/-- **The hash is FNV-1a, and 256 times the drift.** -/
theorem foldHash_modEq (hs : T.charSigned = true) (bs : List UInt8) :
    (foldHash T bs : ℤ) ≡ fnv1a bs + 256 * drift bs [ZMOD 2 ^ 32] := by
  induction bs using List.reverseRecOn with
  | nil => rfl
  | append_singleton bs b ih =>
    rw [drift_snoc, foldHash_snoc, fnv1a_snoc]
    exact byteStep_modEq hs (foldHash_lt T bs) ih b

/-- **The hash is FNV-1a exactly where the drift is a multiple of `2 ^ 24`.** -/
theorem foldHash_eq_iff (hs : T.charSigned = true) (bs : List UInt8) :
    foldHash T bs = fnv1a bs ↔ (2 ^ 24 : ℤ) ∣ drift bs := by
  have hmod := foldHash_modEq hs bs
  have hg := foldHash_lt T bs
  have hf := fnv1a_lt bs
  unfold Int.ModEq at hmod
  constructor <;> intro h <;> omega

/-- The drift is even or odd as the number of bytes from 128 on is. -/
theorem drift_mod_two (bs : List UInt8) : drift bs % 2 = (bs.countP (128 ≤ ·.toNat) : ℤ) % 2 := by
  induction bs using List.reverseRecOn with
  | nil => rfl
  | append_singleton bs b ih =>
    rw [drift_snoc, List.countP_append, List.countP_singleton, fnvPrime]
    split
    · rename_i hb
      rw [if_neg (by simpa using hb)]
      omega
    · rename_i hb
      rw [if_pos (by simpa using hb)]
      push_cast
      omega

/-- **An odd number of bytes from 128 on** is never a match. -/
theorem drift_odd {bs : List UInt8} (h : bs.countP (128 ≤ ·.toNat) % 2 = 1) : ¬ (2 ^ 24 : ℤ) ∣ drift bs := by
  have hmod := drift_mod_two bs
  omega

/-! ### The function -/

/-- **When the function stores FNV-1a.** It does if and only if a `uint_fast32_t` can count the bytes,
and plain `char` is unsigned or the drift is a multiple of `2 ^ 24` after the last of them. -/
theorem hash_eq_fnv1a_iff (h : IsCstr m p n) :
    (∃ fuel s, copStrhInitShallow T fuel m p = .ok s ∧ s.hash = fnv1a (m.read p n)) ↔
      n < 2 ^ T.fast32 ∧ (T.charSigned = false ∨ (2 ^ 24 : ℤ) ∣ drift (m.read p n)) := by
  have hiff : foldHash T (m.read p n) = fnv1a (m.read p n) ↔
      T.charSigned = false ∨ (2 ^ 24 : ℤ) ∣ drift (m.read p n) := by
    cases hs : T.charSigned with
    | false => exact iff_of_true (foldHash_unsigned hs _) (.inl rfl)
    | true => simp [foldHash_eq_iff hs]
  rw [← hiff]
  constructor
  · rintro ⟨fuel, s, hret, hhash⟩
    obtain ⟨hn, rfl⟩ := copStrhInitShallow_eq h hret
    exact ⟨hn, hhash⟩
  · rintro ⟨hn, hhash⟩
    exact ⟨n + 1, _, copStrhInitShallow_ok h hn (Nat.lt_succ_self n), hhash⟩

/-- The bytes `0x61`, `0xac` and `0x80` at 100, and zeros. -/
def matching : Bytes := Function.update (Function.update (Function.update 0 100 0x61) 101 0xac) 102 0x80

/-- After the second byte from 128 on, the drift is back at a multiple of `2 ^ 24`. -/
theorem hash_eq_fnv1a_iff_matching :
    ∃ fuel s, copStrhInitShallow lp64 fuel matching 100 = .ok s ∧ s.hash = fnv1a (matching.read 100 3) :=
  (hash_eq_fnv1a_iff ⟨by decide, rfl⟩).2 ⟨by decide, .inr (by decide)⟩

/-- The string of the one byte `0xe9`, whose FNV-1a hash is `0x6c0b6c44`. -/
theorem hash_of_e9 : IsCstr (Function.update 0 100 0xe9) 100 1 ∧
    ∃ s, copStrhInitShallow lp64 2 (Function.update 0 100 0xe9) 100 = .ok s ∧ s.hash = 0xebf38b44 ∧
      s.hash ≠ fnv1a (Bytes.read (Function.update 0 100 0xe9) 100 1) := by
  refine ⟨⟨by decide, rfl⟩, _, rfl, ?_, ?_⟩
  · decide
  · decide

end Cop.Strdict
