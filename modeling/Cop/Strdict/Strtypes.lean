import Cop.Platform
import Mathlib.Data.List.Basic

/-!
# Hashed strings

`cop_strtypes.h`: a `cop_strh` is a pointer to a string of hashed bytes of known
length, and `cop_strh_init_shallow` makes one from a null-terminated string. The
header documents what it should hold: "Number of bytes in the data blob",
"FNV-1A hash of len bytes of ptr", and "The null-terminator is not included in
the length or the hash that will be stored". That is `documentedStrh` here, next
to `copStrhInitShallow`, the function as it is written.

## What is proved

* `copStrhInitShallow_ok` — on a null-terminated string the function gives a
  result, and it is the one of `initShallow`: the hash of the bytes before the
  terminator as plain `char` and the width of `uint_fast32_t` make it, and a
  length that counts the terminator.
* `copStrhInitShallow_eq` — it gives no other result, and none where the bytes cannot be counted.
* `foldHash_ascii` — on bytes below 128 that hash is FNV-1a on every target.
-/

namespace Cop.Strdict

open Theory

/-- `struct cop_strh`. -/
structure Strh where
  /-- Number of bytes in the data blob. -/
  len : ℕ
  /-- FNV-1A hash of `len` bytes of `ptr`. -/
  hash : ℕ
  /-- The data blob. -/
  ptr : ℕ
  deriving DecidableEq

/-- A target whose plain `char` is signed, with a 64-bit `uint_fast32_t`. -/
def lp64 : Target := ⟨true, 64, .inr rfl⟩

/-- The value of a byte read through plain `char` and kept in a `uint_fast32_t`. -/
def charValue (T : Target) (b : UInt8) : ℕ :=
  if T.charSigned ∧ 128 ≤ b.toNat then 2 ^ T.fast32 - 256 + b.toNat else b.toNat

/-- The FNV offset basis. -/
def fnvOffset : ℕ := 2166136261

/-- The FNV prime. -/
def fnvPrime : ℕ := 16777619

/-- `hash = ((hash ^ c) * 16777619u) & 0xFFFFFFFFu`, in a `uint_fast32_t`. -/
def hashStep (T : Target) (hash c : ℕ) : ℕ := ((hash ^^^ c) * fnvPrime) % 2 ^ T.fast32 &&& 0xFFFFFFFF

/-- One turn of the loop of `cop_strh_init_shallow`, on `hash` and `length`. -/
def initShallowTurn (T : Target) (m : Bytes) (pStr : ℕ) :
    ℕ × ℕ → Exec Fault (Turn (ℕ × ℕ) (ℕ × ℕ))
  | (hash, length) =>
    let c := charValue T (m (pStr + length))
    let length := (length + 1) % 2 ^ T.fast32
    if c ≠ 0 then .ok (.more (hashStep T hash c, length)) else .ok (.done (hash, length))

/-- `cop_strh_init_shallow`. -/
def copStrhInitShallow (T : Target) (fuel : ℕ) (m : Bytes) (pStr : ℕ) : Exec Fault Strh := do
  let (hash, length) ← loop (initShallowTurn T m pStr) fuel (fnvOffset, 0)
  return { len := length, hash := hash, ptr := pStr }

/-- One byte of FNV-1a. -/
def fnvStep (h : ℕ) (b : UInt8) : ℕ := ((h ^^^ b.toNat) * fnvPrime) % 2 ^ 32

/-- 32-bit FNV-1a. -/
def fnv1a (bs : List UInt8) : ℕ := bs.foldl fnvStep fnvOffset

/-- `n` nonzero bytes at `p`, and a terminator after them. -/
structure IsCstr (m : Bytes) (p n : ℕ) : Prop where
  /-- The bytes of the string are not null. -/
  ne_zero : ∀ i < n, m (p + i) ≠ 0
  /-- The terminator. -/
  terminated : m (p + n) = 0

/-- The `cop_strh` the headers document for a string of `n` bytes at `p`. -/
def documentedStrh (m : Bytes) (p n : ℕ) : Strh := { len := n, hash := fnv1a (m.read p n), ptr := p }

/-- What the code makes of one byte. -/
def byteStep (T : Target) (h : ℕ) (b : UInt8) : ℕ := hashStep T h (charValue T b)

/-- The hash the code computes of the bytes before the terminator. -/
def foldHash (T : Target) (bs : List UInt8) : ℕ := bs.foldl (byteStep T) fnvOffset

/-- What `cop_strh_init_shallow` makes of a string of `n` bytes at `p`. -/
def initShallow (T : Target) (m : Bytes) (p n : ℕ) : Strh :=
  { len := (n + 1) % 2 ^ T.fast32, hash := foldHash T (m.read p n), ptr := p }

theorem charValue_eq_zero_iff (T : Target) (b : UInt8) : charValue T b = 0 ↔ b = 0 := by
  have hb : b = 0 ↔ b.toNat = 0 := by
    constructor
    · rintro rfl; rfl
    · exact fun h => UInt8.toNat_inj.1 h
  rw [hb, charValue]
  split
  · rename_i h
    have := T.two_pow_le
    omega
  · exact Iff.rfl

theorem read_succ (m : Bytes) (p n : ℕ) : m.read p (n + 1) = m.read p n ++ [m (p + n)] := by
  simp [Bytes.read, List.range_succ]

theorem foldHash_snoc (T : Target) (bs : List UInt8) (b : UInt8) :
    foldHash T (bs ++ [b]) = byteStep T (foldHash T bs) b := by
  rw [foldHash, foldHash, List.foldl_append, List.foldl_cons, List.foldl_nil]

theorem initShallow_loop {T : Target} {m : Bytes} {p n : ℕ} (h : IsCstr m p n) (hn : n < 2 ^ T.fast32) (i : ℕ)
    (hi : i ≤ n) (fuel : ℕ) (hfuel : n - i < fuel) :
    loop (initShallowTurn T m p) fuel (foldHash T (m.read p i), i) =
      .ok (foldHash T (m.read p n), (n + 1) % 2 ^ T.fast32) := by
  induction fuel generalizing i with
  | zero => omega
  | succ fuel ih =>
    by_cases hin : i = n
    · subst hin
      refine loop_done ?_ fuel
      simp only [initShallowTurn, (charValue_eq_zero_iff T _).2 h.terminated, ne_eq, not_true_eq_false, if_false]
    · have hne : charValue T (m (p + i)) ≠ 0 := fun h0 =>
        h.ne_zero i (by omega) ((charValue_eq_zero_iff T _).1 h0)
      have hturn : initShallowTurn T m p (foldHash T (m.read p i), i) =
          .ok (.more (foldHash T (m.read p (i + 1)), i + 1)) := by
        rw [read_succ, foldHash_snoc, byteStep]
        simp only [initShallowTurn, if_pos hne, Nat.mod_eq_of_lt (show i + 1 < 2 ^ T.fast32 by omega)]
      rw [loop_more hturn]
      exact ih (i + 1) (by omega) (by omega)

theorem copStrhInitShallow_ok {T : Target} {m : Bytes} {p n : ℕ} (h : IsCstr m p n) (hn : n < 2 ^ T.fast32)
    {fuel : ℕ} (hfuel : n < fuel) : copStrhInitShallow T fuel m p = .ok (initShallow T m p n) := by
  have hloop := initShallow_loop h hn 0 (Nat.zero_le n) fuel (by omega)
  have h0 : foldHash T (m.read p 0) = fnvOffset := rfl
  rw [h0] at hloop
  rw [copStrhInitShallow, hloop]
  rfl

theorem hashStep_eq (T : Target) (h c : ℕ) : hashStep T h c = ((h ^^^ c) * fnvPrime) % 2 ^ 32 := by
  have hmask : ∀ x : ℕ, x &&& 0xFFFFFFFF = x % 2 ^ 32 := fun x => Nat.and_two_pow_sub_one_eq_mod x 32
  rw [hashStep, hmask]
  exact Nat.mod_mod_of_dvd _ (Nat.pow_dvd_pow 2 T.fast32_ge)

/-- On a byte below 128 the code takes a step of FNV-1a, whatever the sign of plain `char`. -/
theorem byteStep_ascii (T : Target) (h : ℕ) {b : UInt8} (hb : b.toNat < 128) : byteStep T h b = fnvStep h b := by
  have hc : charValue T b = b.toNat := by rw [charValue, if_neg (by omega)]
  rw [byteStep, hc, hashStep_eq, fnvStep]

/-- On bytes below 128 the hash is FNV-1a. -/
theorem foldHash_ascii (T : Target) {bs : List UInt8} (h : ∀ b ∈ bs, b.toNat < 128) : foldHash T bs = fnv1a bs :=
  List.foldl_ext _ _ _ fun a b hb => byteStep_ascii T a (h b hb)

/-! ### Bounds -/

theorem fnvStep_lt (h : ℕ) (b : UInt8) : fnvStep h b < 2 ^ 32 := Nat.mod_lt _ (by decide)

theorem byteStep_lt (T : Target) (h : ℕ) (b : UInt8) : byteStep T h b < 2 ^ 32 := by
  rw [byteStep, hashStep_eq]
  exact Nat.mod_lt _ (by decide)

theorem foldl_lt {α : Type} {f : ℕ → α → ℕ} {N : ℕ} (hf : ∀ a b, f a b < N) (bs : List α) {a : ℕ} (ha : a < N) :
    bs.foldl f a < N := by
  induction bs generalizing a with
  | nil => exact ha
  | cons b bs ih =>
    rw [List.foldl_cons]
    exact ih (hf a b)

theorem fnv1a_lt (bs : List UInt8) : fnv1a bs < 2 ^ 32 := foldl_lt fnvStep_lt bs (by decide)

theorem foldHash_lt (T : Target) (bs : List UInt8) : foldHash T bs < 2 ^ 32 := foldl_lt (byteStep_lt T) bs (by decide)

/-- Whatever `cop_strh_init_shallow` makes of a string, it is `initShallow`. -/
theorem copStrhInitShallow_eq {T : Target} {fuel : ℕ} {m : Bytes} {p n : ℕ} (h : IsCstr m p n) {s : Strh}
    (hs : copStrhInitShallow T fuel m p = .ok s) : n < 2 ^ T.fast32 ∧ s = initShallow T m p n := by
  have hn : n < 2 ^ T.fast32 := by
    by_contra hge
    -- the counter wraps before it reaches the terminator, and the loop goes on
    have hpos : 0 < 2 ^ T.fast32 := Nat.pow_pos (by decide)
    have hne : ∀ l < 2 ^ T.fast32, charValue T (m (p + l)) ≠ 0 := fun l hl h0 =>
      h.ne_zero l (by omega) ((charValue_eq_zero_iff T _).1 h0)
    obtain ⟨r, hr, -⟩ := bind_ok hs
    refine loop_partial (I := fun x => x.2 < 2 ^ T.fast32) (Q := fun _ => False) ?_ ?_ hpos hr
    · rintro ⟨hash, l⟩ s' hl hmore
      rw [initShallowTurn, if_pos (hne l hl)] at hmore
      cases hmore
      exact Nat.mod_lt _ hpos
    · rintro ⟨hash, l⟩ r hl hdone
      rw [initShallowTurn, if_pos (hne l hl)] at hdone
      cases hdone
  refine ⟨hn, ?_⟩
  have hok := copStrhInitShallow_ok h hn (show n < max fuel (n + 1) by omega)
  obtain ⟨r, hr, hs⟩ := bind_ok hs
  rw [copStrhInitShallow, loop_mono hr (Nat.le_max_left fuel (n + 1))] at hok
  exact Except.ok.inj (hs.symm.trans hok)

end Cop.Strdict
