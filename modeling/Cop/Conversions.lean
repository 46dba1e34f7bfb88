import Cop.Platform
import Cop.Theory.LittleEndian
import Mathlib.Data.Int.ModEq
import Mathlib.Data.Nat.Bitwise
import Mathlib.Data.UInt

/-!
# Numbers in memory

`cop_conversions.h`: numbers of two, three and four bytes are stored in memory with the least
significant byte first, and loaded again, also with the most significant byte first. A value that
is wider than its field is cut down. The signed load of three bytes is there twice: the one that
clang compiles for amd64 copies the bytes into the upper part of an `int32_t` and shifts it down;
the other takes the complement of a negative number.

## What is proved

* `Store.run_eq` — a store writes the bytes of its value at its position, and no other bytes.
* `copLdSle24_eq`, `copLdSle24Clang_eq` — both signed loads give the signed residue of the three
  bytes.
* `ofLe_runs` — what a load finds after any stores that do not overlap.
* `stores_read_back` — after such stores, in any order, every field is read back.
-/

namespace Cop.Conversions

open Theory

/-- The widths of `uint_fast16_t` and `uint_fast32_t`. -/
structure Widths where
  /-- The width of `uint_fast16_t`. -/
  fast16 : ℕ
  /-- The width of `uint_fast32_t`. -/
  fast32 : ℕ
  /-- It has 16 bits at least. -/
  fast16_ge : 16 ≤ fast16
  /-- It has 32 bits at least. -/
  fast32_ge : 32 ≤ fast32

variable (W : Widths) (m : Bytes) (buf : ℕ)

/-! ### Loads -/

/-- `cop_ld_ule16`. -/
def copLdUle16 : ℕ := orShifts W.fast16 (fun i => m (buf + i)) 2

/-- `cop_ld_ube16`. -/
def copLdUbe16 : ℕ := orShifts W.fast16 (fun i => m (buf + (1 - i))) 2

/-- `cop_ld_ule24`. -/
def copLdUle24 : ℕ := orShifts W.fast32 (fun i => m (buf + i)) 3

/-- `cop_ld_ube24`. -/
def copLdUbe24 : ℕ := orShifts W.fast32 (fun i => m (buf + (2 - i))) 3

/-- `cop_ld_ule32`. -/
def copLdUle32 : ℕ := orShifts W.fast32 (fun i => m (buf + i)) 4

/-- `cop_ld_ube32`. -/
def copLdUbe32 : ℕ := orShifts W.fast32 (fun i => m (buf + (3 - i))) 4

/-- `cop_ld_sle24` as clang compiles it for amd64: the bytes of `val` above the lowest are those of
the buffer, and the shift of an `int32_t` keeps the sign. -/
def copLdSle24Clang : ℤ :=
  let val : ℤ := Int.bmod (ofLe [0, m buf, m (buf + 1), m (buf + 2)]) (2 ^ 32)
  val >>> (8 : ℕ)

/-- The last line of `cop_ld_sle24` elsewhere. `2 ^ W.fast32 - (val + 1)` is `~val`. -/
def signed24 (val : ℕ) : ℤ :=
  if val &&& 0x800000 ≠ 0 then -((((2 ^ W.fast32 - (val + 1)) &&& 0x7FFFFF) + 1 : ℕ) : ℤ) else val

/-- `cop_ld_sle24` elsewhere. -/
def copLdSle24 : ℤ :=
  let val := (m (buf + 2)).toNat
  let val := Word.shl W.fast32 val 8 ||| (m (buf + 1)).toNat
  let val := Word.shl W.fast32 val 8 ||| (m buf).toNat
  signed24 W val

/-! ### Stores -/

/-- `cop_st_ule16`. -/
def copStUle16 (val : ℕ) : Bytes := storeShifts m buf val 2

/-- `cop_st_sle16`. -/
def copStSle16 (val : ℤ) : Bytes := copStUle16 m buf ((val % 2 ^ W.fast16).toNat &&& 0xFFFF)

/-- `cop_st_ule24`. -/
def copStUle24 (val : ℕ) : Bytes := storeShifts m buf val 3

/-- `cop_st_sle24`. -/
def copStSle24 (val : ℤ) : Bytes := copStUle24 m buf ((val % 2 ^ W.fast32).toNat &&& 0xFFFFFF)

/-- `cop_st_ule32`. -/
def copStUle32 (val : ℕ) : Bytes := storeShifts m buf val 4

/-- A call of one of the stores. -/
inductive Store where
  /-- `cop_st_ule16`. -/
  | ule16 (buf val : ℕ)
  /-- `cop_st_sle16`. -/
  | sle16 (buf : ℕ) (val : ℤ)
  /-- `cop_st_ule24`. -/
  | ule24 (buf val : ℕ)
  /-- `cop_st_sle24`. -/
  | sle24 (buf : ℕ) (val : ℤ)
  /-- `cop_st_ule32`. -/
  | ule32 (buf val : ℕ)

namespace Store

/-- What the call does. -/
def run : Store → Bytes
  | .ule16 buf val => copStUle16 m buf val
  | .sle16 buf val => copStSle16 W m buf val
  | .ule24 buf val => copStUle24 m buf val
  | .sle24 buf val => copStSle24 W m buf val
  | .ule32 buf val => copStUle32 m buf val

/-- Where the field is. -/
def pos : Store → ℕ
  | .ule16 buf _ | .sle16 buf _ | .ule24 buf _ | .sle24 buf _ | .ule32 buf _ => buf

/-- The bytes of the field. -/
def size : Store → ℕ
  | .ule16 _ _ | .sle16 _ _ => 2
  | .ule24 _ _ | .sle24 _ _ => 3
  | .ule32 _ _ => 4

/-- The value that is stored. -/
def val : Store → ℤ
  | .ule16 _ val | .ule24 _ val | .ule32 _ val => val
  | .sle16 _ val | .sle24 _ val => val

/-- The number whose bytes are written: a signed value is converted, and masked. -/
def word : Store → ℕ
  | .ule16 _ val | .ule24 _ val | .ule32 _ val => val
  | .sle16 _ val => (val % 2 ^ W.fast16).toNat &&& 0xFFFF
  | .sle24 _ val => (val % 2 ^ W.fast32).toNat &&& 0xFFFFFF

end Store

/-- The memory after some stores, one after the other. -/
def runs (ss : List Store) : Bytes := ss.foldl (fun m s => s.run W m) m

/-- No two of the fields overlap. -/
def NoOverlap (ss : List Store) : Prop := ss.Pairwise fun s t => Clear s.pos s.size t.pos t.size

variable {W m buf}

/-! ### What the loads give -/

theorem copLdUle16_eq : copLdUle16 W m buf = ofLe (window m buf 2) := orShifts_eq _ W.fast16_ge

theorem copLdUle24_eq : copLdUle24 W m buf = ofLe (window m buf 3) :=
  orShifts_eq _ (Nat.le_trans (by decide) W.fast32_ge)

theorem copLdUle32_eq : copLdUle32 W m buf = ofLe (window m buf 4) := orShifts_eq _ W.fast32_ge

theorem ofLe_three :
    ofLe (window m buf 3) = (m buf).toNat + 256 * ((m (buf + 1)).toNat + 256 * (m (buf + 2)).toNat) := by
  rw [window_cons, window_cons, window_cons, window_zero, ofLe_cons, ofLe_cons, ofLe_cons, ofLe_nil]
  rfl

/-- An arithmetic shift of an `int32_t` takes the sign down. -/
theorem bmod_shiftRight (v : ℕ) : Int.bmod (256 * v : ℕ) (2 ^ 32) >>> (8 : ℕ) = Int.bmod v (2 ^ 24) := by
  rw [Int.shiftRight_eq_div_pow, Int.bmod_def, Int.bmod_def]
  push_cast
  split_ifs <;> omega

/-- **The bytes in the upper part of an `int32_t`**, shifted down. -/
theorem copLdSle24Clang_eq : copLdSle24Clang m buf = Int.bmod (ofLe (window m buf 3)) (2 ^ 24) := by
  have hbytes : ofLe [0, m buf, m (buf + 1), m (buf + 2)] = 256 * ofLe (window m buf 3) := by
    rw [ofLe_cons, UInt8.toNat_zero, Nat.zero_add]
    rfl
  rw [← bmod_shiftRight, ← hbytes]
  rfl

/-- Bit 23 is the sign, and a negative number is the complement of what is below it, plus one. -/
theorem signed24_eq {val : ℕ} (h : val < 2 ^ 24) : signed24 W val = Int.bmod val (2 ^ 24) := by
  obtain ⟨k, hk⟩ : 2 ^ 24 ∣ 2 ^ W.fast32 := Nat.pow_dvd_pow 2 (Nat.le_trans (by decide) W.fast32_ge)
  have hpos : 0 < 2 ^ W.fast32 := Nat.two_pow_pos _
  have hbit : val &&& 0x800000 = (val / 2 ^ 23 % 2) * 2 ^ 23 := by
    rw [show (0x800000 : ℕ) = 2 ^ 23 from rfl, Nat.and_two_pow, Nat.toNat_testBit]
  have hmask : ∀ x : ℕ, x &&& 0x7FFFFF = x % 2 ^ 23 := fun x => Nat.and_two_pow_sub_one_eq_mod x 23
  rw [signed24, hbit, hmask, Int.bmod_def]
  push_cast
  split_ifs <;> omega

/-- **The complement of a negative number.** -/
theorem copLdSle24_eq : copLdSle24 W m buf = Int.bmod (ofLe (window m buf 3)) (2 ^ 24) := by
  have h0 := (m buf).toNat_lt
  have h1 := (m (buf + 1)).toNat_lt
  have h2 := (m (buf + 2)).toNat_lt
  have hw : 2 ^ 32 ≤ 2 ^ W.fast32 := Nat.pow_le_pow_right (by decide) W.fast32_ge
  have hupper : Word.shl W.fast32 (m (buf + 2)).toNat 8 ||| (m (buf + 1)).toNat =
      (m (buf + 1)).toNat + 2 ^ 8 * (m (buf + 2)).toNat := by
    rw [Word.shl_of_lt (by omega), Nat.or_comm, Word.or_two_pow_mul h1]
  have hval : Word.shl W.fast32 (Word.shl W.fast32 (m (buf + 2)).toNat 8 ||| (m (buf + 1)).toNat) 8 ||| (m buf).toNat =
      ofLe (window m buf 3) := by
    rw [hupper, Word.shl_of_lt (by omega), Nat.or_comm, Word.or_two_pow_mul h0, ofLe_three]
    omega
  have hlt : ofLe (window m buf 3) < 2 ^ 24 := by
    rw [ofLe_three]
    omega
  have hsplit : copLdSle24 W m buf = signed24 W (ofLe (window m buf 3)) := by
    rw [← hval]
    rfl
  rw [hsplit, signed24_eq hlt]

/-! ### What the stores do -/

theorem Store.run_eq (s : Store) : s.run W m = put m s.pos (toLe s.size (s.word W)) := by
  cases s <;> exact storeShifts_eq _ _ _ _

theorem mask_emod {w n : ℕ} (val : ℤ) (h : n ≤ w) :
    (((val % 2 ^ w).toNat &&& (2 ^ n - 1) : ℕ) : ℤ) % 2 ^ n = val % 2 ^ n := by
  have hpos : (0 : ℤ) < 2 ^ w := by positivity
  have hdvd : (2 : ℤ) ^ n ∣ 2 ^ w := pow_dvd_pow 2 h
  rw [Nat.and_two_pow_sub_one_eq_mod]
  push_cast
  rw [Int.toNat_of_nonneg (Int.emod_nonneg val hpos.ne'), Int.emod_emod, Int.emod_emod_of_dvd val hdvd]

theorem Store.word_emod (s : Store) : (s.word W : ℤ) % 256 ^ s.size = s.val % 256 ^ s.size := by
  cases s with
  | ule16 buf val => rfl
  | sle16 buf val => exact mask_emod val W.fast16_ge
  | ule24 buf val => rfl
  | sle24 buf val => exact mask_emod (n := 24) val (Nat.le_trans (by decide) W.fast32_ge)
  | ule32 buf val => rfl

theorem runs_eq (ss : List Store) : runs W m ss = putAll m (ss.map fun s => (s.pos, toLe s.size (s.word W))) := by
  induction ss generalizing m with
  | nil => rfl
  | cons s ss ih =>
    rw [List.map_cons, putAll_cons, ← s.run_eq, ← ih]
    rfl

theorem NoOverlap.allClear {ss : List Store} (h : NoOverlap ss) :
    AllClear (ss.map fun s => (s.pos, toLe s.size (s.word W))) := by
  refine List.pairwise_map.2 (h.imp fun {s t} hst => ?_)
  rwa [length_toLe, length_toLe]

/-- In any order, stores that do not overlap do the same. -/
theorem runs_perm {ss ss' : List Store} (h : NoOverlap ss) (hperm : ss'.Perm ss) : runs W m ss' = runs W m ss := by
  rw [runs_eq, runs_eq]
  exact (putAll_perm (hperm.symm.map _) h.allClear m).symm

/-- **What a load finds** in the field of a store. -/
theorem ofLe_runs {ss : List Store} (h : NoOverlap ss) {s : Store} (hs : s ∈ ss) :
    (ofLe (window (runs W m ss) s.pos s.size) : ℤ) = s.val % 256 ^ s.size := by
  have hwin := window_putAll (m := m) (h.allClear (W := W)) (List.mem_map_of_mem hs)
  dsimp only at hwin
  rw [length_toLe, ← runs_eq] at hwin
  rw [hwin, ofLe_toLe, ← s.word_emod (W := W)]
  push_cast
  rfl

/-- **Fields that are stored are read back.** After stores that do not overlap, in any order, a load
at the position of a field returns the value that was stored, modulo what the field can hold; the
signed load returns the signed residue; and no byte outside the fields has changed. Both versions
of the signed load are the same, and a load with the most significant byte first is the load of the
same bytes reversed. -/
theorem stores_read_back {ss ss' : List Store} (h : NoOverlap ss) (hperm : ss'.Perm ss) :
    (∀ s ∈ ss, s.size = 2 → (copLdUle16 W (runs W m ss') s.pos : ℤ) = s.val % 2 ^ 16) ∧
      (∀ s ∈ ss, s.size = 3 → (copLdUle24 W (runs W m ss') s.pos : ℤ) = s.val % 2 ^ 24 ∧
        copLdSle24 W (runs W m ss') s.pos ≡ s.val [ZMOD 2 ^ 24] ∧
        -2 ^ 23 ≤ copLdSle24 W (runs W m ss') s.pos ∧ copLdSle24 W (runs W m ss') s.pos < 2 ^ 23) ∧
      (∀ s ∈ ss, s.size = 4 → (copLdUle32 W (runs W m ss') s.pos : ℤ) = s.val % 2 ^ 32) ∧
      (∀ i, (∀ s ∈ ss, i ∉ extent s.pos s.size) → runs W m ss' i = m i) ∧
      (∀ n buf, copLdSle24Clang n buf = copLdSle24 W n buf) ∧
      (∀ n n' buf buf', (∀ i < 2, n' (buf' + i) = n (buf + (1 - i))) → copLdUbe16 W n buf = copLdUle16 W n' buf') ∧
      (∀ n n' buf buf', (∀ i < 3, n' (buf' + i) = n (buf + (2 - i))) → copLdUbe24 W n buf = copLdUle24 W n' buf') ∧
      ∀ n n' buf buf', (∀ i < 4, n' (buf' + i) = n (buf + (3 - i))) → copLdUbe32 W n buf = copLdUle32 W n' buf' := by
  rw [runs_perm h hperm]
  refine ⟨fun s hs hsize => ?_, fun s hs hsize => ?_, fun s hs hsize => ?_, fun i hi => ?_, fun n buf => ?_, ?_, ?_, ?_⟩
  · have hread := ofLe_runs (W := W) (m := m) h hs
    rw [hsize] at hread
    rw [copLdUle16_eq]
    exact hread
  · have hread := ofLe_runs (W := W) (m := m) h hs
    rw [hsize] at hread
    rw [copLdUle24_eq, copLdSle24_eq, hread]
    refine ⟨rfl, ?_, Int.le_bmod (by decide), Int.bmod_lt (by decide)⟩
    exact Int.bmod_emod.trans (Int.emod_emod _ _)
  · have hread := ofLe_runs (W := W) (m := m) h hs
    rw [hsize] at hread
    rw [copLdUle32_eq]
    exact hread
  · rw [runs_eq]
    refine putAll_of_notMem fun w hw => ?_
    obtain ⟨s, hs, rfl⟩ := List.mem_map.1 hw
    rw [length_toLe]
    exact hi s hs
  · rw [copLdSle24Clang_eq, copLdSle24_eq]
  · exact fun n n' buf buf' hrev => orShifts_congr fun i hi => (hrev i hi).symm
  · exact fun n n' buf buf' hrev => orShifts_congr fun i hi => (hrev i hi).symm
  · exact fun n n' buf buf' hrev => orShifts_congr fun i hi => (hrev i hi).symm

/-- The least widths. -/
def leastWidths : Widths := ⟨16, 32, le_rfl, le_rfl⟩

/-- Fields of two, three and four bytes, stored in another order. -/
theorem stores_read_back_three :
    copLdSle24 leastWidths (runs leastWidths 0 [.ule32 13 5000000000, .sle16 8 (-2), .sle24 10 (-70000)]) 10 = -70000 ∧
      (copLdUle32 leastWidths (runs leastWidths 0 [.ule32 13 5000000000, .sle16 8 (-2), .sle24 10 (-70000)]) 13 : ℤ) =
        5000000000 % 2 ^ 32 := by
  have h : NoOverlap [.sle16 8 (-2), .sle24 10 (-70000), .ule32 13 5000000000] := by
    unfold NoOverlap
    decide
  have hperm : ([Store.ule32 13 5000000000] ++ [Store.sle16 8 (-2), Store.sle24 10 (-70000)]).Perm
      ([Store.sle16 8 (-2), Store.sle24 10 (-70000)] ++ [Store.ule32 13 5000000000]) := List.perm_append_comm
  obtain ⟨-, h24, h32, -⟩ := stores_read_back (W := leastWidths) (m := 0) h hperm
  have h24 := h24 (.sle24 10 (-70000)) (by simp) rfl
  have h32 := h32 (.ule32 13 5000000000) (by simp) rfl
  simp only [Store.val, Store.pos, List.singleton_append, Int.ModEq] at h24 h32
  exact ⟨by omega, h32⟩

end Cop.Conversions
