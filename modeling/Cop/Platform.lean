import Cop.Theory.Exec
import Mathlib.Algebra.Group.Nat.Defs

/-!
# The platform

What the C sources leave to the platform, and what they must never do. A `Target`
fixes the choices of a compiler that change what the code computes: whether plain
`char` is signed, and the width of `uint_fast32_t`. `uint_fast64_t` is 64 bits
wide on every target considered. Memory that holds strings is a map from
addresses to bytes.
-/

namespace Cop

open Theory

/-- What stops a C program, or leaves its behaviour undefined. -/
inductive Fault where
  /-- A null pointer is followed. -/
  | nullDeref
  /-- An `assert` fails. -/
  | assertion
  /-- An array is accessed outside its bounds. -/
  | outOfBounds
  /-- A `size_t` index has wrapped. -/
  | wrapped
  /-- A division by zero. -/
  | divByZero
  /-- Memory that is not taken is given back. -/
  | badFree
  /-- `memcpy` between arrays that overlap. -/
  | overlap
  /-- Memory that was freed is read. -/
  | useAfterFree
  deriving DecidableEq

/-- The choices of the compiler. -/
structure Target where
  /-- Plain `char` is signed. -/
  charSigned : Bool
  /-- The width of `uint_fast32_t`. -/
  fast32 : ℕ
  /-- It is one of the two widths in use. -/
  fast32_eq : fast32 = 32 ∨ fast32 = 64

theorem Target.fast32_ge (T : Target) : 32 ≤ T.fast32 := by
  rcases T.fast32_eq with h | h <;> omega

theorem Target.two_pow_le (T : Target) : 2 ^ 32 ≤ 2 ^ T.fast32 := Nat.pow_le_pow_right (by decide) T.fast32_ge

/-- Byte memory. -/
abbrev Bytes := ℕ → UInt8

/-- The `n` bytes at address `p`. -/
def Bytes.read (m : Bytes) (p n : ℕ) : List UInt8 := (List.range n).map fun i => m (p + i)

/-- `!memcmp(p, q, n)`. -/
def memcmpEq (m : Bytes) (p q n : ℕ) : Bool := (List.range n).all fun i => m (p + i) == m (q + i)

theorem memcmpEq_iff {m : Bytes} {p q n : ℕ} : memcmpEq m p q n = true ↔ m.read p n = m.read q n := by
  simp [memcmpEq, Bytes.read]

end Cop
