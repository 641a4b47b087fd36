import Mathlib.Tactic

/-!
# Bytes and C integers

Characters are bytes, and a C string is the list of the bytes before its
terminating NUL.  An `int` whose bits matter is a `BitVec 32`; one that only
counts is an integer, and `wrap32` is then the value that a 32-bit register
keeps of an intermediate result.
-/

namespace Jos64

/-- An `unsigned char` or `uint8_t`. -/
abbrev Byte := BitVec 8

/-- The character constant `c` of the source. -/
def chr (c : Char) : Byte := BitVec.ofNat 8 c.toNat

/-- The bytes of a string literal of the source. -/
def str (s : String) : List Byte := s.toList.map chr

/-- A NUL-terminated string: the bytes before the NUL. -/
structure CString where
  bytes : List Byte
  nonzero : ∀ byte ∈ bytes, byte ≠ 0

/-- The value of an `int` after an operation whose exact result is `x`. -/
def wrap32 (x : Int) : Int := x.bmod (2 ^ 32)

theorem wrap32_low (x : Int) : -(2 ^ 31) ≤ wrap32 x := by
  exact Int.le_bmod (by decide)

theorem wrap32_high (x : Int) : wrap32 x < 2 ^ 31 := by
  exact Int.bmod_lt (by decide)

theorem wrap32_wrap32_sub (x y : Int) : wrap32 (wrap32 x - y) = wrap32 (x - y) := by
  exact Int.bmod_sub_bmod

theorem wrap32_of_range {x : Int} (low : -(2 ^ 31) ≤ x) (high : x < 2 ^ 31) : wrap32 x = x := by
  unfold wrap32
  rw [Int.bmod_def]
  split <;> omega

end Jos64
