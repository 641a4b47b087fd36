import Jos64.Store.Core

/-!
# Double words in a store of bytes

A double word takes four bytes, the lowest first.  Double words that do not
overlap can be stored in any order, and a table of them is laid out one behind
the other.
-/

namespace Jos64.Store

/-- The double word at an address. -/
def dword (store : Nat → BitVec 8) (address : Nat) : Nat :=
  (store address).toNat + 2 ^ 8 * (store (address + 1)).toNat +
    2 ^ 16 * (store (address + 2)).toNat + 2 ^ 24 * (store (address + 3)).toNat

/-- The quad word at an address. -/
def qword (store : Nat → BitVec 8) (address : Nat) : Nat :=
  dword store address + 2 ^ 32 * dword store (address + 4)

/-- The bytes of a double word. -/
def dwordBytes (value : BitVec 32) : List (BitVec 8) :=
  [value.extractLsb' 0 8, value.extractLsb' 8 8, value.extractLsb' 16 8, value.extractLsb' 24 8]

def putDword (store : Nat → BitVec 8) (address : Nat) (value : BitVec 32) : Nat → BitVec 8 :=
  write store address (dwordBytes value)

/-- Double words of the same bytes are the same. -/
theorem dword_congr {store store' : Nat → BitVec 8} {address : Nat}
    (same : ∀ offset < 4, store' (address + offset) = store (address + offset)) :
    dword store' address = dword store address := by
  have first : store' address = store address := same 0 (by decide)
  rw [dword, dword, first, same 1 (by decide), same 2 (by decide), same 3 (by decide)]

section

variable {store : Nat → BitVec 8} {address : Nat} {value : BitVec 32}

/-- A double word that has been stored is read back. -/
theorem dword_putDword_self : dword (putDword store address value) address = value.toNat := by
  have held := holds_write store address (dwordBytes value)
  have first : putDword store address value address = _ := held 0 (show 0 < 4 by decide)
  have second : putDword store address value (address + 1) = _ := held 1 (show 1 < 4 by decide)
  have third : putDword store address value (address + 2) = _ := held 2 (show 2 < 4 by decide)
  have fourth : putDword store address value (address + 3) = _ := held 3 (show 3 < 4 by decide)
  rw [dword, first, second, third, fourth]
  simp only [dwordBytes, List.getElem_cons_zero, List.getElem_cons_succ, BitVec.extractLsb'_toNat,
    Nat.shiftRight_eq_div_pow]
  have small := value.isLt
  omega

/-- A double word before or behind it is kept. -/
theorem dword_putDword_of_apart {other : Nat} (apart : other + 4 ≤ address ∨ address + 4 ≤ other) :
    dword (putDword store address value) other = dword store other := by
  have kept (k : Nat) (inside : k < 4) :
      putDword store address value (other + k) = store (other + k) := by
    apply write_of_outside
    have length : (dwordBytes value).length = 4 := rfl
    rw [length]
    omega
  rw [dword, dword, kept 1 (by decide), kept 2 (by decide), kept 3 (by decide)]
  rw [show putDword store address value other = store other from kept 0 (by decide)]

end

/-! ## Tables -/

/-- So many double words stand one behind the other. -/
def Laid (store : Nat → BitVec 8) (base count : Nat) (words : Nat → BitVec 32) : Prop :=
  ∀ index < count, dword store (base + 4 * index) = (words index).toNat

section

variable {store : Nat → BitVec 8} {base count : Nat} {words : Nat → BitVec 32}

/-- Storing one more double word behind the table. -/
theorem Laid.succ (laid : Laid store base count words) :
    Laid (putDword store (base + 4 * count) (words count)) base (count + 1) words := by
  intro index inside
  by_cases last : index = count
  · rw [last, dword_putDword_self]
  · rw [dword_putDword_of_apart (by omega)]
    exact laid index (by omega)

end

end Jos64.Store
