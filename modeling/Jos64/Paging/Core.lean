import Mathlib.Tactic

/-!
# Page tables

A table of a level has 512 entries of eight bytes.  An entry of a higher level
refers to a table of the level below or maps a large page, and one of the lowest
level maps a page of 4096 bytes.  The walk of an address takes nine bits of it for
each level.
-/

namespace Jos64.Paging

/-- The number of the lowest bit of the index into a table of the level. -/
def shift (level : Nat) : Nat :=
  12 + 9 * level

/-- The index into a table of the level. -/
def index (level va : Nat) : Nat :=
  va / 2 ^ shift level % 512

/-! ## Entries -/

def isPresent (entry : Nat) : Bool :=
  entry.testBit 0

def isWritable (entry : Nat) : Bool :=
  entry.testBit 1

/-- The entry maps a large page. -/
def isLarge (entry : Nat) : Bool :=
  entry.testBit 7

/-- The physical address in an entry that maps a page of the level, or in one that
refers to a table, which is a page of level 0. -/
def frame (level entry : Nat) : Nat :=
  entry / 2 ^ shift level * 2 ^ shift level % 2 ^ 52

/-- Large pages are those of the levels 1 and 2, and their reserved bits have to be
zero. -/
def MayBeLarge (level entry : Nat) : Prop :=
  level ≤ 2 ∧ entry / 2 ^ 13 % 2 ^ (shift level - 13) = 0

instance (level entry : Nat) : Decidable (MayBeLarge level entry) :=
  inferInstanceAs (Decidable (_ ∧ _))

/-! ## The walk -/

/-- Where an address is mapped to: the physical address, in a page of a size. -/
structure Mapping where
  address : Nat
  size : Nat
  writable : Bool
  deriving DecidableEq

/-- The page of the level that an entry maps. -/
def page (level entry va : Nat) (writable : Bool) : Mapping :=
  ⟨frame level entry + va % 2 ^ shift level, 2 ^ shift level, writable⟩

/-- The walk from a table of a level.  What is mapped is writable if every entry on
the way says so. -/
def walk (read : Nat → Nat) : (level table va : Nat) → (writable : Bool) → Option Mapping
  | 0, table, va, writable =>
      let entry := read (table + 8 * index 0 va)
      if isPresent entry then some (page 0 entry va (writable && isWritable entry)) else none
  | level + 1, table, va, writable =>
      let entry := read (table + 8 * index (level + 1) va)
      let writable := writable && isWritable entry
      if isPresent entry then
        if isLarge entry then
          if MayBeLarge (level + 1) entry then some (page (level + 1) entry va writable) else none
        else walk read level (frame 0 entry) va writable
      else none

/-- The walk of four levels. -/
def translate (read : Nat → Nat) (root va : Nat) : Option Mapping :=
  walk read 3 root va true

section

variable {read : Nat → Nat} {level table va entry : Nat} {writable : Bool}
  (here : read (table + 8 * index (level + 1) va) = entry)

include here

theorem walk_absent (absent : isPresent entry = false) :
    walk read (level + 1) table va writable = none := by
  rw [walk, here]
  rw [absent, if_neg Bool.false_ne_true]

theorem walk_table (present : isPresent entry = true) (refers : isLarge entry = false) :
    walk read (level + 1) table va writable =
      walk read level (frame 0 entry) va (writable && isWritable entry) := by
  rw [walk, here]
  rw [present, refers, if_pos rfl, if_neg Bool.false_ne_true]

theorem walk_large (present : isPresent entry = true) (large : isLarge entry = true)
    (may : MayBeLarge (level + 1) entry) :
    walk read (level + 1) table va writable =
      some (page (level + 1) entry va (writable && isWritable entry)) := by
  rw [walk, here]
  rw [present, large, if_pos rfl, if_pos rfl, if_pos may]

end

/-! ## Entries that are an address and flags -/

section

variable {level address flags : Nat} (small : flags < 2 ^ 12)

include small

theorem flags_lt (level : Nat) : flags < 2 ^ shift level :=
  small.trans_le (Nat.pow_le_pow_right Nat.two_pos (Nat.le_add_right 12 _))

/-- What is asked of the flags does not depend on the address. -/
theorem testBit_flags {bit : Nat} (inside : bit < 12) :
    (2 ^ shift level * address + flags).testBit bit = flags.testBit bit := by
  have below : bit < shift level := inside.trans_le (Nat.le_add_right 12 _)
  rw [Nat.testBit_two_pow_mul_add _ (flags_lt small level), if_pos below]

theorem frame_eq (address_lt : 2 ^ shift level * address < 2 ^ 52) :
    frame level (2 ^ shift level * address + flags) = 2 ^ shift level * address := by
  rw [frame, Nat.mul_add_div (Nat.two_pow_pos _), Nat.div_eq_of_lt (flags_lt small level),
    Nat.add_zero, Nat.mul_comm, Nat.mod_eq_of_lt address_lt]

theorem mayBeLarge (positive : 0 < level) (level_le : level ≤ 2) :
    MayBeLarge level (2 ^ shift level * address + flags) := by
  have split : 2 ^ shift level = 2 ^ 13 * 2 ^ (shift level - 13) := by
    rw [← Nat.pow_add]
    congr 1
    unfold shift
    omega
  refine ⟨level_le, ?_⟩
  rw [split, Nat.mul_assoc, Nat.mul_add_div (by decide), Nat.div_eq_of_lt (by omega), Nat.add_zero,
    Nat.mul_mod_right]

variable {read : Nat → Nat} {table va : Nat} {writable : Bool} (present : isPresent flags = true)

include present

/-- The walk of an entry that refers to a table. -/
theorem walk_entry_table (refers : isLarge flags = false)
    (address_lt : 2 ^ shift 0 * address < 2 ^ 52)
    (here : read (table + 8 * index (level + 1) va) = 2 ^ shift 0 * address + flags) :
    walk read (level + 1) table va writable =
      walk read level (2 ^ shift 0 * address) va (writable && isWritable flags) := by
  have flag {bit : Nat} (inside : bit < 12) :
      (2 ^ shift 0 * address + flags).testBit bit = flags.testBit bit :=
    testBit_flags small inside
  have writable_eq : isWritable (2 ^ shift 0 * address + flags) = isWritable flags :=
    flag (by decide)
  rw [walk_table here ((flag (by decide)).trans present) ((flag (by decide)).trans refers),
    frame_eq small address_lt, writable_eq]

/-- The walk of an entry that maps a large page. -/
theorem walk_entry_large (large : isLarge flags = true) (level_le : level + 1 ≤ 2)
    (address_lt : 2 ^ shift (level + 1) * address < 2 ^ 52)
    (here : read (table + 8 * index (level + 1) va) = 2 ^ shift (level + 1) * address + flags) :
    walk read (level + 1) table va writable =
      some ⟨2 ^ shift (level + 1) * address + va % 2 ^ shift (level + 1), 2 ^ shift (level + 1),
        writable && isWritable flags⟩ := by
  have flag {bit : Nat} (inside : bit < 12) :
      (2 ^ shift (level + 1) * address + flags).testBit bit = flags.testBit bit :=
    testBit_flags small inside
  have writable_eq : isWritable (2 ^ shift (level + 1) * address + flags) = isWritable flags :=
    flag (by decide)
  rw [walk_large here ((flag (by decide)).trans present) ((flag (by decide)).trans large)
    (mayBeLarge small (Nat.succ_pos level) level_le), page, frame_eq small address_lt, writable_eq]

end

end Jos64.Paging
