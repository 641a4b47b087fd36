import Jos64.Byte

/-!
# Reading sectors

The loader and the kernel read the disk in sectors of 512 bytes.  Reading some
sectors in a row copies a range of the disk to a range of memory.
-/

namespace Jos64.Disk

/-- `SECTSIZE` -/
def sectSize : Nat := 512

/-- The bytes of the disk, by what the ports name as a sector and the position
in it. -/
abbrev Sectors := Nat → Nat → Byte

/-- The sector that the ports name: the upper three bits of the last one are set
whatever the number is. -/
def portSector (offset : Nat) : Nat :=
  offset % 2 ^ 29

/-- `readsect` -/
def readsect (disk : Sectors) (mem : Nat → Byte) (dst offset : Nat) : Nat → Byte := fun address =>
  if dst ≤ address ∧ address < dst + sectSize then disk (portSector offset) (address - dst)
  else mem address

/-- The byte of the kernel image at a position.  The image begins in sector 1. -/
def imageByte (disk : Sectors) (position : Nat) : Byte :=
  disk (portSector (position / sectSize + 1)) (position % sectSize)

/-- The memory after `count` sectors from `offset` on have been read. -/
def copySectors (disk : Sectors) (mem : Nat → Byte) (dst offset count : Nat) : Nat → Byte :=
  fun address =>
    if dst ≤ address ∧ address < dst + count * sectSize then
      disk (portSector (offset + (address - dst) / sectSize)) ((address - dst) % sectSize)
    else mem address

variable (disk : Sectors) (mem : Nat → Byte) (dst offset count : Nat)

theorem copySectors_zero : copySectors disk mem dst offset 0 = mem := by
  funext address
  rw [copySectors, if_neg (by omega)]

theorem copySectors_succ :
    copySectors disk (readsect disk mem dst offset) (dst + sectSize) (offset + 1) count =
      copySectors disk mem dst offset (count + 1) := by
  funext address
  unfold copySectors readsect sectSize
  by_cases before : address < dst
  · rw [if_neg (by omega), if_neg (by omega), if_neg (by omega)]
  by_cases first : address < dst + 512
  · rw [if_neg (by omega), if_pos (by omega), if_pos (by omega),
      Nat.div_eq_of_lt (by omega), Nat.mod_eq_of_lt (by omega), Nat.add_zero]
  by_cases inside : address < dst + 512 + count * 512
  · have sector_eq :
        offset + 1 + (address - (dst + 512)) / 512 = offset + (address - dst) / 512 := by
      omega
    have index_eq : (address - (dst + 512)) % 512 = (address - dst) % 512 := by omega
    rw [if_pos (by omega), if_pos (by omega), sector_eq, index_eq]
  · rw [if_neg (by omega), if_neg (by omega), if_neg (by omega)]

/-- One more sector behind the others. -/
theorem copySectors_snoc :
    readsect disk (copySectors disk mem dst offset count) (dst + count * sectSize)
        (offset + count) =
      copySectors disk mem dst offset (count + 1) := by
  funext address
  unfold copySectors readsect sectSize
  dsimp only
  by_cases before : address < dst
  · rw [if_neg (by omega), if_neg (by omega), if_neg (by omega)]
  by_cases inside : address < dst + count * 512
  · rw [if_neg (by omega), if_pos (by omega), if_pos (by omega)]
  by_cases last : address < dst + count * 512 + 512
  · have sector_eq : offset + count = offset + (address - dst) / 512 := by omega
    have index_eq : address - (dst + count * 512) = (address - dst) % 512 := by omega
    rw [if_pos (by omega), if_pos (by omega), sector_eq, index_eq]
  · rw [if_neg (by omega), if_neg (by omega), if_neg (by omega)]

variable {disk mem dst offset count}

theorem copySectors_of_outside {address : Nat}
    (outside : address < dst ∨ dst + count * sectSize ≤ address) :
    copySectors disk mem dst offset count address = mem address := by
  rw [copySectors, if_neg (by omega)]

/-- A byte of the image that has been read from its sector. -/
theorem copySectors_of_inside {position address : Nat}
    (inside : dst ≤ address ∧ address < dst + count * sectSize) :
    copySectors disk mem dst (position / sectSize + 1) count address =
      imageByte disk (position / sectSize * sectSize + (address - dst)) := by
  have sector_eq : position / sectSize + 1 + (address - dst) / sectSize =
      (position / sectSize * sectSize + (address - dst)) / sectSize + 1 := by
    unfold sectSize
    omega
  have index_eq : (address - dst) % sectSize =
      (position / sectSize * sectSize + (address - dst)) % sectSize := by
    unfold sectSize
    omega
  rw [copySectors, if_pos inside, imageByte, sector_eq, ← index_eq]

end Jos64.Disk
