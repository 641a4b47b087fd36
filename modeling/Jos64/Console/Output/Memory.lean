import Jos64.Console.Output.Core
import Jos64.Strings.Memory.Correctness

/-!
# The screen in memory

`crt_buf` has two bytes in memory for each cell.  Moving its cells is what `memmove` does
to these bytes.
-/

namespace Jos64.Console.Screen

/-- A byte of `crt_buf`. -/
def byteAt (screen : Screen) (offset : Nat) : Byte :=
  (screen.crtBuf (offset / 2)).extractLsb' (8 * (offset % 2)) 8

/-- `crt_buf` is at the address. -/
def HeldAt (screen : Screen) (mem : Strings.Memory) (crtBuf : Strings.Addr) : Prop :=
  ∀ offset < 2 * crtSize, mem (crtBuf + BitVec.ofNat 64 offset) = screen.byteAt offset

variable {screen next : Screen} {dst src count : Nat}

/-- The bytes of the cells that are moved, and of the others. -/
theorem byteAt_memmove (moved : screen.memmove dst src count = some next) (offset : Nat) :
    next.byteAt offset =
      if 2 * dst ≤ offset ∧ offset < 2 * dst + 2 * count then
        screen.byteAt (offset - 2 * dst + 2 * src)
      else screen.byteAt offset := by
  rw [memmove] at moved
  split at moved
  · cases moved
    rw [byteAt]
    dsimp only
    by_cases inside : 2 * dst ≤ offset ∧ offset < 2 * dst + 2 * count
    · have cell_eq : offset / 2 - dst + src = (offset - 2 * dst + 2 * src) / 2 := by omega
      have half_eq : offset % 2 = (offset - 2 * dst + 2 * src) % 2 := by omega
      rw [if_pos (by omega), if_pos inside, cell_eq, half_eq, byteAt]
    · rw [if_neg (by omega), if_neg inside, byteAt]
  · cases moved

theorem room_of_memmove (moved : screen.memmove dst src count = some next) :
    dst + count ≤ crtSize ∧ src + count ≤ crtSize := by
  rw [memmove] at moved
  split at moved
  · assumption
  · cases moved

/-- The cells are moved by the `memmove` of their bytes, which changes nothing else. -/
theorem memmove_heldAt (moved : screen.memmove dst src count = some next)
    {machine : Strings.Machine} {crtBuf : Strings.Addr}
    (room : crtBuf.toNat + 2 * crtSize < 2 ^ 64) (held : screen.HeldAt machine.mem crtBuf) :
    let after := (Strings.memmove (crtBuf + BitVec.ofNat 64 (2 * dst))
      (crtBuf + BitVec.ofNat 64 (2 * src)) (BitVec.ofNat 64 (2 * count)) machine).2.mem
    next.HeldAt after crtBuf ∧
      ∀ address, (∀ offset < 2 * crtSize, address ≠ crtBuf + BitVec.ofNat 64 offset) →
        after address = machine.mem address := by
  intro after
  obtain ⟨dst_le, src_le⟩ := room_of_memmove moved
  have at_eq {offset : Nat} (offset_le : offset ≤ 2 * crtSize) :
      (crtBuf + BitVec.ofNat 64 offset).toNat = crtBuf.toNat + offset := by
    rw [BitVec.toNat_add, BitVec.toNat_ofNat]
    omega
  have length_eq : (BitVec.ofNat 64 (2 * count)).toNat = 2 * count := by
    rw [BitVec.toNat_ofNat]
    omega
  have split_eq (first offset : Nat) : crtBuf + BitVec.ofNat 64 (first + offset) =
      crtBuf + BitVec.ofNat 64 first + BitVec.ofNat 64 offset := by
    rw [BitVec.ofNat_add, BitVec.add_assoc]
  have moves : Strings.Moved machine.mem after (crtBuf + BitVec.ofNat 64 (2 * dst))
      (crtBuf + BitVec.ofNat 64 (2 * src)) (BitVec.ofNat 64 (2 * count)) := by
    apply Strings.memmove_moved
    · rw [at_eq (by omega), length_eq]
      omega
    · rw [at_eq (by omega), length_eq]
      omega
  -- an address that is stored to is that of a byte of the cells
  have stored {later : BitVec 64} (inside : later < BitVec.ofNat 64 (2 * count)) :
      ∃ offset, 2 * dst ≤ offset ∧ offset < 2 * dst + 2 * count ∧
        crtBuf + BitVec.ofNat 64 (2 * dst) + later = crtBuf + BitVec.ofNat 64 offset := by
    rw [BitVec.lt_def, length_eq] at inside
    refine ⟨2 * dst + later.toNat, Nat.le_add_right _ _, by omega, ?_⟩
    rw [split_eq, BitVec.ofNat_toNat, BitVec.setWidth_eq]
  constructor
  · intro offset offset_lt
    rw [byteAt_memmove moved]
    split
    · rename_i inside
      obtain ⟨later, rfl⟩ := Nat.exists_eq_add_of_le inside.1
      have copied := moves.copied (BitVec.ofNat 64 later) (by
        rw [BitVec.lt_def, length_eq, BitVec.toNat_ofNat]
        omega)
      rw [split_eq, copied, ← split_eq, Nat.add_sub_cancel_left, Nat.add_comm later]
      exact held (2 * src + later) (by omega)
    · rename_i outside
      refine (moves.frame _ fun later inside same => outside ?_).trans (held offset offset_lt)
      obtain ⟨place, low, high, place_eq⟩ := stored inside
      have same := congrArg BitVec.toNat (same.trans place_eq)
      rw [at_eq offset_lt.le, at_eq (by omega)] at same
      omega
  · intro address elsewhere
    refine moves.frame address fun later inside same => ?_
    obtain ⟨place, -, high, place_eq⟩ := stored inside
    exact elsewhere place (by omega) (same.trans place_eq)

end Jos64.Console.Screen
