import Jos64.Dwarf.Die.Core
import Jos64.Dwarf.Numbers

/-!
# Units

The units of a section follow one another, each behind a header that says how
long it is.
-/

namespace Jos64.Dwarf

variable (dbg : Debug)

/-- `_get_next_cu`: the code, the offset of the next unit, and the unit as far as
it is filled in.  The length is a `uint32_t`. -/
def getNextCu (currOff : Nat) (cu : CU) : Option (Int × Nat × CU) :=
  if dbg.debugInfo.dsSize < currOff then some (-1, currOff, cu)
  else
    (dbg.read dbg.debugInfo currOff 4).bind fun (short, offset) =>
      (if short % 2 ^ 32 = 0xffffffff then
          (dbg.read dbg.debugInfo offset 8).map fun (long, offset) => (long % 2 ^ 32, 8, offset)
        else some (short % 2 ^ 32, 4, offset)).bind fun (length, dwarfSize, offset) =>
        let next := u64 (offset + length)
        (dbg.read dbg.debugInfo offset 2).bind fun (version, offset) =>
          (dbg.read dbg.debugInfo offset dwarfSize).bind fun (debugAbbrevOffset, offset) =>
            (dbg.read dbg.debugInfo offset 1).map fun (addrSize, offset) =>
              let cu := { cu with
                cuOffset := currOff
                cuDwarfSize := dwarfSize
                cuNextOffset := next
                cuLength := length
                cuLengthSize := if dwarfSize = 4 then 4 else 12
                version := version
                debugAbbrevOffset := debugAbbrevOffset
                addrSize := addrSize }
              if version < 2 ∨ 4 < version then (-1, next, cu)
              else (0, next, { cu with cuDieOffset := offset })

variable {dbg}

theorem read_offset {ds : Section} {offset width value next : Nat} (known : IsWidth width)
    (found : dbg.read ds offset width = some (value, next)) : next = u64 (offset + width) := by
  rw [Debug.read, dbgRead,
    if_pos (show width = 1 ∨ width = 2 ∨ width = 4 ∨ width = 8 from known)] at found
  obtain ⟨bytes, -, result⟩ := Option.map_eq_some_iff.mp found
  cases result
  rfl

/-- What a unit that is found has been made from: its length and the offset behind
the length. -/
theorem getNextCu_cases {currOff next : Nat} {cu cu' : CU}
    (found : getNextCu dbg currOff cu = some (0, next, cu')) :
    currOff ≤ dbg.debugInfo.dsSize ∧ ∃ short offset length dwarfSize offset',
      dbg.read dbg.debugInfo currOff 4 = some (short, offset) ∧
      (if short % 2 ^ 32 = 0xffffffff then
          (dbg.read dbg.debugInfo offset 8).map fun (long, offset) => (long % 2 ^ 32, 8, offset)
        else some (short % 2 ^ 32, 4, offset)) = some (length, dwarfSize, offset') ∧
      next = u64 (offset' + length) ∧ cu'.cuNextOffset = next := by
  rw [getNextCu] at found
  split at found
  · cases found
  · rename_i inside
    refine ⟨not_lt.mp inside, ?_⟩
    obtain ⟨⟨short, offset⟩, short_eq, found⟩ := Option.bind_eq_some_iff.mp found
    obtain ⟨⟨length, dwarfSize, offset'⟩, length_eq, found⟩ := Option.bind_eq_some_iff.mp found
    refine ⟨short, offset, length, dwarfSize, offset', short_eq, length_eq, ?_⟩
    dsimp only at found
    obtain ⟨⟨version, offset₁⟩, -, found⟩ := Option.bind_eq_some_iff.mp found
    obtain ⟨⟨debugAbbrevOffset, offset₂⟩, -, found⟩ := Option.bind_eq_some_iff.mp found
    obtain ⟨⟨addrSize, offset₃⟩, -, made⟩ := Option.map_eq_some_iff.mp found
    dsimp only at made
    split at made
    · cases made
    · cases made
      exact ⟨rfl, rfl⟩

/-- The next unit begins behind the length of this one, at least. -/
theorem currOff_lt_of_getNextCu
    (in_memory : dbg.debugInfo.dsData + dbg.debugInfo.dsSize ≤ dbg.mem.top) {currOff next : Nat}
    {cu cu' : CU} (found : getNextCu dbg currOff cu = some (0, next, cu')) :
    currOff ≤ dbg.debugInfo.dsSize ∧ currOff < next := by
  have below_top := dbg.mem.top_lt
  obtain ⟨inside, short, offset, length, dwarfSize, offset', short_eq, length_eq, next_eq, -⟩ :=
    getNextCu_cases found
  refine ⟨inside, ?_⟩
  have offset_eq := read_offset (.inr (.inr (.inl rfl))) short_eq
  rw [u64_of_lt (by omega)] at offset_eq
  -- the length is a number of 32 bits in both formats
  have bounds : offset ≤ offset' ∧ offset' ≤ offset + 8 ∧ length < 2 ^ 32 := by
    split at length_eq
    · obtain ⟨⟨long, behind⟩, long_eq, result⟩ := Option.map_eq_some_iff.mp length_eq
      have behind_eq := read_offset (.inr (.inr (.inr rfl))) long_eq
      rw [u64_of_lt (by omega)] at behind_eq
      cases result
      exact ⟨by omega, by omega, Nat.mod_lt _ (by decide)⟩
    · cases length_eq
      exact ⟨le_refl _, by omega, Nat.mod_lt _ (by decide)⟩
  rw [u64_of_lt (by omega)] at next_eq
  omega

end Jos64.Dwarf
