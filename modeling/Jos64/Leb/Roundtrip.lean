import Jos64.Lineno.Run

/-!
# Reading LEB128 numbers back

The readers of the sections take an offset, and those of the programs a pointer.
Both move on by exactly the bytes of a number.  Its groups are shifted in an `int`,
and so the number itself is returned only if it survives there.
-/

namespace Jos64.Leb

open Loop Dwarf Lineno

variable {mem : Memory} {ds : Section} {offset : Nat}

/-! ## Unsigned numbers -/

/-- `_dwarf_read_uleb128` and `_dwarf_decode_uleb128` return the value and move on
by the length. -/
def UnsignedReturned (mem : Memory) (ds : Section) (offset length value : Nat) : Prop :=
  readUleb128 mem ds offset = some (value, u64 (offset + length)) ∧
    decodeUleb128 mem (ds.at offset) = .done (value, ds.at offset + length)

/-- An unsigned number, padded or not, is returned exactly if it is below `2 ^ 31`
or one of the last eight words. -/
theorem unsignedReturned_iff {bytes following : List Byte} {value : Nat}
    (valid : Unsigned bytes value) (high : value < 2 ^ 64)
    (held : mem.Holds (ds.at offset) (bytes ++ following)) :
    UnsignedReturned mem ds offset bytes.length value ↔ value < 2 ^ 31 ∨ 2 ^ 64 - 8 ≤ value := by
  have number_held := (Memory.holds_append.mp held).1
  have survives := unsigned_read_iff valid high
  rw [UnsignedReturned, readUleb128_eq valid number_held,
    decodeUleb128_bits valid.ended number_held]
  constructor
  · rintro ⟨read, -⟩
    exact survives.mp (congrArg Prod.fst (Option.some.inj read))
  · intro returned
    rw [survives.mpr returned]
    exact ⟨rfl, rfl⟩

/-- The numbers 2147483647, padded with a redundant group, and 2147483648. -/
def paddedBytes : List Byte :=
  [0xFF, 0xFF, 0xFF, 0xFF, 0x87, 0x00]

def beyondBytes : List Byte :=
  [0x80, 0x80, 0x80, 0x80, 0x08]

theorem padded_unsigned : Unsigned paddedBytes (2 ^ 31 - 1) :=
  .more (by decide) (.more (by decide) (.more (by decide) (.more (by decide)
    (.more (by decide) (.last (by decide))))))

theorem beyond_unsigned : Unsigned beyondBytes (2 ^ 31) :=
  .more (by decide) (.more (by decide) (.more (by decide) (.more (by decide)
    (.last (by decide)))))

/-- A number alone in memory. -/
def numberMemory (bytes : List Byte) (fits : 0x1000 + bytes.length < 2 ^ 47) : Memory :=
  Memory.image 0x1000 bytes fits

theorem number_held (bytes : List Byte) (fits : 0x1000 + bytes.length < 2 ^ 47) :
    (numberMemory bytes fits).Holds (Section.at ⟨0x1000, bytes.length⟩ 0) (bytes ++ []) :=
  Memory.image_holds fits [] [] (by simp)

theorem unsignedReturned_padded :
    UnsignedReturned (numberMemory paddedBytes (by decide)) ⟨0x1000, 6⟩ 0 6 (2 ^ 31 - 1) :=
  (unsignedReturned_iff padded_unsigned (by decide) (number_held paddedBytes (by decide))).mpr
    (.inl (by decide))

/-- The first number beyond is returned with ones in its upper half. -/
theorem beyond_misread :
    readUleb128 (numberMemory beyondBytes (by decide)) ⟨0x1000, 5⟩ 0 =
        some (2 ^ 64 - 2 ^ 31, 5) ∧
      ¬ ∀ (mem : Memory) (ds : Section) (offset value : Nat) (bytes following : List Byte),
        value < 2 ^ 64 → Unsigned bytes value → bytes.length ≤ 10 →
          mem.Holds (ds.at offset) (bytes ++ following) →
            UnsignedReturned mem ds offset bytes.length value := by
  refine ⟨by decide, fun claim => ?_⟩
  have returned := claim _ _ _ _ _ _ (by decide) beyond_unsigned (by decide)
    (number_held beyondBytes (by decide))
  exact absurd returned.1 (by decide)

/-! ## Signed numbers -/

/-- `_dwarf_read_sleb128` and `_dwarf_decode_sleb128` return the value and move on
by the length. -/
def SignedReturned (mem : Memory) (ds : Section) (offset length : Nat) (value : Int) : Prop :=
  readSleb128 mem ds offset = some ((BitVec.ofInt 64 value).toNat, u64 (offset + length)) ∧
    decodeSleb128 mem (ds.at offset) =
      .done ((BitVec.ofInt 64 value).toNat, ds.at offset + length)

/-- In its shortest encoding a number has no group beyond the `int`. -/
theorem readsSigned_iff {bytes : List Byte} {value : Int} (shortest : Shortest bytes value) :
    ReadsSigned bytes value ↔ -(2 ^ 31) ≤ value ∧ value < 2 ^ 31 := by
  constructor
  · intro reads
    exact reads.1
  · rintro ⟨low, high⟩
    have short := shortest.length_le 4 (by omega) (by omega)
    refine ⟨⟨low, high⟩, fun _ k inside far => ?_⟩
    omega

/-- A signed number is returned from its shortest encoding exactly if it fits in an
`int`. -/
theorem signedReturned_iff {bytes following : List Byte} {value : Int}
    (shortest : Shortest bytes value) (low : -(2 ^ 63) ≤ value) (high : value < 2 ^ 63)
    (held : mem.Holds (ds.at offset) (bytes ++ following)) :
    SignedReturned mem ds offset bytes.length value ↔ -(2 ^ 31) ≤ value ∧ value < 2 ^ 31 := by
  have number_held := (Memory.holds_append.mp held).1
  have survives := signed_read_iff shortest.valid low high
  rw [SignedReturned, readSleb128_eq shortest.valid.ended number_held,
    decodeSleb128_bits shortest.valid.ended number_held, ← readsSigned_iff shortest]
  constructor
  · rintro ⟨read, -⟩
    exact survives.mp (BitVec.eq_of_toNat_eq (congrArg Prod.fst (Option.some.inj read)))
  · intro returned
    rw [survives.mpr returned]
    exact ⟨rfl, rfl⟩

/-- The number -2147483648. -/
def lowestBytes : List Byte :=
  [0x80, 0x80, 0x80, 0x80, 0x78]

theorem lowest_shortest : Shortest lowestBytes (-(2 ^ 31)) := by
  refine .of_exceeds (.more (by decide) (.more (by decide) (.more (by decide) (.more (by decide)
    (.last (by decide)))))) ?_
  decide

theorem beyond_shortest : Shortest beyondBytes (2 ^ 31) := by
  refine .of_exceeds (.more (by decide) (.more (by decide) (.more (by decide) (.more (by decide)
    (.last (by decide)))))) ?_
  decide

theorem signedReturned_lowest :
    SignedReturned (numberMemory lowestBytes (by decide)) ⟨0x1000, 5⟩ 0 5 (-(2 ^ 31)) :=
  (signedReturned_iff lowest_shortest (by decide) (by decide)
    (number_held lowestBytes (by decide))).mpr (by decide)

/-- The first number beyond is returned as the lowest one. -/
theorem beyond_negative :
    readSleb128 (numberMemory beyondBytes (by decide)) ⟨0x1000, 5⟩ 0 =
        some ((BitVec.ofInt 64 (-(2 ^ 31))).toNat, 5) ∧
      ¬ ∀ (mem : Memory) (ds : Section) (offset : Nat) (value : Int)
        (bytes following : List Byte), -(2 ^ 63) ≤ value → value < 2 ^ 63 →
          Shortest bytes value → mem.Holds (ds.at offset) (bytes ++ following) →
            SignedReturned mem ds offset bytes.length value := by
  refine ⟨by decide, fun claim => ?_⟩
  have returned := claim _ _ _ _ _ _ (by decide) (by decide) beyond_shortest
    (number_held beyondBytes (by decide))
  exact absurd returned.1 (by decide)

end Jos64.Leb
