import Jos64.Dwarf.Numbers

/-!
# What a section contains

Data are described by their bytes at an offset of a section that lies in memory
without wrapping.  Each reader is given one rule: on the encoding of a datum it
yields what it makes of the datum and the offset behind it.
-/

namespace Jos64.Dwarf

open Leb

/-- The bytes stand in the section from the offset on. -/
structure Section.Contains (ds : Section) (mem : Memory) (offset : Nat) (bytes : List Byte) :
    Prop where
  held : mem.Holds (ds.dsData + offset) bytes
  inside : offset + bytes.length ≤ ds.dsSize
  fits : ds.dsData + ds.dsSize < 2 ^ 64

namespace Section.Contains

variable {ds : Section} {mem : Memory} {offset : Nat} {bytes more : List Byte}

theorem at_eq (contains : ds.Contains mem offset bytes) : ds.at offset = ds.dsData + offset := by
  have := contains.inside
  have := contains.fits
  exact u64_of_lt (by omega)

theorem holds_at (contains : ds.Contains mem offset bytes) : mem.Holds (ds.at offset) bytes := by
  rw [contains.at_eq]
  exact contains.held

theorem u64_next (contains : ds.Contains mem offset bytes) :
    u64 (offset + bytes.length) = offset + bytes.length := by
  have := contains.inside
  have := contains.fits
  exact u64_of_lt (by omega)

theorem left (contains : ds.Contains mem offset (bytes ++ more)) :
    ds.Contains mem offset bytes := by
  have inside := contains.inside
  rw [List.length_append] at inside
  exact ⟨(Memory.holds_append.mp contains.held).1, by omega, contains.fits⟩

theorem right (contains : ds.Contains mem offset (bytes ++ more)) :
    ds.Contains mem (offset + bytes.length) more := by
  have inside := contains.inside
  rw [List.length_append] at inside
  refine ⟨?_, by omega, contains.fits⟩
  rw [← Nat.add_assoc]
  exact (Memory.holds_append.mp contains.held).2

end Section.Contains

/-! ## LEB128 -/

/-- An unsigned 64-bit number in one of its encodings. -/
structure Uleb where
  value : Nat
  bytes : List Byte
  valid : Unsigned bytes value
  value_lt : value < 2 ^ 64

namespace Uleb

/-- What the readers make of the number. -/
def decoded (n : Uleb) : Nat :=
  ((lebBits 0 n.bytes).signExtend 64).toNat

theorem decoded_eq_iff (n : Uleb) : n.decoded = n.value ↔ ReadsUnsigned n.value :=
  unsigned_read_iff n.valid n.value_lt

theorem decoded_of_lt {n : Uleb} (small : n.value < 2 ^ 31) : n.decoded = n.value :=
  n.decoded_eq_iff.mpr (.inl small)

theorem length_pos (n : Uleb) : 0 < n.bytes.length :=
  List.length_pos_of_ne_nil n.valid.ended.ne_nil

/-- A number of one byte. -/
def byte (b : Byte) (ends : ¬ Continues b) : Uleb where
  value := group b
  bytes := [b]
  valid := .last ends
  value_lt := (group_lt b).trans (by decide)

theorem byte_value_lt {b : Byte} (ends : ¬ Continues b) : (byte b ends).value < 2 ^ 31 :=
  (group_lt b).trans (by decide)

end Uleb

theorem zero_ends : ¬ Continues 0 := by
  decide

theorem one_ends : ¬ Continues 1 := by
  decide

theorem two_ends : ¬ Continues 2 := by
  decide

theorem three_ends : ¬ Continues 3 := by
  decide

theorem eight_ends : ¬ Continues 8 := by
  decide

theorem zero_value : (Uleb.byte 0 zero_ends).value = 0 :=
  rfl

theorem one_nonzero : group 1 ≠ 0 := by
  decide

theorem two_nonzero : group 2 ≠ 0 := by
  decide

theorem three_nonzero : group 3 ≠ 0 := by
  decide

/-- A signed 64-bit number in one of its encodings. -/
structure Sleb where
  value : Int
  bytes : List Byte
  valid : Signed bytes value
  low : -(2 ^ 63) ≤ value
  high : value < 2 ^ 63

namespace Sleb

/-- The number as a 64-bit word. -/
def word (n : Sleb) : Nat :=
  (BitVec.ofInt 64 n.value).toNat

/-- What the readers make of the number. -/
def decoded (n : Sleb) : Nat :=
  ((slebBits 0 n.bytes).signExtend 64).toNat

theorem decoded_eq_iff (n : Sleb) : n.decoded = n.word ↔ ReadsSigned n.bytes n.value := by
  rw [decoded, word, BitVec.toNat_inj]
  exact signed_read_iff n.valid n.low n.high

end Sleb

/-! ## The readers -/

section

variable {ds : Section} {mem : Memory} {offset : Nat}

theorem Section.Contains.readUleb128 {n : Uleb} (contains : ds.Contains mem offset n.bytes) :
    readUleb128 mem ds offset = some (n.decoded, offset + n.bytes.length) := by
  rw [readUleb128_eq n.valid contains.holds_at, contains.u64_next]
  rfl

theorem Section.Contains.readSleb128 {n : Sleb} (contains : ds.Contains mem offset n.bytes) :
    readSleb128 mem ds offset = some (n.decoded, offset + n.bytes.length) := by
  rw [readSleb128_eq n.valid.ended contains.holds_at, contains.u64_next]
  rfl

theorem Section.Contains.dbgRead {order : Endianness} {width value : Nat} (known : IsWidth width)
    (small : value < 256 ^ width)
    (contains : ds.Contains mem offset (order.bytes width value)) :
    dbgRead order mem ds offset width = some (value, offset + width) := by
  have next := contains.u64_next
  rw [Endianness.bytes_length] at next
  rw [dbgRead_eq known small contains.holds_at, next]

theorem Section.Contains.readString {text : List Byte} (nonzero : ∀ c ∈ text, c ≠ 0)
    (contains : ds.Contains mem offset (text ++ [0])) :
    readString mem ds offset = some (ds.at offset, offset + (text ++ [0]).length) := by
  have inside := contains.inside
  have fits := contains.fits
  rw [List.length_append, List.length_singleton] at inside
  rw [readString_eq nonzero contains.holds_at (by omega) (by omega), List.length_append,
    List.length_singleton, Nat.add_assoc]

theorem Section.Contains.readBlock {block : List Byte} (contains : ds.Contains mem offset block) :
    readBlock ds offset block.length = (ds.at offset, offset + block.length) := by
  rw [Dwarf.readBlock, contains.u64_next]

end

end Jos64.Dwarf
