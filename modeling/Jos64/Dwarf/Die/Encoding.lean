import Jos64.Dwarf.Abbrev.Table
import Jos64.Dwarf.Die.Core

/-!
# Encoded entries

An encoded entry is the code of a declaration and the values of its attributes,
each in the form that the declaration gives or, where it leaves the form to the
data, behind the form.  The reader comes to the end of a value if it can tell its
length, and then has its number exactly if a LEB128 number is read back.
-/

namespace Jos64.Dwarf

/-- The number of bytes of a form that holds one number. -/
def Form.width (cu : CU) : Form → Option Nat
  | addr => some cu.addrSize
  | data1 | flag | ref1 => some 1
  | data2 | ref2 => some 2
  | data4 | ref4 => some 4
  | data8 | ref8 => some 8
  | refAddr => some (if cu.version = 2 then cu.addrSize else cu.cuDwarfSize)
  | secOffset | strp => some cu.cuDwarfSize
  | _ => none

/-- The number of bytes of the length of a block. -/
def Form.countWidth : Form → Option Nat
  | block1 => some 1
  | block2 => some 2
  | block4 => some 4
  | _ => none

/-- A value as it is encoded. -/
inductive Value (cu : CU) where
  | fixed (form : Form) (width value : Nat) (has : form.width cu = some width)
      (small : value < 256 ^ width)
  | uleb (form : Form) (n : Uleb) (has : form = .udata ∨ form = .refUdata)
  | sleb (n : Sleb)
  | block (form : Form) (width : Nat) (data : List Byte) (has : form.countWidth = some width)
      (small : data.length < 256 ^ width)
  | ulebBlock (form : Form) (length : Uleb) (data : List Byte)
      (has : form = .block ∨ form = .exprloc) (length_eq : length.value = data.length)
  | string (text : List Byte) (nonzero : ∀ c ∈ text, c ≠ 0)
  | signature (data : List Byte) (length_eq : data.length = 8)
  | present

namespace Value

variable {cu : CU}

def form : Value cu → Form
  | fixed form .. => form
  | uleb form .. => form
  | sleb _ => .sdata
  | block form .. => form
  | ulebBlock form .. => form
  | string .. => .string
  | signature .. => .refSig8
  | present => .flagPresent

def bytes (order : Endianness) : Value cu → List Byte
  | fixed _ width value .. => order.bytes width value
  | uleb _ n _ => n.bytes
  | sleb n => n.bytes
  | block _ width data .. => order.bytes width data.length ++ data
  | ulebBlock _ length data .. => length.bytes ++ data
  | string text _ => text ++ [0]
  | signature data _ => data
  | present => []

/-- The number that the value is, or the length of a block, or the address of a
string in the data. -/
def number (dbg : Debug) (offset : Nat) : Value cu → Nat
  | fixed _ _ value .. => value
  | uleb _ n _ => n.value
  | sleb n => n.word
  | block _ _ data .. => data.length
  | ulebBlock _ _ data .. => data.length
  | string .. => dbg.debugInfo.at offset
  | signature .. => 8
  | present => 1

/-- The address of a block, or of a string in the section of strings. -/
def address (dbg : Debug) (offset : Nat) : Value cu → Nat
  | fixed form _ value .. => if form = .strp then dbg.debugStr.at value else 0
  | block _ width .. => dbg.debugInfo.at (offset + width)
  | ulebBlock _ length .. => dbg.debugInfo.at (offset + length.bytes.length)
  | signature .. => dbg.debugInfo.at offset
  | _ => 0

/-- The number that the readers make of the value. -/
def decoded (dbg : Debug) (offset : Nat) : Value cu → Nat
  | uleb _ n _ => n.decoded
  | sleb n => n.decoded
  | value => value.number dbg offset

/-- What is read at the offset of the value. -/
def read (dbg : Debug) (offset : Nat) (value : Value cu) : FormRead where
  u0 := value.decoded dbg offset
  u1 := value.address dbg offset
  offset := offset + (value.bytes dbg.order).length

/-- The reader comes to the end of the value: nothing is read of a reference into
the section in a unit of version 4, and the length of a block is to be read
back. -/
def Spanned : Value cu → Prop
  | fixed form .. => form = .refAddr → cu.version ≠ 4
  | ulebBlock _ length .. => ReadsUnsigned length.value
  | _ => True

instance (value : Value cu) : Decidable value.Spanned := by
  cases value with
  | fixed form _ _ _ _ => exact inferInstanceAs (Decidable (form = .refAddr → cu.version ≠ 4))
  | ulebBlock _ length _ _ _ => exact inferInstanceAs (Decidable (ReadsUnsigned length.value))
  | _ => exact inferInstanceAs (Decidable True)

/-- The LEB128 number of the value is read back. -/
def ReadBack : Value cu → Prop
  | uleb _ n _ => ReadsUnsigned n.value
  | sleb n => ReadsSigned n.bytes n.value
  | ulebBlock _ length .. => ReadsUnsigned length.value
  | _ => True

instance (value : Value cu) : Decidable value.ReadBack := by
  cases value with
  | uleb _ n _ => exact inferInstanceAs (Decidable (ReadsUnsigned n.value))
  | sleb n => exact inferInstanceAs (Decidable (ReadsSigned n.bytes n.value))
  | ulebBlock _ length _ _ _ => exact inferInstanceAs (Decidable (ReadsUnsigned length.value))
  | _ => exact inferInstanceAs (Decidable True)

end Value

/-- The version of a unit that is read, and its sizes. -/
structure CU.Standard (cu : CU) : Prop where
  version : cu.version = 2 ∨ cu.version = 3 ∨ cu.version = 4
  addrSize : IsWidth cu.addrSize
  dwarfSize : cu.cuDwarfSize = 4 ∨ cu.cuDwarfSize = 8

theorem CU.Standard.isWidth_dwarfSize {cu : CU} (standard : cu.Standard) :
    IsWidth cu.cuDwarfSize := by
  rcases standard.dwarfSize with four | eight
  · exact .inr (.inr (.inl four))
  · exact .inr (.inr (.inr eight))

variable {dbg : Debug} {cu : CU}

theorem Form.isWidth (standard : cu.Standard) {form : Form} {width : Nat}
    (has : form.width cu = some width) : IsWidth width := by
  cases form with
  | addr =>
      cases has
      exact standard.addrSize
  | refAddr =>
      cases has
      split
      · exact standard.addrSize
      · exact standard.isWidth_dwarfSize
  | secOffset | strp =>
      cases has
      exact standard.isWidth_dwarfSize
  | data1 | flag | ref1 | data2 | ref2 | data4 | ref4 | data8 | ref8 =>
      cases has
      decide
  | _ => contradiction

/-- The forms of one number differ in their widths only, but for the string that
a reference into the section of strings stands for. -/
theorem formRead_of_width (standard : cu.Standard) {form : Form} {width : Nat}
    (has : form.width cu = some width) (spanned : form = .refAddr → cu.version ≠ 4)
    (offset : Nat) :
    formRead dbg cu form offset =
      (readNumber dbg offset width).map fun read =>
        { read with u1 := if form = .strp then dbg.debugStr.at read.u0 else 0 } := by
  have number_eq (width : Nat) : readNumber dbg offset width =
      (readNumber dbg offset width).map fun read => { read with u1 := 0 } := by
    rw [readNumber, Option.map_map]
    rfl
  cases form with
  | strp =>
      cases has
      rfl
  | refAddr =>
      cases has
      rw [formRead]
      rcases standard.version with two | three | four
      · rw [if_pos two, if_pos two]
        exact number_eq _
      · rw [if_neg (by omega), if_pos three, if_neg (by omega)]
        exact number_eq _
      · exact absurd four (spanned rfl)
  | addr | secOffset | data1 | flag | ref1 | data2 | ref2 | data4 | ref4 | data8 | ref8 =>
      cases has
      exact number_eq _
  | _ => contradiction

theorem formRead_of_countWidth {form : Form} {width : Nat} (has : form.countWidth = some width)
    (offset : Nat) :
    formRead dbg cu form offset =
      (dbg.read dbg.debugInfo offset width).map (readBlockOf dbg) := by
  cases form with
  | block1 | block2 | block4 =>
      cases has
      rfl
  | _ => contradiction

theorem Form.isWidth_count {form : Form} {width : Nat} (has : form.countWidth = some width) :
    IsWidth width := by
  cases form with
  | block1 | block2 | block4 =>
      cases has
      decide
  | _ => contradiction

/-! ## Values -/

/-- The unsigned number that a form reads. -/
theorem formRead_uleb {form : Form} (has : form = .udata ∨ form = .refUdata) {n : Uleb}
    {offset : Nat} (contains : dbg.debugInfo.Contains dbg.mem offset n.bytes) :
    formRead dbg cu form offset = some ⟨n.decoded, 0, offset + n.bytes.length⟩ := by
  have read_eq : formRead dbg cu form offset =
      (readUleb128 dbg.mem dbg.debugInfo offset).map fun read => ⟨read.1, 0, read.2⟩ := by
    rcases has with rfl | rfl
    · rfl
    · rfl
  rw [read_eq, contains.readUleb128]
  rfl

/-- A block behind its length as it is read. -/
theorem formRead_ulebBlock {form : Form} (has : form = .block ∨ form = .exprloc) {length : Uleb}
    {offset : Nat} (contains : dbg.debugInfo.Contains dbg.mem offset length.bytes) :
    formRead dbg cu form offset =
      some (readBlockOf dbg (length.decoded, offset + length.bytes.length)) := by
  have read_eq : formRead dbg cu form offset =
      (readUleb128 dbg.mem dbg.debugInfo offset).map (readBlockOf dbg) := by
    rcases has with rfl | rfl
    · rfl
    · rfl
  rw [read_eq, contains.readUleb128]
  rfl

theorem formRead_sleb {n : Sleb} {offset : Nat}
    (contains : dbg.debugInfo.Contains dbg.mem offset n.bytes) :
    formRead dbg cu .sdata offset = some ⟨n.decoded, 0, offset + n.bytes.length⟩ := by
  rw [formRead, contains.readSleb128]
  rfl

/-- A value is read to its end. -/
theorem formRead_eq (standard : cu.Standard) {value : Value cu} (spanned : value.Spanned)
    {offset : Nat} (contains : dbg.debugInfo.Contains dbg.mem offset (value.bytes dbg.order)) :
    formRead dbg cu value.form offset = some (value.read dbg offset) := by
  cases value with
  | fixed form width value has small =>
      rw [Value.form, formRead_of_width standard has spanned, readNumber, Debug.read,
        contains.dbgRead (form.isWidth standard has) small, Value.read, Value.bytes,
        Endianness.bytes_length]
      rfl
  | uleb form n has =>
      rw [Value.form, formRead_uleb has contains]
      rfl
  | sleb n =>
      rw [Value.form, formRead_sleb contains]
      rfl
  | block form width data has small =>
      have data_here := contains.right
      rw [Endianness.bytes_length] at data_here
      rw [Value.form, formRead_of_countWidth has, Debug.read,
        contains.left.dbgRead (Form.isWidth_count has) small, Option.map_some, readBlockOf,
        data_here.readBlock, Value.read, Value.bytes, List.length_append, Endianness.bytes_length,
        Nat.add_assoc]
      rfl
  | ulebBlock form length data has length_eq =>
      rw [Value.form, formRead_ulebBlock has contains.left, length.decoded_eq_iff.mpr spanned,
        length_eq, readBlockOf, contains.right.readBlock, Value.read, Value.bytes,
        List.length_append, Nat.add_assoc]
      rfl
  | string text nonzero =>
      rw [Value.form, formRead, contains.readString nonzero]
      rfl
  | signature data length_eq =>
      have block_eq := contains.readBlock
      rw [Value.bytes, length_eq] at block_eq
      rw [Value.form, formRead, readBlockOf, block_eq, Value.read, Value.bytes, length_eq]
      rfl
  | present => rfl

theorem Value.decoded_of_readBack {value : Value cu} (back : value.ReadBack) (offset : Nat) :
    value.decoded dbg offset = value.number dbg offset := by
  cases value with
  | uleb form n has => exact n.decoded_eq_iff.mpr back
  | sleb n => exact n.decoded_eq_iff.mpr back
  | _ => rfl

theorem Value.spanned_of_readBack (early : cu.version ≠ 4) {value : Value cu}
    (back : value.ReadBack) : value.Spanned := by
  cases value with
  | fixed => exact fun _ => early
  | ulebBlock => exact back
  | _ => trivial

end Jos64.Dwarf
