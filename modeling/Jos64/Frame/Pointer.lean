import Jos64.Frame.Entries

/-!
# Encoded pointers

The pointers in the frame section are stored in one of several formats, and may be
relative to where they stand.  Those of a fixed width are always read back; a LEB128
number is, as far as it survives the 32 bits of the reader.
-/

namespace Jos64.Frame

open Dwarf Leb

/-- A number in one of the formats. -/
inductive EncodedPointer (dbgPointerSize : Nat) where
  | absptr (value : Fin (256 ^ dbgPointerSize))
  | uleb128 (n : Uleb)
  | udata2 (value : Fin (256 ^ 2))
  | udata4 (value : Fin (256 ^ 4))
  | udata8 (value : Fin (256 ^ 8))
  | sleb128 (n : Sleb)
  | sdata2 (value : BitVec (8 * 2))
  | sdata4 (value : BitVec (8 * 4))
  | sdata8 (value : BitVec (8 * 8))

namespace EncodedPointer

variable {dbgPointerSize : Nat}

/-- The format in the lower four bits of an encoding. -/
def format : EncodedPointer dbgPointerSize → Byte
  | absptr _ => 0x00
  | uleb128 _ => 0x01
  | udata2 _ => 0x02
  | udata4 _ => 0x03
  | udata8 _ => 0x04
  | sleb128 _ => 0x09
  | sdata2 _ => 0x0a
  | sdata4 _ => 0x0b
  | sdata8 _ => 0x0c

def bytes (order : Endianness) : EncodedPointer dbgPointerSize → List Byte
  | absptr value => order.bytes dbgPointerSize value
  | uleb128 n => n.bytes
  | udata2 value => order.bytes 2 value
  | udata4 value => order.bytes 4 value
  | udata8 value => order.bytes 8 value
  | sleb128 n => n.bytes
  | sdata2 value => order.bytes 2 value.toNat
  | sdata4 value => order.bytes 4 value.toNat
  | sdata8 value => order.bytes 8 value.toNat

/-- The number that is stored. -/
def number : EncodedPointer dbgPointerSize → Int
  | absptr value => value
  | uleb128 n => n.value
  | udata2 value => value
  | udata4 value => value
  | udata8 value => value
  | sleb128 n => n.value
  | sdata2 value => value.toInt
  | sdata4 value => value.toInt
  | sdata8 value => value.toInt

/-- What the number points to from `pc`, as a 64-bit word.  A number of the format
`DW_EH_PE_absptr` is not relative whatever its encoding says. -/
def address (encode : Byte) (pc : Nat) (pointer : EncodedPointer dbgPointerSize) : Nat :=
  if encode &&& 0xf0 = ehPePcrel ∧ pointer.format ≠ ehPeAbsptr then
    (BitVec.ofInt 64 (pc + pointer.number)).toNat
  else (BitVec.ofInt 64 pointer.number).toNat

/-- The number survives the reader. -/
def ReadsBack : EncodedPointer dbgPointerSize → Prop
  | uleb128 n => ReadsUnsigned n.value
  | sleb128 n => ReadsSigned n.bytes n.value
  | _ => True

end EncodedPointer

/-! ## The reader -/

section

variable {dbg : FrameDebug} {ds : Section} {offset : Nat}

theorem ofInt_natCast_toNat {value : Nat} (small : value < 2 ^ 64) :
    (BitVec.ofInt 64 (value : Int)).toNat = value := by
  rw [BitVec.ofInt_natCast, BitVec.toNat_ofNat, Nat.mod_eq_of_lt small]

/-- A signed number of fixed width is extended to its value. -/
theorem signed_toInt {width : Nat} (value : BitVec (8 * width)) (known : 8 * width ≤ 64) :
    signed width value.toNat = (BitVec.ofInt 64 value.toInt).toNat := by
  rw [signed, BitVec.ofNat_toNat, BitVec.setWidth_eq, BitVec.toNat_inj]
  apply BitVec.eq_of_toInt_eq
  rw [BitVec.toInt_signExtend_of_le known, BitVec.toInt_ofInt]
  have above := BitVec.le_toInt value
  have below := BitVec.toInt_lt (x := value)
  have power : (2 : Int) ^ (8 * width - 1) ≤ 2 ^ 63 :=
    pow_le_pow_right₀ (by norm_num) (by omega)
  rw [Int.bmod_eq_of_le (by norm_num; omega) (by norm_num; omega)]

/-- A number that is relative is the same exactly if what is added is. -/
theorem u64_add_eq_iff {value : Nat} (small : value < 2 ^ 64) (pc : Nat) (number : Int) :
    u64 (pc + value) = (BitVec.ofInt 64 (pc + number)).toNat ↔
      value = (BitVec.ofInt 64 number).toNat := by
  have sum_eq : u64 (pc + value) = (BitVec.ofNat 64 pc + BitVec.ofNat 64 value).toNat := by
    rw [← BitVec.ofNat_add, BitVec.toNat_ofNat]
    rfl
  have value_eq : value = (BitVec.ofNat 64 value).toNat := by
    rw [BitVec.toNat_ofNat, Nat.mod_eq_of_lt small]
  rw [sum_eq, BitVec.ofInt_add, BitVec.ofInt_natCast, BitVec.toNat_inj, BitVec.add_right_inj,
    ← BitVec.toNat_inj, ← value_eq]

/-- What the switch over the formats reads. -/
theorem readFormat_pointer (pointer : EncodedPointer dbg.dbgPointerSize)
    (contains : ds.Contains dbg.mem offset (pointer.bytes dbg.order)) :
    ∃ value < 2 ^ 64,
      readFormat dbg ds offset pointer.format =
          some (some (value, offset + (pointer.bytes dbg.order).length)) ∧
        (value = (BitVec.ofInt 64 pointer.number).toNat ↔ pointer.ReadsBack) := by
  have unsigned {width : Nat} (known : IsWidth width) (value : Fin (256 ^ width))
      (found : ds.Contains dbg.mem offset (dbg.order.bytes width value)) :
      value.val < 2 ^ 64 ∧ dbgRead dbg.order dbg.mem ds offset width =
          some (value.val, offset + (dbg.order.bytes width value).length) ∧
        (value.val = (BitVec.ofInt 64 (value.val : Int)).toNat ↔ True) := by
    have small : value.val < 2 ^ 64 := value.isLt.trans_le (by
      rcases known with rfl | rfl | rfl | rfl <;> decide)
    rw [ofInt_natCast_toNat small, dbg.order.bytes_length]
    exact ⟨small, found.dbgRead known value.isLt, iff_of_true rfl trivial⟩
  have extended {width : Nat} (known : IsWidth width) (value : BitVec (8 * width))
      (found : ds.Contains dbg.mem offset (dbg.order.bytes width value.toNat)) :
      dbgRead dbg.order dbg.mem ds offset width =
          some (value.toNat, offset + (dbg.order.bytes width value.toNat).length) ∧
        signed width value.toNat = (BitVec.ofInt 64 value.toInt).toNat := by
    have small : value.toNat < 256 ^ width := by
      rw [show 256 = 2 ^ 8 from rfl, ← pow_mul]
      exact value.isLt
    have fits : 8 * width ≤ 64 := by
      rcases known with rfl | rfl | rfl | rfl <;> decide
    rw [dbg.order.bytes_length]
    exact ⟨found.dbgRead known small, signed_toInt value fits⟩
  cases pointer with
  | absptr value =>
      have known : IsWidth dbg.dbgPointerSize := by
        rcases dbg.pointer_known with eq | eq <;> rw [eq] <;> decide
      obtain ⟨small, read, returned⟩ := unsigned known value contains
      exact ⟨value, small, congrArg (Option.map some) read, returned⟩
  | udata2 value =>
      obtain ⟨small, read, returned⟩ := unsigned (by decide) value contains
      exact ⟨value, small, congrArg (Option.map some) read, returned⟩
  | udata4 value =>
      obtain ⟨small, read, returned⟩ := unsigned (by decide) value contains
      exact ⟨value, small, congrArg (Option.map some) read, returned⟩
  | udata8 value =>
      obtain ⟨small, read, returned⟩ := unsigned (by decide) value contains
      exact ⟨value, small, congrArg (Option.map some) read, returned⟩
  | uleb128 n =>
      refine ⟨n.decoded, BitVec.isLt _, congrArg (Option.map some) contains.readUleb128, ?_⟩
      rw [EncodedPointer.number, ofInt_natCast_toNat n.value_lt]
      exact n.decoded_eq_iff
  | sleb128 n =>
      exact ⟨n.decoded, BitVec.isLt _, congrArg (Option.map some) contains.readSleb128,
        n.decoded_eq_iff⟩
  | sdata2 value =>
      obtain ⟨read, signed_eq⟩ := extended (by decide) value contains
      refine ⟨signed 2 value.toNat, BitVec.isLt _, ?_, iff_of_true signed_eq trivial⟩
      exact congrArg (Option.map _) read
  | sdata4 value =>
      obtain ⟨read, signed_eq⟩ := extended (by decide) value contains
      refine ⟨signed 4 value.toNat, BitVec.isLt _, ?_, iff_of_true signed_eq trivial⟩
      exact congrArg (Option.map _) read
  | sdata8 value =>
      obtain ⟨read, -⟩ := extended (by decide) value contains
      refine ⟨value.toNat, value.isLt, congrArg (Option.map some) read, iff_of_true ?_ trivial⟩
      exact congrArg BitVec.toNat (BitVec.ofInt_toInt (x := value)).symm

theorem EncodedPointer.format_nibble (pointer : EncodedPointer dbg.dbgPointerSize) :
    pointer.format ≠ ehPeOmit &&& 0x0f := by
  rw [show ehPeOmit &&& 0x0f = (0x0f : Byte) by decide]
  cases pointer with
  | _ =>
      dsimp only [format]
      decide

/-- The reader returns what a pointer points to, in every encoding of its format, exactly if
the number survives it. -/
theorem frameReadLsbEncoded_iff {encode : Byte} {pointer : EncodedPointer dbg.dbgPointerSize}
    (formatted : encode &&& 0x0f = pointer.format)
    (contains : ds.Contains dbg.mem offset (pointer.bytes dbg.order)) (val pc : Nat) :
    frameReadLsbEncoded dbg ds val offset encode pc =
        some (dleNone, pointer.address encode pc,
          offset + (pointer.bytes dbg.order).length) ↔
      pointer.ReadsBack := by
  have present : encode ≠ ehPeOmit := by
    rintro rfl
    exact pointer.format_nibble formatted.symm
  obtain ⟨value, small, read, returned⟩ := readFormat_pointer pointer contains
  rw [frameReadLsbEncoded, if_neg present]
  dsimp only
  rw [formatted, read, Option.map_some]
  dsimp only
  rw [EncodedPointer.address, ← returned]
  by_cases relative : encode &&& 0xf0 = ehPePcrel ∧ pointer.format ≠ ehPeAbsptr
  · rw [if_pos relative, if_pos relative, ← u64_add_eq_iff small pc pointer.number]
    exact ⟨fun same => congrArg (fun read => read.2.1) (Option.some.inj same),
      fun same => by rw [same]⟩
  · rw [if_neg relative, if_neg relative]
    exact ⟨fun same => congrArg (fun read => read.2.1) (Option.some.inj same),
      fun same => by rw [same]⟩

end

/-! ## A function in front of its description -/

def behind : EncodedPointer 8 :=
  .sdata4 (BitVec.ofInt 32 (-0x800))

theorem behind_fits : 0x1000 + (behind.bytes .lsb).length < 2 ^ 47 := by
  decide

theorem four_lt : 4 < 2 ^ 64 := by
  decide

def behindDebug : FrameDebug where
  order := .lsb
  mem := .image 0x1000 (behind.bytes .lsb) behind_fits
  ds := ⟨0x1000, 4⟩
  dsAddr := 0x1000
  dbgPointerSize := 8
  dbgEhSize := 4
  val _ := 0
  pointer_known := eight_known
  sizes_eq := rfl
  size_lt := four_lt

theorem behind_contains :
    behindDebug.ds.Contains behindDebug.mem 0 (behind.bytes behindDebug.order) where
  held := Memory.image_holds behind_fits [] [] (List.append_nil _).symm
  inside := by decide
  fits := by decide

theorem frameReadLsbEncoded_behind :
    frameReadLsbEncoded behindDebug behindDebug.ds 0 0 0x1b 0x1000 =
        some (dleNone, behind.address 0x1b 0x1000, 0 + (behind.bytes .lsb).length) ↔
      behind.ReadsBack :=
  frameReadLsbEncoded_iff (by decide) behind_contains 0 0x1000

example : behind.address 0x1b 0x1000 = 0x800 := by
  decide

end Jos64.Frame
