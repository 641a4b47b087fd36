import Jos64.Byte
import Jos64.Leb.Core
import Jos64.Store.Core

/-!
# Reading the debug sections

A section is a range of memory.  Its readers take an offset into it and know
nothing of its size, so they may read what lies behind it; a read of an address
that is not mapped is a fault, `none`.  Offsets and addresses are 64-bit words.
-/

namespace Jos64.Dwarf

/-- The value of a `uint64_t` after an operation whose exact result is `x`. -/
def u64 (x : Nat) : Nat :=
  x % 2 ^ 64

theorem u64_of_lt {x : Nat} (small : x < 2 ^ 64) : u64 x = x :=
  Nat.mod_eq_of_lt small

@[simp]
theorem u64_add_u64 (x y : Nat) : u64 (u64 x + y) = u64 (x + y) :=
  Nat.mod_add_mod x _ y

/-- The memory that the kernel can read, all of it below `top`, in the lower half
of the canonical addresses. -/
structure Memory where
  byte : Nat → Option Byte
  top : Nat
  top_lt : top < 2 ^ 47
  unmapped : ∀ address, top ≤ address → byte address = none

namespace Memory

/-- The bytes stand in memory from the address on. -/
def Holds (mem : Memory) (address : Nat) (bytes : List Byte) : Prop :=
  Store.Holds mem.byte address (bytes.map some)

variable {mem : Memory} {address : Nat}

theorem lt_top {byte : Byte} (mapped : mem.byte address = some byte) : address < mem.top := by
  by_contra high
  rw [mem.unmapped address (not_lt.mp high)] at mapped
  contradiction

theorem holds_cons {byte : Byte} {bytes : List Byte} :
    mem.Holds address (byte :: bytes) ↔
      mem.byte address = some byte ∧ mem.Holds (address + 1) bytes := by
  unfold Holds
  rw [List.map_cons, Store.holds_cons]

theorem holds_append {bytes more : List Byte} :
    mem.Holds address (bytes ++ more) ↔
      mem.Holds address bytes ∧ mem.Holds (address + bytes.length) more := by
  unfold Holds
  rw [List.map_append, Store.holds_append, List.length_map]

theorem Holds.le_top {bytes : List Byte} (held : mem.Holds address bytes) (nonempty : bytes ≠ []) :
    address + bytes.length ≤ mem.top := by
  obtain ⟨front, last, rfl⟩ := (List.eq_nil_or_concat bytes).resolve_left nonempty
  rw [List.concat_eq_append] at held ⊢
  have mapped := (holds_cons.mp (holds_append.mp held).2).1
  have := lt_top mapped
  rw [List.length_append, List.length_singleton]
  omega

/-- The number of addresses from here on that can be mapped.  It bounds every
loop that reads one byte after the other. -/
def room (mem : Memory) (address : Nat) : Nat :=
  mem.top - address

theorem Holds.length_le_room {bytes : List Byte} (held : mem.Holds address bytes) :
    bytes.length ≤ mem.room address := by
  cases bytes with
  | nil => exact Nat.zero_le _
  | cons byte bytes =>
      have := held.le_top (List.cons_ne_nil _ _)
      unfold room
      omega

/-- Some bytes in a row. -/
def read (mem : Memory) (address : Nat) : Nat → Option (List Byte)
  | 0 => some []
  | count + 1 =>
      (mem.byte address).bind fun byte => (mem.read (address + 1) count).map (byte :: ·)

theorem read_of_holds {bytes : List Byte} (held : mem.Holds address bytes) :
    mem.read address bytes.length = some bytes := by
  induction bytes generalizing address with
  | nil => rfl
  | cons byte bytes ih =>
      obtain ⟨mapped, rest⟩ := holds_cons.mp held
      rw [List.length_cons, read, mapped, Option.bind_some, ih rest, Option.map_some]

/-- The memory in which nothing is mapped from the limit on. -/
def cut (mem : Memory) (limit : Nat) : Memory where
  byte address := if address < limit then mem.byte address else none
  top := mem.top
  top_lt := mem.top_lt
  unmapped address above := by
    rw [mem.unmapped address above]
    split
    · rfl
    · rfl

/-- A memory in which nothing is mapped but the bytes from `base` on. -/
def image (base : Nat) (bytes : List Byte) (fits : base + bytes.length < 2 ^ 47) : Memory where
  byte address := if base ≤ address then bytes[address - base]? else none
  top := base + bytes.length
  top_lt := fits
  unmapped address above := by
    rw [if_pos (by omega), List.getElem?_eq_none (by omega)]

theorem image_holds {base : Nat} {bytes : List Byte} (fits : base + bytes.length < 2 ^ 47)
    (front : List Byte) {part : List Byte} (back : List Byte)
    (split : bytes = front ++ (part ++ back)) :
    (image base bytes fits).Holds (base + front.length) part := by
  subst split
  intro k inside
  rw [List.length_map] at inside
  have here : (front ++ (part ++ back))[front.length + k]? = some part[k] := by
    rw [List.getElem?_append_right (by omega), Nat.add_sub_cancel_left,
      List.getElem?_append_left (by omega), List.getElem?_eq_getElem]
  dsimp only [image]
  rw [if_pos (by omega), Nat.add_assoc, Nat.add_sub_cancel_left, here]
  simp

end Memory

/-- `Dwarf_Section`: where the bytes of a section are, and how many. -/
structure Section where
  dsData : Nat
  dsSize : Nat

/-- The address `data + offset`. -/
def Section.at (ds : Section) (offset : Nat) : Nat :=
  u64 (ds.dsData + offset)

/-! ## Numbers of fixed width -/

/-- `Dwarf_Endianness` -/
inductive Endianness where
  | lsb
  | msb
  deriving DecidableEq

/-- `((uint64_t) byte) << shift` -/
def shl (byte : Byte) (shift : Nat) : BitVec 64 :=
  byte.setWidth 64 <<< shift

/-- The value that `_dwarf_read_lsb` puts together, by width. -/
def lsbValue : List Byte → BitVec 64
  | [s0] => s0.setWidth 64
  | [s0, s1] => shl s1 8 ||| s0.setWidth 64
  | [s0, s1, s2, s3] => shl s2 16 ||| shl s3 24 ||| shl s1 8 ||| s0.setWidth 64
  | [s0, s1, s2, s3, s4, s5, s6, s7] =>
      shl s4 32 ||| shl s5 40 ||| (shl s6 48 ||| shl s7 56) ||| (shl s2 16 ||| shl s3 24) |||
        shl s1 8 ||| s0.setWidth 64
  | _ => 0

/-- The value that `_dwarf_read_msb` puts together, by width. -/
def msbValue : List Byte → BitVec 64
  | [s0] => s0.setWidth 64
  | [s0, s1] => s1.setWidth 64 ||| shl s0 8
  | [s0, s1, s2, s3] => s3.setWidth 64 ||| shl s2 8 ||| (shl s1 16 ||| shl s0 24)
  | [s0, s1, s2, s3, s4, s5, s6, s7] =>
      s7.setWidth 64 ||| shl s6 8 ||| (shl s5 16 ||| shl s4 24) ||| (shl s3 32 ||| shl s2 40) |||
        (shl s1 48 ||| shl s0 56)
  | _ => 0

/-- `dbg->read`: the value and the offset after it.  Of any other width nothing
is read. -/
def dbgRead (order : Endianness) (mem : Memory) (ds : Section) (offset width : Nat) :
    Option (Nat × Nat) :=
  if width = 1 ∨ width = 2 ∨ width = 4 ∨ width = 8 then
    (mem.read (ds.at offset) width).map fun bytes =>
      let value := match order with
        | .lsb => lsbValue bytes
        | .msb => msbValue bytes
      (value.toNat, u64 (offset + width))
  else some (0, offset)

/-! ## LEB128 -/

/-- The locals of the LEB128 readers when their loop ends. -/
structure LebRead where
  ret : BitVec 64
  b : Byte
  shift : Nat
  offset : Nat

/-- The loop of the LEB128 readers.  The shift is one of an `int`: its count is
taken modulo 32 and its result sign-extended. -/
def lebLoop (mem : Memory) (ret : BitVec 64) (shift offset : Nat) :
    (address room : Nat) → Option LebRead
  | _, 0 => none
  | address, room + 1 =>
      (mem.byte address).bind fun b =>
        let ret := ret ||| ((b &&& 0x7F).setWidth 32 <<< (shift % 32)).signExtend 64
        let offset := u64 (offset + 1)
        if b &&& 0x80 ≠ 0 then lebLoop mem ret (shift + 7) offset (address + 1) room
        else some ⟨ret, b, shift + 7, offset⟩

/-- `_dwarf_read_uleb128` -/
def readUleb128 (mem : Memory) (ds : Section) (offset : Nat) : Option (Nat × Nat) :=
  (lebLoop mem 0 0 offset (ds.at offset) (mem.room (ds.at offset))).map fun read =>
    (read.ret.toNat, read.offset)

/-- `_dwarf_read_sleb128` -/
def readSleb128 (mem : Memory) (ds : Section) (offset : Nat) : Option (Nat × Nat) :=
  (lebLoop mem 0 0 offset (ds.at offset) (mem.room (ds.at offset))).map fun read =>
    let ret := if read.shift < 32 ∧ read.b &&& 0x40 ≠ 0 then
        read.ret ||| ((-1 : BitVec 32) <<< read.shift).signExtend 64
      else read.ret
    (ret.toNat, read.offset)

/-! ## Strings and blocks -/

/-- The loop of `_dwarf_read_string` and the step over the NUL. -/
def stringLoop (mem : Memory) (size offset : Nat) : (address room : Nat) → Option Nat
  | _, 0 => none
  | address, room + 1 =>
      (mem.byte address).bind fun c =>
        if c ≠ 0 ∧ offset < size then stringLoop mem size (u64 (offset + 1)) (address + 1) room
        else if c = 0 ∧ offset < size then some (u64 (offset + 1))
        else some offset

/-- `_dwarf_read_string`: the address of the string and the offset after it. -/
def readString (mem : Memory) (ds : Section) (offset : Nat) : Option (Nat × Nat) :=
  (stringLoop mem ds.dsSize offset (ds.at offset) (mem.room (ds.at offset))).map fun next =>
    (ds.at offset, next)

/-- `_dwarf_read_block`: the address of the block and the offset after it. -/
def readBlock (ds : Section) (offset length : Nat) : Nat × Nat :=
  (ds.at offset, u64 (offset + length))

end Jos64.Dwarf
