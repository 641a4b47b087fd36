import Jos64.Dwarf.Contents

/-!
# Initial lengths

A unit of line numbers and an entry of the frame section begin with their length.
It is a number of four bytes, or of eight behind a mark, and in the second case the
offsets in the unit are wide as well.
-/

namespace Jos64.Dwarf

/-- A difference of two `uint64_t`. -/
def sub64 (x y : Nat) : Nat :=
  u64 (x + (2 ^ 64 - u64 y))

theorem sub64_of_le {x y : Nat} (le : y ≤ x) (small : x < 2 ^ 64) : sub64 x y = x - y := by
  rw [sub64, u64_of_lt (le.trans_lt small)]
  unfold u64
  omega

/-- The length, the width of the offsets, and the offset behind. -/
def readLength (order : Endianness) (mem : Memory) (ds : Section) (offset : Nat) :
    Option (Nat × Nat × Nat) :=
  (dbgRead order mem ds offset 4).bind fun (length, offset) =>
    if length = 0xffffffff then
      (dbgRead order mem ds offset 8).map fun (length, offset) => (length, 8, offset)
    else some (length, 4, offset)

/-- The width of the offsets in a unit. -/
def offsetWidth (wide : Bool) : Nat :=
  if wide then 8 else 4

/-- The number of bytes of an initial length. -/
def lengthWidth (wide : Bool) : Nat :=
  if wide then 12 else 4

theorem isWidth_offsetWidth (wide : Bool) : IsWidth (offsetWidth wide) := by
  cases wide with
  | false | true => decide

/-- The bytes of an initial length. -/
def lengthBytes (order : Endianness) (wide : Bool) (length : Nat) : List Byte :=
  if wide then order.bytes 4 0xffffffff ++ order.bytes 8 length else order.bytes 4 length

@[simp]
theorem lengthBytes_length (order : Endianness) (wide : Bool) (length : Nat) :
    (lengthBytes order wide length).length = lengthWidth wide := by
  cases wide with
  | false => exact order.bytes_length 4 length
  | true =>
      rw [lengthBytes, if_pos rfl, List.length_append, order.bytes_length, order.bytes_length]
      rfl

/-- A length that is written is read. -/
theorem Section.Contains.readLength {order : Endianness} {mem : Memory} {ds : Section}
    {offset length : Nat} {wide : Bool} (small : length < if wide then 2 ^ 64 else 0xffffffff)
    (contains : ds.Contains mem offset (lengthBytes order wide length)) :
    readLength order mem ds offset =
      some (length, offsetWidth wide, offset + lengthWidth wide) := by
  cases wide with
  | false =>
      rw [if_neg Bool.false_ne_true] at small
      rw [lengthBytes, if_neg Bool.false_ne_true] at contains
      rw [Dwarf.readLength, contains.dbgRead (by decide) (by omega), Option.bind_some]
      dsimp only
      rw [if_neg (by omega)]
      rfl
  | true =>
      rw [if_pos rfl] at small
      rw [lengthBytes, if_pos rfl] at contains
      have mark := contains.left
      have long := contains.right
      rw [order.bytes_length] at long
      rw [Dwarf.readLength, mark.dbgRead (by decide) (by decide), Option.bind_some]
      dsimp only
      rw [if_pos rfl, long.dbgRead (by decide) (by omega)]
      rfl

/-! ## Words that are zero -/

theorem shl_eq_zero {b : Byte} {shift : Nat} (small : shift ≤ 56) (zero : shl b shift = 0) :
    b = 0 := by
  have byte_lt := b.isLt
  have bound : b.toNat * 2 ^ shift < 2 ^ 64 := by
    calc
      b.toNat * 2 ^ shift < 2 ^ 8 * 2 ^ shift :=
        Nat.mul_lt_mul_of_pos_right byte_lt (Nat.two_pow_pos shift)
      _ = 2 ^ (8 + shift) := (pow_add 2 8 shift).symm
      _ ≤ 2 ^ 64 := Nat.pow_le_pow_right (by decide) (by omega)
  have value : (shl b shift).toNat = b.toNat * 2 ^ shift := by
    rw [shl, BitVec.toNat_shiftLeft, BitVec.toNat_setWidth, Nat.shiftLeft_eq,
      Nat.mod_eq_of_lt (show b.toNat < 2 ^ 64 by omega), Nat.mod_eq_of_lt bound]
  rw [zero, show (0 : BitVec 64).toNat = 0 from rfl] at value
  apply BitVec.eq_of_toNat_eq
  exact (Nat.mul_eq_zero.mp value.symm).resolve_right (Nat.two_pow_pos shift).ne'

theorem Memory.read_take {mem : Memory} {address : Nat} (count more : Nat) {bytes : List Byte}
    (found : mem.read address (count + more) = some bytes) :
    mem.read address count = some (bytes.take count) := by
  induction count generalizing address bytes with
  | zero => rw [List.take_zero, read]
  | succ count ih =>
      rw [Nat.add_right_comm, read] at found
      obtain ⟨byte, mapped, rest⟩ := Option.bind_eq_some_iff.mp found
      obtain ⟨later, later_read, rfl⟩ := Option.map_eq_some_iff.mp rest
      rw [read, mapped, Option.bind_some, ih later_read, Option.map_some, List.take_succ_cons]

theorem Memory.length_of_read {mem : Memory} {address count : Nat} {bytes : List Byte}
    (found : mem.read address count = some bytes) : bytes.length = count := by
  induction count generalizing address bytes with
  | zero =>
      cases found
      rfl
  | succ count ih =>
      obtain ⟨byte, -, rest⟩ := Option.bind_eq_some_iff.mp found
      obtain ⟨later, later_read, rfl⟩ := Option.map_eq_some_iff.mp rest
      rw [List.length_cons, ih later_read]

/-- Of a zero of eight bytes the first four are a zero. -/
theorem dbgRead_half {order : Endianness} {mem : Memory} {ds : Section} {offset next : Nat}
    (found : dbgRead order mem ds offset 8 = some (0, next)) :
    dbgRead order mem ds offset 4 = some (0, u64 (offset + 4)) := by
  rw [dbgRead, if_pos (by decide)] at found
  obtain ⟨bytes, read, value⟩ := Option.map_eq_some_iff.mp found
  have length_eq := Memory.length_of_read read
  have half := Memory.read_take 4 4 read
  obtain ⟨s0, rest0, rfl, length0⟩ := List.length_eq_succ_iff.mp length_eq
  obtain ⟨s1, rest1, rfl, length1⟩ := List.length_eq_succ_iff.mp length0
  obtain ⟨s2, rest2, rfl, length2⟩ := List.length_eq_succ_iff.mp length1
  obtain ⟨s3, rest3, rfl, length3⟩ := List.length_eq_succ_iff.mp length2
  obtain ⟨s4, rest4, rfl, length4⟩ := List.length_eq_succ_iff.mp length3
  obtain ⟨s5, rest5, rfl, length5⟩ := List.length_eq_succ_iff.mp length4
  obtain ⟨s6, rest6, rfl, length6⟩ := List.length_eq_succ_iff.mp length5
  obtain ⟨s7, rest7, rfl, length7⟩ := List.length_eq_succ_iff.mp length6
  obtain rfl := List.length_eq_zero_iff.mp length7
  rw [dbgRead, if_pos (by decide), half, Option.map_some]
  have zero := congrArg Prod.fst value
  have first (b : Byte) (none_set : b.setWidth 64 = 0) : b = 0 :=
    shl_eq_zero (Nat.zero_le 56) ((shl_zero b).trans none_set)
  cases order with
  | lsb =>
      have word_zero : lsbValue [s0, s1, s2, s3, s4, s5, s6, s7] = 0#64 :=
        BitVec.eq_of_toNat_eq zero
      simp only [lsbValue, BitVec.or_eq_zero_iff] at word_zero
      obtain ⟨⟨⟨-, s2_zero, s3_zero⟩, s1_zero⟩, s0_zero⟩ := word_zero
      rw [first s0 s0_zero, shl_eq_zero (by decide) s1_zero, shl_eq_zero (by decide) s2_zero,
        shl_eq_zero (by decide) s3_zero]
      rfl
  | msb =>
      have word_zero : msbValue [s0, s1, s2, s3, s4, s5, s6, s7] = 0#64 :=
        BitVec.eq_of_toNat_eq zero
      simp only [msbValue, BitVec.or_eq_zero_iff] at word_zero
      obtain ⟨⟨-, s3_zero, s2_zero⟩, s1_zero, s0_zero⟩ := word_zero
      rw [shl_eq_zero (by decide) s0_zero, shl_eq_zero (by decide) s1_zero,
        shl_eq_zero (by decide) s2_zero, shl_eq_zero (by decide) s3_zero]
      rfl

end Jos64.Dwarf
