import Jos64.Dwarf.Memory

/-!
# What the readers make of encoded numbers

Fixed-width numbers are read as they are written.  A LEB128 number is put
together in an `int`, so only values that survive there are read back: below
`2 ^ 31`, or so close to `2 ^ 64` that every lost bit is restored by the
extension of the sign.
-/

namespace Jos64.Dwarf

open Leb

/-! ## LEB128 -/

/-- The bits that the groups of a number leave in the `int`. -/
def lebBits : Nat → List Byte → BitVec 32
  | _, [] => 0
  | shift, b :: bytes =>
      (b &&& 0x7F).setWidth 32 <<< (shift % 32) ||| lebBits (shift + 7) bytes

/-- The loop reads the bytes of one number. -/
theorem lebLoop_eq {mem : Memory} {bytes : List Byte} (ended : Ended bytes) (ret : BitVec 64)
    (shift offset : Nat) {address room : Nat} (held : mem.Holds address bytes)
    (enough : bytes.length ≤ room) :
    lebLoop mem ret shift offset address room =
      some ⟨ret ||| (lebBits shift bytes).signExtend 64, bytes.getLast ended.ne_nil,
        shift + 7 * bytes.length, u64 (offset + bytes.length)⟩ := by
  induction ended generalizing ret shift offset address room with
  | @last b ends =>
      obtain ⟨room, rfl⟩ : ∃ more, room = more + 1 := ⟨room - 1, by simp at enough; omega⟩
      obtain ⟨mapped, -⟩ := Memory.holds_cons.mp held
      rw [lebLoop, mapped, Option.bind_some]
      dsimp only
      rw [if_neg (show ¬ (b &&& 0x80 ≠ 0) from ends)]
      simp [lebBits]
  | @more b bytes continues ended ih =>
      obtain ⟨room, rfl⟩ : ∃ more, room = more + 1 := ⟨room - 1, by simp at enough; omega⟩
      obtain ⟨mapped, rest⟩ := Memory.holds_cons.mp held
      rw [lebLoop, mapped, Option.bind_some]
      dsimp only
      rw [if_pos (show b &&& 0x80 ≠ 0 from continues), ih _ _ _ rest (by simpa using enough),
        u64_add_u64, lebBits, BitVec.signExtend_or, BitVec.or_assoc,
        List.getLast_cons ended.ne_nil, List.length_cons]
      congr 2
      · omega
      · rw [Nat.add_assoc, Nat.add_comm 1]

/-- Whatever stands in memory, the loop reads the bytes of a number. -/
theorem held_of_lebLoop {mem : Memory} {ret : BitVec 64} {shift offset address room : Nat}
    {read : LebRead} (found : lebLoop mem ret shift offset address room = some read) :
    ∃ bytes, Ended bytes ∧ mem.Holds address bytes := by
  induction room generalizing ret shift offset address with
  | zero => contradiction
  | succ room ih =>
      obtain ⟨b, mapped, rest⟩ := Option.bind_eq_some_iff.mp found
      dsimp only at rest
      split at rest
      · rename_i continues
        obtain ⟨bytes, ended, held⟩ := ih rest
        exact ⟨b :: bytes, .more continues ended, Memory.holds_cons.mpr ⟨mapped, held⟩⟩
      · rename_i last
        refine ⟨[b], .last last, Memory.holds_cons.mpr ⟨mapped, ?_⟩⟩
        exact Store.Holds.nil _ _

/-- Only one number begins at an address. -/
theorem ended_unique {mem : Memory} {address : Nat} {bytes others : List Byte}
    (ended : Ended bytes) (others_ended : Ended others) (held : mem.Holds address bytes)
    (others_held : mem.Holds address others) : bytes = others := by
  induction ended generalizing address others with
  | @last byte stops =>
      have mapped := (Memory.holds_cons.mp held).1
      cases others_ended with
      | last =>
          have other_mapped := (Memory.holds_cons.mp others_held).1
          rw [Option.some.inj (mapped.symm.trans other_mapped)]
      | more continues _ =>
          have same := Option.some.inj (mapped.symm.trans (Memory.holds_cons.mp others_held).1)
          exact absurd (same ▸ continues) stops
  | @more byte bytes continues _ ih =>
      obtain ⟨mapped, held⟩ := Memory.holds_cons.mp held
      cases others_ended with
      | last stops =>
          have same := Option.some.inj (mapped.symm.trans (Memory.holds_cons.mp others_held).1)
          exact absurd continues (same ▸ stops)
      | more _ others_ended =>
          obtain ⟨other_mapped, others_held⟩ := Memory.holds_cons.mp others_held
          rw [Option.some.inj (mapped.symm.trans other_mapped), ih others_ended held others_held]

/-- Whatever stands in memory, the loop moves on by the bytes that it reads. -/
theorem lebLoop_offset {mem : Memory} {ret : BitVec 64} {shift offset address room : Nat}
    {read : LebRead} (found : lebLoop mem ret shift offset address room = some read) :
    ∃ count, 0 < count ∧ address + count ≤ mem.top ∧ read.offset = u64 (offset + count) := by
  induction room generalizing ret shift offset address with
  | zero => contradiction
  | succ room ih =>
      obtain ⟨b, mapped, rest⟩ := Option.bind_eq_some_iff.mp found
      have below_top := Memory.lt_top mapped
      dsimp only at rest
      split at rest
      · obtain ⟨count, -, inside, offset_eq⟩ := ih rest
        refine ⟨count + 1, Nat.succ_pos count, by omega, ?_⟩
        rw [offset_eq, u64_add_u64, Nat.add_assoc, Nat.add_comm 1]
      · cases rest
        exact ⟨1, Nat.one_pos, below_top, rfl⟩

/-- A number that is read ends behind its beginning. -/
theorem lt_of_readUleb128 {mem : Memory} {ds : Section} {offset value next : Nat}
    (in_memory : ds.dsData + ds.dsSize ≤ mem.top) (inside : offset < ds.dsSize)
    (found : readUleb128 mem ds offset = some (value, next)) : offset < next := by
  have below_top := mem.top_lt
  obtain ⟨read, loop_eq, made⟩ := Option.map_eq_some_iff.mp found
  obtain ⟨count, positive, mapped, offset_eq⟩ := lebLoop_offset loop_eq
  rw [Section.at, u64_of_lt (by omega)] at mapped
  rw [u64_of_lt (by omega)] at offset_eq
  cases made
  omega

theorem lebBits_cons_toNat (shift : Nat) (b : Byte) (bytes : List Byte) (small : shift < 32) :
    lebBits shift (b :: bytes) =
      BitVec.ofNat 32 (group b * 2 ^ shift) ||| lebBits (shift + 7) bytes := by
  have group_eq : (b &&& 0x7F).setWidth 32 = BitVec.ofNat 32 (group b) := by
    apply BitVec.eq_of_toNat_eq
    simp [group]
  rw [lebBits, Nat.mod_eq_of_lt small, group_eq]
  congr 1
  apply BitVec.eq_of_toNat_eq
  rw [BitVec.toNat_shiftLeft, BitVec.toNat_ofNat, BitVec.toNat_ofNat, Nat.shiftLeft_eq,
    Nat.mod_mul_mod]

/-- Groups that are all zero leave nothing, wherever they are shifted. -/
theorem lebBits_zero {bytes : List Byte} {value : Nat} (valid : Unsigned bytes value)
    (zero : value = 0) (shift : Nat) : lebBits shift bytes = 0 := by
  have no_bits {b : Byte} (empty : group b = 0) : (b &&& 0x7F).setWidth 32 = 0 := by
    apply BitVec.eq_of_toNat_eq
    rw [BitVec.toNat_setWidth, show (b &&& 0x7F).toNat = 0 from empty]
    rfl
  induction valid generalizing shift with
  | last =>
      rw [lebBits, lebBits, no_bits zero]
      simp
  | @more b bytes value _ _ ih =>
      rw [lebBits, no_bits (by omega), ih (by omega)]
      simp

/-- Two parts of a word that do not overlap. -/
theorem ofNat_or_ofNat {width low high place : Nat} (below : low < 2 ^ place) :
    BitVec.ofNat width low ||| BitVec.ofNat width (high * 2 ^ place) =
      BitVec.ofNat width (low + high * 2 ^ place) := by
  apply BitVec.eq_of_toNat_eq
  rw [BitVec.toNat_or, BitVec.toNat_ofNat, BitVec.toNat_ofNat, BitVec.toNat_ofNat,
    ← Nat.or_mod_two_pow, Nat.or_comm, Nat.mul_comm high, ← Nat.two_pow_add_eq_or_of_lt below,
    Nat.add_comm]

theorem shift_lt_of_fits {value shift : Nat} (nonzero : value ≠ 0)
    (fits : value * 2 ^ shift < 2 ^ 32) : shift < 32 := by
  have power_lt : 2 ^ shift < 2 ^ 32 :=
    (Nat.le_mul_of_pos_left _ (Nat.pos_of_ne_zero nonzero)).trans_lt fits
  exact (Nat.pow_lt_pow_iff_right (by decide)).mp power_lt

/-- A number that has no bit beyond the `int`. -/
theorem lebBits_of_lt {bytes : List Byte} {value : Nat} (valid : Unsigned bytes value) (shift : Nat)
    (fits : value * 2 ^ shift < 2 ^ 32) :
    lebBits shift bytes = BitVec.ofNat 32 (value * 2 ^ shift) := by
  induction valid generalizing shift with
  | @last b ends =>
      by_cases zero : group b = 0
      · rw [lebBits_zero (.last ends) zero, zero, Nat.zero_mul]
        rfl
      · rw [lebBits_cons_toNat shift b [] (shift_lt_of_fits zero fits), lebBits]
        exact BitVec.or_zero
  | @more b bytes value continues valid ih =>
      by_cases zero : group b + 128 * value = 0
      · rw [lebBits_zero (.more continues valid) zero, zero, Nat.zero_mul]
        rfl
      · have small := shift_lt_of_fits zero fits
        have value_eq : 128 * value * 2 ^ shift = value * 2 ^ (shift + 7) := by ring
        have below : group b * 2 ^ shift < 2 ^ (shift + 7) := by
          calc
            group b * 2 ^ shift < 128 * 2 ^ shift :=
              Nat.mul_lt_mul_of_pos_right (group_lt b) (Nat.two_pow_pos shift)
            _ = 2 ^ (shift + 7) := by ring
        rw [Nat.add_mul, value_eq] at fits
        rw [lebBits_cons_toNat shift b bytes small, ih (shift + 7) (by omega),
          ofNat_or_ofNat below, Nat.add_mul, value_eq]

/-! ## Unsigned numbers -/

/-- The unsigned numbers that the readers read back. -/
def ReadsUnsigned (value : Nat) : Prop :=
  value < 2 ^ 31 ∨ 2 ^ 64 - 8 ≤ value

instance : DecidablePred ReadsUnsigned := fun _ => inferInstanceAs (Decidable (_ ∨ _))

theorem toNat_signExtend_int (x : BitVec 32) :
    (x.signExtend 64).toNat =
      if x.toNat < 2 ^ 31 then x.toNat else x.toNat + (2 ^ 64 - 2 ^ 32) := by
  have high : x.msb = decide (2 ^ 31 ≤ x.toNat) := BitVec.msb_eq_decide x
  have bound := x.isLt
  rw [BitVec.toNat_signExtend, high, BitVec.toNat_setWidth, Nat.mod_eq_of_lt (by omega)]
  by_cases small : x.toNat < 2 ^ 31
  · rw [if_pos small, decide_eq_false (by omega)]
    rfl
  · rw [if_neg small, decide_eq_true (by omega)]
    rfl

/-- The shift count is taken modulo the width. -/
theorem lebBits_add_width (shift : Nat) (bytes : List Byte) :
    lebBits (shift + 32) bytes = lebBits shift bytes := by
  induction bytes generalizing shift with
  | nil => rfl
  | cons b bytes ih =>
      rw [lebBits, lebBits, Nat.add_mod_right, Nat.add_right_comm, ih]

/-- Bits from the third on that are all set absorb whatever is shifted there. -/
theorem shiftLeft_or_top (x : BitVec 32) {shift : Nat} (high : 3 ≤ shift) :
    x <<< shift ||| 0xFFFFFFF8 = 0xFFFFFFF8 := by
  have ones : ∀ i : Fin 32, (0xFFFFFFF8 : BitVec 32).getLsbD i = decide (3 ≤ i.val) := by decide
  apply BitVec.eq_of_getLsbD_eq
  intro i bound
  have ones_i := ones ⟨i, bound⟩
  rw [BitVec.getLsbD_or, ones_i, BitVec.getLsbD_shiftLeft]
  by_cases low : i < shift
  · simp [low]
  · simp [show 3 ≤ i by omega]

/-- A number that fills all the upper bits: the groups beyond the `int` are
shifted back into it and set every bit but the lowest three. -/
theorem lebBits_of_top {bytes : List Byte} {value : Nat} (valid : Unsigned bytes value)
    (low : 2 ^ 64 - 2 ^ 31 ≤ value) (high : value < 2 ^ 64) :
    (lebBits 0 bytes).toNat = 2 ^ 32 - 8 + value % 8 := by
  obtain ⟨b0, rest0, rfl, group0, valid0⟩ := valid.of_large (by omega)
  obtain ⟨b1, rest1, rfl, -, valid1⟩ := valid0.of_large (by omega)
  obtain ⟨b2, rest2, rfl, -, valid2⟩ := valid1.of_large (by omega)
  obtain ⟨b3, rest3, rfl, -, valid3⟩ := valid2.of_large (by omega)
  obtain ⟨b4, rest4, rfl, -, valid4⟩ := valid3.of_large (by omega)
  have beyond : lebBits 35 rest4 = 0xFFFFFFF8 := by
    have value_eq : value / 128 / 128 / 128 / 128 / 128 = 2 ^ 29 - 1 := by omega
    rw [value_eq] at valid4
    rw [lebBits_add_width 3, lebBits_of_lt valid4 3 (by decide)]
    rfl
  have first : ∀ b : Byte,
      ((b &&& 0x7F).setWidth 32 <<< 0 ||| 0xFFFFFFF8 : BitVec 32).toNat =
        2 ^ 32 - 8 + group b % 8 := by decide
  simp only [lebBits, Nat.reduceAdd, Nat.reduceMod, beyond]
  rw [shiftLeft_or_top _ (by decide), shiftLeft_or_top _ (by decide),
    shiftLeft_or_top _ (by decide), shiftLeft_or_top _ (by decide), first, group0]
  omega

/-- What an unsigned number is read as is the number itself exactly if it
survives. -/
theorem unsigned_read_iff {bytes : List Byte} {value : Nat} (valid : Unsigned bytes value)
    (high : value < 2 ^ 64) :
    ((lebBits 0 bytes).signExtend 64).toNat = value ↔ ReadsUnsigned value := by
  unfold ReadsUnsigned
  rw [toNat_signExtend_int]
  have bound := (lebBits 0 bytes).isLt
  by_cases fits : value < 2 ^ 32
  · rw [lebBits_of_lt valid 0 (by omega), BitVec.toNat_ofNat, Nat.pow_zero, Nat.mul_one,
      Nat.mod_eq_of_lt fits]
    split
    · omega
    · omega
  · by_cases top : 2 ^ 64 - 2 ^ 31 ≤ value
    · rw [lebBits_of_top valid top high, if_neg (by omega)]
      omega
    · split
      · omega
      · omega

/-- `_dwarf_read_uleb128` on the bytes of a number. -/
theorem readUleb128_ended {mem : Memory} {ds : Section} {offset : Nat} {bytes : List Byte}
    (ended : Ended bytes) (held : mem.Holds (ds.at offset) bytes) :
    readUleb128 mem ds offset =
      some (((lebBits 0 bytes).signExtend 64).toNat, u64 (offset + bytes.length)) := by
  rw [readUleb128, lebLoop_eq ended 0 0 offset held held.length_le_room, Option.map_some]
  dsimp only
  rw [show (0 : BitVec 64) = 0#64 from rfl, BitVec.zero_or]

/-- `_dwarf_read_uleb128` on an encoded number. -/
theorem readUleb128_eq {mem : Memory} {ds : Section} {offset : Nat} {bytes : List Byte}
    {value : Nat}
    (valid : Unsigned bytes value) (held : mem.Holds (ds.at offset) bytes) :
    readUleb128 mem ds offset =
      some (((lebBits 0 bytes).signExtend 64).toNat, u64 (offset + bytes.length)) :=
  readUleb128_ended valid.ended held

/-! ## Signed numbers -/

/-- The signed numbers that the readers read back.  A negative number of more
than five bytes has groups of ones beyond the `int`; they are shifted back into
it, and must fall on bits that are set there. -/
def ReadsSigned (bytes : List Byte) (value : Int) : Prop :=
  (-(2 ^ 31) ≤ value ∧ value < 2 ^ 31) ∧
    (value < 0 → ∀ k < bytes.length, 5 ≤ k →
      BitVec.ofInt 32 value ||| (0x7F : BitVec 32) <<< (7 * k % 32) = BitVec.ofInt 32 value)

instance (bytes : List Byte) (value : Int) : Decidable (ReadsSigned bytes value) :=
  inferInstanceAs (Decidable ((_ ∧ _) ∧ _))

/-- The bits of a signed number in the `int`, with the extension that the
reader makes of the last sign bit. -/
def slebBits (shift : Nat) (bytes : List Byte) : BitVec 32 :=
  lebBits shift bytes |||
    if shift + 7 * bytes.length < 32 ∧ bytes.getLastD 0 &&& 0x40 ≠ 0 then
      (-1 : BitVec 32) <<< (shift + 7 * bytes.length)
    else 0

theorem slebBits_of_long {shift : Nat} {bytes : List Byte} (long : 32 ≤ shift + 7 * bytes.length) :
    slebBits shift bytes = lebBits shift bytes := by
  rw [slebBits, if_neg fun extended => not_lt.mpr long extended.1]
  exact BitVec.or_zero

theorem slebBits_cons (shift : Nat) (b : Byte) {bytes : List Byte} (nonempty : bytes ≠ [])
    (small : shift < 32) :
    slebBits shift (b :: bytes) =
      BitVec.ofNat 32 (group b * 2 ^ shift) ||| slebBits (shift + 7) bytes := by
  have count : shift + 7 * (b :: bytes).length = shift + 7 + 7 * bytes.length := by
    rw [List.length_cons]
    omega
  have last : (b :: bytes).getLastD 0 = bytes.getLastD 0 := by
    cases bytes with
    | nil => contradiction
    | cons next bytes => rw [List.getLastD_cons, List.getLastD_cons, List.getLastD_cons]
  rw [slebBits, slebBits, lebBits_cons_toNat shift b bytes small, count, last, BitVec.or_assoc]

/-- Numbers that agree modulo the width are the same word. -/
theorem ofNat_eq_ofInt {x : Nat} {y : Int} (turns : Int) (same : (x : Int) = y + turns * 2 ^ 32) :
    BitVec.ofNat 32 x = BitVec.ofInt 32 y := by
  rw [← BitVec.ofInt_natCast, same]
  apply BitVec.eq_of_toInt_eq
  rw [BitVec.toInt_ofInt, BitVec.toInt_ofInt]
  exact Int.add_mul_bmod_self_right y turns (2 ^ 32)

/-- Two parts of a word that do not overlap, the upper one signed. -/
theorem ofNat_or_ofInt {low place : Nat} (below : low < 2 ^ place) (high : Int) :
    BitVec.ofNat 32 low ||| BitVec.ofInt 32 (high * 2 ^ place) =
      BitVec.ofInt 32 (low + high * 2 ^ place) := by
  have high_eq : ((high % 2 ^ 32).toNat : Int) = high - high / 2 ^ 32 * 2 ^ 32 := by
    omega
  rw [← ofNat_eq_ofInt (x := (high % 2 ^ 32).toNat * 2 ^ place) (-(high / 2 ^ 32 * 2 ^ place))
    (by rw [Nat.cast_mul, Nat.cast_pow, Nat.cast_ofNat, high_eq]; ring), ofNat_or_ofNat below]
  apply ofNat_eq_ofInt (-(high / 2 ^ 32 * 2 ^ place))
  rw [Nat.cast_add, Nat.cast_mul, Nat.cast_pow, Nat.cast_ofNat, high_eq]
  ring

/-- A group stays below the place of the next one. -/
theorem group_below (b : Byte) (shift : Nat) : group b * 2 ^ shift < 2 ^ (shift + 7) := by
  calc
    group b * 2 ^ shift < 128 * 2 ^ shift :=
      Nat.mul_lt_mul_of_pos_right (group_lt b) (Nat.two_pow_pos shift)
    _ = 2 ^ (shift + 7) := by ring

/-- The last byte of a signed number. -/
theorem slebBits_last (b : Byte) {shift : Nat} (inside : shift < 32) :
    slebBits shift [b] =
      BitVec.ofInt 32 ((if group b < 64 then (group b : Int) else group b - 128) * 2 ^ shift) := by
  have sign : ∀ b : Byte, (b &&& 0x40 ≠ 0 ↔ 64 ≤ group b) := by decide
  have ones : ∀ place : Fin 32, (-1 : BitVec 32) <<< place.val =
      BitVec.ofNat 32 ((2 ^ (32 - place.val) - 1) * 2 ^ place.val) := by decide
  have bits : lebBits shift [b] = BitVec.ofNat 32 (group b * 2 ^ shift) := by
    rw [lebBits_cons_toNat shift _ _ inside, lebBits]
    exact BitVec.or_zero
  rw [slebBits, bits, List.getLastD_cons, List.getLastD_nil, List.length_singleton, Nat.mul_one]
  by_cases positive : group b < 64
  · rw [if_pos positive, if_neg fun extended => not_le.mpr positive ((sign b).mp extended.2)]
    rw [show (0 : BitVec 32) = 0#32 from rfl, BitVec.or_zero]
    apply ofNat_eq_ofInt 0
    push_cast
    ring
  · rw [if_neg positive]
    by_cases room : shift + 7 < 32
    · -- the sign is extended by the reader
      have ones_place := ones ⟨shift + 7, room⟩
      rw [if_pos ⟨room, (sign b).mpr (not_lt.mp positive)⟩, ones_place,
        ofNat_or_ofNat (group_below b shift)]
      apply ofNat_eq_ofInt 1
      have power : (2 : Int) ^ (32 - (shift + 7)) * 2 ^ (shift + 7) = 2 ^ 32 := by
        rw [← pow_add, Nat.sub_add_cancel room.le]
      rw [Nat.cast_add, Nat.cast_mul, Nat.cast_mul, Nat.cast_sub Nat.one_le_two_pow, Nat.cast_pow,
        Nat.cast_pow, Nat.cast_pow, Nat.cast_ofNat, Nat.cast_one, Int.sub_mul, power]
      ring
    · -- the sign bit is the top bit of the word already
      rw [if_neg fun extended => room extended.1]
      rw [show (0 : BitVec 32) = 0#32 from rfl, BitVec.or_zero]
      apply ofNat_eq_ofInt (2 ^ (shift + 7 - 32))
      rw [Nat.cast_mul, Nat.cast_pow, Nat.cast_ofNat, ← pow_add,
        Nat.sub_add_cancel (not_lt.mp room)]
      ring

/-- A signed number of at most five bytes. -/
theorem slebBits_of_short {bytes : List Byte} {value : Int} (valid : Signed bytes value)
    (shift : Nat) (short : shift + 7 * bytes.length ≤ 35) :
    slebBits shift bytes = BitVec.ofInt 32 (value * 2 ^ shift) := by
  induction valid generalizing shift with
  | @last b _ => exact slebBits_last b (by rw [List.length_singleton] at short; omega)
  | @more b bytes value _ valid ih =>
      rw [List.length_cons] at short
      have nonempty := List.length_pos_of_ne_nil valid.ended.ne_nil
      rw [slebBits_cons shift b valid.ended.ne_nil (by omega), ih (shift + 7) (by omega),
        ofNat_or_ofInt (group_below b shift)]
      congr 1
      push_cast
      ring

/-- The groups up to the end of the `int`, and those beyond. -/
theorem lebBits_split {bytes : List Byte} {value : Int} (valid : Signed bytes value)
    {shift k : Nat} (place : shift + 7 * k = 35) (inside : k < bytes.length) :
    lebBits shift bytes = BitVec.ofInt 32 (value * 2 ^ shift) ||| lebBits 35 (bytes.drop k) := by
  induction k generalizing bytes value shift with
  | zero =>
      obtain rfl : shift = 35 := by omega
      have none_left : BitVec.ofInt 32 (value * 2 ^ 35) = BitVec.ofNat 32 0 :=
        (ofNat_eq_ofInt (-(value * 8)) (by push_cast; ring)).symm
      rw [none_left, List.drop_zero, BitVec.zero_or]
  | succ k ih =>
      cases valid with
      | last => simp at inside
      | @more b bytes value _ valid =>
          rw [lebBits_cons_toNat shift b bytes (by omega), ih valid (by omega)
            (Nat.lt_of_succ_lt_succ inside), ← BitVec.or_assoc,
            ofNat_or_ofInt (group_below b shift), List.drop_succ_cons]
          congr 2
          push_cast
          ring

/-- Groups of ones change nothing exactly if they fall on bits that are set. -/
theorem or_lebBits_iff {bytes : List Byte} {value : Int} (valid : Signed bytes value)
    (ones : value = -1) (x : BitVec 32) (shift : Nat) :
    x ||| lebBits shift bytes = x ↔
      ∀ k < bytes.length, x ||| (0x7F : BitVec 32) <<< ((shift + 7 * k) % 32) = x := by
  have or_iff (y z : BitVec 32) : x ||| (y ||| z) = x ↔ x ||| y = x ∧ x ||| z = x := by
    constructor
    · intro same
      constructor
      · rw [← same, ← BitVec.or_assoc, BitVec.or_assoc x y z, BitVec.or_assoc,
          BitVec.or_comm (y ||| z), ← BitVec.or_assoc y, BitVec.or_self]
      · rw [← same, BitVec.or_assoc, BitVec.or_assoc y, BitVec.or_self]
    · rintro ⟨first, second⟩
      rw [← BitVec.or_assoc, first, second]
  have full {b : Byte} (all : group b = 127) : (b &&& 0x7F).setWidth 32 = (0x7F : BitVec 32) := by
    apply BitVec.eq_of_toNat_eq
    rw [BitVec.toNat_setWidth, show (b &&& 0x7F).toNat = 127 from all]
    rfl
  induction valid generalizing shift with
  | @last b _ =>
      have low := group_lt b
      have all : group b = 127 := by
        split at ones
        · omega
        · omega
      rw [lebBits, lebBits, full all, show (0 : BitVec 32) = 0#32 from rfl, BitVec.or_zero]
      constructor
      · intro same k inside
        obtain rfl : k = 0 := Nat.lt_one_iff.mp inside
        exact same
      · intro same
        exact same 0 Nat.one_pos
  | @more b bytes value _ valid ih =>
      have low := group_lt b
      have all : group b = 127 := by omega
      have rest := ih (by omega) (shift + 7)
      rw [lebBits, full all, or_iff]
      refine (and_congr_right' rest).trans ?_
      constructor
      · rintro ⟨first, later⟩ k inside
        cases k with
        | zero => exact first
        | succ k =>
            have later_k := later k (Nat.lt_of_succ_lt_succ inside)
            rwa [show shift + 7 * (k + 1) = shift + 7 + 7 * k by omega]
      · intro same
        refine ⟨same 0 (Nat.succ_pos _), fun k inside => ?_⟩
        rw [show shift + 7 + 7 * k = shift + 7 * (k + 1) by omega]
        exact same (k + 1) (Nat.succ_lt_succ inside)

/-- The extension of an `int` is a number exactly if its bits are the number's
and the number fits. -/
theorem signExtend_eq_iff {x : BitVec 32} {value : Int} (low : -(2 ^ 63) ≤ value)
    (high : value < 2 ^ 63) :
    x.signExtend 64 = BitVec.ofInt 64 value ↔
      (-(2 ^ 31) ≤ value ∧ value < 2 ^ 31) ∧ x = BitVec.ofInt 32 value := by
  constructor
  · intro same
    have value_eq := congrArg BitVec.toInt same
    rw [BitVec.toInt_signExtend_of_le (by decide), BitVec.toInt_ofInt, Int.bmod_eq_of_le
      (by norm_num; omega) (by norm_num; omega)] at value_eq
    have bounds := And.intro (BitVec.le_toInt x) (BitVec.toInt_lt (x := x))
    rw [value_eq] at bounds
    refine ⟨bounds, BitVec.eq_of_toInt_eq ?_⟩
    rw [value_eq, BitVec.toInt_ofInt, Int.bmod_eq_of_le (by norm_num; omega) (by norm_num; omega)]
  · rintro ⟨⟨above, below⟩, rfl⟩
    apply BitVec.eq_of_toInt_eq
    rw [BitVec.toInt_signExtend_of_le (by decide), BitVec.toInt_ofInt, BitVec.toInt_ofInt,
      Int.bmod_eq_of_le (by norm_num; omega) (by norm_num; omega),
      Int.bmod_eq_of_le (by norm_num; omega) (by norm_num; omega)]

/-- The bits in the `int` are those of the number exactly if the groups beyond
it do no harm. -/
theorem slebBits_iff {bytes : List Byte} {value : Int} (valid : Signed bytes value)
    (low : -(2 ^ 31) ≤ value) (high : value < 2 ^ 31) :
    slebBits 0 bytes = BitVec.ofInt 32 value ↔
      (value < 0 → ∀ k < bytes.length, 5 ≤ k →
        BitVec.ofInt 32 value ||| (0x7F : BitVec 32) <<< (7 * k % 32) = BitVec.ofInt 32 value) := by
  by_cases short : bytes.length ≤ 5
  · rw [slebBits_of_short valid 0 (by omega), pow_zero, mul_one]
    constructor
    · intro _ _ k inside far
      omega
    · intro _
      rfl
  · rw [slebBits_of_long (by omega)]
    by_cases negative : value < 0
    · have rest_ones : value / 128 ^ 5 = -1 := by omega
      have count : bytes.length = (bytes.drop 5).length + 5 := by
        rw [List.length_drop]
        omega
      rw [lebBits_split valid (k := 5) rfl (by omega), pow_zero, mul_one,
        or_lebBits_iff (valid.drop (by omega)) rest_ones]
      constructor
      · intro same _ k inside far
        have same_k := same (k - 5) (by omega)
        rwa [show 35 + 7 * (k - 5) = 7 * k by omega] at same_k
      · intro same k inside
        rw [show 35 + 7 * k = 7 * (k + 5) by omega]
        exact same negative (k + 5) (by omega) (by omega)
    · have value_eq : ((value.toNat : Nat) : Int) = value := Int.toNat_of_nonneg (by omega)
      rw [lebBits_of_lt (valid.unsigned (by omega)) 0 (by omega), Nat.pow_zero, Nat.mul_one,
        ← BitVec.ofInt_natCast, value_eq]
      constructor
      · intro _ negative'
        exact absurd negative' negative
      · intro _
        rfl

/-- What a signed number is read as is the number itself exactly if it
survives. -/
theorem signed_read_iff {bytes : List Byte} {value : Int} (valid : Signed bytes value)
    (low : -(2 ^ 63) ≤ value) (high : value < 2 ^ 63) :
    (slebBits 0 bytes).signExtend 64 = BitVec.ofInt 64 value ↔ ReadsSigned bytes value := by
  rw [signExtend_eq_iff low high, ReadsSigned]
  constructor
  · rintro ⟨bounds, bits⟩
    exact ⟨bounds, (slebBits_iff valid bounds.1 bounds.2).mp bits⟩
  · rintro ⟨bounds, harmless⟩
    exact ⟨bounds, (slebBits_iff valid bounds.1 bounds.2).mpr harmless⟩

/-- `_dwarf_read_sleb128` on an encoded number. -/
theorem readSleb128_eq {mem : Memory} {ds : Section} {offset : Nat} {bytes : List Byte}
    (ended : Ended bytes) (held : mem.Holds (ds.at offset) bytes) :
    readSleb128 mem ds offset =
      some (((slebBits 0 bytes).signExtend 64).toNat, u64 (offset + bytes.length)) := by
  have last_eq : bytes.getLast ended.ne_nil = bytes.getLastD 0 := by
    rw [List.getLastD_eq_getLast?, List.getLast?_eq_some_getLast ended.ne_nil, Option.getD_some]
  rw [readSleb128, lebLoop_eq ended 0 0 offset held held.length_le_room, Option.map_some]
  dsimp only
  rw [last_eq, slebBits, show (0 : BitVec 64) = 0#64 from rfl, BitVec.zero_or]
  split
  · rw [BitVec.signExtend_or]
  · rw [show (0 : BitVec 32) = 0#32 from rfl, BitVec.or_zero]

/-! ## Numbers of fixed width -/

/-- The bytes of a number, lowest first. -/
def littleEndian : (width value : Nat) → List Byte
  | 0, _ => []
  | width + 1, value => BitVec.ofNat 8 value :: littleEndian width (value / 256)

/-- The bytes of a number in the order of the file. -/
def Endianness.bytes (order : Endianness) (width value : Nat) : List Byte :=
  match order with
  | .lsb => littleEndian width value
  | .msb => (littleEndian width value).reverse

/-- The widths that the readers know. -/
def IsWidth (width : Nat) : Prop :=
  width = 1 ∨ width = 2 ∨ width = 4 ∨ width = 8

instance : DecidablePred IsWidth := fun _ => inferInstanceAs (Decidable (_ ∨ _))

@[simp]
theorem littleEndian_length (width value : Nat) : (littleEndian width value).length = width := by
  induction width generalizing value with
  | zero => rfl
  | succ width ih => rw [littleEndian, List.length_cons, ih]

@[simp]
theorem Endianness.bytes_length (order : Endianness) (width value : Nat) :
    (order.bytes width value).length = width := by
  cases order with
  | lsb => exact littleEndian_length width value
  | msb => rw [bytes, List.length_reverse, littleEndian_length]

/-- The bytes from the given place on, joined. -/
def joined : Nat → List Byte → BitVec 64
  | _, [] => 0#64
  | place, b :: bytes => shl b place ||| joined (place + 8) bytes

theorem joined_littleEndian (width value place : Nat) (small : value < 256 ^ width) :
    joined place (littleEndian width value) = BitVec.ofNat 64 (value * 2 ^ place) := by
  induction width generalizing value place with
  | zero =>
      obtain rfl : value = 0 := by simpa using small
      rw [Nat.zero_mul]
      rfl
  | succ width ih =>
      have later : value / 256 < 256 ^ width :=
        Nat.div_lt_of_lt_mul (by rwa [Nat.pow_succ, Nat.mul_comm] at small)
      have first : shl (BitVec.ofNat 8 value) place =
          BitVec.ofNat 64 (value % 256 * 2 ^ place) := by
        apply BitVec.eq_of_toNat_eq
        rw [shl, BitVec.toNat_shiftLeft, BitVec.toNat_setWidth, BitVec.toNat_ofNat,
          BitVec.toNat_ofNat, Nat.shiftLeft_eq, Nat.mod_eq_of_lt (a := value % 2 ^ 8) (by omega)]
      have below : value % 256 * 2 ^ place < 2 ^ (place + 8) := by
        calc
          value % 256 * 2 ^ place < 256 * 2 ^ place :=
            Nat.mul_lt_mul_of_pos_right (by omega) (Nat.two_pow_pos place)
          _ = 2 ^ (place + 8) := by ring
      have value_eq : value * 2 ^ place =
          value % 256 * 2 ^ place + value / 256 * 2 ^ (place + 8) := by
        rw [pow_add]
        nth_rewrite 1 [← Nat.mod_add_div value 256]
        ring
      rw [littleEndian, joined, first, ih _ _ later, ofNat_or_ofNat below, ← value_eq]

theorem shl_zero (b : Byte) : shl b 0 = b.setWidth 64 :=
  BitVec.shiftLeft_zero _

/-- A function of the bytes that have one of the known widths. -/
theorem forall_known_width (Good : List Byte → Prop) (one : ∀ s0, Good [s0])
    (two : ∀ s0 s1, Good [s0, s1]) (four : ∀ s0 s1 s2 s3, Good [s0, s1, s2, s3])
    (eight : ∀ s0 s1 s2 s3 s4 s5 s6 s7, Good [s0, s1, s2, s3, s4, s5, s6, s7])
    {width : Nat} (known : IsWidth width) (value : Nat) : Good (littleEndian width value) := by
  rcases known with rfl | rfl | rfl | rfl
  · exact one _
  · exact two _ _
  · exact four _ _ _ _
  · exact eight _ _ _ _ _ _ _ _

/-- The bytes are named first: comparing them in their places is slow. -/
theorem lsbValue_eq_joined {width : Nat} (known : IsWidth width) (value : Nat) :
    lsbValue (littleEndian width value) = joined 0 (littleEndian width value) := by
  refine forall_known_width (fun bytes => lsbValue bytes = joined 0 bytes) ?_ ?_ ?_ ?_ known value
  all_goals
    intros
    simp only [lsbValue, joined, shl_zero, Nat.reduceAdd, BitVec.or_zero]
  · exact BitVec.or_comm _ _
  · rename_i s0 s1 s2 s3
    generalize s0.setWidth 64 = p0, shl s1 8 = p1, shl s2 16 = p2, shl s3 24 = p3
    ac_rfl
  · rename_i s0 s1 s2 s3 s4 s5 s6 s7
    generalize s0.setWidth 64 = p0, shl s1 8 = p1, shl s2 16 = p2, shl s3 24 = p3,
      shl s4 32 = p4, shl s5 40 = p5, shl s6 48 = p6, shl s7 56 = p7
    ac_rfl

theorem msbValue_eq_joined {width : Nat} (known : IsWidth width) (value : Nat) :
    msbValue (littleEndian width value).reverse = joined 0 (littleEndian width value) := by
  refine forall_known_width (fun bytes => msbValue bytes.reverse = joined 0 bytes) ?_ ?_ ?_ ?_
    known value
  all_goals
    intros
    simp only [List.reverse_cons, List.reverse_nil, List.nil_append, List.cons_append, msbValue,
      joined, shl_zero, Nat.reduceAdd, BitVec.or_zero]
  · rename_i s0 s1 s2 s3
    generalize s0.setWidth 64 = p0, shl s1 8 = p1, shl s2 16 = p2, shl s3 24 = p3
    ac_rfl
  · rename_i s0 s1 s2 s3 s4 s5 s6 s7
    generalize s0.setWidth 64 = p0, shl s1 8 = p1, shl s2 16 = p2, shl s3 24 = p3,
      shl s4 32 = p4, shl s5 40 = p5, shl s6 48 = p6, shl s7 56 = p7
    ac_rfl

/-- `dbg->read` on an encoded number. -/
theorem dbgRead_eq {order : Endianness} {mem : Memory} {ds : Section} {offset width value : Nat}
    (known : IsWidth width) (small : value < 256 ^ width)
    (held : mem.Holds (ds.at offset) (order.bytes width value)) :
    dbgRead order mem ds offset width = some (value, u64 (offset + width)) := by
  have in_word : value < 2 ^ 64 := by
    rcases known with rfl | rfl | rfl | rfl
    all_goals omega
  have joined_eq : (joined 0 (littleEndian width value)).toNat = value := by
    rw [joined_littleEndian width value 0 small, BitVec.toNat_ofNat, Nat.pow_zero, Nat.mul_one,
      Nat.mod_eq_of_lt in_word]
  have read_eq := Memory.read_of_holds held
  rw [Endianness.bytes_length] at read_eq
  rw [dbgRead, if_pos (show width = 1 ∨ width = 2 ∨ width = 4 ∨ width = 8 from known), read_eq,
    Option.map_some]
  cases order with
  | lsb =>
      dsimp only [Endianness.bytes]
      rw [lsbValue_eq_joined known, joined_eq]
  | msb =>
      dsimp only [Endianness.bytes]
      rw [msbValue_eq_joined known, joined_eq]

/-! ## Strings -/

/-- `_dwarf_read_string` on a string inside its section. -/
theorem stringLoop_eq {mem : Memory} {size : Nat} {text : List Byte} (nonzero : ∀ c ∈ text, c ≠ 0)
    {offset address room : Nat} (held : mem.Holds address (text ++ [0]))
    (enough : text.length < room) (inside : offset + text.length < size) (size_lt : size < 2 ^ 64) :
    stringLoop mem size offset address room = some (offset + text.length + 1) := by
  induction text generalizing offset address room with
  | nil =>
      obtain ⟨room, rfl⟩ : ∃ more, room = more + 1 := ⟨room - 1, by omega⟩
      obtain ⟨mapped, -⟩ := Memory.holds_cons.mp held
      rw [stringLoop, mapped, Option.bind_some, if_neg fun more => more.1 rfl,
        if_pos ⟨rfl, inside⟩, u64_of_lt (by simp at inside; omega)]
      rfl
  | cons c text ih =>
      obtain ⟨room, rfl⟩ : ∃ more, room = more + 1 := ⟨room - 1, by omega⟩
      obtain ⟨mapped, rest⟩ := Memory.holds_cons.mp held
      rw [List.length_cons] at enough inside ⊢
      rw [stringLoop, mapped, Option.bind_some, if_pos ⟨nonzero c List.mem_cons_self, by omega⟩,
        u64_of_lt (by omega),
        ih (fun later later_mem => nonzero later (List.mem_cons_of_mem c later_mem)) rest
          (by omega) (by omega)]
      congr 1
      omega

theorem readString_eq {mem : Memory} {ds : Section} {offset : Nat} {text : List Byte}
    (nonzero : ∀ c ∈ text, c ≠ 0) (held : mem.Holds (ds.at offset) (text ++ [0]))
    (inside : offset + text.length < ds.dsSize) (size_lt : ds.dsSize < 2 ^ 64) :
    readString mem ds offset = some (ds.at offset, offset + text.length + 1) := by
  have enough := held.length_le_room
  rw [List.length_append, List.length_singleton] at enough
  rw [readString, stringLoop_eq nonzero held enough inside size_lt, Option.map_some]

end Jos64.Dwarf
