import Jos64.Dwarf.Length
import Jos64.Lineno.Core
import Mathlib.Data.Nat.Digits.Defs

/-!
# The readers of fixed-width numbers

There are four of them: for each order of the bytes one that moves an offset and
one that moves a pointer.  Those for the lowest byte first fall from the case of a
width through the cases of the smaller ones.
-/

namespace Jos64.Dwarf

open Lineno (addSigned)

/-! ## The readers -/

section

variable (mem : Memory) (src : Nat)

/-- `case 1` of `_dwarf_read_lsb` -/
def lsbCase1 (ret : BitVec 64) : Option (BitVec 64) :=
  (mem.byte src).bind fun s0 => some (ret ||| s0.setWidth 64)

/-- `case 2`, which falls through. -/
def lsbCase2 (ret : BitVec 64) : Option (BitVec 64) :=
  (mem.byte (src + 1)).bind fun s1 => lsbCase1 mem src (ret ||| shl s1 8)

/-- `case 4`, which falls through. -/
def lsbCase4 (ret : BitVec 64) : Option (BitVec 64) :=
  (mem.byte (src + 2)).bind fun s2 => (mem.byte (src + 3)).bind fun s3 =>
    lsbCase2 mem src (ret ||| (shl s2 16 ||| shl s3 24))

/-- `case 8`, which falls through. -/
def lsbCase8 (ret : BitVec 64) : Option (BitVec 64) :=
  (mem.byte (src + 4)).bind fun s4 => (mem.byte (src + 5)).bind fun s5 =>
    let ret := ret ||| (shl s4 32 ||| shl s5 40)
    (mem.byte (src + 6)).bind fun s6 => (mem.byte (src + 7)).bind fun s7 =>
      lsbCase4 mem src (ret ||| (shl s6 48 ||| shl s7 56))

/-- `case 1` of `_dwarf_read_msb` -/
def msbCase1 : Option (BitVec 64) :=
  (mem.byte src).bind fun s0 => some (s0.setWidth 64)

/-- `case 2` -/
def msbCase2 : Option (BitVec 64) :=
  (mem.byte src).bind fun s0 => (mem.byte (src + 1)).bind fun s1 =>
    some (s1.setWidth 64 ||| shl s0 8)

/-- `case 4` -/
def msbCase4 : Option (BitVec 64) :=
  (mem.byte src).bind fun s0 => (mem.byte (src + 1)).bind fun s1 =>
    (mem.byte (src + 2)).bind fun s2 => (mem.byte (src + 3)).bind fun s3 =>
      let ret := s3.setWidth 64 ||| shl s2 8
      some (ret ||| (shl s1 16 ||| shl s0 24))

/-- `case 8` -/
def msbCase8 : Option (BitVec 64) :=
  (mem.byte src).bind fun s0 => (mem.byte (src + 1)).bind fun s1 =>
    (mem.byte (src + 2)).bind fun s2 => (mem.byte (src + 3)).bind fun s3 =>
      (mem.byte (src + 4)).bind fun s4 => (mem.byte (src + 5)).bind fun s5 =>
        (mem.byte (src + 6)).bind fun s6 => (mem.byte (src + 7)).bind fun s7 =>
          let ret := s7.setWidth 64 ||| shl s6 8
          let ret := ret ||| (shl s5 16 ||| shl s4 24)
          let ret := ret ||| (shl s3 32 ||| shl s2 40)
          some (ret ||| (shl s1 48 ||| shl s0 56))

end

/-- `switch (bytes_to_read)`, with the value that each case leaves in `ret`, and the
step of the cursor.  The default returns before it. -/
def switchWidth (case1 case2 case4 case8 : Option (BitVec 64)) (cursor : Nat)
    (bytesToRead : Int) : Option (Nat × Nat) :=
  let leave (ret : BitVec 64) := (ret.toNat, addSigned cursor bytesToRead)
  if bytesToRead = 8 then case8.map leave
  else if bytesToRead = 4 then case4.map leave
  else if bytesToRead = 2 then case2.map leave
  else if bytesToRead = 1 then case1.map leave
  else some (0, cursor)

/-- `_dwarf_read_lsb`: the value and the offset after it. -/
def readLsb (mem : Memory) (data offset : Nat) (bytesToRead : Int) : Option (Nat × Nat) :=
  let src := u64 (data + offset)
  switchWidth (lsbCase1 mem src 0) (lsbCase2 mem src 0) (lsbCase4 mem src 0)
    (lsbCase8 mem src 0) offset bytesToRead

/-- `_dwarf_decode_lsb`: the value and the pointer after it. -/
def decodeLsb (mem : Memory) (data : Nat) (bytesToRead : Int) : Option (Nat × Nat) :=
  let src := data
  switchWidth (lsbCase1 mem src 0) (lsbCase2 mem src 0) (lsbCase4 mem src 0)
    (lsbCase8 mem src 0) data bytesToRead

/-- `_dwarf_read_msb` -/
def readMsb (mem : Memory) (data offset : Nat) (bytesToRead : Int) : Option (Nat × Nat) :=
  let src := u64 (data + offset)
  switchWidth (msbCase1 mem src) (msbCase2 mem src) (msbCase4 mem src) (msbCase8 mem src) offset
    bytesToRead

/-- `_dwarf_decode_msb` -/
def decodeMsb (mem : Memory) (data : Nat) (bytesToRead : Int) : Option (Nat × Nat) :=
  let src := data
  switchWidth (msbCase1 mem src) (msbCase2 mem src) (msbCase4 mem src) (msbCase8 mem src) data
    bytesToRead

/-! ## What they read -/

/-- The number that the bytes are. -/
def Endianness.value (order : Endianness) (bytes : List Byte) : Nat :=
  match order with
  | .lsb => Nat.ofDigits 256 (bytes.map BitVec.toNat)
  | .msb => Nat.ofDigits 256 (bytes.reverse.map BitVec.toNat)

/-- A number of a known width is read from its bytes and the cursor moves behind
them; of any other width nothing is read. -/
def nextNumber (order : Endianness) (mem : Memory) (src cursor : Nat) (width : Int) :
    Option (Nat × Nat) :=
  if IsWidth width.toNat then
    (mem.read src width.toNat).map fun bytes => (order.value bytes, u64 (cursor + width.toNat))
  else some (0, cursor)

theorem joined_append (place : Nat) (low high : List Byte) :
    joined place (low ++ high) = joined place low ||| joined (place + 8 * low.length) high := by
  induction low generalizing place with
  | nil => exact (BitVec.zero_or).symm
  | cons b low ih =>
      have place_eq : place + 8 + 8 * low.length = place + 8 * (b :: low).length := by
        rw [List.length_cons]
        ring
      rw [List.cons_append, joined, joined, ih, BitVec.or_assoc, place_eq]

theorem littleEndian_ofDigits (bytes : List Byte) :
    littleEndian bytes.length (Nat.ofDigits 256 (bytes.map BitVec.toNat)) = bytes := by
  induction bytes with
  | nil => rfl
  | cons b bytes ih =>
      have b_lt : b.toNat < 256 := b.isLt
      have low : BitVec.ofNat 8 (b.toNat + 256 * Nat.ofDigits 256 (bytes.map BitVec.toNat)) = b := by
        apply BitVec.eq_of_toNat_eq
        rw [BitVec.toNat_ofNat, Nat.add_mul_mod_self_left, Nat.mod_eq_of_lt b_lt]
      have high : (b.toNat + 256 * Nat.ofDigits 256 (bytes.map BitVec.toNat)) / 256 =
          Nat.ofDigits 256 (bytes.map BitVec.toNat) := by
        rw [Nat.add_mul_div_left _ _ (by decide), Nat.div_eq_of_lt b_lt, Nat.zero_add]
      rw [List.map_cons, Nat.ofDigits_cons]
      change littleEndian (bytes.length + 1) (b.toNat + 256 * _) = _
      rw [littleEndian, low, high, ih]

/-- Bytes joined from the lowest on are their value. -/
theorem joined_toNat {bytes : List Byte} (short : bytes.length ≤ 8) :
    (joined 0 bytes).toNat = Endianness.lsb.value bytes := by
  have value_lt : Endianness.lsb.value bytes < 256 ^ bytes.length := by
    have bound := Nat.ofDigits_lt_base_pow_length (b := 256) (l := bytes.map BitVec.toNat) (by decide)
      (by
        intro digit digit_mem
        obtain ⟨b, -, rfl⟩ := List.mem_map.mp digit_mem
        exact b.isLt)
    rwa [List.length_map] at bound
  have in_word : Endianness.lsb.value bytes < 2 ^ 64 := by
    calc
      Endianness.lsb.value bytes < 256 ^ bytes.length := value_lt
      _ ≤ 256 ^ 8 := Nat.pow_le_pow_right (by decide) short
      _ = 2 ^ 64 := by norm_num
  have joined_eq := joined_littleEndian bytes.length (Endianness.lsb.value bytes) 0 value_lt
  rw [Endianness.value, littleEndian_ofDigits] at joined_eq
  rw [joined_eq, Nat.pow_zero, Nat.mul_one, BitVec.toNat_ofNat]
  exact Nat.mod_eq_of_lt in_word

theorem IsWidth.le_eight {width : Nat} (known : IsWidth width) : width ≤ 8 := by
  unfold IsWidth at known
  omega

theorem joined_of_zero (bytes : List Byte) (known : IsWidth bytes.length) :
    ((0 : BitVec 64) ||| joined 0 bytes).toNat = Endianness.lsb.value bytes := by
  rw [show (0 : BitVec 64) = 0#64 from rfl, BitVec.zero_or]
  exact joined_toNat known.le_eight

section

variable {mem : Memory} {src : Nat}

theorem Memory.read_add (mem : Memory) (src count more : Nat) :
    mem.read src (count + more) =
      (mem.read src count).bind fun low => (mem.read (src + count) more).map (low ++ ·) := by
  induction count generalizing src with
  | zero =>
      rw [Nat.zero_add, read, Option.bind_some, Nat.add_zero]
      exact Option.map_id'.symm
  | succ count ih =>
      have src_eq : src + 1 + count = src + (count + 1) := by ring
      rw [Nat.add_right_comm, read, read, Option.bind_assoc]
      congr 1
      funext b
      rw [ih, Option.map_bind, Option.bind_map, src_eq]
      congr 1
      funext low
      exact Option.map_map _ _ _

/-- A case that falls through reads the upper bytes, and the cases below it the
lower ones. -/
theorem fallThrough (count more : Nat) {below : BitVec 64 → Option (BitVec 64)}
    (below_eq : ∀ ret, below ret = (mem.read src count).map fun low => ret ||| joined 0 low)
    (ret : BitVec 64) :
    ((mem.read (src + count) more).bind fun high => below (ret ||| joined (8 * count) high)) =
      (mem.read src (count + more)).map fun bytes => ret ||| joined 0 bytes := by
  rw [mem.read_add]
  cases upper : mem.read (src + count) more with
  | none =>
      have no_bytes : ((mem.read src count).bind fun low =>
          (none : Option (List Byte)).map (low ++ ·)) = none :=
        Option.bind_fun_none _
      rw [no_bytes]
      rfl
  | some high =>
      rw [Option.bind_some, below_eq]
      cases lower : mem.read src count with
      | none => rfl
      | some low =>
          rw [Option.bind_some, Option.map_some, Option.map_some, Option.map_some, joined_append,
            Memory.length_of_read lower, Nat.zero_add, BitVec.or_assoc,
            BitVec.or_comm (joined (8 * count) high)]

variable (mem src)

theorem Memory.read_zero_bind {α : Type} (next : List Byte → Option α) :
    (mem.read src 0).bind next = next [] :=
  rfl

/-- The first byte, and the others. -/
theorem Memory.read_succ_bind {α : Type} (count : Nat) (next : List Byte → Option α) :
    (mem.read src (count + 1)).bind next =
      (mem.byte src).bind fun b => (mem.read (src + 1) count).bind fun bytes =>
        next (b :: bytes) := by
  rw [read, Option.bind_assoc]
  congr 1
  funext b
  exact Option.bind_map

theorem lsbCase1_eq (ret : BitVec 64) :
    lsbCase1 mem src ret = (mem.read src 1).map fun bytes => ret ||| joined 0 bytes := by
  rw [Option.map_eq_bind, Memory.read_succ_bind]
  simp only [lsbCase1, Memory.read_zero_bind, joined, shl_zero, Function.comp_apply,
    BitVec.or_zero]

theorem lsbCase2_eq (ret : BitVec 64) :
    lsbCase2 mem src ret = (mem.read src 2).map fun bytes => ret ||| joined 0 bytes := by
  rw [← fallThrough 1 1 (lsbCase1_eq mem src) ret]
  simp only [lsbCase2, Memory.read_succ_bind, Memory.read_zero_bind, joined, BitVec.or_zero]

theorem lsbCase4_eq (ret : BitVec 64) :
    lsbCase4 mem src ret = (mem.read src 4).map fun bytes => ret ||| joined 0 bytes := by
  rw [← fallThrough 2 2 (lsbCase2_eq mem src) ret]
  simp only [lsbCase4, Memory.read_succ_bind, Memory.read_zero_bind, joined, BitVec.or_zero]

theorem lsbCase8_eq (ret : BitVec 64) :
    lsbCase8 mem src ret = (mem.read src 8).map fun bytes => ret ||| joined 0 bytes := by
  rw [← fallThrough 4 4 (lsbCase4_eq mem src) ret]
  simp only [lsbCase8, Memory.read_succ_bind, Memory.read_zero_bind, joined, BitVec.or_zero,
    BitVec.or_assoc]

theorem msbCase1_eq : msbCase1 mem src = (mem.read src 1).map msbValue := by
  rw [Option.map_eq_bind]
  simp only [msbCase1, Memory.read_succ_bind, Memory.read_zero_bind, Function.comp_apply, msbValue]

theorem msbCase2_eq : msbCase2 mem src = (mem.read src 2).map msbValue := by
  rw [Option.map_eq_bind]
  simp only [msbCase2, Memory.read_succ_bind, Memory.read_zero_bind, Function.comp_apply, msbValue]

theorem msbCase4_eq : msbCase4 mem src = (mem.read src 4).map msbValue := by
  rw [Option.map_eq_bind]
  simp only [msbCase4, Memory.read_succ_bind, Memory.read_zero_bind, Function.comp_apply, msbValue]

theorem msbCase8_eq : msbCase8 mem src = (mem.read src 8).map msbValue := by
  rw [Option.map_eq_bind]
  simp only [msbCase8, Memory.read_succ_bind, Memory.read_zero_bind, Function.comp_apply, msbValue]

theorem msbValue_toNat {bytes : List Byte} (known : IsWidth bytes.length) :
    (msbValue bytes).toNat = Endianness.msb.value bytes := by
  have known_reverse : IsWidth bytes.reverse.length := by rwa [List.length_reverse]
  have value_eq := msbValue_eq_joined known_reverse
    (Nat.ofDigits 256 (bytes.reverse.map BitVec.toNat))
  rw [littleEndian_ofDigits, List.reverse_reverse] at value_eq
  rw [value_eq, joined_toNat known_reverse.le_eight]
  rfl

theorem lsbValue_toNat {bytes : List Byte} (known : IsWidth bytes.length) :
    (lsbValue bytes).toNat = Endianness.lsb.value bytes := by
  have value_eq := lsbValue_eq_joined known (Nat.ofDigits 256 (bytes.map BitVec.toNat))
  rw [littleEndian_ofDigits] at value_eq
  rw [value_eq, joined_toNat known.le_eight]

/-- `dbg->read` on the bytes that come next. -/
theorem dbgRead_eq_nextNumber (order : Endianness) (ds : Section) (offset width : Nat) :
    dbgRead order mem ds offset width = nextNumber order mem (ds.at offset) offset width := by
  rw [dbgRead, nextNumber, Int.toNat_natCast]
  by_cases known : IsWidth width
  · have listed : width = 1 ∨ width = 2 ∨ width = 4 ∨ width = 8 := known
    rw [if_pos listed, if_pos known]
    apply Option.map_congr
    intro bytes read
    have known_length : IsWidth bytes.length := (Memory.length_of_read read).symm ▸ known
    cases order with
    | lsb => exact congrArg (·, u64 (offset + width)) (lsbValue_toNat known_length)
    | msb => exact congrArg (·, u64 (offset + width)) (msbValue_toNat known_length)
  · have unlisted : ¬ (width = 1 ∨ width = 2 ∨ width = 4 ∨ width = 8) := known
    rw [if_neg unlisted, if_neg known]

/-- A switch whose cases read the number of their width. -/
theorem switchWidth_eq {order : Endianness} {value : List Byte → BitVec 64}
    (value_eq : ∀ bytes, IsWidth bytes.length → (value bytes).toNat = order.value bytes)
    (cursor : Nat) (width : Int) :
    switchWidth ((mem.read src 1).map value) ((mem.read src 2).map value)
        ((mem.read src 4).map value) ((mem.read src 8).map value) cursor width =
      nextNumber order mem src cursor width := by
  have leave {count : Nat} (known : IsWidth count) :
      ((mem.read src count).map value).map (fun ret => (ret.toNat, addSigned cursor count)) =
        nextNumber order mem src cursor count := by
    have moved : addSigned cursor count = u64 (cursor + count) := by
      unfold addSigned u64
      omega
    rw [nextNumber, Int.toNat_natCast, if_pos known, Option.map_map, moved]
    apply Option.map_congr
    intro bytes read
    rw [Function.comp_apply, value_eq bytes ((Memory.length_of_read read).symm ▸ known)]
  rw [switchWidth]
  split
  · rename_i eight
    rw [eight]
    exact leave (show IsWidth 8 by decide)
  split
  · rename_i four
    rw [four]
    exact leave (show IsWidth 4 by decide)
  split
  · rename_i two
    rw [two]
    exact leave (show IsWidth 2 by decide)
  split
  · rename_i one
    rw [one]
    exact leave (show IsWidth 1 by decide)
  · have unknown : ¬ IsWidth width.toNat := by
      unfold IsWidth
      omega
    rw [nextNumber, if_neg unknown]

theorem readLsb_eq (data offset : Nat) (width : Int) :
    readLsb mem data offset width =
      nextNumber .lsb mem (u64 (data + offset)) offset width := by
  rw [readLsb, lsbCase1_eq, lsbCase2_eq, lsbCase4_eq, lsbCase8_eq]
  exact switchWidth_eq mem _ joined_of_zero offset width

theorem decodeLsb_eq (data : Nat) (width : Int) :
    decodeLsb mem data width = nextNumber .lsb mem data data width := by
  rw [decodeLsb, lsbCase1_eq, lsbCase2_eq, lsbCase4_eq, lsbCase8_eq]
  exact switchWidth_eq mem data joined_of_zero data width

theorem readMsb_eq (data offset : Nat) (width : Int) :
    readMsb mem data offset width =
      nextNumber .msb mem (u64 (data + offset)) offset width := by
  rw [readMsb, msbCase1_eq, msbCase2_eq, msbCase4_eq, msbCase8_eq]
  exact switchWidth_eq mem _ (fun _ known => msbValue_toNat known) offset width

theorem decodeMsb_eq (data : Nat) (width : Int) :
    decodeMsb mem data width = nextNumber .msb mem data data width := by
  rw [decodeMsb, msbCase1_eq, msbCase2_eq, msbCase4_eq, msbCase8_eq]
  exact switchWidth_eq mem data (fun _ known => msbValue_toNat known) data width

end

/-! ## The readers agree -/

/-- The number after the move of an offset stands at the moved address. -/
theorem nextNumber_offset (order : Endianness) (mem : Memory) (data offset : Nat) (width : Int) :
    (nextNumber order mem (u64 (data + offset)) offset width).map
        (fun read => (read.1, u64 (data + read.2))) =
      nextNumber order mem (u64 (data + offset)) (u64 (data + offset)) width := by
  rw [nextNumber, nextNumber]
  split
  · have moved : u64 (data + u64 (offset + width.toNat)) =
        u64 (u64 (data + offset) + width.toNat) := by
      unfold u64
      omega
    rw [Option.map_map]
    apply Option.map_congr
    intro bytes _
    rw [Function.comp_apply, moved]
  · rfl

/-- The highest byte first is the lowest byte first of the reversed bytes. -/
theorem nextNumber_reverse {mem other : Memory} {src place : Nat} {width : Int}
    (reversed : other.read place width.toNat = (mem.read src width.toNat).map List.reverse)
    (cursor after : Nat) :
    (nextNumber .msb mem src cursor width).map Prod.fst =
      (nextNumber .lsb other place after width).map Prod.fst := by
  rw [nextNumber, nextNumber]
  split
  · rw [reversed, Option.map_map, Option.map_map, Option.map_map]
    rfl
  · rfl

/-- The offset-based and the pointer-based readers of an order read the same number
from the bytes that come next and move by the width; the two orders differ by the
reversal of the bytes. -/
theorem readers_eq_nextNumber (mem : Memory) (data offset : Nat) (width : Int) :
    (readLsb mem data offset width = nextNumber .lsb mem (u64 (data + offset)) offset width ∧
      decodeLsb mem (u64 (data + offset)) width =
        nextNumber .lsb mem (u64 (data + offset)) (u64 (data + offset)) width ∧
      (readLsb mem data offset width).map (fun read => (read.1, u64 (data + read.2))) =
        decodeLsb mem (u64 (data + offset)) width) ∧
    (readMsb mem data offset width = nextNumber .msb mem (u64 (data + offset)) offset width ∧
      decodeMsb mem (u64 (data + offset)) width =
        nextNumber .msb mem (u64 (data + offset)) (u64 (data + offset)) width ∧
      (readMsb mem data offset width).map (fun read => (read.1, u64 (data + read.2))) =
        decodeMsb mem (u64 (data + offset)) width) ∧
    ∀ (other : Memory) (data' offset' : Nat),
      other.read (u64 (data' + offset')) width.toNat =
        (mem.read (u64 (data + offset)) width.toNat).map List.reverse →
      (readMsb mem data offset width).map Prod.fst =
          (readLsb other data' offset' width).map Prod.fst ∧
        (decodeMsb mem (u64 (data + offset)) width).map Prod.fst =
          (decodeLsb other (u64 (data' + offset')) width).map Prod.fst := by
  refine ⟨⟨readLsb_eq mem data offset width, decodeLsb_eq mem _ width, ?_⟩,
    ⟨readMsb_eq mem data offset width, decodeMsb_eq mem _ width, ?_⟩, ?_⟩
  · rw [readLsb_eq, decodeLsb_eq, nextNumber_offset]
  · rw [readMsb_eq, decodeMsb_eq, nextNumber_offset]
  · intro other data' offset' reversed
    rw [readMsb_eq, readLsb_eq, decodeMsb_eq, decodeLsb_eq]
    exact ⟨nextNumber_reverse reversed _ _, nextNumber_reverse reversed _ _⟩

/-- Two bytes, and the same bytes the other way round. -/
theorem readers_eq_nextNumber_two :
    (readMsb (.image 0x1000 [0x12, 0x34] (by decide)) 0xFF0 0x10 2).map Prod.fst =
      (readLsb (.image 0x2000 [0x34, 0x12] (by decide)) 0x1FF0 0x10 2).map Prod.fst :=
  ((readers_eq_nextNumber (.image 0x1000 [0x12, 0x34] (by decide)) 0xFF0 0x10 2).2.2
    (.image 0x2000 [0x34, 0x12] (by decide)) 0x1FF0 0x10 (by decide)).1

/-- `dbg->read` is the reader of the order. -/
theorem dbgRead_eq_reader (order : Endianness) (mem : Memory) (ds : Section)
    (offset width : Nat) :
    dbgRead order mem ds offset width =
      match order with
      | .lsb => readLsb mem ds.dsData offset width
      | .msb => readMsb mem ds.dsData offset width := by
  rw [dbgRead_eq_nextNumber]
  cases order with
  | lsb => exact (readLsb_eq mem ds.dsData offset width).symm
  | msb => exact (readMsb_eq mem ds.dsData offset width).symm

/-- `dbg->decode` is the other one. -/
theorem dbgDecode_eq_reader (order : Endianness) (mem : Memory) {p : Nat} (width : Nat)
    (p_lt : p < 2 ^ 64) :
    Lineno.dbgDecode order mem p width =
      Loop.Exec.ofOption (match order with
        | .lsb => decodeLsb mem p width
        | .msb => decodeMsb mem p width) := by
  have at_eq : Section.at ⟨0, 0⟩ p = p := by
    rw [Section.at, Nat.zero_add, u64_of_lt p_lt]
  rw [Lineno.dbgDecode, dbgRead_eq_nextNumber, at_eq]
  cases order with
  | lsb => rw [← decodeLsb_eq]
  | msb => rw [← decodeMsb_eq]

end Jos64.Dwarf
