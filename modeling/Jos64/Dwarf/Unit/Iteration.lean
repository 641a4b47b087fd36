import Jos64.Dwarf.Unit

/-!
# Going through the units

A section is made of units in a row.  The calls of `_get_next_cu` give them in
their order, as long as their lengths fit into 32 bits.  The call after the last
one finds its offset at the end of the section, which its test lets through, and
reads on behind the section.
-/

namespace Jos64.Dwarf

/-- The width of the offsets of a unit. -/
def offsetSize (wide : Bool) : Nat :=
  if wide then 8 else 4

/-- A unit of version 2 to 4 in the 32-bit or in the 64-bit format: its header and
what follows it. -/
structure CompUnit where
  wide : Bool
  version : Nat
  abbrevOffset : Nat
  addrSize : Nat
  contents : List Byte
  known : 2 ≤ version ∧ version ≤ 4
  abbrevOffset_lt : abbrevOffset < 256 ^ offsetSize wide
  addrSize_lt : addrSize < 256
  contents_lt : 3 + offsetSize wide + contents.length < if wide then 2 ^ 64 else 0xfffffff0

namespace CompUnit

/-- The number of bytes behind the initial length. -/
def length (u : CompUnit) : Nat :=
  3 + offsetSize u.wide + u.contents.length

def lengthSize (u : CompUnit) : Nat :=
  if u.wide then 12 else 4

/-- The number of bytes before the entries. -/
def headerSize (u : CompUnit) : Nat :=
  u.lengthSize + (3 + offsetSize u.wide)

/-- The number of all bytes. -/
def size (u : CompUnit) : Nat :=
  u.lengthSize + u.length

def initialBytes (order : Endianness) (u : CompUnit) : List Byte :=
  if u.wide then order.bytes 4 0xffffffff ++ order.bytes 8 u.length else order.bytes 4 u.length

def bytes (order : Endianness) (u : CompUnit) : List Byte :=
  u.initialBytes order ++ (order.bytes 2 u.version ++
    (order.bytes (offsetSize u.wide) u.abbrevOffset ++
      (order.bytes 1 u.addrSize ++ u.contents)))

/-- What the unit is at an offset of its section. -/
def cu (offset : Nat) (u : CompUnit) : CU where
  cuLength := u.length
  version := u.version
  addrSize := u.addrSize
  debugAbbrevOffset := u.abbrevOffset
  cuLengthSize := u.lengthSize
  cuDwarfSize := offsetSize u.wide
  cuNextOffset := offset + u.size
  cuDieOffset := offset + u.headerSize
  cuOffset := offset

theorem length_initialBytes (order : Endianness) (u : CompUnit) :
    (u.initialBytes order).length = u.lengthSize := by
  rw [initialBytes, lengthSize]
  split
  · rw [List.length_append, Endianness.bytes_length, Endianness.bytes_length]
  · rw [Endianness.bytes_length]

theorem length_bytes (order : Endianness) (u : CompUnit) : (u.bytes order).length = u.size := by
  rw [bytes, size, length, List.length_append, List.length_append, List.length_append,
    List.length_append, length_initialBytes, Endianness.bytes_length, Endianness.bytes_length,
    Endianness.bytes_length]
  omega

theorem isWidth_offsetSize (wide : Bool) : IsWidth (offsetSize wide) := by
  cases wide with
  | false | true => decide

end CompUnit

/-! ## The unit at an offset -/

section

variable {dbg : Debug} {offset : Nat}

/-- A number that stands in the section, or behind it. -/
theorem read_of_held {width value : Nat} (known : IsWidth width) (small : value < 256 ^ width)
    (held : dbg.mem.Holds (dbg.debugInfo.dsData + offset) (dbg.order.bytes width value)) :
    dbg.read dbg.debugInfo offset width = some (value, offset + width) := by
  have below_top := dbg.mem.top_lt
  have inside : dbg.debugInfo.dsData + offset + width ≤ dbg.mem.top := by
    have le_top := held.le_top
    rw [← List.length_pos_iff, Endianness.bytes_length] at le_top
    refine le_top ?_
    rcases known with rfl | rfl | rfl | rfl
    all_goals decide
  have at_eq : dbg.debugInfo.at offset = dbg.debugInfo.dsData + offset := u64_of_lt (by omega)
  rw [Debug.read, dbgRead_eq known small (by rw [at_eq]; exact held), u64_of_lt (by omega)]

/-- The initial length, which is kept if it fits into 32 bits. -/
theorem read_initial (u : CompUnit) (short : u.length < 2 ^ 32)
    (held : dbg.mem.Holds (dbg.debugInfo.dsData + offset) (u.initialBytes dbg.order)) :
    ∃ first next, dbg.read dbg.debugInfo offset 4 = some (first, next) ∧
      (if first % 2 ^ 32 = 0xffffffff then
        (dbg.read dbg.debugInfo next 8).map fun (long, next) => (long % 2 ^ 32, 8, next)
      else some (first % 2 ^ 32, 4, next)) =
        some (u.length, offsetSize u.wide, offset + u.lengthSize) := by
  have length_lt := u.contents_lt
  rw [← CompUnit.length] at length_lt
  rw [CompUnit.initialBytes] at held
  rw [CompUnit.lengthSize, offsetSize]
  cases wide : u.wide with
  | true =>
      rw [wide, if_pos rfl] at held
      obtain ⟨mark, long⟩ := Memory.holds_append.mp held
      rw [Endianness.bytes_length, Nat.add_assoc] at long
      refine ⟨_, _, read_of_held (by decide) (by decide) mark, ?_⟩
      rw [if_pos (by decide), read_of_held (by decide) (by omega) long, Option.map_some]
      dsimp only
      rw [Nat.mod_eq_of_lt short]
      rfl
  | false =>
      rw [wide, if_neg Bool.false_ne_true] at held
      rw [wide, if_neg Bool.false_ne_true] at length_lt
      refine ⟨_, _, read_of_held (by decide) (by omega) held, ?_⟩
      rw [Nat.mod_eq_of_lt short, if_neg (by omega)]
      rfl

/-- `_get_next_cu` where a unit stands. -/
theorem getNextCu_unit (u : CompUnit) (short : u.length < 2 ^ 32)
    (inside : offset ≤ dbg.debugInfo.dsSize)
    (held : dbg.mem.Holds (dbg.debugInfo.dsData + offset) (u.bytes dbg.order)) (cu : CU) :
    getNextCu dbg offset cu = some (0, offset + u.size, u.cu offset) := by
  have below_top := dbg.mem.top_lt
  have end_le : dbg.debugInfo.dsData + offset + u.size ≤ dbg.mem.top := by
    have le_top := held.le_top
    rw [← List.length_pos_iff, CompUnit.length_bytes] at le_top
    refine le_top ?_
    rw [CompUnit.size, CompUnit.length]
    omega
  obtain ⟨initial, behind⟩ := Memory.holds_append.mp held
  rw [CompUnit.length_initialBytes, Nat.add_assoc] at behind
  obtain ⟨version, behind⟩ := Memory.holds_append.mp behind
  rw [Endianness.bytes_length, Nat.add_assoc] at behind
  obtain ⟨abbrevOffset, behind⟩ := Memory.holds_append.mp behind
  rw [Endianness.bytes_length, Nat.add_assoc] at behind
  obtain ⟨addrSize, -⟩ := Memory.holds_append.mp behind
  obtain ⟨first, next, read_first, read_length⟩ := read_initial u short initial
  have known := u.known
  have next_eq : u64 (offset + u.lengthSize + u.length) = offset + u.size := by
    rw [Nat.add_assoc]
    exact u64_of_lt (by rw [← CompUnit.size]; omega)
  rw [getNextCu, if_neg (by omega), read_first, Option.bind_some]
  dsimp only
  rw [read_length, Option.bind_some]
  dsimp only
  rw [read_of_held (by decide) (by omega) version, Option.bind_some]
  dsimp only
  rw [read_of_held (CompUnit.isWidth_offsetSize u.wide) u.abbrevOffset_lt abbrevOffset,
    Option.bind_some]
  dsimp only
  rw [read_of_held (by decide) u.addrSize_lt addrSize, Option.map_some, next_eq]
  dsimp only
  have size_eq : (if offsetSize u.wide = 4 then 4 else 12) = u.lengthSize := by
    rw [CompUnit.lengthSize]
    cases u.wide with
    | true | false => rfl
  have die_eq : offset + u.lengthSize + 2 + offsetSize u.wide + 1 =
      offset + (u.lengthSize + (3 + offsetSize u.wide)) := by
    omega
  rw [if_neg (by omega), size_eq, die_eq]
  rfl

end

/-! ## All units -/

/-- The sections, with nothing behind the section of the units. -/
def Debug.cut (dbg : Debug) : Debug :=
  { dbg with mem := dbg.mem.cut (dbg.debugInfo.dsData + dbg.debugInfo.dsSize) }

/-- The next call fails, and the bytes at and behind the end of the section have
no part in it. -/
def Fails (dbg : Debug) (currOff : Nat) (cu : CU) : Prop :=
  ∃ ret next cu', ret ≠ 0 ∧ getNextCu dbg currOff cu = some (ret, next, cu') ∧
    getNextCu dbg.cut currOff cu = some (ret, next, cu')

/-- The calls give the units from an offset on, one after the other, and what is
left then. -/
def Delivers (dbg : Debug) (ended : Nat → CU → Prop) :
    (offset currOff : Nat) → CU → List CompUnit → Prop
  | _, currOff, cu, [] => ended currOff cu
  | offset, currOff, cu, u :: units =>
      ∃ next cu', getNextCu dbg currOff cu = some (0, next, cu') ∧ cu'.cuOffset = offset ∧
        cu'.cuDieOffset = offset + u.headerSize ∧ cu'.cuNextOffset = offset + u.size ∧
        cu'.debugAbbrevOffset = u.abbrevOffset ∧ cu'.addrSize = u.addrSize ∧
        Delivers dbg ended (offset + u.size) next cu' units

variable {dbg : Debug}

/-- The offset that is kept is the one of the next unit. -/
theorem next_eq_of_getNextCu {currOff next : Nat} {cu cu' : CU}
    (found : getNextCu dbg currOff cu = some (0, next, cu')) : cu'.cuNextOffset = next := by
  obtain ⟨-, _, _, _, _, _, -, -, -, kept⟩ := getNextCu_cases found
  exact kept

/-- At the end of the section the call reads behind it. -/
theorem getNextCu_cut_end (in_memory : dbg.debugInfo.dsData + dbg.debugInfo.dsSize ≤ dbg.mem.top)
    (cu : CU) : getNextCu dbg.cut dbg.debugInfo.dsSize cu = none := by
  have below_top := dbg.mem.top_lt
  have at_eq : dbg.debugInfo.at dbg.debugInfo.dsSize =
      dbg.debugInfo.dsData + dbg.debugInfo.dsSize :=
    u64_of_lt (by omega)
  have unreadable : dbg.cut.read dbg.debugInfo dbg.debugInfo.dsSize 4 = none := by
    have not_mapped : dbg.cut.mem.byte (dbg.debugInfo.dsData + dbg.debugInfo.dsSize) = none :=
      if_neg (lt_irrefl _)
    rw [Debug.read, dbgRead, if_pos (by decide), at_eq, Memory.read, not_mapped]
    rfl
  have same : dbg.cut.debugInfo = dbg.debugInfo := rfl
  rw [getNextCu, same, if_neg (lt_irrefl _), unreadable]
  rfl

/-- The units whose length fits into 32 bits are given. -/
theorem delivers_units {units : List CompUnit} (short : ∀ u ∈ units, u.length < 2 ^ 32)
    {offset : Nat} (whole : offset + (units.map CompUnit.size).sum = dbg.debugInfo.dsSize)
    (held : dbg.mem.Holds (dbg.debugInfo.dsData + offset)
      (units.flatMap (CompUnit.bytes dbg.order))) (cu : CU) :
    Delivers dbg (fun currOff _ => currOff = dbg.debugInfo.dsSize) offset offset cu units := by
  induction units generalizing offset cu with
  | nil => exact whole
  | cons u units ih =>
      rw [List.map_cons, List.sum_cons] at whole
      rw [List.flatMap_cons] at held
      obtain ⟨first, rest⟩ := Memory.holds_append.mp held
      rw [CompUnit.length_bytes, Nat.add_assoc] at rest
      exact ⟨_, _, getNextCu_unit u (short u List.mem_cons_self) (by omega) first cu, rfl, rfl, rfl,
        rfl, rfl, ih (fun later later_mem => short later (List.mem_cons_of_mem u later_mem))
          (by omega) rest _⟩

theorem not_delivers_fails (in_memory : dbg.debugInfo.dsData + dbg.debugInfo.dsSize ≤ dbg.mem.top)
    {units : List CompUnit} {offset : Nat}
    (whole : offset + (units.map CompUnit.size).sum = dbg.debugInfo.dsSize) (cu : CU) :
    ¬ Delivers dbg (Fails dbg) offset offset cu units := by
  induction units generalizing offset cu with
  | nil =>
      rintro ⟨ret, next, cu', -, -, cut⟩
      rw [List.map_nil, List.sum_nil, Nat.add_zero] at whole
      rw [whole, getNextCu_cut_end in_memory] at cut
      contradiction
  | cons u units ih =>
      rintro ⟨next, cu', found, -, -, next_eq, -, -, rest⟩
      rw [List.map_cons, List.sum_cons] at whole
      have kept := next_eq_of_getNextCu found
      rw [← kept, next_eq] at rest
      exact ih (by omega) cu' rest

/-- Of any units in a section the calls give each one whose length fits into 32
bits, as long as those before it do; but there is no section behind which the
call after the last unit does not read. -/
theorem units_end_overrun (dbg : Debug)
    (in_memory : dbg.debugInfo.dsData + dbg.debugInfo.dsSize ≤ dbg.mem.top)
    (units : List CompUnit) (whole : (units.map CompUnit.size).sum = dbg.debugInfo.dsSize)
    (held : dbg.mem.Holds dbg.debugInfo.dsData (units.flatMap (CompUnit.bytes dbg.order)))
    (cu : CU) :
    ((∀ u ∈ units, u.length < 2 ^ 32) →
      Delivers dbg (fun currOff _ => currOff = dbg.debugInfo.dsSize) 0 0 cu units) ∧
      ¬ Delivers dbg (Fails dbg) 0 0 cu units := by
  constructor
  · intro short
    exact delivers_units short (by rw [Nat.zero_add]; exact whole) held cu
  · exact not_delivers_fails in_memory (by rw [Nat.zero_add]; exact whole) cu

/-! ## Units of both formats -/

section

/-- A unit without entries. -/
def emptyUnit : CompUnit where
  wide := false
  version := 2
  abbrevOffset := 0
  addrSize := 8
  contents := [0]
  known := by decide
  abbrevOffset_lt := by decide
  addrSize_lt := by decide
  contents_lt := by decide

theorem version_three : 2 ≤ 3 ∧ 3 ≤ 4 := by
  decide

theorem wide_offset_lt : 0 < 256 ^ offsetSize true := by
  decide

theorem wide_length_lt : 3 + offsetSize true + 2 < 2 ^ 64 := by
  decide

/-- A unit in the 64-bit format. -/
def wideUnit : CompUnit where
  wide := true
  version := 3
  abbrevOffset := 0
  addrSize := 8
  contents := [0, 0]
  known := version_three
  abbrevOffset_lt := wide_offset_lt
  addrSize_lt := emptyUnit.addrSize_lt
  contents_lt := wide_length_lt

def mixedUnits : List CompUnit :=
  [emptyUnit, wideUnit, emptyUnit, wideUnit]

def mixedDebug : Debug where
  mem := .image 0x1000 (mixedUnits.flatMap (CompUnit.bytes .lsb)) (by decide)
  order := .lsb
  debugInfo := ⟨0x1000, 74⟩
  debugAbbrev := ⟨0, 0⟩
  debugStr := ⟨0, 0⟩

theorem units_end_overrun_mixed :
    ((∀ u ∈ mixedUnits, u.length < 2 ^ 32) →
      Delivers mixedDebug (fun currOff _ => currOff = 74) 0 0 (emptyUnit.cu 0) mixedUnits) ∧
      ¬ Delivers mixedDebug (Fails mixedDebug) 0 0 (emptyUnit.cu 0) mixedUnits :=
  units_end_overrun mixedDebug (by decide) mixedUnits (by decide)
    (Memory.image_holds _ [] [] (List.append_nil _).symm) (emptyUnit.cu 0)

end

/-! ## Two units, of which one is in the section -/

section

/-- A section that ends behind the first of two units. -/
def twoUnits : Debug where
  mem := .image 0x1000 (emptyUnit.bytes .lsb ++ emptyUnit.bytes .lsb) (by decide)
  order := .lsb
  debugInfo := ⟨0x1000, 12⟩
  debugAbbrev := ⟨0, 0⟩
  debugStr := ⟨0, 0⟩

theorem twoUnits_first : twoUnits.mem.Holds 0x1000 (emptyUnit.bytes .lsb) :=
  Memory.image_holds (by decide) [] (emptyUnit.bytes .lsb) rfl

theorem twoUnits_second : twoUnits.mem.Holds (0x1000 + 12) (emptyUnit.bytes .lsb) :=
  Memory.image_holds (by decide) (emptyUnit.bytes .lsb) [] (List.append_nil _).symm

/-- The call at the end of the section succeeds, with a unit that is behind it. -/
theorem unit_behind_section :
    (∃ next cu, getNextCu twoUnits 12 (emptyUnit.cu 0) = some (0, next, cu)) ∧
      ¬ Delivers twoUnits (Fails twoUnits) 0 0 (emptyUnit.cu 0) [emptyUnit] := by
  have first (cu : CU) : getNextCu twoUnits 0 cu = some (0, 12, emptyUnit.cu 0) :=
    getNextCu_unit emptyUnit (by decide) (by decide) twoUnits_first cu
  have second (cu : CU) : getNextCu twoUnits 12 cu = some (0, 24, emptyUnit.cu 12) :=
    getNextCu_unit emptyUnit (by decide) (by decide) twoUnits_second cu
  refine ⟨⟨_, _, second _⟩, ?_⟩
  rintro ⟨next, cu, found, -, -, -, -, -, ret, next', cu', failed, behind, -⟩
  rw [first] at found
  cases found
  rw [second] at behind
  cases behind
  exact failed rfl

end

end Jos64.Dwarf
