import Jos64.Lineno.Correctness
import Jos64.Lineno.Header

/-!
# Units of line numbers

The header of a unit says how long its tables are.  A unit whose tables end there is
accepted with the values that it encodes, and its program is run from behind the
tables to its end; a unit whose tables end elsewhere is rejected.
-/

namespace Jos64.Lineno

open Loop Dwarf Leb

/-! ## Units -/

/-- A directory: a name that is not empty. -/
structure Directory where
  name : CString
  nonempty : name.bytes ≠ []

/-- A file: a name that is not empty, its directory, time and size. -/
structure FileEntry where
  name : CString
  nonempty : name.bytes ≠ []
  dirIndex : Operand
  time : Operand
  size : Operand

def Directory.bytes (dir : Directory) : List Byte :=
  dir.name.bytes ++ [0]

def FileEntry.bytes (file : FileEntry) : List Byte :=
  (file.name.bytes ++ [0]) ++ file.dirIndex.bytes ++ file.time.bytes ++ file.size.bytes

/-- A unit of version 2 or 3, with the length that its header declares. -/
structure LineUnit where
  wide : Bool
  version : Nat
  headerLength : Nat
  minlen : Byte
  defstmt : Byte
  lbase : BitVec 8
  lrange : Byte
  opbase : Byte
  oplens : List Byte
  dirs : List Directory
  files : List FileEntry
  program : List Byte
  known : version = 2 ∨ version = 3
  headerLength_lt : headerLength < 256 ^ offsetWidth wide
  opbase_eq : opbase.toNat = oplens.length + 1

namespace LineUnit

variable (order : Endianness) (u : LineUnit)

def dirBytes : List Byte :=
  u.dirs.flatMap Directory.bytes

def fileBytes : List Byte :=
  u.files.flatMap FileEntry.bytes

/-- The bytes whose number the header declares. -/
def tableBytes : List Byte :=
  [u.minlen, u.defstmt, u.lbase, u.lrange, u.opbase] ++
    (u.oplens ++ ((u.dirBytes ++ [0]) ++ (u.fileBytes ++ [0])))

/-- What the initial length counts. -/
def contents : List Byte :=
  order.bytes 2 u.version ++
    (order.bytes (offsetWidth u.wide) u.headerLength ++ (u.tableBytes ++ u.program))

def bytes : List Byte :=
  lengthBytes order u.wide (u.contents order).length ++ u.contents order

/-- The number of bytes up to the declared length. -/
def headerStart : Nat :=
  lengthWidth u.wide + 2 + offsetWidth u.wide

/-- What the header encodes. -/
def header : Header where
  liLength := (u.contents order).length
  liVersion := u.version
  liHdrlen := u.headerLength
  liMinlen := u.minlen
  liDefstmt := u.defstmt
  liLbase := u.lbase
  liLrange := u.lrange
  liOpbase := u.opbase
  liOplen := u.oplens
  liInclen := u.dirs.length

/-- The tables end where the header says. -/
def WellFormed : Prop :=
  u.headerLength = u.tableBytes.length

instance : Decidable u.WellFormed :=
  inferInstanceAs (Decidable (_ = _))

end LineUnit

section

variable {order : Endianness} {mem : Memory} {ds : Section}

/-! ## The fields -/

theorem bytes_one (order : Endianness) (b : Byte) : order.bytes 1 b.toNat = [b] := by
  cases order with
  | lsb | msb =>
      change [BitVec.ofNat 8 b.toNat] = [b]
      rw [BitVec.ofNat_toNat, BitVec.setWidth_eq]

theorem contains_cons {offset : Nat} {b : Byte} {rest : List Byte}
    (contains : ds.Contains mem offset (b :: rest)) :
    ds.Contains mem offset [b] ∧ ds.Contains mem (offset + 1) rest := by
  have both : ds.Contains mem offset ([b] ++ rest) := contains
  exact ⟨both.left, both.right⟩

theorem readByte_eq {offset : Nat} {b : Byte} {rest : List Byte}
    (contains : ds.Contains mem offset (b :: rest)) :
    readByte order mem ds offset = some (b, offset + 1) := by
  have here : ds.Contains mem offset (order.bytes 1 b.toNat) := by
    rw [bytes_one]
    exact (contains_cons contains).1
  rw [readByte, here.dbgRead (by decide) (by have := b.isLt; omega), Option.map_some]
  dsimp only
  rw [BitVec.ofNat_toNat, BitVec.setWidth_eq]

theorem readOplen_eq {oplens rest : List Byte} {offset : Nat}
    (contains : ds.Contains mem offset (oplens ++ rest)) :
    readOplen order mem ds oplens.length offset = some (oplens, offset + oplens.length) := by
  induction oplens generalizing offset with
  | nil => rfl
  | cons oplen oplens ih =>
      rw [List.length_cons, readOplen, readByte_eq contains, Option.bind_some]
      dsimp only
      rw [ih (contains_cons contains).2, Option.map_some, Nat.add_right_comm, Nat.add_assoc]

/-! ## The tables -/

theorem skipString_eq {text : List Byte} (nonzero : ∀ c ∈ text, c ≠ 0) {p room : Nat}
    (held : mem.Holds p (text ++ [0])) (enough : text.length < room) :
    skipString mem p room = some (p + text.length + 1) := by
  induction text generalizing p room with
  | nil =>
      obtain ⟨room, rfl⟩ : ∃ more, room = more + 1 := ⟨room - 1, by omega⟩
      have mapped := (Memory.holds_cons.mp held).1
      rw [skipString, mapped, Option.bind_some, if_neg fun ne => ne rfl]
      rfl
  | cons c text ih =>
      obtain ⟨room, rfl⟩ : ∃ more, room = more + 1 := ⟨room - 1, by omega⟩
      rw [List.length_cons] at enough ⊢
      obtain ⟨mapped, rest⟩ := Memory.holds_cons.mp held
      rw [skipString, mapped, Option.bind_some, if_pos (nonzero c List.mem_cons_self),
        ih (fun c' member => nonzero c' (List.mem_cons_of_mem c member)) rest (by omega)]
      congr 1
      omega

/-- The first byte of a name does not end a table. -/
theorem first_of_name {name : CString} (nonempty : name.bytes ≠ []) {rest : List Byte} {p : Nat}
    (held : mem.Holds p (name.bytes ++ rest)) : ∃ c, mem.byte p = some c ∧ c ≠ 0 := by
  obtain ⟨c, more, bytes_eq⟩ := List.exists_cons_of_ne_nil nonempty
  rw [bytes_eq] at held
  exact ⟨c, (Memory.holds_cons.mp held).1, name.nonzero c (bytes_eq ▸ List.mem_cons_self)⟩

/-- The loop over the directories ends at the byte behind the last of them. -/
theorem dirLoop_eq {dirs : List Directory} {p length fuel : Nat}
    (held : mem.Holds p (dirs.flatMap Directory.bytes ++ [0])) (enough : dirs.length < fuel)
    (small : length + dirs.length < 2 ^ 64) :
    loop (dirBody mem) fuel (p, length) =
      .done (p + (dirs.flatMap Directory.bytes).length, length + dirs.length) := by
  induction dirs generalizing p length fuel with
  | nil =>
      obtain ⟨fuel, rfl⟩ : ∃ more, fuel = more + 1 := ⟨fuel - 1, by omega⟩
      apply loop_stop
      rw [dirBody, (Memory.holds_cons.mp held).1, Exec.ofOption_some, Exec.done_bind,
        if_neg fun ne => ne rfl]
      rfl
  | cons dir dirs ih =>
      rw [List.length_cons] at enough small ⊢
      obtain ⟨fuel, rfl⟩ : ∃ more, fuel = more + 1 := ⟨fuel - 1, by omega⟩
      rw [List.flatMap_cons, List.append_assoc] at held
      obtain ⟨name_held, rest⟩ := Memory.holds_append.mp held
      obtain ⟨c, mapped, nonzero⟩ := first_of_name dir.nonempty name_held
      have room := name_held.length_le_room
      rw [Directory.bytes, List.length_append, List.length_singleton] at room rest
      have again : dirBody mem (p, length) =
          .done (.again (p + (dir.name.bytes.length + 1), length + 1)) := by
        rw [dirBody, mapped, Exec.ofOption_some, Exec.done_bind, if_pos nonzero,
          skipString_eq dir.name.nonzero name_held (by omega), Exec.ofOption_some,
          Exec.done_bind, u64_of_lt (by omega), Nat.add_assoc p]
      rw [loop_again again, ih rest (by omega) (by omega), List.flatMap_cons,
        List.length_append, Directory.bytes, List.length_append, List.length_singleton,
        Nat.add_assoc, Nat.add_right_comm length, Nat.add_assoc length]

/-- The loop over the files ends at the byte behind the last of them. -/
theorem fileLoop_eq {files : List FileEntry} {p fuel : Nat}
    (held : mem.Holds p (files.flatMap FileEntry.bytes ++ [0])) (enough : files.length < fuel)
    (short : (files.flatMap FileEntry.bytes).length < 2 ^ 31) :
    loop (fileBody mem) fuel p = .done (p + (files.flatMap FileEntry.bytes).length) := by
  induction files generalizing p fuel with
  | nil =>
      obtain ⟨fuel, rfl⟩ : ∃ more, fuel = more + 1 := ⟨fuel - 1, by omega⟩
      apply loop_stop
      rw [fileBody, (Memory.holds_cons.mp held).1, Exec.ofOption_some, Exec.done_bind,
        if_neg fun ne => ne rfl]
      rfl
  | cons file files ih =>
      rw [List.length_cons] at enough
      obtain ⟨fuel, rfl⟩ : ∃ more, fuel = more + 1 := ⟨fuel - 1, by omega⟩
      rw [List.flatMap_cons, List.length_append] at short
      have name_lt : file.name.bytes.length < file.bytes.length := by
        rw [FileEntry.bytes, List.length_append, List.length_append, List.length_append,
          List.length_append, List.length_singleton]
        omega
      rw [List.flatMap_cons, List.append_assoc] at held
      obtain ⟨file_held, rest⟩ := Memory.holds_append.mp held
      have name_held := file_held
      rw [FileEntry.bytes, List.append_assoc, List.append_assoc, List.append_assoc] at name_held
      obtain ⟨c, mapped, nonzero⟩ := first_of_name file.nonempty name_held
      have again : fileBody mem p = .done (.again (p + file.bytes.length)) := by
        rw [fileBody, mapped, Exec.ofOption_some, Exec.done_bind, if_pos nonzero,
          linenoAddFile_eq file_held (by omega), Exec.done_bind]
        congr 2
        rw [FileEntry.bytes, List.length_append, List.length_append, List.length_append,
          List.length_append, List.length_singleton]
        omega
      rw [loop_again again, ih rest (by omega) (by omega), List.flatMap_cons, List.length_append,
        Nat.add_assoc]

/-! ## The header -/

variable {u : LineUnit}

theorem LineUnit.length_bytes (order : Endianness) (u : LineUnit) :
    (u.bytes order).length =
      u.headerStart + u.tableBytes.length + u.program.length := by
  rw [LineUnit.bytes, LineUnit.contents, LineUnit.headerStart, List.length_append,
    lengthBytes_length, List.length_append, List.length_append, List.length_append,
    order.bytes_length, order.bytes_length]
  omega

/-- The fields up to the base of the opcodes. -/
theorem readFields_unit {offset length : Nat}
    (contains : ds.Contains mem offset (u.contents order)) :
    readFields order mem ds length (offsetWidth u.wide) offset =
      some (⟨length, u.version, u.headerLength, u.minlen, u.defstmt, u.lbase, u.lrange, u.opbase,
        [], 0⟩, offset + 2 + offsetWidth u.wide, offset + 2 + offsetWidth u.wide + 5) := by
  rw [LineUnit.contents] at contains
  have version_lt : u.version < 256 ^ 2 := by
    rcases u.known with known | known
    · omega
    · omega
  have behind_version := contains.right
  rw [order.bytes_length] at behind_version
  have tables := behind_version.right.left
  rw [order.bytes_length, LineUnit.tableBytes] at tables
  have minlen := tables.left
  have defstmt := (contains_cons minlen).2
  have lbase := (contains_cons defstmt).2
  have lrange := (contains_cons lbase).2
  have opbase := (contains_cons lrange).2
  rw [readFields, contains.left.dbgRead (by decide) version_lt, Option.bind_some]
  dsimp only
  rw [behind_version.left.dbgRead (isWidth_offsetWidth u.wide) u.headerLength_lt,
    Option.bind_some]
  dsimp only
  rw [readByte_eq minlen, Option.bind_some]
  dsimp only
  rw [readByte_eq defstmt, Option.bind_some]
  dsimp only
  rw [readByte_eq lbase, Option.bind_some]
  dsimp only
  rw [readByte_eq lrange, Option.bind_some]
  dsimp only
  rw [readByte_eq opbase, Option.map_some]

/-- A directory takes a byte at least. -/
theorem length_dirs_le (dirs : List Directory) :
    dirs.length ≤ (dirs.flatMap Directory.bytes).length := by
  induction dirs with
  | nil => exact Nat.le_refl 0
  | cons dir dirs ih =>
      rw [List.flatMap_cons, List.length_append, List.length_cons, Directory.bytes,
        List.length_append, List.length_singleton]
      omega

/-- A pointer into the section is as far from its beginning as the offset. -/
theorem ptrdiff_eq {offset : Nat} (inside : offset < 2 ^ 31)
    (fits : ds.dsData + offset < 2 ^ 64) : ptrdiff ds (ds.dsData + offset) = offset := by
  rw [ptrdiff, sub64_of_le (Nat.le_add_right _ _) fits, Nat.add_sub_cancel_left,
    BitVec.toInt_ofNat']
  exact Int.bmod_eq_of_le (by omega) (by norm_num; omega)

/-- The tables of a unit are passed. -/
theorem linenoTables_unit {offset fuel : Nat} (small : ds.dsSize < 2 ^ 31)
    (contains : ds.Contains mem offset ((u.dirBytes ++ [0]) ++ (u.fileBytes ++ [0])))
    (enough_dirs : u.dirs.length < fuel) (enough_files : u.files.length < fuel) :
    linenoTables mem ds fuel offset =
      .done (some (u.dirs.length,
        ds.dsData + (offset + ((u.dirBytes ++ [0]) ++ (u.fileBytes ++ [0])).length))) := by
  have inside := contains.inside
  have fits := contains.fits
  have dirs_held := contains.left.held
  have files_held := contains.right.held
  have dirs_le : u.dirs.length ≤ u.dirBytes.length := length_dirs_le u.dirs
  rw [List.length_append, List.length_append, List.length_append, List.length_singleton] at inside ⊢
  rw [List.length_append, List.length_singleton] at files_held
  have in_range : wrap32 ds.dsSize = ds.dsSize := wrap32_of_range (by omega) (by omega)
  have dirs_end : ptrdiff ds (ds.dsData + offset + u.dirBytes.length) =
      (offset + u.dirBytes.length : Nat) := by
    rw [Nat.add_assoc]
    exact ptrdiff_eq (by omega) (by omega)
  rw [linenoTables, contains.at_eq, dirLoop_eq dirs_held enough_dirs (by omega), Exec.done_bind]
  dsimp only
  rw [← LineUnit.dirBytes, dirs_end, in_range, if_neg (by omega), u64_of_lt (by omega)]
  rw [show ds.dsData + offset + u.dirBytes.length + 1 =
      ds.dsData + (offset + (u.dirBytes.length + 1)) by omega,
    fileLoop_eq files_held enough_files (by rw [← LineUnit.fileBytes]; omega), Exec.done_bind,
    ← LineUnit.fileBytes,
    u64_of_lt (by omega), Nat.zero_add]
  have end_eq : ds.dsData + (offset + (u.dirBytes.length + 1)) + u.fileBytes.length + 1 =
      ds.dsData + (offset + (u.dirBytes.length + 1 + (u.fileBytes.length + 1))) := by omega
  rw [end_eq]

/-- The header of a unit is accepted, with the values that it encodes, exactly if its
tables end where it says. -/
theorem linenoHeader_unit {offset fuel : Nat} (small : ds.dsSize < 2 ^ 31)
    (contains : ds.Contains mem offset (u.bytes order)) (enough_dirs : u.dirs.length < fuel)
    (enough_files : u.files.length < fuel) :
    linenoHeader order mem ds fuel offset =
      .done (if u.WellFormed then
        .program (u.header order) (ds.dsData + (offset + u.headerStart + u.headerLength))
          (ds.dsData + (offset + (u.bytes order).length))
      else .failed dleDebugLineLengthBad) := by
  have inside := contains.inside
  have fits := contains.fits
  have bytes_length := u.length_bytes order
  have opbase_lt := u.opbase.isLt
  have opbase_eq := u.opbase_eq
  have contents_length : (u.bytes order).length =
      lengthWidth u.wide + (u.contents order).length := by
    rw [LineUnit.bytes, List.length_append, lengthBytes_length]
  have length_lt : (u.contents order).length < if u.wide then 2 ^ 64 else 0xffffffff := by
    split
    · omega
    · omega
  rw [LineUnit.bytes] at contains
  have contents := contains.right
  rw [lengthBytes_length] at contents
  have tables := contents
  rw [LineUnit.contents] at tables
  have tables := tables.right.right.left
  rw [order.bytes_length, order.bytes_length, LineUnit.tableBytes] at tables
  have oplens := tables.right
  rw [List.length_cons, List.length_cons, List.length_cons, List.length_cons,
    List.length_singleton] at oplens
  have names := oplens.right
  rw [linenoHeader, contains.left.readLength length_lt, Exec.ofOption_some, Exec.done_bind]
  dsimp only
  rw [sub64_of_le (by omega) (by omega), if_neg (by omega), readFields_unit contents,
    Exec.ofOption_some, Exec.done_bind]
  dsimp only
  have tables_length : u.tableBytes.length =
      5 + (u.oplens.length + ((u.dirBytes ++ [0]) ++ (u.fileBytes ++ [0])).length) := by
    simp only [LineUnit.tableBytes, List.length_append, List.length_cons, List.length_nil]
  by_cases short : wrap32 (wrap32 u.headerLength - 5) < (u.opbase.toNat : Int) - 1
  · have malformed : ¬ u.WellFormed := by
      intro wellFormed
      rw [LineUnit.WellFormed] at wellFormed
      rw [wrap32_of_range (x := (u.headerLength : Int)) (by omega) (by omega),
        wrap32_of_range (by omega) (by omega)] at short
      omega
    rw [if_pos short, if_neg malformed]
  · have count_eq : u.opbase.toNat - 1 = u.oplens.length := by omega
    rw [if_neg short, count_eq, readOplen_eq oplens, Exec.ofOption_some, Exec.done_bind]
    dsimp only
    rw [linenoTables_unit small names enough_dirs enough_files, Exec.done_bind]
    dsimp only
    have start_eq : offset + lengthWidth u.wide + 2 + offsetWidth u.wide =
        offset + u.headerStart := by
      rw [LineUnit.headerStart]
      omega
    have end_eq : offset + u.headerStart + (1 + 1 + 1 + 1 + 1) + u.oplens.length +
          ((u.dirBytes ++ [0]) ++ (u.fileBytes ++ [0])).length =
        offset + u.headerStart + u.tableBytes.length := by
      omega
    rw [start_eq, end_eq, sub64_of_le (Nat.le_add_right _ _) (by omega),
      Nat.add_sub_cancel_left, sub64_of_le (Nat.le_add_right _ _) (by omega),
      Nat.add_sub_cancel_left]
    by_cases wellFormed : u.WellFormed
    · have stop_eq : ds.at (u64 (offset + lengthWidth u.wide + (u.contents order).length)) =
          ds.dsData + (offset + (u.bytes order).length) := by
        rw [u64_of_lt (by omega), Section.at, u64_of_lt (by omega), contents_length, Nat.add_assoc]
      rw [if_neg (not_not.mpr wellFormed.symm), if_pos wellFormed, stop_eq, ← wellFormed]
      rfl
    · rw [if_pos (Ne.symm wellFormed), if_neg wellFormed]

/-! ## `_dwarf_lineno_init` -/

/-- A unit whose tables end where its header says is accepted with the values that it
encodes, and its program is run from there to the end of the unit.  Any other is
rejected. -/
theorem linenoInit_unit {offset : Nat} (small : ds.dsSize < 2 ^ 31)
    (contains : ds.Contains mem offset (u.bytes order)) :
    ∃ bound, ∀ fuel, bound ≤ fuel →
      (u.headerLength = u.tableBytes.length →
        linenoHeader order mem ds fuel offset =
            .done (.program (u.header order)
              (ds.dsData + (offset + u.headerStart + u.headerLength))
              (ds.dsData + (offset + (u.bytes order).length))) ∧
          ∀ addrSize pc, linenoInit order mem ds fuel offset addrSize pc =
            (runProgram order mem ((u.header order).info addrSize)
              (ds.dsData + (offset + (u.bytes order).length)) pc fuel
              (ds.dsData + (offset + u.headerStart + u.headerLength))).bind
                fun result => .done (dleNone, result)) ∧
      (u.headerLength ≠ u.tableBytes.length → ∀ addrSize pc,
        linenoInit order mem ds fuel offset addrSize pc =
          .done (dleDebugLineLengthBad, ⟨.zero, 0⟩)) := by
  refine ⟨u.dirs.length + u.files.length + 1, fun fuel enough => ?_⟩
  have started : linenoHeader order mem ds fuel offset = _ :=
    linenoHeader_unit small contains (by omega) (by omega)
  constructor
  · intro wellFormed
    rw [if_pos (show u.WellFormed from wellFormed)] at started
    refine ⟨started, fun addrSize pc => ?_⟩
    rw [linenoInit, started, Exec.done_bind]
  · intro malformed addrSize pc
    rw [if_neg (show ¬ u.WellFormed from malformed)] at started
    rw [linenoInit, started, Exec.done_bind]

end

/-! ## A unit -/

theorem letter_nonzero : ∀ byte ∈ [(0x6B : Byte)], byte ≠ 0 := by
  decide

theorem zero_last : ¬ Continues 0 := by
  decide

/-- The name "k". -/
def letterName : CString :=
  ⟨[0x6B], letter_nonzero⟩

def plainOplens : List Byte :=
  [0, 1, 1, 1, 1, 0, 0, 0, 1]

theorem version_two : 2 = 2 ∨ 2 = 3 :=
  .inl rfl

theorem plain_length_lt : 23 < 256 ^ offsetWidth false := by
  decide

theorem plain_opbase : (10 : Byte).toNat = plainOplens.length + 1 := by
  decide

/-- A unit of version 2 with a directory and a file. -/
def plainUnit (lrange : Byte) (program : List Byte) : LineUnit where
  wide := false
  version := 2
  headerLength := 23
  minlen := 1
  defstmt := 1
  lbase := 251
  lrange := lrange
  opbase := 10
  oplens := plainOplens
  dirs := [⟨letterName, List.cons_ne_nil _ _⟩]
  files := [⟨letterName, List.cons_ne_nil _ _, smallOperand 1 one_ends, smallOperand 0 zero_last,
    smallOperand 0 zero_last⟩]
  program := program
  known := version_two
  headerLength_lt := plain_length_lt
  opbase_eq := plain_opbase

/-- The unit behind another byte. -/
def plainMemory (u : LineUnit) (fits : 0x1000 + (0xAA :: u.bytes .lsb).length < 2 ^ 47) : Memory :=
  .image 0x1000 (0xAA :: u.bytes .lsb) fits

def plainSection (u : LineUnit) : Section where
  dsData := 0x1000
  dsSize := (0xAA :: u.bytes .lsb).length

theorem plain_contains (u : LineUnit) (fits : 0x1000 + (0xAA :: u.bytes .lsb).length < 2 ^ 47) :
    (plainSection u).Contains (plainMemory u fits) 1 (u.bytes .lsb) where
  held := Memory.image_holds fits [0xAA] [] (by simp)
  inside := by
    dsimp only [plainSection]
    rw [List.length_cons]
    omega
  fits := by
    dsimp only [plainSection]
    omega

/-- The unit is accepted, with an empty program. -/
theorem linenoInit_plain :
    ∃ bound, ∀ fuel, bound ≤ fuel →
      linenoHeader .lsb (plainMemory (plainUnit 14 []) (by decide)) (plainSection (plainUnit 14 []))
          fuel 1 =
        .done (.program ⟨29, 2, 23, 1, 1, 251, 14, 10, plainOplens, 1⟩ 0x1022 0x1022) := by
  obtain ⟨bound, accepted⟩ := linenoInit_unit
    (show (plainSection (plainUnit 14 [])).dsSize < 2 ^ 31 by decide)
    (plain_contains (plainUnit 14 []) (by decide))
  exact ⟨bound, fun fuel enough => ((accepted fuel enough).1 (by decide)).1⟩

end Jos64.Lineno
