import Jos64.Dwarf.Abbrev.Core
import Jos64.Dwarf.Contents

/-!
# Declarations that leave their section or their array

The loop over the attributes of a declaration ends at an attribute of zero, and
the readers of its numbers at a byte that ends a number; neither knows the size
of the section or of `ab_attrdef`.  So the declaration itself has to end in time.
-/

namespace Jos64.Dwarf

open Leb

/-! ## Bytes up to the end of a section -/

/-- The bytes are all that is left of the section from the offset on, and nothing
can be read behind them. -/
structure Section.Ends (ds : Section) (mem : Memory) (offset : Nat) (bytes : List Byte) :
    Prop where
  contains : ds.Contains mem offset bytes
  whole : offset + bytes.length = ds.dsSize
  unreadable : mem.byte (ds.dsData + ds.dsSize) = none

namespace Section.Ends

variable {ds : Section} {mem : Memory} {offset : Nat} {bytes more : List Byte}

theorem right (ends : ds.Ends mem offset (bytes ++ more)) :
    ds.Ends mem (offset + bytes.length) more := by
  refine ⟨ends.contains.right, ?_, ends.unreadable⟩
  rw [← ends.whole, List.length_append, Nat.add_assoc]

theorem at_end (ends : ds.Ends mem offset []) : mem.byte (ds.at offset) = none := by
  have unreadable := ends.unreadable
  rw [← ends.whole, List.length_nil, Nat.add_zero] at unreadable
  rw [ends.contains.at_eq]
  exact unreadable

end Section.Ends

/-- The bytes of a number. -/
structure Digits where
  bytes : List Byte
  ended : Ended bytes

/-- What the readers make of the number. -/
def Digits.decoded (n : Digits) : Nat :=
  ((lebBits 0 n.bytes).signExtend 64).toNat

theorem Digits.length_pos (n : Digits) : 0 < n.bytes.length :=
  List.length_pos_of_ne_nil n.ended.ne_nil

variable {ds : Section} {mem : Memory} {offset : Nat}

/-- The loop of the readers stops in front of unmapped memory only if a number
ends there. -/
theorem ended_of_lebLoop {bytes : List Byte} {ret : BitVec 64} {shift address room : Nat}
    {read : LebRead} (held : mem.Holds address bytes)
    (behind : mem.byte (address + bytes.length) = none)
    (found : lebLoop mem ret shift offset address room = some read) :
    ∃ n : Digits, ∃ rest, bytes = n.bytes ++ rest := by
  induction bytes generalizing ret shift offset address room with
  | nil =>
      cases room with
      | zero => contradiction
      | succ room =>
          rw [lebLoop, show mem.byte address = none from behind] at found
          contradiction
  | cons b bytes ih =>
      cases room with
      | zero => contradiction
      | succ room =>
          obtain ⟨mapped, held⟩ := Memory.holds_cons.mp held
          rw [lebLoop, mapped, Option.bind_some] at found
          dsimp only at found
          split at found
          · rename_i continues
            rw [List.length_cons, Nat.add_comm bytes.length, ← Nat.add_assoc] at behind
            obtain ⟨n, rest, rfl⟩ := ih held behind found
            exact ⟨⟨b :: n.bytes, .more continues n.ended⟩, rest, rfl⟩
          · rename_i last
            exact ⟨⟨[b], .last last⟩, bytes, rfl⟩

theorem Section.Contains.readDigits {n : Digits} (contains : ds.Contains mem offset n.bytes) :
    Dwarf.readUleb128 mem ds offset = some (n.decoded, offset + n.bytes.length) := by
  rw [readUleb128_ended n.ended contains.holds_at, contains.u64_next]
  rfl

/-- What `_dwarf_read_uleb128` reads inside a section is a number that ends
there. -/
theorem Section.Ends.readUleb128_cases {bytes : List Byte} (ends : ds.Ends mem offset bytes)
    {value next : Nat} (found : readUleb128 mem ds offset = some (value, next)) :
    ∃ n : Digits, ∃ rest, bytes = n.bytes ++ rest ∧ value = n.decoded ∧
      next = offset + n.bytes.length ∧ ds.Ends mem next rest := by
  have behind : mem.byte (ds.at offset + bytes.length) = none := by
    rw [ends.contains.at_eq, Nat.add_assoc, ends.whole]
    exact ends.unreadable
  obtain ⟨read, loop_eq, -⟩ := Option.map_eq_some_iff.mp found
  obtain ⟨n, rest, rfl⟩ := ended_of_lebLoop ends.contains.holds_at behind loop_eq
  rw [ends.contains.left.readDigits] at found
  cases found
  exact ⟨n, rest, rfl, rfl, rfl, ends.right⟩

/-! ## Declarations that end -/

/-- The attributes of a declaration with what follows them: pairs of numbers, up
to the first whose attribute is read as zero. -/
inductive Attributes : (count : Nat) → List Byte → Prop where
  | ending {attr form : Digits} {rest : List Byte} : attr.decoded = 0 →
      Attributes 0 (attr.bytes ++ (form.bytes ++ rest))
  | more {attr form : Digits} {count : Nat} {rest : List Byte} : attr.decoded ≠ 0 →
      Attributes count rest → Attributes (count + 1) (attr.bytes ++ (form.bytes ++ rest))

/-- A code of zero, or a declaration of as many attributes as fit, with what
follows. -/
inductive Complete : List Byte → Prop where
  | last {code : Digits} {rest : List Byte} : code.decoded = 0 → Complete (code.bytes ++ rest)
  | decl {code tag : Digits} {children : Byte} {count : Nat} {rest : List Byte} :
      code.decoded ≠ 0 → Attributes count rest → count ≤ nattrdef →
      Complete (code.bytes ++ (tag.bytes ++ children :: rest))

theorem Attributes.count_lt {count : Nat} {bytes : List Byte} (attrs : Attributes count bytes) :
    count < bytes.length := by
  induction attrs with
  | @ending attr form rest _ =>
      have := attr.length_pos
      rw [List.length_append]
      omega
  | @more attr form count rest _ _ ih =>
      have := attr.length_pos
      rw [List.length_append, List.length_append]
      omega

variable {dbg : Debug}

/-- The attributes are read inside the section and the array. -/
theorem attrDefs_of_attributes {count : Nat} {bytes : List Byte} (attrs : Attributes count bytes)
    {defs : List AttrDef} {room : Nat} (ends : ds.Ends dbg.mem offset bytes)
    (slots : defs.length + count ≤ nattrdef) (enough : count < room) :
    ∃ defs' next, attrDefs dbg ds room defs offset = some (defs', next) ∧ next ≤ ds.dsSize := by
  induction attrs generalizing defs offset room with
  | @ending attr form rest zero =>
      obtain ⟨room, rfl⟩ : ∃ more, room = more + 1 := ⟨room - 1, by omega⟩
      have behind := ends.right.right.contains.inside
      rw [attrDefs, ends.contains.left.readDigits, Option.bind_some]
      dsimp only
      rw [ends.right.contains.left.readDigits, Option.bind_some]
      dsimp only
      rw [if_neg (not_not_intro zero)]
      exact ⟨_, _, rfl, by omega⟩
  | @more attr form count rest nonzero attrs ih =>
      obtain ⟨room, rfl⟩ : ∃ more, room = more + 1 := ⟨room - 1, by omega⟩
      rw [attrDefs, ends.contains.left.readDigits, Option.bind_some]
      dsimp only
      rw [ends.right.contains.left.readDigits, Option.bind_some]
      dsimp only
      rw [if_pos nonzero, if_pos (by omega)]
      exact ih ends.right.right (by rw [List.length_append, List.length_singleton]; omega)
        (by omega)

/-- What is read inside the section and the array are attributes that end. -/
theorem attributes_of_attrDefs {bytes : List Byte} {defs defs' : List AttrDef} {room next : Nat}
    (ends : ds.Ends dbg.mem offset bytes) (slots : defs.length ≤ nattrdef)
    (found : attrDefs dbg ds room defs offset = some (defs', next)) :
    ∃ count, Attributes count bytes ∧ defs.length + count ≤ nattrdef := by
  induction room generalizing defs offset bytes with
  | zero => contradiction
  | succ room ih =>
      obtain ⟨⟨value, formOffset⟩, attr_read, found⟩ := Option.bind_eq_some_iff.mp found
      obtain ⟨⟨formValue, restOffset⟩, form_read, found⟩ := Option.bind_eq_some_iff.mp found
      obtain ⟨attr, rest, rfl, rfl, rfl, attr_ends⟩ := ends.readUleb128_cases attr_read
      obtain ⟨form, rest, rfl, rfl, rfl, form_ends⟩ := attr_ends.readUleb128_cases form_read
      dsimp only at found
      split at found
      · rename_i nonzero
        split at found
        · rename_i free
          obtain ⟨count, attrs, fit⟩ :=
            ih form_ends (by rw [List.length_append, List.length_singleton]; omega) found
          rw [List.length_append, List.length_singleton] at fit
          exact ⟨count + 1, .more nonzero attrs, by omega⟩
        · contradiction
      · rename_i zero
        exact ⟨0, .ending (not_not.mp zero), slots⟩

/-- A byte that `_dwarf_abbrev_parse` reads for the children flag. -/
theorem Section.Ends.read_one {bytes : List Byte} (ends : ds.Ends dbg.mem offset bytes)
    {value next : Nat} (found : dbg.read ds offset 1 = some (value, next)) :
    ∃ b rest, bytes = b :: rest ∧ next = offset + 1 ∧ ds.Ends dbg.mem next rest := by
  rw [Debug.read, dbgRead, if_pos (.inl rfl)] at found
  obtain ⟨read, read_eq, made⟩ := Option.map_eq_some_iff.mp found
  cases bytes with
  | nil =>
      rw [Memory.read, ends.at_end] at read_eq
      contradiction
  | cons b rest =>
      have behind := (show ds.Ends dbg.mem offset ([b] ++ rest) from ends).right
      rw [List.length_singleton] at behind
      have inside := behind.contains.inside
      have fits := behind.contains.fits
      cases made
      exact ⟨b, rest, rfl, u64_of_lt (by omega), by rwa [u64_of_lt (by omega)]⟩

theorem Section.Ends.read_cons {b : Byte} {rest : List Byte}
    (ends : ds.Ends dbg.mem offset (b :: rest)) :
    ∃ value, dbg.read ds offset 1 = some (value, offset + 1) := by
  have inside := ends.contains.inside
  have fits := ends.contains.fits
  obtain ⟨mapped, -⟩ := Memory.holds_cons.mp ends.contains.holds_at
  rw [List.length_cons] at inside
  rw [Debug.read, dbgRead, if_pos (.inl rfl), Memory.read, mapped, Option.bind_some, Memory.read,
    Option.map_some, Option.map_some, u64_of_lt (by omega)]
  exact ⟨_, rfl⟩

/-! ## `_dwarf_abbrev_parse` -/

/-- Where `*offset` is left. -/
def Parsed.next (offset : Nat) : Parsed → Nat
  | noEntry => offset
  | last next => next
  | decl _ next => next

/-- The sections, with nothing behind the section of the abbreviations. -/
def Debug.cutAbbrev (dbg : Debug) : Debug :=
  { dbg with mem := dbg.mem.cut (dbg.debugAbbrev.dsData + dbg.debugAbbrev.dsSize) }

/-- `_dwarf_abbrev_parse` stores nothing behind `ab_attrdef`, reads nothing behind
the section, and leaves the offset in it. -/
def ParsesInside (dbg : Debug) (offset : Nat) : Prop :=
  ∃ parsed, abbrevParse dbg.cutAbbrev dbg.debugAbbrev offset = some parsed ∧
    parsed.next offset ≤ dbg.debugAbbrev.dsSize

theorem cutAbbrev_ends {contents : List Byte}
    (held : dbg.mem.Holds dbg.debugAbbrev.dsData contents)
    (size_eq : contents.length = dbg.debugAbbrev.dsSize) (inside : offset < contents.length) :
    dbg.debugAbbrev.Ends dbg.cutAbbrev.mem offset (contents.drop offset) := by
  have nonempty : contents ≠ [] := List.ne_nil_of_length_pos (by omega)
  have below := held.le_top nonempty
  have top_lt := dbg.mem.top_lt
  have split : (contents.take offset).length = offset :=
    List.length_take_of_le (Nat.le_of_lt inside)
  rw [← List.take_append_drop offset contents] at held
  have here := (Memory.holds_append.mp held).2
  rw [split] at here
  have length_eq : (contents.drop offset).length = contents.length - offset := List.length_drop
  refine ⟨⟨?_, by omega, by omega⟩, by omega, if_neg (Nat.lt_irrefl _)⟩
  intro k before
  rw [List.length_map] at before
  have kept := here k (by rwa [List.length_map])
  exact (if_pos (by omega)).trans kept

/-- The parser stays inside the section and the array exactly if what stands at
the offset ends in time. -/
theorem parsesInside_iff {contents : List Byte}
    (held : dbg.mem.Holds dbg.debugAbbrev.dsData contents)
    (size_eq : contents.length = dbg.debugAbbrev.dsSize) (inside : offset < contents.length) :
    ParsesInside dbg offset ↔ Complete (contents.drop offset) := by
  have ends := cutAbbrev_ends held size_eq inside
  have entered : ¬ dbg.debugAbbrev.dsSize ≤ offset := by omega
  generalize contents.drop offset = bytes at ends
  rw [ParsesInside, abbrevParse, if_neg entered]
  constructor
  · rintro ⟨parsed, found, -⟩
    obtain ⟨⟨entry, tagOffset⟩, code_read, found⟩ := Option.bind_eq_some_iff.mp found
    obtain ⟨code, rest, rfl, rfl, rfl, code_ends⟩ := ends.readUleb128_cases code_read
    dsimp only at found
    split at found
    · rename_i zero
      exact .last zero
    · rename_i nonzero
      obtain ⟨⟨tagValue, childrenOffset⟩, tag_read, found⟩ := Option.bind_eq_some_iff.mp found
      obtain ⟨tag, rest, rfl, rfl, rfl, tag_ends⟩ := code_ends.readUleb128_cases tag_read
      obtain ⟨⟨flag, defsOffset⟩, flag_read, found⟩ := Option.bind_eq_some_iff.mp found
      obtain ⟨children, rest, rfl, rfl, flag_ends⟩ := tag_ends.read_one flag_read
      obtain ⟨⟨defs, next⟩, defs_read, -⟩ := Option.map_eq_some_iff.mp found
      obtain ⟨count, attrs, fit⟩ := attributes_of_attrDefs flag_ends (Nat.zero_le _) defs_read
      exact .decl nonzero attrs (by rwa [List.length_nil, Nat.zero_add] at fit)
  · intro complete
    cases complete with
    | @last code rest zero =>
        have behind := ends.right.contains.inside
        rw [ends.contains.left.readDigits, Option.bind_some]
        dsimp only
        rw [if_pos zero]
        exact ⟨_, rfl, Nat.le_of_add_right_le behind⟩
    | @decl code tag children count rest nonzero attrs fit =>
        have flag_ends := (show dbg.debugAbbrev.Ends dbg.cutAbbrev.mem
          (offset + code.bytes.length + tag.bytes.length) ([children] ++ rest) from
            ends.right.right).right
        rw [List.length_singleton] at flag_ends
        have slots : ([] : List AttrDef).length + count ≤ nattrdef := by
          rwa [List.length_nil, Nat.zero_add]
        obtain ⟨flag, flag_read⟩ := ends.right.right.read_cons
        have enough := attrs.count_lt.trans_le flag_ends.contains.holds_at.length_le_room
        obtain ⟨defs, next, defs_read, next_le⟩ :=
          attrDefs_of_attributes attrs flag_ends slots (Nat.lt_succ_of_lt enough)
        rw [ends.contains.left.readDigits, Option.bind_some]
        dsimp only
        rw [if_neg nonzero, ends.right.contains.left.readDigits, Option.bind_some]
        dsimp only
        rw [flag_read, Option.bind_some]
        dsimp only
        rw [defs_read, Option.map_some]
        exact ⟨_, rfl, next_le⟩

/-! ## Sections of one declaration -/

section

/-- A section that is made of the bytes. -/
def onlyAbbrev (contents : List Byte) (fits : 0x1000 + contents.length < 2 ^ 47) : Debug where
  mem := .image 0x1000 contents fits
  order := .lsb
  debugInfo := ⟨0x1000, 0⟩
  debugAbbrev := ⟨0x1000, contents.length⟩
  debugStr := ⟨0x1000, 0⟩

/-- A subprogram with as many names, and the pair of zeros. -/
def namesAbbrev (count : Nat) : List Byte :=
  [1, 0x2e, 0] ++ (List.replicate count [0x03, 0x08]).flatten ++ [0, 0]

theorem one_name_held :
    (onlyAbbrev (namesAbbrev 1) (by decide)).mem.Holds 0x1000 (namesAbbrev 1) :=
  Memory.image_holds (by decide) [] [] (List.append_nil _).symm

theorem one_name_complete : Complete (namesAbbrev 1) :=
  @Complete.decl ⟨[1], .last one_ends⟩ ⟨[0x2e], .last (by decide)⟩ 0 1 [0x03, 0x08, 0, 0]
    (by decide)
    (@Attributes.more ⟨[0x03], .last three_ends⟩ ⟨[0x08], .last eight_ends⟩ 0 [0, 0] (by decide)
      (@Attributes.ending ⟨[0], .last zero_ends⟩ ⟨[0], .last zero_ends⟩ [] (by decide)))
    (by decide)

theorem one_name_inside : ParsesInside (onlyAbbrev (namesAbbrev 1) (by decide)) 0 :=
  (parsesInside_iff one_name_held rfl (by decide)).mpr one_name_complete

/-- One attribute more than fit is stored behind the array; and of a code alone
the tag is read behind the section. -/
theorem declarations_not_inside :
    ¬ ParsesInside (onlyAbbrev (namesAbbrev 33) (by decide)) 0 ∧
      ¬ ParsesInside (onlyAbbrev [1] (by decide)) 0 := by
  have faults {contents : List Byte} {fits : 0x1000 + contents.length < 2 ^ 47}
      (none_eq : abbrevParse (onlyAbbrev contents fits).cutAbbrev
        (onlyAbbrev contents fits).debugAbbrev 0 = none) :
      ¬ ParsesInside (onlyAbbrev contents fits) 0 := by
    rintro ⟨parsed, found, -⟩
    rw [none_eq] at found
    contradiction
  exact ⟨faults (by decide), faults (by decide)⟩

end

end Jos64.Dwarf
