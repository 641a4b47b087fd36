import Jos64.Dwarf.Memory

/-!
# The abbreviation table

A declaration gives the tag of the entries that use its code, whether they have
children, and their attributes.  The table of a unit is searched from its
beginning for every entry.
-/

namespace Jos64.Dwarf

/-- The largest number of attributes that an abbreviation holds, `NATTRDEF`. -/
def nattrdef : Nat :=
  32

/-- `Dwarf_AttrDef` -/
structure AttrDef where
  adAttrib : Nat
  adForm : Nat
  adOffset : Nat
  deriving DecidableEq

/-- `Dwarf_Abbrev`.  The number of attributes, `ab_atnum`, is the length of the
list. -/
structure Abbrev where
  abEntry : Nat
  abTag : Nat
  abChildren : Nat
  abOffset : Nat
  abLength : Nat
  abAttrdef : List AttrDef
  deriving DecidableEq

/-- `DW_CHILDREN_no` -/
def childrenNo : Nat :=
  0

/-- `DW_CHILDREN_yes` -/
def childrenYes : Nat :=
  1

/-- `Dwarf_Debug`, and the sections that `_dwarf_find_section` finds.  The fields
`dbg_info_offset_elf` and `dbg_info_size` are those of the section
`.debug_info`; the byte order stands for the function `read`. -/
structure Debug where
  mem : Memory
  order : Endianness
  debugInfo : Section
  debugAbbrev : Section
  debugStr : Section

variable (dbg : Debug)

/-- `dbg->read` at an offset of a section. -/
def Debug.read (ds : Section) (offset width : Nat) : Option (Nat × Nat) :=
  dbgRead dbg.order dbg.mem ds offset width

/-- The loop of `_dwarf_abbrev_parse` over the attribute definitions that follow
`defs`.  A store behind the array is a fault.  Every round reads a byte, so the
room bounds the loop. -/
def attrDefs (ds : Section) : (room : Nat) → (defs : List AttrDef) → (offset : Nat) →
    Option (List AttrDef × Nat)
  | 0, _, _ => none
  | room + 1, defs, offset =>
      (readUleb128 dbg.mem ds offset).bind fun (attr, formOffset) =>
        (readUleb128 dbg.mem ds formOffset).bind fun (form, next) =>
          if attr ≠ 0 then
            if defs.length < nattrdef then
              attrDefs ds room (defs ++ [⟨attr, form, offset⟩]) next
            else none
          else some (defs, next)

/-- What `_dwarf_abbrev_parse` finds at an offset. -/
inductive Parsed where
  | noEntry
  | last (offset : Nat)
  | decl (ab : Abbrev) (offset : Nat)
  deriving DecidableEq

/-- `_dwarf_abbrev_parse` -/
def abbrevParse (ds : Section) (offset : Nat) : Option Parsed :=
  if ds.dsSize ≤ offset then some .noEntry
  else
    (readUleb128 dbg.mem ds offset).bind fun (entry, tagOffset) =>
      if entry = 0 then some (.last tagOffset)
      else
        (readUleb128 dbg.mem ds tagOffset).bind fun (tag, childrenOffset) =>
          (dbg.read ds childrenOffset 1).bind fun (children, defsOffset) =>
            (attrDefs dbg ds (dbg.mem.room (ds.at defsOffset) + 1) [] defsOffset).map
              fun (defs, next) =>
                .decl ⟨entry, tag, children, offset, u64 (next + 2 ^ 64 - offset), defs⟩ next

/-- The loop of `_dwarf_abbrev_find`.  Every declaration takes a byte, so the
room bounds it. -/
def findLoop (ds : Section) (entry : Nat) : (room : Nat) → (offset : Nat) → Option (Option Abbrev)
  | 0, _ => none
  | room + 1, offset =>
      if offset < ds.dsSize then
        (abbrevParse dbg ds offset).bind fun
          | .noEntry => some none
          | .last _ => some none
          | .decl ab next =>
              if ab.abEntry = entry then some (some ab) else findLoop ds entry room next
      else some none

/-- `_dwarf_abbrev_find`: the declaration, or nothing for `DW_DLE_NO_ENTRY`. -/
def abbrevFind (debugAbbrevOffset entry : Nat) : Option (Option Abbrev) :=
  if entry = 0 then some none
  else
    findLoop dbg dbg.debugAbbrev entry
      (dbg.mem.room (dbg.debugAbbrev.at debugAbbrevOffset) + 1) debugAbbrevOffset

end Jos64.Dwarf
