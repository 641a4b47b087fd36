import Jos64.Dwarf.Abbrev.Table

/-!
# Sections of abbreviation tables

A section holds the tables of all units, one behind the other.  The search of a
unit begins at the table of the unit and ends at the zero behind it, so that the
declarations of the other tables are never met.
-/

namespace Jos64.Dwarf

/-- A table of a unit: its declarations and the zero code that ends them. -/
structure Table where
  decls : List Decl
  ending : Uleb
  ending_eq : ending.value = 0

def Table.bytes (order : Endianness) (table : Table) : List Byte :=
  tableBytes order table.decls ++ table.ending.bytes

def tablesBytes (order : Endianness) (tables : List Table) : List Byte :=
  tables.flatMap (Table.bytes order)

/-- The tag, the children flag, and the name and the form of each attribute. -/
structure Said where
  tag : Nat
  children : Nat
  specs : List (Nat × Nat)
  deriving DecidableEq

/-- What a declaration says. -/
def Decl.said (decl : Decl) : Said where
  tag := decl.tag.value
  children := decl.childrenFlag
  specs := decl.specs.map fun spec => (spec.attrib.value, spec.form.value)

/-- What the search has to say of a code: that of its first declaration. -/
def Table.said (table : Table) (code : Nat) : Option Said :=
  (lookup table.decls code).map Decl.said

/-- What the search leaves in `*abp`. -/
def Abbrev.said (ab : Abbrev) : Said where
  tag := ab.abTag
  children := ab.abChildren
  specs := ab.abAttrdef.map fun ad => (ad.adAttrib, ad.adForm)

theorem attrDefsAt_map (specs : List Spec) (offset : Nat) :
    (attrDefsAt offset specs).map (fun ad => (ad.adAttrib, ad.adForm)) =
      specs.map fun spec => (spec.attrib.value, spec.form.value) := by
  induction specs generalizing offset with
  | nil => rfl
  | cons spec specs ih => rw [attrDefsAt, List.map_cons, List.map_cons, ih]

theorem abbrevAt_said (order : Endianness) (decl : Decl) (offset : Nat) :
    (decl.abbrevAt order offset).said = decl.said := by
  rw [Abbrev.said, Decl.said, Decl.abbrevAt]
  dsimp only
  rw [attrDefsAt_map]

variable {dbg : Debug} {ds : Section}

/-- `_dwarf_abbrev_parse` on the zero behind the declarations. -/
theorem abbrevParse_ending (table : Table) {offset : Nat}
    (contains : ds.Contains dbg.mem offset table.ending.bytes) :
    abbrevParse dbg ds offset = some (.last (offset + table.ending.bytes.length)) := by
  have inside := contains.inside
  have ending_pos := table.ending.length_pos
  have ends : table.ending.decoded = 0 := by
    rw [Uleb.decoded_of_lt (by rw [table.ending_eq]; decide), table.ending_eq]
  rw [abbrevParse, if_neg (by omega), contains.readUleb128, Option.bind_some]
  dsimp only
  rw [ends, if_pos rfl]

/-- A code that is not declared is searched for up to the zero. -/
theorem findLoop_missing (table : Table) {decls : List Decl} {code : Nat}
    (missing : lookup decls code = none) {offset room : Nat}
    (contains : ds.Contains dbg.mem offset (tableBytes dbg.order decls ++ table.ending.bytes))
    (enough : decls.length < room) :
    findLoop dbg ds code room offset = some none := by
  induction decls generalizing offset room with
  | nil =>
      obtain ⟨room, rfl⟩ : ∃ more, room = more + 1 := ⟨room - 1, by omega⟩
      rw [tableBytes, List.flatMap_nil, List.nil_append] at contains
      have inside := contains.inside
      have ending_pos := table.ending.length_pos
      rw [findLoop, if_pos (by omega), abbrevParse_ending table contains, Option.bind_some]
  | cons first decls ih =>
      obtain ⟨room, rfl⟩ : ∃ more, room = more + 1 := ⟨room - 1, by omega⟩
      rw [tableBytes, List.flatMap_cons, List.append_assoc] at contains
      have inside := contains.left.inside
      have code_pos := first.code.length_pos
      rw [Decl.bytes, List.length_append] at inside
      have other : ¬ first.code.value = code := by
        intro here
        rw [lookup, List.find?_cons_of_pos (by simpa using here)] at missing
        contradiction
      rw [lookup, List.find?_cons_of_neg (by simpa using other)] at missing
      rw [findLoop, if_pos (by omega), abbrevParse_eq contains.left, Option.bind_some]
      dsimp only
      rw [if_neg (show ¬ (first.abbrevAt dbg.order offset).abEntry = code from other)]
      exact ih missing contains.right (by simpa using enough)

/-- `_dwarf_abbrev_find` where a table stands. -/
theorem abbrevFind_table (table : Table) {offset : Nat} (code : Nat)
    (contains : dbg.debugAbbrev.Contains dbg.mem offset (table.bytes dbg.order)) :
    (abbrevFind dbg offset code).map (Option.map Abbrev.said) = some (table.said code) := by
  rw [Table.bytes] at contains
  rw [Table.said]
  cases found : lookup table.decls code with
  | some decl =>
      obtain ⟨declOffset, find_eq⟩ := abbrevFind_eq found contains.left
      rw [find_eq, Option.map_some, Option.map_some, Option.map_some, abbrevAt_said]
  | none =>
      have enough := (table_length_le dbg.order table.decls).trans
        contains.left.holds_at.length_le_room
      have find_eq : abbrevFind dbg offset code = some none := by
        rw [abbrevFind]
        split
        · rfl
        · exact findLoop_missing table found contains (by omega)
      rw [find_eq, Option.map_some, Option.map_none, Option.map_none]

/-- In a section of tables the search from the beginning of one of them finds its
first declaration with the code, or nothing. -/
theorem abbrevFind_said {front back : List Table} (table : Table) (code : Nat)
    (contents : dbg.debugAbbrev.Contains dbg.mem 0
      (tablesBytes dbg.order (front ++ table :: back))) :
    (abbrevFind dbg (tablesBytes dbg.order front).length code).map (Option.map Abbrev.said) =
      some (table.said code) := by
  rw [tablesBytes, List.flatMap_append, List.flatMap_cons] at contents
  have here := contents.right.left
  rw [Nat.zero_add] at here
  exact abbrevFind_table table code here

/-! ## A section of two tables -/

section

theorem routine_tag_ends : ¬ Leb.Continues 0x2e := by
  decide

theorem routine_few : 1 ≤ nattrdef := by
  decide

/-- `DW_AT_name` as `DW_FORM_string` -/
def routineName : Spec :=
  .ofBytes 0x03 0x08 three_ends eight_ends three_nonzero

/-- `DW_TAG_subprogram` with a name -/
def routineDecl : Decl :=
  .ofBytes 1 0x2e one_ends routine_tag_ends one_nonzero false [routineName] routine_few

/-- The same under another code, with children. -/
def outerDecl : Decl :=
  .ofBytes 2 0x2e two_ends routine_tag_ends two_nonzero true [routineName] routine_few

def outerTable : Table :=
  ⟨[outerDecl], .byte 0 zero_ends, zero_value⟩

def routineTable : Table :=
  ⟨[routineDecl], .byte 0 zero_ends, zero_value⟩

/-- The two tables, of eight bytes each. -/
def tablesDebug : Debug where
  mem := .image 0x1000 (tablesBytes .lsb [outerTable, routineTable])
    (show 0x1000 + 16 < 2 ^ 47 by decide)
  order := .lsb
  debugInfo := ⟨0x1000, 0⟩
  debugAbbrev := ⟨0x1000, 16⟩
  debugStr := ⟨0x1000, 0⟩

theorem tables_contents :
    tablesDebug.debugAbbrev.Contains tablesDebug.mem 0
      (tablesBytes tablesDebug.order ([outerTable] ++ routineTable :: [])) := by
  refine ⟨?_, ?_, ?_⟩
  · exact Memory.image_holds (show 0x1000 + 16 < 2 ^ 47 by decide) [] [] (List.append_nil _).symm
  · exact le_refl 16
  · exact show 0x1000 + 16 < 2 ^ 64 by decide

/-- The second table declares its own code and not that of the first. -/
theorem abbrevFind_said_second :
    (abbrevFind tablesDebug (tablesBytes tablesDebug.order [outerTable]).length 1).map
        (Option.map Abbrev.said) = some (some ⟨0x2e, childrenNo, [(0x03, 0x08)]⟩) ∧
      (abbrevFind tablesDebug (tablesBytes tablesDebug.order [outerTable]).length 2).map
        (Option.map Abbrev.said) = some none :=
  ⟨abbrevFind_said routineTable 1 tables_contents, abbrevFind_said routineTable 2 tables_contents⟩

end

end Jos64.Dwarf
