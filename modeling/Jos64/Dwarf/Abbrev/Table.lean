import Jos64.Dwarf.Abbrev.Core
import Jos64.Dwarf.Contents

/-!
# Encoded abbreviation tables

A declaration of an encoded table is found by its code, with its tag and its
attributes as they are written.
-/

namespace Jos64.Dwarf

/-- The name and the form of an attribute. -/
structure Spec where
  attrib : Uleb
  form : Uleb
  attrib_ne : attrib.value ≠ 0
  attrib_lt : attrib.value < 2 ^ 31
  form_lt : form.value < 2 ^ 31

/-- A declaration.  Names, tags and forms of DWARF lie far below the bound,
under `DW_AT_hi_user` and `DW_TAG_hi_user`. -/
structure Decl where
  code : Uleb
  tag : Uleb
  children : Bool
  specs : List Spec
  endAttrib : Uleb
  endForm : Uleb
  code_ne : code.value ≠ 0
  code_lt : code.value < 2 ^ 31
  tag_lt : tag.value < 2 ^ 31
  specs_le : specs.length ≤ nattrdef
  endAttrib_eq : endAttrib.value = 0

/-- A name and a form of a byte each. -/
def Spec.ofBytes (attrib form : Byte) (attrib_ends : ¬ Leb.Continues attrib)
    (form_ends : ¬ Leb.Continues form) (nonzero : Leb.group attrib ≠ 0) : Spec where
  attrib := .byte attrib attrib_ends
  form := .byte form form_ends
  attrib_ne := nonzero
  attrib_lt := Uleb.byte_value_lt attrib_ends
  form_lt := Uleb.byte_value_lt form_ends

/-- A declaration whose numbers besides those of its attributes take a byte each. -/
def Decl.ofBytes (code tag : Byte) (code_ends : ¬ Leb.Continues code)
    (tag_ends : ¬ Leb.Continues tag) (nonzero : Leb.group code ≠ 0) (children : Bool)
    (specs : List Spec) (few : specs.length ≤ nattrdef) : Decl where
  code := .byte code code_ends
  tag := .byte tag tag_ends
  children := children
  specs := specs
  endAttrib := .byte 0 zero_ends
  endForm := .byte 0 zero_ends
  code_ne := nonzero
  code_lt := Uleb.byte_value_lt code_ends
  tag_lt := Uleb.byte_value_lt tag_ends
  specs_le := few
  endAttrib_eq := zero_value

def Spec.bytes (spec : Spec) : List Byte :=
  spec.attrib.bytes ++ spec.form.bytes

/-- The attributes with the two numbers that end them. -/
def Decl.specBytes (decl : Decl) (specs : List Spec) : List Byte :=
  specs.flatMap Spec.bytes ++ (decl.endAttrib.bytes ++ decl.endForm.bytes)

/-- `DW_CHILDREN_yes` or `DW_CHILDREN_no` -/
def Decl.childrenFlag (decl : Decl) : Nat :=
  if decl.children then childrenYes else childrenNo

def Decl.bytes (order : Endianness) (decl : Decl) : List Byte :=
  decl.code.bytes ++ (decl.tag.bytes ++
    (order.bytes 1 decl.childrenFlag ++ decl.specBytes decl.specs))

/-- The definitions that are made of attributes at an offset. -/
def attrDefsAt : (offset : Nat) → List Spec → List AttrDef
  | _, [] => []
  | offset, spec :: specs =>
      ⟨spec.attrib.value, spec.form.value, offset⟩ ::
        attrDefsAt (offset + spec.bytes.length) specs

/-- The abbreviation that is made of a declaration at an offset. -/
def Decl.abbrevAt (order : Endianness) (decl : Decl) (offset : Nat) : Abbrev where
  abEntry := decl.code.value
  abTag := decl.tag.value
  abChildren := decl.childrenFlag
  abOffset := offset
  abLength := (decl.bytes order).length
  abAttrdef := attrDefsAt
    (offset + decl.code.bytes.length + decl.tag.bytes.length + 1) decl.specs

theorem Decl.childrenFlag_lt (decl : Decl) : decl.childrenFlag < 256 ^ 1 := by
  rw [childrenFlag]
  split
  · decide
  · decide

@[simp]
theorem Decl.childrenFlag_eq_no_iff (decl : Decl) :
    decl.childrenFlag = childrenNo ↔ decl.children = false := by
  rw [childrenFlag]
  cases decl.children with
  | false => exact iff_of_true rfl rfl
  | true => exact iff_of_false (by decide) (by decide)

@[simp]
theorem Decl.childrenFlag_eq_yes_iff (decl : Decl) :
    decl.childrenFlag = childrenYes ↔ decl.children = true := by
  rw [childrenFlag]
  cases decl.children with
  | false => exact iff_of_false (by decide) (by decide)
  | true => exact iff_of_true rfl rfl

variable {dbg : Debug} {ds : Section}

/-- The loop over the attributes of a declaration. -/
theorem attrDefs_eq (decl : Decl) {specs : List Spec} {defs : List AttrDef} {offset room : Nat}
    (contains : ds.Contains dbg.mem offset (decl.specBytes specs))
    (slots : defs.length + specs.length ≤ nattrdef) (enough : specs.length < room) :
    attrDefs dbg ds room defs offset =
      some (defs ++ attrDefsAt offset specs, offset + (decl.specBytes specs).length) := by
  induction specs generalizing defs offset room with
  | nil =>
      obtain ⟨room, rfl⟩ : ∃ more, room = more + 1 := ⟨room - 1, by omega⟩
      rw [Decl.specBytes, List.flatMap_nil, List.nil_append] at contains ⊢
      have ends : decl.endAttrib.decoded = 0 := by
        rw [Uleb.decoded_of_lt (by rw [decl.endAttrib_eq]; decide), decl.endAttrib_eq]
      rw [attrDefs, contains.left.readUleb128, Option.bind_some]
      dsimp only
      rw [contains.right.readUleb128, Option.bind_some]
      dsimp only
      rw [ends, if_neg fun more => more rfl, attrDefsAt, List.append_nil, List.length_append,
        Nat.add_assoc]
  | cons spec specs ih =>
      obtain ⟨room, rfl⟩ : ∃ more, room = more + 1 := ⟨room - 1, by omega⟩
      have split : decl.specBytes (spec :: specs) = spec.bytes ++ decl.specBytes specs := by
        rw [Decl.specBytes, Decl.specBytes, List.flatMap_cons, List.append_assoc]
      rw [split] at contains ⊢
      have spec_here : ds.Contains dbg.mem offset (spec.attrib.bytes ++ spec.form.bytes) :=
        contains.left
      have length_eq : offset + spec.attrib.bytes.length + spec.form.bytes.length =
          offset + spec.bytes.length := by
        rw [Spec.bytes, List.length_append, Nat.add_assoc]
      rw [List.length_cons] at slots enough
      rw [attrDefs, spec_here.left.readUleb128, Option.bind_some]
      dsimp only
      rw [spec_here.right.readUleb128, Option.bind_some]
      dsimp only
      rw [Uleb.decoded_of_lt spec.attrib_lt, Uleb.decoded_of_lt spec.form_lt,
        if_pos spec.attrib_ne, if_pos (by omega), length_eq,
        ih contains.right (by rw [List.length_append, List.length_singleton]; omega) (by omega),
        attrDefsAt, List.append_assoc, List.singleton_append, List.length_append, Nat.add_assoc]

theorem specs_length_le (decl : Decl) (specs : List Spec) :
    specs.length ≤ (decl.specBytes specs).length := by
  induction specs with
  | nil => exact Nat.zero_le _
  | cons spec specs ih =>
      have := spec.attrib.length_pos
      rw [Decl.specBytes, List.length_append] at ih ⊢
      rw [List.flatMap_cons, List.length_append, Spec.bytes, List.length_append, List.length_cons]
      omega

/-- `_dwarf_abbrev_parse` on a declaration. -/
theorem abbrevParse_eq {decl : Decl} {offset : Nat}
    (contains : ds.Contains dbg.mem offset (decl.bytes dbg.order)) :
    abbrevParse dbg ds offset =
      some (.decl (decl.abbrevAt dbg.order offset) (offset + (decl.bytes dbg.order).length)) := by
  have inside := contains.inside
  have fits := contains.fits
  have code_pos := decl.code.length_pos
  have length_eq : (decl.bytes dbg.order).length = decl.code.bytes.length +
      (decl.tag.bytes.length + (1 + (decl.specBytes decl.specs).length)) := by
    rw [Decl.bytes, List.length_append, List.length_append, List.length_append,
      Endianness.bytes_length]
  have code_here := contains.left
  have tag_here := contains.right.left
  have children_here := contains.right.right.left
  have specs_here := contains.right.right.right
  rw [Endianness.bytes_length] at specs_here
  have enough := (specs_length_le decl decl.specs).trans specs_here.holds_at.length_le_room
  have children_eq : dbg.read ds (offset + decl.code.bytes.length + decl.tag.bytes.length) 1 =
      some (decl.childrenFlag, offset + decl.code.bytes.length + decl.tag.bytes.length + 1) :=
    children_here.dbgRead (.inl rfl) decl.childrenFlag_lt
  rw [abbrevParse, if_neg (by omega), code_here.readUleb128, Option.bind_some]
  dsimp only
  rw [Uleb.decoded_of_lt decl.code_lt, if_neg decl.code_ne, tag_here.readUleb128, Option.bind_some]
  dsimp only
  rw [children_eq, Option.bind_some]
  dsimp only
  rw [attrDefs_eq decl specs_here (by simpa using decl.specs_le) (by omega), Option.map_some,
    Uleb.decoded_of_lt decl.tag_lt, List.nil_append, Decl.abbrevAt, length_eq]
  have length_word : u64 (offset + decl.code.bytes.length + decl.tag.bytes.length + 1 +
      (decl.specBytes decl.specs).length + 2 ^ 64 - offset) = decl.code.bytes.length +
        (decl.tag.bytes.length + (1 + (decl.specBytes decl.specs).length)) := by
    unfold u64
    omega
  rw [length_word]
  congr 2
  omega

/-! ## Tables -/

def tableBytes (order : Endianness) (table : List Decl) : List Byte :=
  table.flatMap (Decl.bytes order)

/-- The declaration that a code stands for. -/
def lookup (table : List Decl) (code : Nat) : Option Decl :=
  table.find? fun decl => decl.code.value = code

theorem findLoop_eq {table : List Decl} {code : Nat} {decl : Decl}
    (found : lookup table code = some decl) {offset room : Nat}
    (contains : ds.Contains dbg.mem offset (tableBytes dbg.order table))
    (enough : table.length ≤ room) :
    ∃ declOffset, findLoop dbg ds code room offset =
      some (some (decl.abbrevAt dbg.order declOffset)) := by
  induction table generalizing offset room with
  | nil => contradiction
  | cons first table ih =>
      obtain ⟨room, rfl⟩ : ∃ more, room = more + 1 := ⟨room - 1, by simp at enough; omega⟩
      have inside := contains.inside
      have code_pos := first.code.length_pos
      rw [tableBytes, List.flatMap_cons] at contains inside
      rw [List.length_append, Decl.bytes, List.length_append] at inside
      rw [findLoop, if_pos (by omega), abbrevParse_eq contains.left, Option.bind_some]
      have entry_eq : (first.abbrevAt dbg.order offset).abEntry = first.code.value := rfl
      dsimp only
      rw [entry_eq]
      by_cases here : first.code.value = code
      · rw [lookup, List.find?_cons_of_pos (by simpa using here)] at found
        rw [if_pos here, Option.some.inj found]
        exact ⟨offset, rfl⟩
      · rw [lookup, List.find?_cons_of_neg (by simpa using here)] at found
        rw [if_neg here]
        exact ih found contains.right (by simpa using enough)

theorem table_length_le (order : Endianness) (table : List Decl) :
    table.length ≤ (tableBytes order table).length := by
  induction table with
  | nil => exact Nat.zero_le _
  | cons decl table ih =>
      have := decl.code.length_pos
      rw [tableBytes] at ih ⊢
      rw [List.flatMap_cons, List.length_append, Decl.bytes, List.length_append, List.length_cons]
      omega

theorem lookup_code {table : List Decl} {code : Nat} {decl : Decl}
    (found : lookup table code = some decl) : decl.code.value = code := by
  simpa using List.find?_some found

/-- `_dwarf_abbrev_find` on a code of an encoded table. -/
theorem abbrevFind_eq {table : List Decl} {code : Nat} {decl : Decl}
    (found : lookup table code = some decl) {offset : Nat}
    (contains : dbg.debugAbbrev.Contains dbg.mem offset (tableBytes dbg.order table)) :
    ∃ declOffset, abbrevFind dbg offset code =
      some (some (decl.abbrevAt dbg.order declOffset)) := by
  have code_ne : code ≠ 0 := by
    rw [← lookup_code found]
    exact decl.code_ne
  have enough := (table_length_le dbg.order table).trans contains.holds_at.length_le_room
  rw [abbrevFind, if_neg code_ne]
  exact findLoop_eq found contains (by omega)

end Jos64.Dwarf
