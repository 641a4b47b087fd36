import Jos64.Dwarf.Die.Entry

/-!
# From one attribute to the next

The reader goes on behind an attribute exactly if it has come to the end of its
value.  Of a reference into the section it reads nothing in a unit of version 4,
so that all that follows is read from the bytes of the reference.
-/

namespace Jos64.Dwarf

variable {dbg : Debug} {cu : CU}

/-- The switch of `_dwarf_attr_init` comes to the end of a value. -/
theorem formRead_ends_iff (standard : cu.Standard) {value : Value cu} {offset : Nat}
    (contains : dbg.debugInfo.Contains dbg.mem offset (value.bytes dbg.order)) :
    (∃ read, formRead dbg cu value.form offset = some read ∧
        read.offset = offset + (value.bytes dbg.order).length) ↔ value.Spanned := by
  constructor
  · rintro ⟨read, found, ends⟩
    cases value with
    | fixed form width value has small =>
        rintro rfl four
        have width_eq : width = cu.cuDwarfSize := by
          rw [Form.width, if_neg (by omega)] at has
          exact (Option.some.inj has).symm
        rw [Value.form, formRead, if_neg (by omega), if_neg (by omega)] at found
        rw [Value.bytes, Endianness.bytes_length, width_eq] at ends
        cases found
        have stays : offset = offset + cu.cuDwarfSize := ends
        rcases standard.dwarfSize with short | long
        · omega
        · omega
    | ulebBlock form length data has length_eq =>
        have inside := contains.inside
        have fits := contains.fits
        have decoded_lt : length.decoded < 2 ^ 64 := BitVec.isLt _
        have value_lt := length.value_lt
        rw [Value.form, formRead_ulebBlock has contains.left] at found
        cases found
        rw [Value.bytes, List.length_append] at ends inside
        have ends_word : u64 (offset + length.bytes.length + length.decoded) =
            offset + (length.bytes.length + data.length) := ends
        rw [u64] at ends_word
        exact length.decoded_eq_iff.mp (by omega)
    | _ => trivial
  · intro spanned
    exact ⟨_, formRead_eq standard spanned contains, rfl⟩

/-- `_dwarf_attr_init` leaves the offset behind an attribute exactly if it can
tell the length of its value. -/
theorem attrInit_ends_iff (standard : cu.Standard) (attr : Attr cu) {ad : AttrDef}
    (form_eq : ad.adForm = attr.spec.form.value) (die : Die) {offset : Nat}
    (contains : dbg.debugInfo.Contains dbg.mem offset (attr.bytes dbg.order)) :
    (∃ die', attrInit dbg cu ad (dbg.mem.room (dbg.debugInfo.at offset) + 1) ad.adForm false die
        offset = some (dleNone, die', offset + (attr.bytes dbg.order).length)) ↔
      attr.value.Spanned := by
  have value_here : dbg.debugInfo.Contains dbg.mem (offset + attr.linkBytes.length)
      (attr.value.bytes dbg.order) := contains.right
  have length_eq : offset + (attr.bytes dbg.order).length =
      offset + attr.linkBytes.length + (attr.value.bytes dbg.order).length := by
    rw [Attr.bytes, List.length_append, Nat.add_assoc]
  rw [attrInit_attr attr ad form_eq die contains, ← formRead_ends_iff standard value_here,
    length_eq]
  constructor
  · rintro ⟨die', found⟩
    obtain ⟨read, read_eq, made⟩ := Option.map_eq_some_iff.mp found
    exact ⟨read, read_eq, (Prod.mk.inj (Prod.mk.inj made).2).2⟩
  · rintro ⟨read, read_eq, ends⟩
    rw [read_eq, Option.map_some, ends]
    exact ⟨_, rfl⟩

/-! ## A reference into the section -/

section

theorem import_ends : ¬ Leb.Continues 0x18 := by
  decide

theorem refAddr_form_ends : ¬ Leb.Continues 0x10 := by
  decide

theorem import_nonzero : Leb.group 0x18 ≠ 0 := by
  decide

/-- `DW_AT_import` as `DW_FORM_ref_addr` -/
def importSpec : Spec :=
  .ofBytes 0x18 0x10 import_ends refAddr_form_ends import_nonzero

/-- A unit of four bytes, of any version. -/
def importUnit (version : Nat) : CU where
  cuLength := 4
  version := version
  addrSize := 4
  debugAbbrevOffset := 0
  cuLengthSize := 4
  cuDwarfSize := 4
  cuNextOffset := 4
  cuDieOffset := 0
  cuOffset := 0

theorem importUnit_width (version : Nat) : Form.refAddr.width (importUnit version) = some 4 :=
  congrArg some (ite_self _)

def importAttr (version : Nat) : Attr (importUnit version) where
  spec := importSpec
  links := []
  value := .fixed .refAddr 4 0x2A (importUnit_width version) (by decide)
  chained := rfl

def importDebug : Debug where
  mem := .image 0x1000 [0x2A, 0, 0, 0] (by decide)
  order := .lsb
  debugInfo := ⟨0x1000, 4⟩
  debugAbbrev := ⟨0x1000, 0⟩
  debugStr := ⟨0x1000, 0⟩

def importDef : AttrDef :=
  ⟨0x18, 0x10, 0⟩

def noDie : Die where
  dieOffset := 0
  dieNextOff := 0
  dieAbnum := 0
  dieTag := 0
  dieAb := ⟨0, 0, 0, 0, 0, []⟩
  dieName := 0
  dieAttr := []

theorem import_contained (version : Nat) :
    importDebug.debugInfo.Contains importDebug.mem 0 ((importAttr version).bytes .lsb) :=
  ⟨Memory.image_holds (by decide) [] [] rfl, le_refl 4, by decide⟩

/-- In a unit of version 3 the next attribute is read behind the reference. -/
theorem attrInit_ends_iff_three :
    ∃ die', attrInit importDebug (importUnit 3) importDef
      (importDebug.mem.room (importDebug.debugInfo.at 0) + 1) importDef.adForm false noDie 0 =
        some (dleNone, die', 0 + ((importAttr 3).bytes importDebug.order).length) :=
  (attrInit_ends_iff ⟨.inr (.inl rfl), by decide, .inl rfl⟩ (importAttr 3) rfl noDie
    (import_contained 3)).mpr fun _ => by decide

/-- In a unit of version 4 it is read from the reference, of which nothing is
read. -/
theorem import_left_behind :
    (importUnit 4).Standard ∧
      importDebug.debugInfo.Contains importDebug.mem 0
        ((importAttr 4).bytes importDebug.order) ∧
      ¬ ∃ die', attrInit importDebug (importUnit 4) importDef
        (importDebug.mem.room (importDebug.debugInfo.at 0) + 1) importDef.adForm false noDie 0 =
          some (dleNone, die', 0 + ((importAttr 4).bytes importDebug.order).length) := by
  refine ⟨⟨.inr (.inr rfl), by decide, .inl rfl⟩, import_contained 4, ?_⟩
  rintro ⟨die', found⟩
  rw [attrInit_attr (importAttr 4) importDef rfl noDie (import_contained 4)] at found
  obtain ⟨read, read_eq, made⟩ := Option.map_eq_some_iff.mp found
  have stays : read.offset = 0 := by
    cases read_eq
    rfl
  have ends := (Prod.mk.inj (Prod.mk.inj made).2).2
  rw [stays] at ends
  exact absurd ends (by decide)

end

end Jos64.Dwarf
