import Jos64.Dwarf.Die.Advance

/-!
# Forms that stand in the data

A value whose form stands in the data is read like one whose form is declared.
But the attribute keeps the declared form, and its name and its place as a
sibling are told by that.
-/

namespace Jos64.Dwarf

variable {dbg : Debug} {cu : CU}

/-- A value is read, to its end or not. -/
theorem formRead_isSome (standard : cu.Standard) {value : Value cu} {offset : Nat}
    (contains : dbg.debugInfo.Contains dbg.mem offset (value.bytes dbg.order)) :
    ∃ read, formRead dbg cu value.form offset = some read := by
  by_cases spanned : value.Spanned
  · exact ⟨_, formRead_eq standard spanned contains⟩
  · cases value with
    | fixed form width value has small =>
        obtain ⟨rfl, four⟩ := Classical.not_imp.mp spanned
        have version_eq : cu.version = 4 := not_not.mp four
        refine ⟨⟨0, 0, offset⟩, ?_⟩
        rw [Value.form, formRead, if_neg (by omega), if_neg (by omega)]
    | ulebBlock form length data has length_eq =>
        exact ⟨_, formRead_ulebBlock has contains.left⟩
    | _ => exact absurd trivial spanned

/-! ## The two encodings -/

/-- The definition of an attribute whose form stands in the data. -/
def Attr.linkedDef (attr : Attr cu) (adOffset : Nat) : AttrDef :=
  ⟨attr.spec.attrib.value, attr.spec.form.value, adOffset⟩

/-- The definition with the form of the value itself. -/
def Attr.directDef (attr : Attr cu) (adOffset : Nat) : AttrDef :=
  ⟨attr.spec.attrib.value, attr.value.form.code, adOffset⟩

/-- Both read the same value, the one behind the forms in the data and the other
at once. -/
theorem attrInit_linked_direct (attr : Attr cu) (die : Die) (adOffset adOffset' : Nat)
    {offset : Nat} (contains : dbg.debugInfo.Contains dbg.mem offset (attr.bytes dbg.order))
    {read : FormRead}
    (read_eq : formRead dbg cu attr.value.form (offset + attr.linkBytes.length) = some read)
    (room : Nat) :
    attrInit dbg cu (attr.linkedDef adOffset) (dbg.mem.room (dbg.debugInfo.at offset) + 1)
        attr.spec.form.value false die offset =
      some (dleNone,
        die.addAttr ((attr.linkedDef adOffset).atref attr.value.form attr.indirect read),
        read.offset) ∧
    attrInit dbg cu (attr.directDef adOffset') (room + 1) attr.value.form.code false die
        (offset + attr.linkBytes.length) =
      some (dleNone, die.addAttr ((attr.directDef adOffset').atref attr.value.form false read),
        read.offset) := by
  constructor
  · have linked := attrInit_attr attr (attr.linkedDef adOffset) rfl die contains
    rw [read_eq] at linked
    exact linked
  · rw [attrInit, if_neg attr.value.form.code_ne_formIndirect, Form.ofCode_code]
    dsimp only
    rw [read_eq]
    rfl

/-! ## What is made of the attribute -/

/-- The entry with an attribute when the attributes behind it are read too. -/
def Die.whole (die : Die) (atref : Attribute) (rest : List Attribute) (next : Nat) : Die :=
  { rest.foldl Die.addAttr (die.addAttr atref) with dieNextOff := next }

/-- The two attributes hold the same value. -/
def Attribute.SameValue (atref atref' : Attribute) : Prop :=
  atref.u0 = atref'.u0 ∧ atref.u1 = atref'.u1 ∧ atref.blLen = atref'.blLen ∧
    atref.blData = atref'.blData

/-- The attributes hold the same value; as names they give the same name to every
entry; and as siblings they send `dwarf_siblingof` to the same place, where it
finds the same. -/
structure SameUse (dbg : Debug) (cu : CU) (atref atref' : Attribute) : Prop where
  value : atref.SameValue atref'
  name : atref.atAttrib = atName → ∀ die rest next,
    (Die.whole die atref rest next).dieName = (Die.whole die atref' rest next).dieName
  sibling : atref.atAttrib = atSibling → ∀ die rest next,
    siblingStart cu (Die.whole die atref rest next) =
      siblingStart cu (Die.whole die atref' rest next)
  siblingof : atref.atAttrib = atSibling → ∀ die rest next fuel retDie,
    dwarfSiblingof dbg cu fuel (some (Die.whole die atref rest next)) retDie =
      dwarfSiblingof dbg cu fuel (some (Die.whole die atref' rest next)) retDie

/-- The same sibling is looked for in the same way. -/
theorem dwarfSiblingof_of_start {die die' : Die}
    (same : siblingStart cu die = siblingStart cu die') (fuel : Nat) (retDie : Die) :
    dwarfSiblingof dbg cu fuel (some die) retDie =
      dwarfSiblingof dbg cu fuel (some die') retDie := by
  unfold dwarfSiblingof
  dsimp only
  rw [same]

theorem whole_dieAttr (die : Die) (atref : Attribute) (rest : List Attribute) (next : Nat) :
    (die.whole atref rest next).dieAttr = die.dieAttr ++ atref :: rest := by
  rw [Die.whole, foldl_addAttr, Die.addAttr_dieAttr, List.append_assoc, List.singleton_append]

theorem whole_dieName (die : Die) (atref : Attribute) (rest : List Attribute) (next : Nat) :
    (die.whole atref rest next).dieName =
      rest.foldl (fun name atref => atref.keepName name) (atref.keepName die.dieName) := by
  rw [Die.whole, foldl_addAttr]
  rfl

/-- The place of the sibling that an attribute tells. -/
def Attribute.siblingOffset (cu : CU) (atref : Attribute) : Nat :=
  if atref.atForm ≠ Form.refAddr.code then u64 (atref.u0 + cu.cuOffset) else atref.u0

/-- A sibling reference is followed unless an earlier one is. -/
theorem siblingStart_whole {atref : Attribute} (isSibling : atref.atAttrib = atSibling) (die : Die)
    (rest : List Attribute) (next : Nat) :
    siblingStart cu (die.whole atref rest next) =
      if die.dieAb.abChildren = childrenNo then (next, false)
      else (((attrFind die atSibling).getD atref).siblingOffset cu, false) := by
  have ab_eq : (die.whole atref rest next).dieAb = die.dieAb := by
    rw [Die.whole, foldl_addAttr]
    rfl
  have find_eq : attrFind (die.whole atref rest next) atSibling =
      some ((attrFind die atSibling).getD atref) := by
    rw [attrFind, whole_dieAttr, List.find?_append,
      List.find?_cons_of_pos (by simpa using isSibling), attrFind]
    cases List.find? (fun atref => decide (atref.atAttrib = atSibling)) die.dieAttr with
    | none => rfl
    | some earlier => rfl
  rw [siblingStart, ab_eq, find_eq]
  dsimp only
  split
  · rfl
  · rw [Attribute.siblingOffset]
    split
    · rfl
    · rfl

/-! ## Where the encodings agree -/

/-- An attribute whose form stands in the data is like one of the declared form
that is read where the value stands. -/
def Transparent (dbg : Debug) (attr : Attr cu) (offset : Nat) : Prop :=
  ∀ adOffset adOffset', ∃ atref atref' next,
    (∀ die, attrInit dbg cu (attr.linkedDef adOffset)
        (dbg.mem.room (dbg.debugInfo.at offset) + 1) attr.spec.form.value false die offset =
      some (dleNone, die.addAttr atref, next)) ∧
    (∀ die, attrInit dbg cu (attr.directDef adOffset')
        (dbg.mem.room (dbg.debugInfo.at (offset + attr.linkBytes.length)) + 1)
        attr.value.form.code false die (offset + attr.linkBytes.length) =
      some (dleNone, die.addAttr atref', next)) ∧
    SameUse dbg cu atref atref'

theorem linked_form {attr : Attr cu} (linked : attr.links ≠ []) :
    attr.spec.form.value = formIndirect := by
  have chained := attr.chained
  cases links_eq : attr.links with
  | nil => exact absurd links_eq linked
  | cons link links =>
      rw [links_eq] at chained
      exact chained.1

theorem Die.addAttr_inj {die : Die} {atref atref' : Attribute}
    (same : die.addAttr atref = die.addAttr atref') : atref = atref' := by
  have attrs_eq := congrArg Die.dieAttr same
  rw [Die.addAttr_dieAttr, Die.addAttr_dieAttr, List.append_cancel_left_eq] at attrs_eq
  exact List.singleton_inj.mp attrs_eq

/-- The number of a reference into the section is one of 64 bits. -/
theorem u0_lt_of_refAddr (standard : cu.Standard) {value : Value cu} {offset : Nat}
    (contains : dbg.debugInfo.Contains dbg.mem offset (value.bytes dbg.order))
    (isRef : value.form = .refAddr) {read : FormRead}
    (found : formRead dbg cu value.form offset = some read) : read.u0 < 2 ^ 64 := by
  by_cases spanned : value.Spanned
  · rw [formRead_eq standard spanned contains] at found
    cases found
    cases value with
    | fixed form width value has small =>
        have value_lt : value < 2 ^ 64 := by
          rcases form.isWidth standard has with rfl | rfl | rfl | rfl
          all_goals omega
        exact value_lt
    | uleb form n has =>
        obtain rfl : form = .refAddr := isRef
        exact absurd has (by decide)
    | block form width data has small =>
        obtain rfl : form = .refAddr := isRef
        cases has
    | ulebBlock form length data has length_eq =>
        obtain rfl : form = .refAddr := isRef
        exact absurd has (by decide)
    | sleb | string | signature | present => cases isRef
  · cases value with
    | fixed form width value has small =>
        obtain ⟨rfl, four⟩ := Classical.not_imp.mp spanned
        have version_eq : cu.version = 4 := not_not.mp four
        rw [Value.form, formRead, if_neg (by omega), if_neg (by omega)] at found
        cases found
        exact Nat.two_pow_pos 64
    | ulebBlock form length data has length_eq =>
        obtain rfl : form = .refAddr := isRef
        exact absurd has (by decide)
    | _ => exact absurd trivial spanned

/-- Under `DW_FORM_indirect` no name is kept. -/
theorem keepName_of_indirect {atref : Attribute} (form_eq : atref.atForm = formIndirect)
    (name : Nat) : atref.keepName name = name := by
  rw [Attribute.keepName, form_eq]
  split
  · rfl
  · rfl

/-- Under the form itself it is kept if it is a string. -/
theorem keepName_of_form {atref : Attribute} {form : Form} (form_eq : atref.atForm = form.code)
    (isName : atref.atAttrib = atName) (name : Nat) :
    atref.keepName name =
      if form = .strp then atref.u1 else if form = .string then atref.u0 else name := by
  rw [Attribute.keepName, if_pos isName, form_eq]
  by_cases strp : form = .strp
  · rw [if_pos strp, if_pos (Form.code_inj.mpr strp)]
  · rw [if_neg strp, if_neg fun same => strp (Form.code_inj.mp same)]
    by_cases string : form = .string
    · rw [if_pos string, if_pos (Form.code_inj.mpr string)]
    · rw [if_neg string, if_neg fun same => string (Form.code_inj.mp same)]

theorem siblingOffset_of_indirect {atref : Attribute} (form_eq : atref.atForm = formIndirect) :
    atref.siblingOffset cu = u64 (atref.u0 + cu.cuOffset) := by
  rw [Attribute.siblingOffset, form_eq, if_pos (by decide)]

theorem siblingOffset_of_form {atref : Attribute} {form : Form}
    (form_eq : atref.atForm = form.code) :
    atref.siblingOffset cu =
      if form = .refAddr then atref.u0 else u64 (atref.u0 + cu.cuOffset) := by
  rw [Attribute.siblingOffset, form_eq]
  by_cases isRef : form = .refAddr
  · rw [if_pos isRef, if_neg (not_not_intro (Form.code_inj.mpr isRef))]
  · rw [if_neg isRef, if_pos fun same => isRef (Form.code_inj.mp same)]

/-- An entry with children and without attributes. -/
def parentDie : Die :=
  { noDie with dieAb := { noDie.dieAb with abChildren := childrenYes } }

/-- The use of a value does not show where its form stands, but for strings that
are names and for references into the section that are siblings. -/
theorem sameUse_iff {atref atref' : Attribute} {form : Form}
    (attrib_eq : atref'.atAttrib = atref.atAttrib) (linked : atref.atForm = formIndirect)
    (direct : atref'.atForm = form.code) (value : atref.SameValue atref')
    (u0_lt : form = .refAddr → atref.u0 < 2 ^ 64) :
    SameUse dbg cu atref atref' ↔
      (atref.atAttrib = atName → form ≠ .string ∧ form ≠ .strp) ∧
      (atref.atAttrib = atSibling → form = .refAddr → u64 cu.cuOffset = 0) := by
  have u0_eq := value.1
  constructor
  · intro use
    constructor
    · intro isName
      have kept (name : Nat) : name =
          if form = .strp then atref'.u1 else if form = .string then atref'.u0 else name := by
        have same := use.name isName { noDie with dieName := name } [] 0
        rw [whole_dieName, whole_dieName, List.foldl_nil, List.foldl_nil,
          keepName_of_indirect linked, keepName_of_form direct (attrib_eq.trans isName)] at same
        exact same
      have zero := kept 0
      have one := kept 1
      constructor
      · rintro rfl
        exact Nat.zero_ne_one (zero.trans one.symm)
      · rintro rfl
        exact Nat.zero_ne_one (zero.trans one.symm)
    · rintro isSibling rfl
      have same := use.sibling isSibling parentDie [] 0
      rw [siblingStart_whole isSibling, siblingStart_whole (attrib_eq.trans isSibling),
        if_neg (by decide), if_neg (by decide),
        show attrFind parentDie atSibling = none from rfl, Option.getD_none, Option.getD_none,
        siblingOffset_of_indirect linked, siblingOffset_of_form direct, if_pos rfl, ← u0_eq] at same
      have places := (Prod.mk.inj same).1
      unfold u64 at places ⊢
      omega
  · rintro ⟨no_name, no_sibling⟩
    have same_start : atref.atAttrib = atSibling → ∀ die rest next,
        siblingStart cu (Die.whole die atref rest next) =
          siblingStart cu (Die.whole die atref' rest next) := by
      intro isSibling die rest next
      have places : atref.siblingOffset cu = atref'.siblingOffset cu := by
        rw [siblingOffset_of_indirect linked, siblingOffset_of_form direct, ← u0_eq]
        split
        · rename_i isRef
          have small := u0_lt isRef
          have begins := no_sibling isSibling isRef
          unfold u64 at begins ⊢
          omega
        · rfl
      rw [siblingStart_whole isSibling, siblingStart_whole (attrib_eq.trans isSibling)]
      cases attrFind die atSibling with
      | some earlier => rfl
      | none => rw [Option.getD_none, Option.getD_none, places]
    refine ⟨value, ?_, same_start, ?_⟩
    · intro isName die rest next
      obtain ⟨not_string, not_strp⟩ := no_name isName
      rw [whole_dieName, whole_dieName, keepName_of_indirect linked,
        keepName_of_form direct (attrib_eq.trans isName), if_neg not_strp, if_neg not_string]
    · intro isSibling die rest next fuel retDie
      exact dwarfSiblingof_of_start (same_start isSibling die rest next) fuel retDie

/-- A form that stands in the data is transparent exactly if the attribute is not a
name that is a string, nor a sibling that is a reference into the section, of a
unit that does not begin with it. -/
theorem transparent_iff (standard : cu.Standard) (attr : Attr cu) (linked : attr.links ≠ [])
    {offset : Nat} (contains : dbg.debugInfo.Contains dbg.mem offset (attr.bytes dbg.order)) :
    Transparent dbg attr offset ↔
      (attr.spec.attrib.value = atName →
        attr.value.form ≠ .string ∧ attr.value.form ≠ .strp) ∧
      (attr.spec.attrib.value = atSibling → attr.value.form = .refAddr → u64 cu.cuOffset = 0) := by
  have value_here : dbg.debugInfo.Contains dbg.mem (offset + attr.linkBytes.length)
      (attr.value.bytes dbg.order) := contains.right
  obtain ⟨read, read_eq⟩ := formRead_isSome standard value_here
  have both (adOffset adOffset' : Nat) (die : Die) :=
    attrInit_linked_direct attr die adOffset adOffset' contains read_eq
      (dbg.mem.room (dbg.debugInfo.at (offset + attr.linkBytes.length)))
  have use_iff (adOffset adOffset' : Nat) :
      SameUse dbg cu ((attr.linkedDef adOffset).atref attr.value.form attr.indirect read)
          ((attr.directDef adOffset').atref attr.value.form false read) ↔ _ :=
    sameUse_iff rfl (linked_form linked) rfl ⟨rfl, rfl, rfl, rfl⟩
      fun isRef => u0_lt_of_refAddr standard value_here isRef read_eq
  constructor
  · intro transparent
    obtain ⟨atref, atref', next, linked_eq, direct_eq, use⟩ := transparent 0 0
    have linked_same := (linked_eq noDie).symm.trans (both 0 0 noDie).1
    have direct_same := (direct_eq noDie).symm.trans (both 0 0 noDie).2
    obtain rfl := Die.addAttr_inj (Prod.mk.inj (Prod.mk.inj (Option.some.inj linked_same)).2).1
    obtain rfl := Die.addAttr_inj (Prod.mk.inj (Prod.mk.inj (Option.some.inj direct_same)).2).1
    exact (use_iff 0 0).mp use
  · intro seen adOffset adOffset'
    exact ⟨_, _, _, fun die => (both adOffset adOffset' die).1,
      fun die => (both adOffset adOffset' die).2, (use_iff adOffset adOffset').mpr seen⟩

/-! ## A sibling behind two forms -/

section

theorem linked_form_ends : ¬ Leb.Continues 0x16 := by
  decide

theorem ref4_form_ends : ¬ Leb.Continues 0x13 := by
  decide

theorem sibling_offset_lt : 20 < 256 ^ 4 := by
  decide

/-- `DW_AT_sibling`, a reference of four bytes -/
def linkedSibling : Attr (importUnit 2) where
  spec := .ofBytes 0x01 0x16 one_ends linked_form_ends one_nonzero
  links := [.byte 0x16 linked_form_ends, .byte 0x13 ref4_form_ends]
  value := .fixed .ref4 4 20 rfl sibling_offset_lt
  chained := ⟨rfl, rfl, rfl⟩

def linkedSiblingDebug : Debug where
  mem := .image 0x1000 [0x16, 0x13, 20, 0, 0, 0] (by decide)
  order := .lsb
  debugInfo := ⟨0x1000, 6⟩
  debugAbbrev := ⟨0x1000, 0⟩
  debugStr := ⟨0x1000, 0⟩

theorem sibling_contained :
    linkedSiblingDebug.debugInfo.Contains linkedSiblingDebug.mem 0 (linkedSibling.bytes .lsb) :=
  ⟨Memory.image_holds (by decide) [] [] rfl, le_refl 6, by decide⟩

/-- The sibling is found behind the forms as it is without them. -/
theorem transparent_sibling : Transparent linkedSiblingDebug linkedSibling 0 :=
  (transparent_iff ⟨.inl rfl, by decide, .inl rfl⟩ linkedSibling (List.cons_ne_nil _ _)
    sibling_contained).mpr ⟨by decide, by decide⟩

end

/-! ## A name behind its form -/

section

theorem linked_text : ∀ c ∈ [(0x6B : Byte)], c ≠ 0 := by
  decide

/-- `DW_AT_name`, a string -/
def linkedName : Attr (importUnit 2) where
  spec := .ofBytes 0x03 0x16 three_ends linked_form_ends three_nonzero
  links := [.byte 0x08 eight_ends]
  value := .string [0x6B] linked_text
  chained := ⟨rfl, rfl⟩

def linkedDebug : Debug where
  mem := .image 0x1000 [0x08, 0x6B, 0] (by decide)
  order := .lsb
  debugInfo := ⟨0x1000, 3⟩
  debugAbbrev := ⟨0x1000, 0⟩
  debugStr := ⟨0x1000, 0⟩

/-- The name is kept by the form itself and not behind it. -/
theorem linked_name_lost :
    (attrInit linkedDebug (importUnit 2) (linkedName.linkedDef 0) 4 0x16 false noDie 0).map
        (fun result => result.2.1.dieName) = some 0 ∧
      (attrInit linkedDebug (importUnit 2) (linkedName.directDef 0) 3 0x08 false noDie 1).map
        (fun result => result.2.1.dieName) = some 0x1001 ∧
      ¬ Transparent linkedDebug linkedName 0 := by
  refine ⟨by decide, by decide, fun transparent => ?_⟩
  obtain ⟨atref, atref', next, linked_eq, direct_eq, use⟩ := transparent 0 0
  have linked_read : attrInit linkedDebug (importUnit 2) (linkedName.linkedDef 0)
      (linkedDebug.mem.room (linkedDebug.debugInfo.at 0) + 1) linkedName.spec.form.value false noDie
        0 = some (dleNone, noDie.addAttr ⟨0x03, 0x16, true, 0x1001, 0, 0, 0⟩, 3) := by
    decide
  have direct_read : attrInit linkedDebug (importUnit 2) (linkedName.directDef 0)
      (linkedDebug.mem.room (linkedDebug.debugInfo.at (0 + linkedName.linkBytes.length)) + 1)
        linkedName.value.form.code false noDie (0 + linkedName.linkBytes.length) =
        some (dleNone, noDie.addAttr ⟨0x03, 0x08, false, 0x1001, 0, 0, 0⟩, 3) := by
    decide
  rw [linked_eq] at linked_read
  rw [direct_eq] at direct_read
  obtain rfl := Die.addAttr_inj (Prod.mk.inj (Prod.mk.inj (Option.some.inj linked_read)).2).1
  obtain rfl := Die.addAttr_inj (Prod.mk.inj (Prod.mk.inj (Option.some.inj direct_read)).2).1
  exact absurd (use.name rfl noDie [] 0) (by decide)

end

end Jos64.Dwarf
