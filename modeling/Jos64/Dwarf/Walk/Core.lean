import Jos64.Dwarf.Search

/-!
# Walks through encoded units

A walk goes from entry to entry by `dwarf_child` and `dwarf_siblingof` and is to
find every entry of the forest that the unit encodes.  This module says what is
to be found, which units encode a forest, and which of their entries are clear
of what the walk can stumble over.
-/

namespace Jos64.Dwarf

open Loop Forest

/-! ## What a walk finds -/

section

variable {cu : CU} (dbg : Debug)

/-- What is to be found of an entry: its offset, its tag and its attributes. -/
structure Represents (entry : Entry cu) (offset : Nat) (die : Die) : Prop where
  offset_eq : die.dieOffset = offset
  tag_eq : die.dieTag = entry.decl.tag.value
  attrs_eq : die.dieAttr = entry.atrefs dbg offset

/-- A call finds the first entry of a forest, from which the walk goes on, or
reports with the code `empty` that there is none.  It does so whatever stands in
the entry that it fills. -/
def Finds (call : Nat → Die → Exec (Int × Die)) :
    Forest (Entry cu) → (empty : Int) → (walks : Die → Prop) → Prop
  | .nil, empty, _ =>
      ∀ fuel, dbg.debugInfo.dsSize < fuel → ∀ retDie, ∃ die,
        call fuel retDie = .done (empty, die)
  | .cons _ _ _, _, walks =>
      ∀ fuel, dbg.debugInfo.dsSize < fuel → ∀ retDie, ∃ die,
        call fuel retDie = .done (dlvOk, die) ∧ walks die

/-- The walk through a forest from its first entry. -/
def Walks : Forest (Entry cu) → (offset : Nat) → Die → Prop
  | .nil, _, _ => True
  | .cons entry children rest, offset, die =>
      Represents dbg entry offset die ∧
        Finds dbg (fun fuel retDie => dwarfChild dbg cu fuel die retDie) children
          (if entry.decl.children then dlvNoEntry else dleNoEntry)
          (Walks children (offset + (entry.bytes dbg.order).length)) ∧
        Finds dbg (fun fuel retDie => dwarfSiblingof dbg cu fuel (some die) retDie) rest dlvNoEntry
          (Walks rest (offset + (entry.bytes dbg.order).length +
            (entryBytes dbg.order children).length + entry.nullBytes.length))

end

/-! ## Encoded units -/

section

variable {cu : CU}

/-- The forms of references that count from the beginning of the unit. -/
def Form.isUnitRef : Form → Bool
  | ref1 | ref2 | ref4 | ref8 | refUdata => true
  | _ => false

/-- The offset that a reference refers to. -/
def Value.target : Value cu → Option Nat
  | fixed form _ number .. =>
      if form = .refAddr then some number
      else if form.isUnitRef then some (number + cu.cuOffset) else none
  | uleb form n _ => if form.isUnitRef then some (n.value + cu.cuOffset) else none
  | _ => none

/-- An entry is declared, and its sibling references refer to the entry behind
its children. -/
structure Placed (order : Endianness) (table : List Decl) (offset : Nat) (entry : Entry cu)
    (children _ : Forest (Entry cu)) : Prop extends Declared table entry children where
  siblings : ∀ attr ∈ entry.attrs, attr.spec.attrib.value = atSibling →
    attr.value.target = some (offset + (entry.bytes order).length +
      (entryBytes order children).length + entry.nullBytes.length)

/-- A unit that encodes a forest.  What follows the forest in the unit, if
anything, begins with an entry of code zero. -/
structure Encodes (dbg : Debug) (cu : CU) (table : List Decl) (forest : Forest (Entry cu))
    (tail : List Byte) : Prop where
  standard : cu.Standard
  tabled : Tabled dbg cu table
  contains : dbg.debugInfo.Contains dbg.mem cu.cuDieOffset (entryBytes dbg.order forest ++ tail)
  next_eq : cu.cuNextOffset = cu.cuDieOffset + (entryBytes dbg.order forest ++ tail).length
  tail_eq : tail = [] ∨
    ∃ (null : Uleb) (more : List Byte), null.value = 0 ∧ tail = null.bytes ++ more
  header : cu.cuOffset ≤ cu.cuDieOffset
  placed : EachEntry dbg.order (Placed dbg.order table) forest cu.cuDieOffset

/-- The sibling reference of an entry. -/
def Entry.sibling (entry : Entry cu) : Option (Attr cu) :=
  entry.attrs.find? fun attr => attr.spec.attrib.value = atSibling

/-- A reference that counts from the beginning of the section but is not seen to
do so, as its form stands in the data. -/
def Attr.Astray (attr : Attr cu) : Prop :=
  attr.indirect = true ∧ attr.value.form = .refAddr ∧ cu.cuOffset ≠ 0

instance (attr : Attr cu) : Decidable attr.Astray :=
  inferInstanceAs (Decidable (_ ∧ _ ∧ _))

/-- A sibling reference that goes astray does no harm: the entry has no sibling,
and none is found where the reference leads. -/
def Harmless (dbg : Debug) (offset : Nat) (entry : Entry cu)
    (children rest : Forest (Entry cu)) : Prop :=
  entry.decl.children = true → ∀ attr, entry.sibling = some attr → attr.Astray →
    rest = .nil ∧
      Vacant dbg cu (u64 (offset + (entry.bytes dbg.order).length +
        (entryBytes dbg.order children).length + entry.nullBytes.length + cu.cuOffset))

/-- The walk passes the entry: it is read to its end, and its sibling reference
is read back and leads to its sibling, or does no harm. -/
structure Passable (dbg : Debug) (offset : Nat) (entry : Entry cu)
    (children rest : Forest (Entry cu)) : Prop where
  spanned : entry.Spanned
  kept : entry.decl.children = true → ∀ attr, entry.sibling = some attr → attr.value.ReadBack
  harmless : Harmless dbg offset entry children rest

theorem Passable.of_no_sibling {dbg : Debug} {offset : Nat} {entry : Entry cu}
    {children rest : Forest (Entry cu)} (spanned : entry.Spanned)
    (no_sibling : entry.sibling = none) : Passable dbg offset entry children rest where
  spanned := spanned
  kept _ _ has_sibling := nomatch no_sibling.symm.trans has_sibling
  harmless _ _ has_sibling := nomatch no_sibling.symm.trans has_sibling

/-- The numbers of an entry are read back, and its sibling reference leads to its
sibling or does no harm. -/
structure Clear (dbg : Debug) (offset : Nat) (entry : Entry cu)
    (children rest : Forest (Entry cu)) : Prop where
  back : entry.ReadBack
  harmless : Harmless dbg offset entry children rest

end

variable {dbg : Debug} {cu : CU}

theorem Clear.passable (early : cu.version ≠ 4) {offset : Nat} {entry : Entry cu}
    {children rest : Forest (Entry cu)} (clear : Clear dbg offset entry children rest) :
    Passable dbg offset entry children rest where
  spanned := Entry.spanned_of_readBack early clear.back
  kept _ attr sibling_eq := clear.back attr (List.mem_of_find?_eq_some sibling_eq)
  harmless := clear.harmless

theorem legible_of_passable {table : List Decl} {forest : Forest (Entry cu)} {offset : Nat}
    (placed : EachEntry dbg.order (Placed dbg.order table) forest offset)
    (passable : EachEntry dbg.order (Passable dbg) forest offset) :
    EachEntry dbg.order (Legible table) forest offset := by
  induction forest generalizing offset with
  | nil => trivial
  | cons entry children rest children_ih rest_ih =>
      obtain ⟨placed_here, placed_below, placed_behind⟩ := eachEntry_cons.mp placed
      obtain ⟨passable_here, passable_below, passable_behind⟩ := eachEntry_cons.mp passable
      exact eachEntry_cons.mpr ⟨⟨placed_here.toDeclared, passable_here.spanned⟩,
        children_ih placed_below passable_below, rest_ih placed_behind passable_behind⟩

/-! ## Where the next sibling is looked for -/

/-- Attributes are found by name as in the encoded entry. -/
theorem find_attributesAt (name : Nat) (attrs : List (Attr cu)) (offset : Nat) :
    (attrs.find? (fun attr => attr.spec.attrib.value = name) = none ∧
        (attributesAt dbg.order (Attr.readAt dbg) offset attrs).find?
          (fun atref => atref.atAttrib = name) = none) ∨
      ∃ attr attrOffset,
        attrs.find? (fun attr => attr.spec.attrib.value = name) = some attr ∧
        (attributesAt dbg.order (Attr.readAt dbg) offset attrs).find?
          (fun atref => atref.atAttrib = name) = some (attr.readAt dbg attrOffset) := by
  induction attrs generalizing offset with
  | nil => exact .inl ⟨rfl, rfl⟩
  | cons attr attrs ih =>
      have name_eq : (attr.readAt dbg offset).atAttrib = attr.spec.attrib.value := rfl
      by_cases here : attr.spec.attrib.value = name
      · refine .inr ⟨attr, offset, ?_, ?_⟩
        · rw [List.find?_cons_of_pos (by simpa using here)]
        · rw [attributesAt, List.find?_cons_of_pos (by simpa [name_eq] using here)]
      · rw [attributesAt, List.find?_cons_of_neg (by simpa using here),
          List.find?_cons_of_neg (by simpa [name_eq] using here)]
        exact ih _

/-- `_dwarf_attr_find` on an entry that is found. -/
theorem attrFind_of_found {entry : Entry cu} {offset : Nat} {die : Die}
    (found : Found dbg entry offset die) (name : Nat) :
    (entry.attrs.find? (fun attr => attr.spec.attrib.value = name) = none ∧
        attrFind die name = none) ∨
      ∃ attr attrOffset,
        entry.attrs.find? (fun attr => attr.spec.attrib.value = name) = some attr ∧
        attrFind die name = some (attr.readAt dbg attrOffset) := by
  rw [attrFind, found.attrs_eq]
  exact find_attributesAt name entry.attrs _

variable (dbg) in
/-- A reference holds the offset, or what the unit adds to it is missing. -/
theorem number_of_target {value : Value cu} {target : Nat} (refers : value.target = some target)
    (offset : Nat) :
    (value.form = .refAddr ∧ value.number dbg offset = target) ∨
      (value.form ≠ .refAddr ∧ value.number dbg offset + cu.cuOffset = target) := by
  cases value with
  | fixed form width number has small =>
      rw [Value.target] at refers
      split at refers
      · rename_i absolute
        cases refers
        exact .inl ⟨absolute, rfl⟩
      · rename_i relative
        split at refers
        · cases refers
          exact .inr ⟨relative, rfl⟩
        · contradiction
  | uleb form n has =>
      rw [Value.target] at refers
      split at refers
      · cases refers
        refine .inr ⟨?_, rfl⟩
        rcases has with rfl | rfl
        · intro same
          cases same
        · intro same
          cases same
      · contradiction
  | _ => contradiction

variable (dbg) in
/-- What `dwarf_siblingof` takes for the offset of the sibling. -/
theorem siblingStart_of_attr {attr : Attr cu} (back : attr.value.ReadBack) {target : Nat}
    (refers : attr.value.target = some target) (small : target < 2 ^ 64) (offset : Nat) :
    (if (attr.readAt dbg offset).atForm ≠ Form.refAddr.code then
        u64 ((attr.readAt dbg offset).u0 + cu.cuOffset)
      else (attr.readAt dbg offset).u0) =
      if attr.Astray then u64 (target + cu.cuOffset) else target := by
  have form_eq : (attr.readAt dbg offset).atForm = attr.spec.form.value := rfl
  have number_eq : (attr.readAt dbg offset).u0 =
      attr.value.number dbg (offset + attr.linkBytes.length) :=
    Value.decoded_of_readBack back _
  rw [form_eq, number_eq]
  have chained := attr.chained
  by_cases behind : attr.links = []
  · -- the form is the declared one
    have direct : ¬ attr.Astray := fun astray => by
      have indirect := astray.1
      rw [Attr.indirect, behind] at indirect
      contradiction
    rw [behind] at chained
    have declared : attr.spec.form.value = attr.value.form.code := chained
    rw [if_neg direct, declared]
    rcases number_of_target dbg refers (offset + attr.linkBytes.length) with
      ⟨absolute, number⟩ | ⟨relative, number⟩
    · rw [absolute, if_neg (not_not.mpr rfl), number]
    · rw [if_pos fun same => relative (Form.code_inj.mp same), number, u64_of_lt small]
  · -- the form stands in the data, so every reference counts from the unit
    have indirect : attr.indirect = true := by
      rw [Attr.indirect, Bool.not_eq_true', List.isEmpty_eq_false_iff]
      exact behind
    have declared : attr.spec.form.value = formIndirect := by
      obtain ⟨link, links, cons_eq⟩ := List.exists_cons_of_ne_nil behind
      rw [cons_eq] at chained
      exact chained.1
    rw [declared, if_pos (by decide)]
    rcases number_of_target dbg refers (offset + attr.linkBytes.length) with
      ⟨absolute, number⟩ | ⟨relative, number⟩
    · rw [number]
      by_cases first : cu.cuOffset = 0
      · rw [if_neg fun astray => astray.2.2 first, first, Nat.add_zero, u64_of_lt small]
      · rw [if_pos ⟨indirect, absolute, first⟩]
    · rw [if_neg fun astray => relative astray.2.1, number, u64_of_lt small]

/-- The place where the sibling of an entry that is found is looked for. -/
theorem siblingStart_eq {entry : Entry cu} {offset next : Nat} {die : Die}
    (found : Found dbg entry offset die) (small : next < 2 ^ 64)
    (siblings : ∀ attr ∈ entry.attrs, attr.spec.attrib.value = atSibling →
      attr.value.target = some next)
    (kept : entry.decl.children = true → ∀ attr, entry.sibling = some attr →
      attr.value.ReadBack) :
    siblingStart cu die =
      if entry.decl.children = false then (offset + (entry.bytes dbg.order).length, false)
      else match entry.sibling with
        | none => (offset + (entry.bytes dbg.order).length, true)
        | some attr => (if attr.Astray then u64 (next + cu.cuOffset) else next, false) := by
  rw [siblingStart, found.children_eq, found.next_eq]
  by_cases childless : entry.decl.children = false
  · rw [if_pos ((Decl.childrenFlag_eq_no_iff _).mpr childless), if_pos childless]
  · rw [if_neg fun no => childless ((Decl.childrenFlag_eq_no_iff _).mp no), if_neg childless]
    rw [Entry.sibling] at kept ⊢
    rcases attrFind_of_found found atSibling with
      ⟨no_attr, no_atref⟩ | ⟨attr, attrOffset, first_attr, first_atref⟩
    · rw [no_attr, no_atref]
    · have attr_mem := List.mem_of_find?_eq_some first_attr
      have attr_name : attr.spec.attrib.value = atSibling := by
        simpa using List.find?_some first_attr
      have back := kept (by simpa using childless) attr first_attr
      rw [first_attr, first_atref]
      dsimp only
      rw [← siblingStart_of_attr dbg back (siblings attr attr_mem attr_name) small attrOffset]
      split
      · rfl
      · rfl

end Jos64.Dwarf
