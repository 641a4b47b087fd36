import Jos64.Dwarf.Die.Encoding

/-!
# Reading an encoded entry

A round of the search on an encoded entry finds the entry: its tag, its
children flag, its attributes and the offset behind it.
-/

namespace Jos64.Dwarf

open Loop

/-! ## Attributes -/

/-- From the declared form to the form of the value through the forms that
stand in the data. -/
def Chained (declared : Nat) : List Uleb → (form : Nat) → Prop
  | [], form => declared = form
  | link :: links, form => declared = formIndirect ∧ Chained link.value links form

/-- An attribute of an encoded entry. -/
structure Attr (cu : CU) where
  spec : Spec
  links : List Uleb
  value : Value cu
  chained : Chained spec.form.value links value.form.code

namespace Attr

variable {cu : CU}

/-- The form stands in the data. -/
def indirect (attr : Attr cu) : Bool :=
  !attr.links.isEmpty

def linkBytes (attr : Attr cu) : List Byte :=
  attr.links.flatMap Uleb.bytes

def bytes (order : Endianness) (attr : Attr cu) : List Byte :=
  attr.linkBytes ++ attr.value.bytes order

/-- The attribute with a number. -/
def holding (dbg : Debug) (offset : Nat) (attr : Attr cu) (number : Nat) : Attribute where
  atAttrib := attr.spec.attrib.value
  atForm := attr.spec.form.value
  atIndirect := attr.indirect
  u0 := number
  u1 := attr.value.address dbg (offset + attr.linkBytes.length)
  blLen := if attr.value.form.isBlock then number else 0
  blData :=
    if attr.value.form.isBlock then attr.value.address dbg (offset + attr.linkBytes.length) else 0

/-- The attribute as it is to be found. -/
def atref (dbg : Debug) (offset : Nat) (attr : Attr cu) : Attribute :=
  attr.holding dbg offset (attr.value.number dbg (offset + attr.linkBytes.length))

/-- The attribute as it is read. -/
def readAt (dbg : Debug) (offset : Nat) (attr : Attr cu) : Attribute :=
  attr.holding dbg offset (attr.value.decoded dbg (offset + attr.linkBytes.length))

end Attr

variable {dbg : Debug} {cu : CU}

theorem link_small {declared form : Nat} {link : Uleb} {links : List Uleb}
    (form_lt : form < 2 ^ 31) (chained : Chained declared (link :: links) form) :
    link.value < 2 ^ 31 := by
  cases links with
  | nil =>
      have last : link.value = form := chained.2
      omega
  | cons next links =>
      have more : link.value = formIndirect := chained.2.1
      rw [more]
      decide

theorem Form.code_lt (form : Form) : form.code < 2 ^ 31 := by
  cases form with
  | _ => decide

/-- `_dwarf_attr_init` follows the forms in the data to the value. -/
theorem attrInit_links {form : Form} {links : List Uleb} (ad : AttrDef) (declared : Nat)
    (chained : Chained declared links form.code) (die : Die) (indirect : Bool) {offset room : Nat}
    (contains : dbg.debugInfo.Contains dbg.mem offset (links.flatMap Uleb.bytes))
    (enough : links.length < room) :
    attrInit dbg cu ad room declared indirect die offset =
      (formRead dbg cu form (offset + (links.flatMap Uleb.bytes).length)).map fun read =>
        (dleNone, die.addAttr (ad.atref form (indirect || !links.isEmpty) read),
          read.offset) := by
  induction links generalizing declared indirect offset room with
  | nil =>
      obtain ⟨room, rfl⟩ : ∃ more, room = more + 1 := ⟨room - 1, by omega⟩
      obtain rfl : declared = form.code := chained
      rw [attrInit, if_neg form.code_ne_formIndirect, Form.ofCode_code]
      simp
  | cons link links ih =>
      obtain ⟨room, rfl⟩ : ∃ more, room = more + 1 := ⟨room - 1, by omega⟩
      rw [List.flatMap_cons] at contains
      rw [attrInit, if_pos chained.1, contains.left.readUleb128, Option.bind_some]
      dsimp only
      rw [Uleb.decoded_of_lt (link_small form.code_lt chained),
        ih link.value chained.2 true contains.right (by simpa using enough), List.flatMap_cons,
        List.length_append, Nat.add_assoc]
      simp

theorem links_length_le (links : List Uleb) :
    links.length ≤ (links.flatMap Uleb.bytes).length := by
  induction links with
  | nil => exact Nat.zero_le _
  | cons link links ih =>
      have := link.length_pos
      rw [List.flatMap_cons, List.length_append, List.length_cons]
      omega

/-- The room that `_dwarf_attr_init` is given is enough for the forms in the
data. -/
theorem attrInit_attr (attr : Attr cu) (ad : AttrDef) (form_eq : ad.adForm = attr.spec.form.value)
    (die : Die) {offset : Nat}
    (contains : dbg.debugInfo.Contains dbg.mem offset (attr.bytes dbg.order)) :
    attrInit dbg cu ad (dbg.mem.room (dbg.debugInfo.at offset) + 1) ad.adForm false die offset =
      (formRead dbg cu attr.value.form (offset + attr.linkBytes.length)).map fun read =>
        (dleNone, die.addAttr (ad.atref attr.value.form attr.indirect read), read.offset) := by
  have chained := attr.chained
  rw [← form_eq] at chained
  have links_here : dbg.debugInfo.Contains dbg.mem offset (attr.links.flatMap Uleb.bytes) :=
    contains.left
  have enough := (links_length_le attr.links).trans links_here.holds_at.length_le_room
  exact attrInit_links ad ad.adForm chained die false links_here (by omega)

theorem atref_eq {attr : Attr cu} {ad : AttrDef}
    (attrib_eq : ad.adAttrib = attr.spec.attrib.value)
    (form_eq : ad.adForm = attr.spec.form.value) (offset : Nat) :
    ad.atref attr.value.form attr.indirect
      (attr.value.read dbg (offset + attr.linkBytes.length)) = attr.readAt dbg offset := by
  rw [AttrDef.atref, Attr.readAt, Attr.holding, attrib_eq, form_eq]
  rfl

/-! ## Lists of attributes -/

def attrsBytes (order : Endianness) (attrs : List (Attr cu)) : List Byte :=
  attrs.flatMap (Attr.bytes order)

/-- The attributes that are made of the values, each at its offset. -/
def attributesAt (order : Endianness) (make : Nat → Attr cu → Attribute) :
    (offset : Nat) → List (Attr cu) → List Attribute
  | _, [] => []
  | offset, attr :: attrs =>
      make offset attr :: attributesAt order make (offset + (attr.bytes order).length) attrs

/-- The definitions that the attributes are read with. -/
def Defines (defs : List AttrDef) (attrs : List (Attr cu)) : Prop :=
  List.Forall₂ (fun ad attr =>
    ad.adAttrib = attr.spec.attrib.value ∧ ad.adForm = attr.spec.form.value) defs attrs

theorem defines_attrDefsAt (attrs : List (Attr cu)) (offset : Nat) :
    Defines (attrDefsAt offset (attrs.map Attr.spec)) attrs := by
  induction attrs generalizing offset with
  | nil => exact .nil
  | cons attr attrs ih => exact .cons ⟨rfl, rfl⟩ (ih _)

@[simp]
theorem Die.addAttr_dieAttr (die : Die) (atref : Attribute) :
    (die.addAttr atref).dieAttr = die.dieAttr ++ [atref] :=
  rfl

/-- Two entries that differ in the name and the attributes only. -/
def Die.SameBut (die die' : Die) : Prop :=
  ∃ name attrs, die' = { die with dieName := name, dieAttr := attrs }

theorem Die.sameBut_addAttr (die : Die) (atref : Attribute) : die.SameBut (die.addAttr atref) :=
  ⟨_, _, rfl⟩

theorem Die.SameBut.trans {die die' die'' : Die} (first : die.SameBut die')
    (second : die'.SameBut die'') : die.SameBut die'' := by
  obtain ⟨name, attrs, rfl⟩ := first
  obtain ⟨name', attrs', rfl⟩ := second
  exact ⟨name', attrs', rfl⟩

theorem foldl_addAttr (atrefs : List Attribute) (die : Die) :
    atrefs.foldl Die.addAttr die =
      { die with
        dieName := atrefs.foldl (fun name atref => atref.keepName name) die.dieName
        dieAttr := die.dieAttr ++ atrefs } := by
  induction atrefs generalizing die with
  | nil => rw [List.foldl_nil, List.foldl_nil, List.append_nil]
  | cons atref atrefs ih =>
      rw [List.foldl_cons, ih, List.foldl_cons, Die.addAttr_dieAttr, List.append_assoc]
      rfl

/-- Attributes that are read to their ends are all added. -/
theorem attrsInit_eq (standard : cu.Standard) {attrs : List (Attr cu)} {defs : List AttrDef}
    (defines : Defines defs attrs) (spanned : ∀ attr ∈ attrs, attr.value.Spanned) (die : Die)
    {offset : Nat} (contains : dbg.debugInfo.Contains dbg.mem offset (attrsBytes dbg.order attrs)) :
    attrsInit dbg cu defs die offset =
      some (dleNone, (attributesAt dbg.order (Attr.readAt dbg) offset attrs).foldl Die.addAttr die,
        offset + (attrsBytes dbg.order attrs).length) := by
  induction defines generalizing die offset with
  | nil => rfl
  | @cons ad attr defs attrs same defines ih =>
      rw [attrsBytes, List.flatMap_cons] at contains
      have value_here : dbg.debugInfo.Contains dbg.mem (offset + attr.linkBytes.length)
          (attr.value.bytes dbg.order) := contains.left.right
      have next_eq : (attr.value.read dbg (offset + attr.linkBytes.length)).offset =
          offset + (attr.bytes dbg.order).length := by
        rw [Value.read, Attr.bytes, List.length_append, Nat.add_assoc]
      rw [attrsInit, attrInit_attr attr ad same.2 die contains.left,
        formRead_eq standard (spanned attr List.mem_cons_self) value_here, Option.map_some,
        Option.bind_some]
      dsimp only
      rw [if_neg fun failed => failed rfl, atref_eq same.1 same.2, next_eq,
        ih (fun later later_mem => spanned later (List.mem_cons_of_mem attr later_mem)) _
          contains.right, attributesAt, List.foldl_cons, attrsBytes, attrsBytes, List.flatMap_cons,
        List.length_append, Nat.add_assoc]

/-- What `_dwarf_attr_init` can do. -/
theorem attrInit_cases {ad : AttrDef} {room form : Nat} {indirect : Bool} {die die' : Die}
    {offset next : Nat} {ret : Int}
    (found : attrInit dbg cu ad room form indirect die offset = some (ret, die', next)) :
    (ret = dleAttrFormBad ∧ die' = die) ∨ (ret = dleNone ∧ ∃ atref, die' = die.addAttr atref) := by
  induction room generalizing form indirect offset with
  | zero => contradiction
  | succ room ih =>
      rw [attrInit] at found
      split at found
      · obtain ⟨⟨link, linkNext⟩, -, rest⟩ := Option.bind_eq_some_iff.mp found
        exact ih rest
      · cases known : Form.ofCode form with
        | none =>
            rw [known] at found
            cases found
            exact .inl ⟨rfl, rfl⟩
        | some form =>
            rw [known] at found
            obtain ⟨read, -, made⟩ := Option.map_eq_some_iff.mp found
            cases made
            exact .inr ⟨rfl, _, rfl⟩

theorem attrsInit_sameBut {defs : List AttrDef} {die die' : Die} {offset next : Nat} {ret : Int}
    (found : attrsInit dbg cu defs die offset = some (ret, die', next)) : die.SameBut die' := by
  induction defs generalizing die offset with
  | nil =>
      cases found
      exact ⟨_, _, rfl⟩
  | cons ad defs ih =>
      rw [attrsInit] at found
      obtain ⟨⟨ret', middle, middleOffset⟩, first, rest⟩ := Option.bind_eq_some_iff.mp found
      have step : die.SameBut middle := by
        rcases attrInit_cases first with ⟨-, rfl⟩ | ⟨-, atref, rfl⟩
        · exact ⟨_, _, rfl⟩
        · exact die.sameBut_addAttr atref
      dsimp only at rest
      split at rest
      · cases rest
        exact step
      · exact step.trans (ih rest)

theorem attrsInit_ret {defs : List AttrDef} {die die' : Die} {offset next : Nat} {ret : Int}
    (found : attrsInit dbg cu defs die offset = some (ret, die', next)) :
    ret = dleNone ∨ ret = dleAttrFormBad := by
  induction defs generalizing die offset with
  | nil =>
      cases found
      exact .inl rfl
  | cons ad defs ih =>
      rw [attrsInit] at found
      obtain ⟨⟨ret', middle, middleOffset⟩, first, rest⟩ := Option.bind_eq_some_iff.mp found
      dsimp only at rest
      split at rest
      · rename_i failed
        cases rest
        rcases attrInit_cases first with ⟨bad, -⟩ | ⟨passed, -⟩
        · exact .inr bad
        · exact absurd passed failed
      · exact ih rest

/-- An encoded entry, and the entry of code zero that ends its children if it
can have any. -/
structure Entry (cu : CU) where
  code : Uleb
  decl : Decl
  attrs : List (Attr cu)
  null : Uleb
  code_eq : decl.code.value = code.value
  specs_eq : decl.specs = attrs.map Attr.spec
  null_eq : null.value = 0

namespace Entry

def bytes (order : Endianness) (entry : Entry cu) : List Byte :=
  entry.code.bytes ++ attrsBytes order entry.attrs

/-- The attributes as they are to be found. -/
def atrefs (dbg : Debug) (offset : Nat) (entry : Entry cu) : List Attribute :=
  attributesAt dbg.order (Attr.atref dbg) (offset + entry.code.bytes.length) entry.attrs

/-- The attributes as they are read. -/
def readAtrefs (dbg : Debug) (offset : Nat) (entry : Entry cu) : List Attribute :=
  attributesAt dbg.order (Attr.readAt dbg) (offset + entry.code.bytes.length) entry.attrs

/-- Every number of the entry is read back. -/
def ReadBack (entry : Entry cu) : Prop :=
  ∀ attr ∈ entry.attrs, attr.value.ReadBack

/-- The entry is read to its end. -/
def Spanned (entry : Entry cu) : Prop :=
  ∀ attr ∈ entry.attrs, attr.value.Spanned

instance (entry : Entry cu) : Decidable entry.Spanned :=
  inferInstanceAs (Decidable (∀ attr ∈ entry.attrs, attr.value.Spanned))

theorem spanned_of_readBack (early : cu.version ≠ 4) {entry : Entry cu} (back : entry.ReadBack) :
    entry.Spanned :=
  fun attr attr_mem => Value.spanned_of_readBack early (back attr attr_mem)

theorem code_lt (entry : Entry cu) : entry.code.value < 2 ^ 31 := by
  rw [← entry.code_eq]
  exact entry.decl.code_lt

theorem code_ne (entry : Entry cu) : entry.code.value ≠ 0 := by
  rw [← entry.code_eq]
  exact entry.decl.code_ne

theorem length_pos (entry : Entry cu) (order : Endianness) : 0 < (entry.bytes order).length := by
  have := entry.code.length_pos
  rw [bytes, List.length_append]
  omega

end Entry

/-- What is found of an entry at an offset.  Its name is the last that is kept,
and may be one from before. -/
structure Found (dbg : Debug) (entry : Entry cu) (offset : Nat) (die : Die) : Prop where
  offset_eq : die.dieOffset = offset
  next_eq : die.dieNextOff = offset + (entry.bytes dbg.order).length
  tag_eq : die.dieTag = entry.decl.tag.value
  children_eq : die.dieAb.abChildren = entry.decl.childrenFlag
  attrs_eq : die.dieAttr = entry.readAtrefs dbg offset
  name_eq : ∃ before, die.dieName =
    (entry.readAtrefs dbg offset).foldl (fun name atref => atref.keepName name) before

/-- The table of the unit, in which the codes of the entries are declared. -/
def Tabled (dbg : Debug) (cu : CU) (table : List Decl) : Prop :=
  dbg.debugAbbrev.Contains dbg.mem cu.debugAbbrevOffset (tableBytes dbg.order table)

/-- What a round of the search can find at an offset. -/
theorem readEntry_cases {offset : Nat} {die : Die} {read : EntryRead}
    (found : readEntry dbg cu offset die = some read) :
    ∃ abnum next, readUleb128 dbg.mem dbg.debugInfo offset = some (abnum, next) ∧
      ((abnum = 0 ∧ read = .null next) ∨
        (abbrevFind dbg cu.debugAbbrevOffset abnum = some none ∧ read = .failed dleNoEntry die) ∨
        (abnum ≠ 0 ∧ ∃ ab, abbrevFind dbg cu.debugAbbrevOffset abnum = some (some ab) ∧
          ∃ die', die'.dieOffset = offset ∧
            (read = .failed dleAttrFormBad die' ∨ read = .entry die'))) := by
  obtain ⟨⟨abnum, next⟩, code_eq, rest⟩ := Option.bind_eq_some_iff.mp found
  refine ⟨abnum, next, code_eq, ?_⟩
  dsimp only at rest
  split at rest
  · rename_i zero
    cases rest
    exact .inl ⟨zero, rfl⟩
  · rename_i nonzero
    obtain ⟨declared, find_eq, rest⟩ := Option.bind_eq_some_iff.mp rest
    cases declared with
    | none =>
        cases rest
        exact .inr (.inl ⟨find_eq, rfl⟩)
    | some ab =>
        obtain ⟨⟨ret, die', last⟩, attrs_read, made⟩ := Option.map_eq_some_iff.mp rest
        obtain ⟨name, attrs, rfl⟩ := attrsInit_sameBut attrs_read
        refine .inr (.inr ⟨nonzero, ab, find_eq, ?_⟩)
        dsimp only at made
        split at made
        · rename_i failed
          rw [(attrsInit_ret attrs_read).resolve_left failed] at made
          exact ⟨_, rfl, .inl made.symm⟩
        · exact ⟨_, rfl, .inr made.symm⟩

/-- An entry that is not read to its end is no success, and says where it begins. -/
theorem readEntry_failed {offset : Nat} {die die' : Die} {ret : Int}
    (failed : readEntry dbg cu offset die = some (.failed ret die')) :
    ret = dleNoEntry ∨ ret = dleAttrFormBad ∧ die'.dieOffset = offset := by
  obtain ⟨_, _, -, outcome⟩ := readEntry_cases failed
  rcases outcome with ⟨-, impossible⟩ | ⟨-, missing⟩ | ⟨-, _, -, _, offset_eq, bad | impossible⟩
  · cases impossible
  · cases missing
    exact .inl rfl
  · cases bad
    exact .inr ⟨rfl, offset_eq⟩
  · cases impossible

theorem dieOffset_of_readEntry {offset : Nat} {die die' : Die}
    (read : readEntry dbg cu offset die = some (.entry die')) : die'.dieOffset = offset := by
  obtain ⟨_, _, -, outcome⟩ := readEntry_cases read
  rcases outcome with ⟨-, impossible⟩ | ⟨-, impossible⟩ | ⟨-, _, -, _, offset_eq, impossible | made⟩
  · cases impossible
  · cases impossible
  · cases impossible
  · cases made
    exact offset_eq

/-- A round on a declared entry reads its attributes. -/
theorem readEntry_declared {table : List Decl} (tabled : Tabled dbg cu table) {entry : Entry cu}
    (declared : lookup table entry.code.value = some entry.decl) {offset : Nat}
    (contains : dbg.debugInfo.Contains dbg.mem offset (entry.bytes dbg.order)) (die : Die) :
    ∃ ab, ab.abTag = entry.decl.tag.value ∧ ab.abChildren = entry.decl.childrenFlag ∧
      Defines ab.abAttrdef entry.attrs ∧
      readEntry dbg cu offset die =
        (attrsInit dbg cu ab.abAttrdef
          { die with
            dieOffset := offset
            dieAbnum := entry.code.value
            dieAb := ab
            dieAttr := []
            dieTag := ab.abTag } (offset + entry.code.bytes.length)).map
              fun (ret, die, offset) =>
                if ret ≠ dleNone then .failed ret die
                else .entry { die with dieNextOff := offset } := by
  obtain ⟨declOffset, find_eq⟩ := abbrevFind_eq declared tabled
  refine ⟨entry.decl.abbrevAt dbg.order declOffset, rfl, rfl, ?_, ?_⟩
  · rw [Decl.abbrevAt, entry.specs_eq]
    exact defines_attrDefsAt _ _
  · rw [readEntry, contains.left.readUleb128, Option.bind_some]
    dsimp only
    rw [Uleb.decoded_of_lt entry.code_lt, if_neg entry.code_ne, find_eq]
    rfl

theorem readEntry_eq (standard : cu.Standard) {table : List Decl} (tabled : Tabled dbg cu table)
    {entry : Entry cu} (declared : lookup table entry.code.value = some entry.decl)
    (spanned : entry.Spanned) {offset : Nat}
    (contains : dbg.debugInfo.Contains dbg.mem offset (entry.bytes dbg.order)) (die : Die) :
    ∃ die', readEntry dbg cu offset die = some (.entry die') ∧ Found dbg entry offset die' := by
  obtain ⟨ab, tag_eq, children_eq, defines, read_eq⟩ :=
    readEntry_declared tabled declared contains die
  rw [read_eq, attrsInit_eq standard defines spanned _ contains.right, Option.map_some,
    foldl_addAttr]
  dsimp only
  rw [if_neg fun failed => failed rfl]
  refine ⟨_, rfl, rfl, ?_, tag_eq, children_eq, rfl, ⟨_, rfl⟩⟩
  rw [Entry.bytes, List.length_append, Nat.add_assoc]

/-- What a round of the search does: it ends, or goes on behind an entry of code
zero, or fails, or passes over an entry, or finds it. -/
inductive SearchRound (dbg : Debug) (cu : CU) (searchSibling : Bool) (state : SearchState) :
    Next SearchState (Int × Die) → Prop where
  | ended : SearchRound dbg cu searchSibling state (.stop (dleNoEntry, state.retDie))
  | null {next : Nat} (inside : state.offset < dbg.debugInfo.dsSize)
      (read : readEntry dbg cu state.offset state.retDie = some (.null next))
      (skips : searchSibling = true) :
      SearchRound dbg cu searchSibling state (.again ⟨next, state.level - 1, state.retDie⟩)
  | failed {ret : Int} {die : Die} (inside : state.offset < dbg.debugInfo.dsSize)
      (read : readEntry dbg cu state.offset state.retDie = some (.failed ret die)) :
      SearchRound dbg cu searchSibling state (.stop (ret, die))
  | passed {die : Die} {level : Nat} (inside : state.offset < dbg.debugInfo.dsSize)
      (read : readEntry dbg cu state.offset state.retDie = some (.entry die))
      (skips : searchSibling = true) (above : 0 < state.level) :
      SearchRound dbg cu searchSibling state (.again ⟨die.dieNextOff, level, die⟩)
  | found {die : Die} (inside : state.offset < dbg.debugInfo.dsSize)
      (read : readEntry dbg cu state.offset state.retDie = some (.entry die)) :
      SearchRound dbg cu searchSibling state (.stop (dleNone, die))

theorem searchBody_round {searchSibling : Bool} {state : SearchState}
    {next : Next SearchState (Int × Die)}
    (round : searchBody dbg cu searchSibling state = .done next) :
    SearchRound dbg cu searchSibling state next := by
  rw [searchBody] at round
  split at round
  · rename_i inside
    obtain ⟨read, read_eq, rest⟩ := Exec.bind_eq_done round
    have entry_read : readEntry dbg cu state.offset state.retDie = some read := by
      cases found : readEntry dbg cu state.offset state.retDie with
      | none =>
          rw [found] at read_eq
          cases read_eq
      | some read' =>
          rw [found] at read_eq
          cases read_eq
          rfl
    cases read with
    | null behind =>
        dsimp only at rest
        split at rest
        · cases rest
          exact .ended
        · rename_i goes_on
          cases rest
          exact .null inside.2 entry_read (Bool.eq_true_of_not_eq_false (not_or.mp goes_on).2)
    | failed ret die =>
        cases rest
        exact .failed inside.2 entry_read
    | entry die =>
        dsimp only at rest
        split at rest
        · rename_i goes_on
          cases rest
          exact .passed inside.2 entry_read goes_on.1 goes_on.2
        · cases rest
          exact .found inside.2 entry_read
  · cases round
    exact .ended

/-- A round that stops has found what it reports. -/
theorem searchBody_found {searchSibling : Bool} {state : SearchState} {die : Die}
    (round : searchBody dbg cu searchSibling state = .done (.stop (dleNone, die))) :
    readEntry dbg cu state.offset state.retDie = some (.entry die) := by
  cases searchBody_round round with
  | failed _ read =>
      rcases readEntry_failed read with impossible | ⟨impossible, -⟩
      · cases impossible
      · cases impossible
  | found _ read => exact read

end Jos64.Dwarf
