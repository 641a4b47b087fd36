import Jos64.Dwarf.Die.Advance
import Jos64.Dwarf.Lookup

/-!
# The name that is left over

A search makes every entry that it reads in the variable of its caller, the one
that it finds last.  All of that entry is stored but for a name that it does not
have: then the name stays that of an entry that was passed over, or the one that
the variable had before the search.
-/

namespace Jos64.Dwarf

open Loop

/-! ## Names among the attributes -/

/-- The string that an attribute with a name stands for. -/
def Attribute.text (atref : Attribute) : Nat :=
  if atref.atForm = Form.strp.code then atref.u1 else atref.u0

theorem keepName_eq_text {atref : Attribute} (isName : atref.IsName) (name : Nat) :
    atref.keepName name = atref.text := by
  obtain ⟨attrib_eq, form_eq⟩ := isName
  rw [Attribute.keepName, if_pos attrib_eq, Attribute.text]
  by_cases strp : atref.atForm = Form.strp.code
  · rw [if_pos strp, if_pos strp]
  · rw [if_neg strp, if_pos (form_eq.resolve_left strp), if_neg strp]

theorem keepName_of_not_isName {atref : Attribute} (other : ¬ atref.IsName) (name : Nat) :
    atref.keepName name = name := by
  rw [Attribute.keepName]
  by_cases attrib_eq : atref.atAttrib = atName
  · rw [if_pos attrib_eq, if_neg fun strp => other ⟨attrib_eq, .inl strp⟩,
      if_neg fun string => other ⟨attrib_eq, .inr string⟩]
  · rw [if_neg attrib_eq]

/-- The last name is kept, and without one the name from before. -/
theorem foldl_keepName_cases (atrefs : List Attribute) (name : Nat) :
    (∃ atref ∈ atrefs, atref.IsName ∧
        atrefs.foldl (fun name atref => atref.keepName name) name = atref.text) ∨
      (∀ atref ∈ atrefs, ¬ atref.IsName) ∧
        atrefs.foldl (fun name atref => atref.keepName name) name = name := by
  induction atrefs generalizing name with
  | nil => exact .inr ⟨fun _ member => absurd member List.not_mem_nil, rfl⟩
  | cons atref atrefs ih =>
      rw [List.foldl_cons]
      rcases ih (atref.keepName name) with ⟨later, member, isName, kept⟩ | ⟨none_later, kept⟩
      · exact .inl ⟨later, List.mem_cons_of_mem _ member, isName, kept⟩
      · by_cases isName : atref.IsName
        · refine .inl ⟨atref, List.mem_cons_self, isName, ?_⟩
          rw [kept, keepName_eq_text isName]
        · refine .inr ⟨List.forall_mem_cons.mpr ⟨isName, none_later⟩, ?_⟩
          rw [kept, keepName_of_not_isName isName]

variable {dbg : Debug} {cu : CU}

/-- `_dwarf_attr_init` adds an attribute with the name and the form of the
definition. -/
theorem attrInit_adds {ad : AttrDef} {room form : Nat} {indirect : Bool} {die die' : Die}
    {offset next : Nat}
    (found : attrInit dbg cu ad room form indirect die offset = some (dleNone, die', next)) :
    ∃ atref : Attribute, die' = die.addAttr atref ∧ atref.atAttrib = ad.adAttrib ∧
      atref.atForm = ad.adForm := by
  induction room generalizing form indirect offset with
  | zero => contradiction
  | succ room ih =>
      rw [attrInit] at found
      split at found
      · obtain ⟨read, -, rest⟩ := Option.bind_eq_some_iff.mp found
        exact ih rest
      · cases known : Form.ofCode form with
        | none =>
            rw [known] at found
            cases found
        | some form =>
            rw [known] at found
            obtain ⟨read, -, made⟩ := Option.map_eq_some_iff.mp found
            cases made
            exact ⟨_, rfl, rfl, rfl⟩

/-- So do all of them. -/
theorem attrsInit_adds {defs : List AttrDef} {die die' : Die} {offset next : Nat}
    (found : attrsInit dbg cu defs die offset = some (dleNone, die', next)) :
    ∃ atrefs : List Attribute, die' = atrefs.foldl Die.addAttr die ∧
      atrefs.map (fun atref => (atref.atAttrib, atref.atForm)) =
        defs.map fun ad => (ad.adAttrib, ad.adForm) := by
  induction defs generalizing die offset with
  | nil =>
      cases found
      exact ⟨[], rfl, rfl⟩
  | cons ad defs ih =>
      obtain ⟨⟨ret, middle, middleOffset⟩, first, rest⟩ := Option.bind_eq_some_iff.mp found
      dsimp only at rest
      split at rest
      · rename_i failed
        cases rest
        exact absurd rfl failed
      · rename_i passed
        rw [not_ne_iff.mp passed] at first
        obtain ⟨atref, rfl, attrib_eq, form_eq⟩ := attrInit_adds first
        obtain ⟨atrefs, rfl, same⟩ := ih rest
        refine ⟨atref :: atrefs, rfl, ?_⟩
        rw [List.map_cons, List.map_cons, same, attrib_eq, form_eq]

/-! ## What stands at an offset -/

/-- The entry at the offset is declared with a name of form `DW_FORM_strp` or
`DW_FORM_string`. -/
def NameDeclared (dbg : Debug) (cu : CU) (offset : Nat) : Prop :=
  ∃ abnum next ab, readUleb128 dbg.mem dbg.debugInfo offset = some (abnum, next) ∧
    abbrevFind dbg cu.debugAbbrevOffset abnum = some (some ab) ∧
    ∃ ad ∈ ab.abAttrdef, ad.adAttrib = atName ∧
      (ad.adForm = Form.strp.code ∨ ad.adForm = Form.string.code)

/-- An entry that is read has the attributes of its declaration, and its last
name or the name from before. -/
theorem readEntry_entry {offset : Nat} {die die' : Die}
    (found : readEntry dbg cu offset die = some (.entry die')) :
    die'.dieOffset = offset ∧ (die'.Named ↔ NameDeclared dbg cu offset) ∧
      die'.dieName = die'.dieAttr.foldl (fun name atref => atref.keepName name) die.dieName := by
  obtain ⟨⟨abnum, next⟩, code_eq, rest⟩ := Option.bind_eq_some_iff.mp found
  dsimp only at rest
  split at rest
  · cases rest
  · obtain ⟨declared, find_eq, rest⟩ := Option.bind_eq_some_iff.mp rest
    cases declared with
    | none => cases rest
    | some ab =>
        obtain ⟨⟨ret, middle, last⟩, attrs_read, made⟩ := Option.map_eq_some_iff.mp rest
        dsimp only at made
        split at made
        · cases made
        · rename_i passed
          cases made
          rw [not_ne_iff.mp passed] at attrs_read
          obtain ⟨atrefs, rfl, same⟩ := attrsInit_adds attrs_read
          rw [foldl_addAttr]
          dsimp only
          rw [List.nil_append]
          refine ⟨rfl, ?_, rfl⟩
          have names_iff : (∃ pair ∈ atrefs.map fun atref => (atref.atAttrib, atref.atForm),
              pair.1 = atName ∧ (pair.2 = Form.strp.code ∨ pair.2 = Form.string.code)) ↔
              ∃ atref ∈ atrefs, atref.IsName := by
            simp only [List.mem_map, exists_exists_and_eq_and, Attribute.IsName]
          rw [same] at names_iff
          simp only [List.mem_map, exists_exists_and_eq_and] at names_iff
          constructor
          · intro named
            exact ⟨abnum, next, ab, code_eq, find_eq, names_iff.mpr named⟩
          · rintro ⟨abnum', next', ab', code_eq', find_eq', declared⟩
            rw [code_eq] at code_eq'
            cases code_eq'
            rw [find_eq] at find_eq'
            cases find_eq'
            exact names_iff.mp declared

/-! ## What a search leaves -/

/-- The name of an entry that the search from a state passes over. -/
def SkippedName (dbg : Debug) (cu : CU) (searchSibling : Bool) (first : SearchState)
    (name : Nat) : Prop :=
  ∃ state next die, Reached (searchBody dbg cu searchSibling) first state ∧
    searchBody dbg cu searchSibling state = .done (.again next) ∧
    readEntry dbg cu state.offset state.retDie = some (.entry die) ∧
    ∃ atref ∈ die.dieAttr, atref.IsName ∧ name = atref.text

/-- A round that goes on has passed over an entry, or met the end of some. -/
theorem searchBody_again {searchSibling : Bool} {state next : SearchState}
    (round : searchBody dbg cu searchSibling state = .done (.again next)) :
    next.retDie = state.retDie ∨
      readEntry dbg cu state.offset state.retDie = some (.entry next.retDie) := by
  cases searchBody_round round with
  | null => exact .inl rfl
  | passed _ read => exact .inr read

/-- On the way the variable holds the name of an entry that was passed over, or the
one that it held first. -/
theorem reached_name {searchSibling : Bool} {first state : SearchState}
    (reached : Reached (searchBody dbg cu searchSibling) first state) :
    state.retDie.dieName = first.retDie.dieName ∨
      SkippedName dbg cu searchSibling first state.retDie.dieName := by
  induction reached with
  | refl => exact .inl rfl
  | @again state next reached round ih =>
      rcases searchBody_again round with same | read
      · rwa [same]
      · obtain ⟨-, -, name_eq⟩ := readEntry_entry read
        rcases foldl_keepName_cases next.retDie.dieAttr state.retDie.dieName with
          ⟨atref, member, isName, kept⟩ | ⟨-, kept⟩
        · exact .inr ⟨state, next, next.retDie, reached, round, read, atref, member, isName,
            name_eq.trans kept⟩
        · rwa [name_eq, kept]

/-- What a search finds has been read in a state that it reached. -/
theorem search_reads {fuel start : Nat} {retDie die : Die} {searchSibling : Bool}
    (found : searchDieWithinCu dbg cu fuel start retDie searchSibling = .done (dleNone, die)) :
    ∃ state, Reached (searchBody dbg cu searchSibling) ⟨start, 1, retDie⟩ state ∧
      readEntry dbg cu state.offset state.retDie = some (.entry die) := by
  refine loop_result (Reached (searchBody dbg cu searchSibling) ⟨start, 1, retDie⟩)
    (fun result : Int × Die => result.1 = dleNone →
      ∃ state, Reached (searchBody dbg cu searchSibling) ⟨start, 1, retDie⟩ state ∧
        readEntry dbg cu state.offset state.retDie = some (.entry result.2))
    (fun _ _ reached round => reached.again round) ?_ .refl found rfl
  rintro state ⟨ret, last⟩ reached round passed
  obtain rfl : ret = dleNone := passed
  exact ⟨state, reached, searchBody_found round⟩

/-- The search finds the same entry when the variable held something else. -/
theorem search_again {fuel start : Nat} {retDie die : Die} {searchSibling : Bool}
    (found : searchDieWithinCu dbg cu fuel start retDie searchSibling = .done (dleNone, die))
    (retDie' : Die) :
    ∃ die', searchDieWithinCu dbg cu fuel start retDie' searchSibling = .done (dleNone, die') ∧
      die.Alike die' := by
  have both : Exec.Both (SameFound dleNone)
      (searchDieWithinCu dbg cu fuel start retDie searchSibling)
      (searchDieWithinCu dbg cu fuel start retDie' searchSibling) :=
    searchDieWithinCu_both fuel start retDie retDie' searchSibling
  rw [found] at both
  cases again : searchDieWithinCu dbg cu fuel start retDie' searchSibling with
  | fault | timeout =>
      rw [again] at both
      cases both
  | done result =>
      obtain ⟨ret, die'⟩ := result
      rw [again] at both
      obtain ⟨ret_eq, alike⟩ := both
      obtain rfl : dleNone = ret := ret_eq
      exact ⟨die', rfl, alike rfl⟩

theorem search_alike {fuel fuel' start : Nat} {retDie retDie' die die' : Die}
    {searchSibling : Bool}
    (found : searchDieWithinCu dbg cu fuel start retDie searchSibling = .done (dleNone, die))
    (found' : searchDieWithinCu dbg cu fuel' start retDie' searchSibling = .done (dleNone, die')) :
    die.Alike die' := by
  obtain ⟨die'', again, alike⟩ := search_again
    (loop_mono found (Nat.le_max_left fuel fuel')) retDie'
  have same := again.symm.trans (loop_mono found' (Nat.le_max_right fuel fuel'))
  cases same
  exact alike

theorem NameDeclared.iff_named {fuel start : Nat} {retDie die : Die} {searchSibling : Bool}
    (found : searchDieWithinCu dbg cu fuel start retDie searchSibling = .done (dleNone, die)) :
    die.Named ↔ NameDeclared dbg cu die.dieOffset := by
  obtain ⟨state, -, read⟩ := search_reads found
  obtain ⟨offset_eq, named_iff, -⟩ := readEntry_entry read
  rwa [offset_eq]

/-- Whatever the variable held before, a search leaves the same; the name is one of
the entry's own or, for an entry that has none, zero and not that of an entry
that was passed over. -/
def FoundAlone (dbg : Debug) (cu : CU) (start : Nat) (searchSibling : Bool) : Prop :=
  ∀ fuel retDie die,
    searchDieWithinCu dbg cu fuel start retDie searchSibling = .done (dleNone, die) →
      (∀ retDie', searchDieWithinCu dbg cu fuel start retDie' searchSibling =
          .done (dleNone, die)) ∧
        ((∃ atref ∈ die.dieAttr, atref.IsName ∧ die.dieName = atref.text) ∨
          (∀ atref ∈ die.dieAttr, atref.atAttrib ≠ atName) ∧ die.dieName = 0 ∧
            ¬ SkippedName dbg cu searchSibling ⟨start, 1, retDie⟩ die.dieName)

/-- What a search leaves is told by the entry that it finds exactly if this is
declared with a name of form `DW_FORM_strp` or `DW_FORM_string`. -/
theorem foundAlone_iff {fuel start : Nat} {retDie die : Die} {searchSibling : Bool}
    (found : searchDieWithinCu dbg cu fuel start retDie searchSibling = .done (dleNone, die)) :
    FoundAlone dbg cu start searchSibling ↔ NameDeclared dbg cu die.dieOffset := by
  rw [← NameDeclared.iff_named found]
  constructor
  · intro alone
    by_contra unnamed
    -- a variable that holds a name other than zero
    obtain ⟨die', again, alike⟩ := search_again found { retDie with dieName := 1 }
    have unnamed' : ¬ die'.Named := by
      rintro ⟨atref, member, isName⟩
      rw [alike.but_name] at member
      exact unnamed ⟨atref, member, isName⟩
    rcases (alone fuel _ die' again).2 with ⟨atref, member, isName, -⟩ | ⟨-, zero, fresh⟩
    · exact unnamed' ⟨atref, member, isName⟩
    · obtain ⟨state, reached, read⟩ := search_reads again
      obtain ⟨-, -, name_eq⟩ := readEntry_entry read
      rcases foldl_keepName_cases die'.dieAttr state.retDie.dieName with
        ⟨atref, member, isName, -⟩ | ⟨-, kept⟩
      · exact unnamed' ⟨atref, member, isName⟩
      · rw [name_eq, kept] at zero fresh
        rcases reached_name reached with first | skipped
        · exact absurd (zero.symm.trans first) Nat.zero_ne_one
        · exact fresh skipped
  · intro named fuel' retDie' die' found'
    have named' : die'.Named := by
      obtain ⟨atref, member, isName⟩ := named
      refine ⟨atref, ?_, isName⟩
      rwa [(search_alike found found').but_name]
    constructor
    · intro retDie''
      obtain ⟨die'', again, alike⟩ := search_again found' retDie''
      rw [again, alike.eq named']
    · obtain ⟨state, -, read⟩ := search_reads found'
      obtain ⟨-, -, name_eq⟩ := readEntry_entry read
      rcases foldl_keepName_cases die'.dieAttr state.retDie.dieName with
        ⟨atref, member, isName, kept⟩ | ⟨none_named, -⟩
      · exact .inl ⟨atref, member, isName, name_eq.trans kept⟩
      · obtain ⟨atref, member, isName⟩ := named'
        exact absurd isName (none_named atref member)

/-! ## A name passed over -/

section

/-- An entry named "k", the end of its siblings, and an entry without a name, in
front of the two declarations. -/
def passedDebug : Debug where
  mem := .image 0x1000 ([1, 0x6B, 0, 0, 2] ++ [1, 0x05, 0, 0x03, 0x08, 0, 0, 2, 0x24, 0, 0, 0, 0])
    (by decide)
  order := .lsb
  debugInfo := ⟨0x1000, 5⟩
  debugAbbrev := ⟨0x1005, 13⟩
  debugStr := ⟨0x1000, 0⟩

def passedUnit : CU where
  cuLength := 5
  version := 2
  addrSize := 8
  debugAbbrevOffset := 0
  cuLengthSize := 4
  cuDwarfSize := 4
  cuNextOffset := 5
  cuDieOffset := 0
  cuOffset := 0

theorem named_found :
    searchDieWithinCu passedDebug passedUnit 1 0 noDie false =
      .done (dleNone, ⟨0, 3, 1, 0x05, ⟨1, 0x05, 0, 0, 7, [⟨0x03, 0x08, 3⟩]⟩, 0x1001,
        [⟨0x03, 0x08, false, 0x1001, 0, 0, 0⟩]⟩) := by
  decide

/-- The entry with a name is found with it from anything. -/
theorem foundAlone_named : FoundAlone passedDebug passedUnit 0 false :=
  (foundAlone_iff named_found).mpr
    ⟨1, 1, ⟨1, 0x05, 0, 0, 7, [⟨0x03, 0x08, 3⟩]⟩, by decide, by decide,
      ⟨0x03, 0x08, 3⟩, List.mem_singleton_self _, rfl, .inr rfl⟩

/-- The entry behind it is found with the name of the one that is passed over. -/
theorem unnamed_found_named :
    searchDieWithinCu passedDebug passedUnit 3 0 noDie true =
        .done (dleNone, ⟨4, 5, 2, 0x24, ⟨2, 0x24, 0, 7, 5, []⟩, 0x1001, []⟩) ∧
      ¬ FoundAlone passedDebug passedUnit 0 true := by
  have found : searchDieWithinCu passedDebug passedUnit 3 0 noDie true =
      .done (dleNone, ⟨4, 5, 2, 0x24, ⟨2, 0x24, 0, 7, 5, []⟩, 0x1001, []⟩) := by
    decide
  refine ⟨found, fun alone => ?_⟩
  rcases (alone 3 noDie _ found).2 with ⟨atref, member, -⟩ | ⟨-, zero, -⟩
  · exact absurd member List.not_mem_nil
  · exact absurd zero (by decide)

end

end Jos64.Dwarf
