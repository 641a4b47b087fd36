import Jos64.Dwarf.Die.Entry
import Jos64.Loop.Relation

/-!
# What a lookup fills in

A lookup that finds an entry stores all that is known of it, but its name only if
the entry has one: otherwise the variable keeps the name that it had.  Of two
variables whatever they held before, the same lookup makes the same entry but for
such a name, and reports the same.
-/

namespace Jos64.Dwarf

open Loop

/-- The attribute is one whose value becomes the name of its entry. -/
def Attribute.IsName (atref : Attribute) : Prop :=
  atref.atAttrib = atName ∧ (atref.atForm = Form.strp.code ∨ atref.atForm = Form.string.code)

/-- The entry has a name of its own. -/
def Die.Named (die : Die) : Prop :=
  ∃ atref ∈ die.dieAttr, atref.IsName

/-- The two are the same entry, of which the name is known if it has one. -/
structure Die.Alike (die die' : Die) : Prop where
  but_name : die' = { die with dieName := die'.dieName }
  name : die.Named → die.dieName = die'.dieName

theorem Die.Alike.eq {die die' : Die} (alike : die.Alike die') (named : die.Named) :
    die = die' := by
  rw [alike.but_name, ← alike.name named]

theorem Die.Alike.refl (die : Die) : die.Alike die :=
  ⟨rfl, fun _ => rfl⟩

section

variable {die die' : Die} (alike : die.Alike die')

include alike

theorem Die.Alike.dieTag : die'.dieTag = die.dieTag := by
  rw [alike.but_name]

theorem Die.Alike.dieAb : die'.dieAb = die.dieAb := by
  rw [alike.but_name]

theorem Die.Alike.dieNextOff : die'.dieNextOff = die.dieNextOff := by
  rw [alike.but_name]

theorem Die.Alike.attrFind (attr : Nat) : Dwarf.attrFind die' attr = Dwarf.attrFind die attr := by
  rw [alike.but_name]
  rfl

theorem Die.Alike.siblingStart (cu : CU) :
    Dwarf.siblingStart cu die' = Dwarf.siblingStart cu die := by
  rw [alike.but_name]
  rfl

end

/-! ## Attributes -/

theorem keepName_isName {atref : Attribute} (isName : atref.IsName) (name name' : Nat) :
    atref.keepName name = atref.keepName name' := by
  obtain ⟨attrib_eq, form_eq⟩ := isName
  unfold Attribute.keepName
  rw [if_pos attrib_eq, if_pos attrib_eq]
  by_cases strp : atref.atForm = Form.strp.code
  · rw [if_pos strp, if_pos strp]
  · have string := form_eq.resolve_left strp
    rw [if_neg strp, if_neg strp, if_pos string, if_pos string]

theorem foldl_keepName {atrefs : List Attribute} (named : ∃ atref ∈ atrefs, atref.IsName)
    (name name' : Nat) :
    atrefs.foldl (fun name atref => atref.keepName name) name =
      atrefs.foldl (fun name atref => atref.keepName name) name' := by
  induction atrefs generalizing name name' with
  | nil =>
      obtain ⟨_, member, _⟩ := named
      exact absurd member List.not_mem_nil
  | cons atref atrefs ih =>
      rw [List.foldl_cons, List.foldl_cons]
      by_cases first : atref.IsName
      · rw [keepName_isName first name name']
      · apply ih
        obtain ⟨later, member, isName⟩ := named
        rcases List.mem_cons.mp member with rfl | member
        · exact absurd isName first
        · exact ⟨later, member, isName⟩

/-- What attributes are added to two entries. -/
def SameAttrs (die die' : Die) (result result' : Int × Die × Nat) : Prop :=
  ∃ ret, ∃ atrefs : List Attribute, ∃ next, result = (ret, atrefs.foldl Die.addAttr die, next) ∧
    result' = (ret, atrefs.foldl Die.addAttr die', next)

variable {dbg : Debug} {cu : CU}

theorem attrInit_both (ad : AttrDef) (room form : Nat) (indirect : Bool) (die die' : Die)
    (offset : Nat) :
    Exec.Both (SameAttrs die die')
      (Exec.ofOption (attrInit dbg cu ad room form indirect die offset))
      (Exec.ofOption (attrInit dbg cu ad room form indirect die' offset)) := by
  induction room generalizing form indirect offset with
  | zero => exact .fault
  | succ room ih =>
      rw [attrInit, attrInit]
      by_cases link : form = formIndirect
      · rw [if_pos link, if_pos link]
        cases readUleb128 dbg.mem dbg.debugInfo offset with
        | none => exact .fault
        | some read => exact ih read.1 true read.2
      · rw [if_neg link, if_neg link]
        cases Form.ofCode form with
        | none => exact .done ⟨dleAttrFormBad, [], offset, rfl, rfl⟩
        | some form =>
            dsimp only
            cases formRead dbg cu form offset with
            | none => exact .fault
            | some read =>
                exact .done ⟨dleNone, [ad.atref form indirect read], read.offset, rfl, rfl⟩

theorem attrsInit_both (defs : List AttrDef) (die die' : Die) (offset : Nat) :
    Exec.Both (SameAttrs die die') (Exec.ofOption (attrsInit dbg cu defs die offset))
      (Exec.ofOption (attrsInit dbg cu defs die' offset)) := by
  induction defs generalizing die die' offset with
  | nil => exact .done ⟨dleNone, [], offset, rfl, rfl⟩
  | cons ad defs ih =>
      rw [attrsInit, attrsInit, Exec.ofOption_bind, Exec.ofOption_bind]
      apply Exec.Both.bind (attrInit_both ad _ _ _ die die' offset)
      rintro _ _ _ _ ⟨ret, atrefs, next, rfl, rfl⟩
      dsimp only
      by_cases failed : ret ≠ dleNone
      · rw [if_pos failed, if_pos failed]
        exact .done ⟨ret, atrefs, next, rfl, rfl⟩
      · rw [if_neg failed, if_neg failed]
        apply (ih _ _ next).imp
        rintro _ _ _ _ ⟨ret', more, next', rfl, rfl⟩
        refine ⟨ret', atrefs ++ more, next', ?_, ?_⟩
        · rw [List.foldl_append]
        · rw [List.foldl_append]

/-! ## Entries -/

/-- The same is read, whatever the variable held before. -/
inductive EntryRead.Both : EntryRead → EntryRead → Prop where
  | null (next : Nat) : Both (.null next) (.null next)
  | failed {ret : Int} (die die' : Die) : ret ≠ dleNone → Both (.failed ret die) (.failed ret die')
  | entry {die die' : Die} : die.Alike die' → Both (.entry die) (.entry die')

theorem readEntry_both (offset : Nat) (die die' : Die) :
    Exec.Both EntryRead.Both (Exec.ofOption (readEntry dbg cu offset die))
      (Exec.ofOption (readEntry dbg cu offset die')) := by
  unfold readEntry
  cases readUleb128 dbg.mem dbg.debugInfo offset with
  | none => exact .fault
  | some read =>
      obtain ⟨abnum, next⟩ := read
      rw [Option.bind_some, Option.bind_some]
      dsimp only
      by_cases null : abnum = 0
      · rw [if_pos null, if_pos null]
        exact .done (.null next)
      · rw [if_neg null, if_neg null]
        cases abbrevFind dbg cu.debugAbbrevOffset abnum with
        | none => exact .fault
        | some found =>
            rw [Option.bind_some, Option.bind_some]
            cases found with
            | none => exact .done (.failed die die' (by decide))
            | some ab =>
                dsimp only
                rw [Exec.ofOption_map, Exec.ofOption_map]
                apply Exec.Both.bind (attrsInit_both ab.abAttrdef _ _ next)
                rintro _ _ _ _ ⟨ret, atrefs, next', rfl, rfl⟩
                apply Exec.Both.done
                dsimp only
                by_cases failed : ret ≠ dleNone
                · rw [if_pos failed, if_pos failed]
                  exact .failed _ _ failed
                · rw [if_neg failed, if_neg failed, foldl_addAttr, foldl_addAttr]
                  apply EntryRead.Both.entry
                  constructor
                  · rfl
                  · rintro ⟨atref, member, isName⟩
                    exact foldl_keepName ⟨atref, member, isName⟩ _ _

/-! ## Searches -/

/-- Two lookups report the same, and have made the same entry when the report is
that there is one. -/
def SameFound (found : Int) (result result' : Int × Die) : Prop :=
  result.1 = result'.1 ∧ (result.1 = found → result.2.Alike result'.2)

variable (dbg cu) in
theorem searchBody_both (searchSibling : Bool) {state state' : SearchState}
    (same : state.offset = state'.offset ∧ state.level = state'.level) :
    Exec.Both
      (Next.Both (fun state state' => state.offset = state'.offset ∧ state.level = state'.level)
        (SameFound dleNone))
      (searchBody dbg cu searchSibling state) (searchBody dbg cu searchSibling state') := by
  obtain ⟨offset, level, die⟩ := state
  obtain ⟨offset', level', die'⟩ := state'
  obtain ⟨rfl, rfl⟩ := same
  have no_entry : SameFound dleNone (dleNoEntry, die) (dleNoEntry, die') :=
    ⟨rfl, fun entry => absurd entry (by decide : dleNoEntry ≠ dleNone)⟩
  unfold searchBody
  dsimp only
  split
  · apply Exec.Both.bind (readEntry_both offset die die')
    intro read read' _ _ both
    cases both with
    | null next =>
        dsimp only
        split
        · exact .done (.stop no_entry)
        · exact .done (.again ⟨rfl, rfl⟩)
    | failed die die' failed => exact .done (.stop ⟨rfl, fun entry => absurd entry failed⟩)
    | entry alike =>
        dsimp only
        rw [alike.dieAb, alike.dieNextOff]
        split
        · exact .done (.again ⟨rfl, rfl⟩)
        · exact .done (.stop ⟨rfl, fun _ => alike⟩)
  · exact .done (.stop no_entry)

theorem searchDieWithinCu_both (fuel offset : Nat) (die die' : Die) (searchSibling : Bool) :
    Exec.Both (SameFound dleNone) (searchDieWithinCu dbg cu fuel offset die searchSibling)
      (searchDieWithinCu dbg cu fuel offset die' searchSibling) := by
  unfold searchDieWithinCu
  apply loop_both
  · intro state state' _ same
    exact searchBody_both dbg cu searchSibling same
  · exact ⟨rfl, rfl⟩

theorem searchStatus_both {exec exec' : Exec (Int × Die)}
    (both : Exec.Both (SameFound dleNone) exec exec') :
    Exec.Both (SameFound dlvOk)
      (exec.bind fun (ret, retDie) => .done (searchStatus ret, retDie))
      (exec'.bind fun (ret, retDie) => .done (searchStatus ret, retDie)) := by
  apply both.bind
  rintro ⟨ret, die⟩ ⟨ret', die'⟩ _ _ ⟨same, alike⟩
  obtain rfl : ret = ret' := same
  exact .done ⟨rfl, fun found => alike (searchStatus_eq_dlvOk found)⟩

/-! ## Lookups -/

/-- `dwarf_offdie`, inside the unit. -/
theorem dwarfOffdie_both (fuel : Nat) {offset : Nat} (inside : offset < cu.cuNextOffset)
    (die die' : Die) :
    Exec.Both (SameFound dleNone) (dwarfOffdie dbg cu fuel offset die)
      (dwarfOffdie dbg cu fuel offset die') := by
  rw [dwarfOffdie, dwarfOffdie, if_pos inside, if_pos inside]
  exact searchDieWithinCu_both fuel offset die die' false

theorem dwarfSiblingof_both (fuel : Nat) {die die' : Die} (alike : die.Alike die')
    (ret ret' : Die) :
    Exec.Both (SameFound dlvOk) (dwarfSiblingof dbg cu fuel (some die) ret)
      (dwarfSiblingof dbg cu fuel (some die') ret') := by
  unfold dwarfSiblingof
  dsimp only
  rw [alike.siblingStart]
  exact searchStatus_both (searchDieWithinCu_both fuel _ ret ret' _)

theorem dwarfChild_both (fuel : Nat) {die die' : Die} (alike : die.Alike die') (ret ret' : Die) :
    Exec.Both (SameFound dlvOk) (dwarfChild dbg cu fuel die ret)
      (dwarfChild dbg cu fuel die' ret') := by
  unfold dwarfChild
  rw [alike.dieAb, alike.dieNextOff]
  split
  · exact .done ⟨rfl, fun found => absurd found (by decide : dleNoEntry ≠ dlvOk)⟩
  · exact searchStatus_both (searchDieWithinCu_both fuel _ ret ret' false)

end Jos64.Dwarf
