import Jos64.Dwarf.Abbrev.Core
import Jos64.Loop.Core

/-!
# Debugging information entries

A unit is a sequence of entries.  The children of an entry follow it and end
with an entry of code zero, so the next sibling is found by reading on until the
level is back where it was, unless an attribute says where it is.
-/

namespace Jos64.Dwarf

open Loop

/-! ## Codes -/

/-- `DW_DLE_NONE` -/
def dleNone : Int := 0

/-- `DW_DLE_NO_ENTRY` -/
def dleNoEntry : Int := 4

/-- `DW_DLE_ATTR_FORM_BAD` -/
def dleAttrFormBad : Int := 14

/-- `DW_DLV_NO_ENTRY` -/
def dlvNoEntry : Int := -1

/-- `DW_DLV_OK` -/
def dlvOk : Int := 0

/-- `DW_DLV_ERROR` -/
def dlvError : Int := 1

/-- `DW_AT_sibling` -/
def atSibling : Nat := 0x01

/-- `DW_AT_name` -/
def atName : Nat := 0x03

/-- `DW_FORM_indirect` -/
def formIndirect : Nat := 0x16

/-- The forms of attributes that hold a value. -/
inductive Form where
  | addr
  | block2
  | block4
  | data2
  | data4
  | data8
  | string
  | block
  | block1
  | data1
  | flag
  | sdata
  | strp
  | udata
  | refAddr
  | ref1
  | ref2
  | ref4
  | ref8
  | refUdata
  | secOffset
  | exprloc
  | flagPresent
  | refSig8
  deriving DecidableEq

/-- The number of a form, `DW_FORM_…`. -/
def Form.code : Form → Nat
  | addr => 0x01
  | block2 => 0x03
  | block4 => 0x04
  | data2 => 0x05
  | data4 => 0x06
  | data8 => 0x07
  | string => 0x08
  | block => 0x09
  | block1 => 0x0a
  | data1 => 0x0b
  | flag => 0x0c
  | sdata => 0x0d
  | strp => 0x0e
  | udata => 0x0f
  | refAddr => 0x10
  | ref1 => 0x11
  | ref2 => 0x12
  | ref4 => 0x13
  | ref8 => 0x14
  | refUdata => 0x15
  | secOffset => 0x17
  | exprloc => 0x18
  | flagPresent => 0x19
  | refSig8 => 0x20

def Form.all : List Form :=
  [addr, block2, block4, data2, data4, data8, string, block, block1, data1, flag, sdata, strp,
    udata, refAddr, ref1, ref2, ref4, ref8, refUdata, secOffset, exprloc, flagPresent, refSig8]

/-- The form of a number. -/
def Form.ofCode (code : Nat) : Option Form :=
  Form.all.find? fun form => form.code = code

@[simp]
theorem Form.ofCode_code (form : Form) : Form.ofCode form.code = some form := by
  cases form with
  | _ => rfl

@[simp]
theorem Form.code_ne_formIndirect (form : Form) : form.code ≠ formIndirect := by
  cases form with
  | _ => decide

theorem Form.code_inj {form form' : Form} : form.code = form'.code ↔ form = form' := by
  constructor
  · intro same
    have same_form := congrArg Form.ofCode same
    rwa [ofCode_code, ofCode_code, Option.some.injEq] at same_form
  · rintro rfl
    rfl

/-! ## Attributes -/

/-- `Dwarf_CU` -/
structure CU where
  cuLength : Nat
  version : Nat
  addrSize : Nat
  debugAbbrevOffset : Nat
  cuLengthSize : Nat
  cuDwarfSize : Nat
  cuNextOffset : Nat
  cuDieOffset : Nat
  cuOffset : Nat
  deriving DecidableEq

/-- `Dwarf_Attribute` -/
structure Attribute where
  atAttrib : Nat
  atForm : Nat
  atIndirect : Bool
  u0 : Nat
  u1 : Nat
  blLen : Nat
  blData : Nat
  deriving DecidableEq

/-- `Dwarf_Die`.  The pointers to the unit and its entry are passed beside it,
and the number of attributes is the length of the list. -/
structure Die where
  dieOffset : Nat
  dieNextOff : Nat
  dieAbnum : Nat
  dieTag : Nat
  dieAb : Abbrev
  dieName : Nat
  dieAttr : List Attribute
  deriving DecidableEq

/-- What the switch of `_dwarf_attr_init` leaves in `u` and in the offset. -/
structure FormRead where
  u0 : Nat
  u1 : Nat
  offset : Nat

variable (dbg : Debug) (cu : CU)

/-- A number of fixed width. -/
def readNumber (offset width : Nat) : Option FormRead :=
  (dbg.read dbg.debugInfo offset width).map fun (value, next) => ⟨value, 0, next⟩

/-- A block behind its length. -/
def readBlockOf : Nat × Nat → FormRead
  | (length, offset) =>
      let (data, next) := readBlock dbg.debugInfo offset length
      ⟨length, data, next⟩

/-- The switch of `_dwarf_attr_init`.  Of a section reference only versions 2
and 3 read anything. -/
def formRead (form : Form) (offset : Nat) : Option FormRead :=
  match form with
  | .addr => readNumber dbg offset cu.addrSize
  | .block | .exprloc => (readUleb128 dbg.mem dbg.debugInfo offset).map (readBlockOf dbg)
  | .block1 => (dbg.read dbg.debugInfo offset 1).map (readBlockOf dbg)
  | .block2 => (dbg.read dbg.debugInfo offset 2).map (readBlockOf dbg)
  | .block4 => (dbg.read dbg.debugInfo offset 4).map (readBlockOf dbg)
  | .data1 | .flag | .ref1 => readNumber dbg offset 1
  | .data2 | .ref2 => readNumber dbg offset 2
  | .data4 | .ref4 => readNumber dbg offset 4
  | .data8 | .ref8 => readNumber dbg offset 8
  | .refAddr =>
      if cu.version = 2 then readNumber dbg offset cu.addrSize
      else if cu.version = 3 then readNumber dbg offset cu.cuDwarfSize
      else some ⟨0, 0, offset⟩
  | .refUdata | .udata =>
      (readUleb128 dbg.mem dbg.debugInfo offset).map fun (value, next) => ⟨value, 0, next⟩
  | .sdata => (readSleb128 dbg.mem dbg.debugInfo offset).map fun (value, next) => ⟨value, 0, next⟩
  | .secOffset => readNumber dbg offset cu.cuDwarfSize
  | .string =>
      (readString dbg.mem dbg.debugInfo offset).map fun (text, next) => ⟨text, 0, next⟩
  | .strp =>
      (readNumber dbg offset cu.cuDwarfSize).map fun read =>
        { read with u1 := dbg.debugStr.at read.u0 }
  | .refSig8 => some (readBlockOf dbg (8, offset))
  | .flagPresent => some ⟨1, 0, offset⟩

/-- The forms whose value is also kept as a `Dwarf_Block`. -/
def Form.isBlock : Form → Bool
  | block | block1 | block2 | block4 => true
  | _ => false

/-- The attribute that `_dwarf_attr_init` makes of a value. -/
def AttrDef.atref (ad : AttrDef) (form : Form) (indirect : Bool) (read : FormRead) :
    Attribute where
  atAttrib := ad.adAttrib
  atForm := ad.adForm
  atIndirect := indirect
  u0 := read.u0
  u1 := read.u1
  blLen := if form.isBlock then read.u0 else 0
  blData := if form.isBlock then read.u1 else 0

/-- The name that an entry has after an attribute. -/
def Attribute.keepName (atref : Attribute) (name : Nat) : Nat :=
  if atref.atAttrib = atName then
    if atref.atForm = Form.strp.code then atref.u1
    else if atref.atForm = Form.string.code then atref.u0
    else name
  else name

/-- The end of `_dwarf_attr_init`: a name is kept, and the attribute added. -/
def Die.addAttr (die : Die) (atref : Attribute) : Die :=
  { die with
    dieName := atref.keepName die.dieName
    dieAttr := die.dieAttr ++ [atref] }

/-- `_dwarf_attr_init`.  A form that is given in the data is read before it is
followed, so the room bounds the calls. -/
def attrInit (ad : AttrDef) : (room form : Nat) → (indirect : Bool) → (die : Die) →
    (offset : Nat) → Option (Int × Die × Nat)
  | 0, _, _, _, _ => none
  | room + 1, form, indirect, die, offset =>
      if form = formIndirect then
        (readUleb128 dbg.mem dbg.debugInfo offset).bind fun (form, next) =>
          attrInit ad room form true die next
      else
        match Form.ofCode form with
        | none => some (dleAttrFormBad, die, offset)
        | some form =>
            (formRead dbg cu form offset).map fun read =>
              (dleNone, die.addAttr (ad.atref form indirect read), read.offset)

/-- The loop over the attributes of an entry. -/
def attrsInit : List AttrDef → Die → Nat → Option (Int × Die × Nat)
  | [], die, offset => some (dleNone, die, offset)
  | ad :: defs, die, offset =>
      (attrInit dbg cu ad (dbg.mem.room (dbg.debugInfo.at offset) + 1) ad.adForm false die
        offset).bind fun (ret, die, offset) =>
          if ret ≠ dleNone then some (ret, die, offset) else attrsInit defs die offset

/-- `_dwarf_attr_find` -/
def attrFind (die : Die) (attr : Nat) : Option Attribute :=
  die.dieAttr.find? fun atref => atref.atAttrib = attr

/-! ## The search -/

/-- What stands at an offset. -/
inductive EntryRead where
  | null (next : Nat)
  | failed (ret : Int) (die : Die)
  | entry (die : Die)
  deriving DecidableEq

/-- The part of the loop of `dwarf_search_die_within_cu` that reads. -/
def readEntry (offset : Nat) (die : Die) : Option EntryRead :=
  (readUleb128 dbg.mem dbg.debugInfo offset).bind fun (abnum, next) =>
    if abnum = 0 then some (.null next)
    else
      (abbrevFind dbg cu.debugAbbrevOffset abnum).bind fun
        | none => some (.failed dleNoEntry die)
        | some ab =>
            (attrsInit dbg cu ab.abAttrdef
              { die with
                dieOffset := offset
                dieAbnum := abnum
                dieAb := ab
                dieAttr := []
                dieTag := ab.abTag } next).map fun (ret, die, offset) =>
              if ret ≠ dleNone then .failed ret die
              else .entry { die with dieNextOff := offset }

/-- The variables of the loop of `dwarf_search_die_within_cu`. -/
structure SearchState where
  offset : Nat
  level : Nat
  retDie : Die
  deriving DecidableEq

/-- A round of the loop of `dwarf_search_die_within_cu`. -/
def searchBody (searchSibling : Bool) (state : SearchState) :
    Exec (Next SearchState (Int × Die)) :=
  if state.offset < cu.cuNextOffset ∧ state.offset < dbg.debugInfo.dsSize then
    (Exec.ofOption (readEntry dbg cu state.offset state.retDie)).bind fun
      | .null next =>
          if state.level = 0 ∨ searchSibling = false then
            .done (.stop (dleNoEntry, state.retDie))
          else .done (.again ⟨next, state.level - 1, state.retDie⟩)
      | .failed ret die => .done (.stop (ret, die))
      | .entry die =>
          if searchSibling = true ∧ 0 < state.level then
            let level :=
              if die.dieAb.abChildren = childrenYes then state.level + 1 else state.level
            .done (.again ⟨die.dieNextOff, level, die⟩)
          else .done (.stop (dleNone, die))
  else .done (.stop (dleNoEntry, state.retDie))

/-- `dwarf_search_die_within_cu` -/
def searchDieWithinCu (fuel offset : Nat) (retDie : Die) (searchSibling : Bool) :
    Exec (Int × Die) :=
  loop (searchBody dbg cu searchSibling) fuel ⟨offset, 1, retDie⟩

/-- `dwarf_offdie` -/
def dwarfOffdie (fuel offset : Nat) (retDie : Die) : Exec (Int × Die) :=
  if offset < cu.cuNextOffset then searchDieWithinCu dbg cu fuel offset retDie false
  else .done (dlvOk, retDie)

/-- Where `dwarf_siblingof` starts to search, and whether it skips children. -/
def siblingStart (die : Die) : Nat × Bool :=
  if die.dieAb.abChildren = childrenNo then (die.dieNextOff, false)
  else
    match attrFind die atSibling with
    | some atref =>
        if atref.atForm ≠ Form.refAddr.code then (u64 (atref.u0 + cu.cuOffset), false)
        else (atref.u0, false)
    | none => (die.dieNextOff, true)

/-- The code that `dwarf_siblingof` and `dwarf_child` return for that of the
search. -/
def searchStatus (ret : Int) : Int :=
  if ret = dleNoEntry then dlvNoEntry else if ret ≠ dleNone then dlvError else dlvOk

theorem searchStatus_eq_dlvOk {ret : Int} (ok : searchStatus ret = dlvOk) : ret = dleNone := by
  rw [searchStatus] at ok
  split at ok
  · contradiction
  · split at ok
    · contradiction
    · rename_i passed
      exact not_ne_iff.mp passed

/-- `dwarf_siblingof` -/
def dwarfSiblingof (fuel : Nat) (die : Option Die) (retDie : Die) : Exec (Int × Die) :=
  match die with
  | none => dwarfOffdie dbg cu fuel cu.cuDieOffset retDie
  | some die =>
      let (offset, searchSibling) := siblingStart cu die
      (searchDieWithinCu dbg cu fuel offset retDie searchSibling).bind fun (ret, retDie) =>
        .done (searchStatus ret, retDie)

/-- `dwarf_child` -/
def dwarfChild (fuel : Nat) (die retDie : Die) : Exec (Int × Die) :=
  if die.dieAb.abChildren = childrenNo then .done (dleNoEntry, retDie)
  else
    (searchDieWithinCu dbg cu fuel die.dieNextOff retDie false).bind fun (ret, retDie) =>
      .done (searchStatus ret, retDie)

end Jos64.Dwarf
