import Jos64.Debuginfo.Core
import Jos64.Dwarf.Row
import Jos64.Dwarf.Unit.Iteration

/-!
# Functions in the debug sections

A unit is an entry for a source file with entries for its functions below.  The
search should find the function that an address belongs to, and say nothing when
there is none.  The line of the address is looked up from the entry of the file.
-/

namespace Jos64.Debuginfo

open Loop Dwarf Forest

/-! ## Functions -/

/-- A function: its first address, the one behind its last, its name and that of
its file. -/
structure Function where
  low : Nat
  high : Nat
  name : List Byte
  file : List Byte

def Function.Holds (f : Function) (addr : Nat) : Prop :=
  f.low ≤ addr ∧ addr < f.high

/-- The test that `list_func_die` makes. -/
def Function.Inside (f : Function) (addr : Nat) : Prop :=
  f.low < addr ∧ addr < f.high

section

variable {cu : CU}

/-- A value that is an address. -/
def address : Value cu → Option Nat
  | .fixed form _ number _ _ => if form = .addr then some number else none
  | _ => none

/-- The address that the attribute of a name holds. -/
def pc (name : Nat) (entry : Entry cu) : Option Nat :=
  (entry.attrs.find? fun attr => attr.spec.attrib.value = name).bind fun attr =>
    address attr.value

/-- The entry describes the function, below the entry of its file. -/
structure Describes (dbg : Debug) (root entry : Entry cu) (f : Function) : Prop where
  tag : entry.decl.tag.value = tagSubprogram
  low : pc atLowPc entry = some f.low
  high : pc atHighPc entry = some f.high
  name : entry.HasName dbg f.name
  file : root.HasName dbg f.file

end

/-! ## Units -/

/-- A unit in the section, with what it encodes: the entry of a file, and those of
the functions and of all else below it. -/
structure FileUnit (dbg : Debug) where
  offset : Nat
  unit : CompUnit
  table : List Decl
  root : Entry (unit.cu offset)
  children : Forest (Entry (unit.cu offset))
  tail : List Byte
  held : dbg.mem.Holds (dbg.debugInfo.dsData + offset) (unit.bytes dbg.order)
  encodes : Encodes dbg (unit.cu offset) table (.cons root children .nil) tail

variable {dbg : Debug}

/-- A function of one of the units. -/
def FunctionOf (units : List (FileUnit dbg)) (f : Function) : Prop :=
  ∃ u ∈ units, ∃ tree ∈ u.children.trees, Describes dbg u.root tree.1 f

/-- A function of the unit has the address inside. -/
def FileUnit.Encloses (u : FileUnit dbg) (addr : Nat) : Prop :=
  ∃ tree ∈ u.children.trees, ∃ f, Describes dbg u.root tree.1 f ∧ f.Inside addr

open Classical in
/-- The first unit of which a function has the address inside. -/
noncomputable def firstUnit (units : List (FileUnit dbg)) (addr : Nat) : Option (FileUnit dbg) :=
  units.find? fun u => u.Encloses addr

/-- The units stand in a row up to the end of the section. -/
def InRow : (offset : Nat) → List (FileUnit dbg) → Prop
  | offset, [] => offset = dbg.debugInfo.dsSize
  | offset, u :: units => u.offset = offset ∧ InRow (offset + u.unit.size) units

/-- The section is made of units, whose functions have addresses and names, and no
address belongs to two of them. -/
structure WellFormed (units : List (FileUnit dbg)) : Prop where
  nonempty : units ≠ []
  laid : InRow 0 units
  described : ∀ u ∈ units, ∀ tree ∈ u.children.trees, tree.1.decl.tag.value = tagSubprogram →
    ∃ f, Describes dbg u.root tree.1 f
  disjoint : ∀ f g addr, FunctionOf units f → FunctionOf units g → f.Holds addr → g.Holds addr →
    f = g

/-! ## What is to be found -/

/-- The result names the function. -/
structure Names (mem : Memory) (f : Function) (info : Ripdebuginfo) : Prop where
  name : ∃ p, info.ripFnName = .mem p ∧ mem.Holds p (f.name ++ [0])
  namelen : info.ripFnNamelen = wrap32 f.name.length
  file : ∃ p, info.ripFile = .mem p ∧ mem.Holds p (f.file ++ [0])
  addr : info.ripFnAddr = f.low

/-- Given fuel enough, a call returns 0 and names the function that the address
belongs to; where there is none, it returns a negative number, and what has been
stored at first is left. -/
def Reports (units : List (FileUnit dbg)) (call : Nat → Exec (Int × Ripdebuginfo)) (addr : Nat) :
    Prop :=
  ∃ bound, ∀ fuel, bound ≤ fuel →
    (∃ f info, FunctionOf units f ∧ f.Holds addr ∧ call fuel = .done (0, info) ∧
      Names dbg.mem f info) ∨
    ((∀ f, FunctionOf units f → ¬ f.Holds addr) ∧
      ∃ ret < 0, call fuel = .done (ret, .init addr))

/-! ## What can go wrong -/

section

variable {cu : CU}

/-- A reference that counts from the beginning of the unit and is read back. -/
structure Refers (attr : Attr cu) (target : Nat) : Prop where
  target_eq : attr.value.target = some target
  relative : attr.value.form ≠ .refAddr
  back : attr.value.ReadBack

def typeAttr (entry : Entry cu) : Option (Attr cu) :=
  entry.attrs.find? fun attr => attr.spec.attrib.value = atType

/-- The chain of types from an offset on ends: at one with a size, or at one
without a type. -/
inductive Typed (dbg : Debug) (cu : CU) (table : List Decl) : (offset : Nat) → Prop where
  | sized {entry : Entry cu} {offset : Nat} (stands : Stands dbg cu table entry offset)
      (size : ∃ attr ∈ entry.attrs, attr.spec.attrib.value = atByteSize) : Typed dbg cu table offset
  | last {entry : Entry cu} {offset : Nat} (stands : Stands dbg cu table entry offset)
      (none : typeAttr entry = none) : Typed dbg cu table offset
  | more {entry : Entry cu} {attr : Attr cu} {offset target : Nat}
      (stands : Stands dbg cu table entry offset) (some : typeAttr entry = some attr)
      (refers : Refers attr target) (typed : Typed dbg cu table target) :
      Typed dbg cu table offset

/-- The type of an entry, if it has one, can be followed. -/
def TypeFollowed (dbg : Debug) (table : List Decl) (entry : Entry cu) : Prop :=
  ∀ attr, typeAttr entry = some attr → ∃ target, Refers attr target ∧ Typed dbg cu table target

/-- The function can be looked at: its name is kept, it has children if it can
have any, and the types of its parameters can be followed. -/
structure Visible (dbg : Debug) (table : List Decl) (entry : Entry cu)
    (children : Forest (Entry cu)) : Prop where
  named : entry.NameDirect
  opens : entry.decl.children = true → children ≠ .nil
  typed : ∀ tree ∈ children.trees, tree.1.decl.tag.value = tagFormalParameter →
    TypeFollowed dbg table tree.1

end

/-- Nothing else stands in the way of the search: all entries of the units can be
passed, the function that the address belongs to can be looked at, and where it
is inside of none, what is behind the section is not taken for a unit. -/
structure Searchable (units : List (FileUnit dbg)) (addr : Nat) : Prop where
  short : ∀ u ∈ units, u.unit.length < 2 ^ 32
  passable : ∀ u ∈ units, EachEntry dbg.order (Passable dbg) (.cons u.root u.children .nil)
    (u.unit.cu u.offset).cuDieOffset
  opens : ∀ u ∈ units, u.root.decl.children = true → u.children ≠ .nil
  visible : ∀ u ∈ units, ∀ tree ∈ u.children.trees, ∀ f, Describes dbg u.root tree.1 f →
    f.Holds addr → u.root.NameDirect ∧ Visible dbg u.table tree.1 tree.2
  ended : (∀ f, FunctionOf units f → ¬ f.Inside addr) → ∃ ret, ret ≠ 0 ∧
    ∀ cu, ∃ next cu', getNextCu dbg dbg.debugInfo.dsSize cu = some (ret, next, cu')

/-! ## The line -/

section

variable (dbg) (debugLine : Section)

/-- The lookup of the line of an address comes to an end. -/
def LineEnds (cu : CU) (cudie : Die) (addr : Nat) : Prop :=
  ∃ fuel result, Lineno.dwarfSrclines dbg.order dbg.mem debugLine fuel cu.addrSize cudie .zero
    addr = .done result

variable {dbg}

/-- So does that from the entry of the file of a unit, as it is read. -/
def LinesEnd (u : FileUnit dbg) (addr : Nat) : Prop :=
  ∀ cudie, Found dbg u.root (u.unit.cu u.offset).cuDieOffset cudie →
    LineEnds dbg debugLine (u.unit.cu u.offset) cudie addr

end

end Jos64.Debuginfo
