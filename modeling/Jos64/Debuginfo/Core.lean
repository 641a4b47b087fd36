import Jos64.Lineno.Header

/-!
# The function at an address

`debuginfo_rip` goes through the units and, in each, through the children of
its entry until one is a function whose range holds the address.  The name of
the function, its file, its line and the sizes of its parameters are then stored.
-/

namespace Jos64.Debuginfo

open Loop Dwarf

/-! ## Constants -/

/-- `KERNBASE` -/
def kernbase : Nat := 0x8004000000

/-- `ULIM` -/
def ulim : Nat := 0x8003c00000

/-- `EI_DATA` -/
def eiData : Nat := 5

/-- `ELFDATA2MSB` -/
def elfdata2Msb : Byte := 2

/-- `DW_TAG_formal_parameter` -/
def tagFormalParameter : Nat := 0x05

/-- `DW_TAG_subprogram` -/
def tagSubprogram : Nat := 0x2e

/-- `DW_AT_byte_size` -/
def atByteSize : Nat := 0x0b

/-- `DW_AT_low_pc` -/
def atLowPc : Nat := 0x11

/-- `DW_AT_high_pc` -/
def atHighPc : Nat := 0x12

/-- `DW_AT_type` -/
def atType : Nat := 0x49

/-! ## Data -/

/-- A string that the result points to: the literal, or one in memory. -/
inductive Text where
  | unknown
  | mem (address : Nat)
  deriving DecidableEq

/-- `struct Ripdebuginfo`.  The sizes of the arguments are the stores to
`size_fn_arg` in their order, and `rip_fn_narg` is their number; from the
eleventh on they fall behind the array. -/
structure Ripdebuginfo where
  ripFile : Text
  ripLine : Int
  ripFnName : Text
  ripFnNamelen : Int
  ripFnAddr : Nat
  sizeFnArg : List (BitVec 32)
  deriving DecidableEq

/-- What `debuginfo_rip` stores first. -/
def Ripdebuginfo.init (addr : Nat) : Ripdebuginfo where
  ripFile := .unknown
  ripLine := 0
  ripFnName := .unknown
  ripFnNamelen := 9
  ripFnAddr := addr
  sizeFnArg := []

/-- The memory and the sections in it. -/
structure Kernel where
  mem : Memory
  debugInfo : Section
  debugAbbrev : Section
  debugStr : Section
  debugLine : Section

/-- What the uninitialised variables of `debuginfo_rip` and `list_func_die`
hold. -/
structure Locals where
  cu : CU
  cudie : Die
  die : Die
  die2 : Die
  ret : Die

/-- `_dwarf_init`, which reads the byte order from the ELF header of the kernel
behind the size of its pointers. -/
def dwarfInit (kernel : Kernel) : Option Debug :=
  let elf := 0x10000 + kernbase
  (kernel.mem.byte (elf + 4)).bind fun _ =>
    (kernel.mem.byte (elf + eiData)).map fun data =>
      { mem := kernel.mem
        order := if data = elfdata2Msb then .msb else .lsb
        debugInfo := kernel.debugInfo
        debugAbbrev := kernel.debugAbbrev
        debugStr := kernel.debugStr }

variable (dbg : Debug) (fuel : Nat)

/-! ## The parameters of a function -/

section

variable (cu : CU)

/-- A round of `try_again`: the entry of a type and the attribute that names it
give the size, or the type behind it. -/
def typeBody : Die × Option Attribute → Exec (Next (Die × Option Attribute) (Option Nat))
  | (_, none) => .done (.stop none)
  | (sib, some attr) =>
      (dwarfOffdie dbg cu fuel (u64 (cu.cuOffset + attr.u0)) sib).bind fun (_, sib) =>
        match attrFind sib atByteSize with
        | some size => .done (.stop (some size.u0))
        | none => .done (.again (sib, attrFind sib atType))

/-- The variables of the loop over the further parameters. -/
structure Params where
  sib : Die
  ret : Die
  retVal : Nat
  sizes : List (BitVec 32)

/-- The size of a further parameter: that of its type, or `retVal`. -/
def paramSize (sib ret : Die) (retVal : Nat) : Exec Nat :=
  match attrFind ret atType with
  | none => .done retVal
  | some attr =>
      (dwarfOffdie dbg cu fuel (u64 (cu.cuOffset + attr.u0)) sib).bind fun (_, sib) =>
        match attrFind sib atByteSize with
        | some size => .done size.u0
        | none => .done retVal

/-- A round of the loop over the further parameters: the size of one whose type
has none is that of the parameter before. -/
def paramBody (state : Params) : Exec (Next Params (List (BitVec 32))) :=
  (dwarfSiblingof dbg cu fuel (some state.sib) state.ret).bind fun (status, ret) =>
    if status ≠ dlvOk then .done (.stop state.sizes)
    else if ret.dieTag ≠ tagFormalParameter then .done (.stop state.sizes)
    else
      (paramSize dbg fuel cu state.sib ret state.retVal).bind fun retVal =>
        .done (.again ⟨ret, ret, retVal, state.sizes ++ [BitVec.ofNat 32 retVal]⟩)

/-- The sizes of the parameters, with what `ret` holds before. -/
def paramSizes (die ret : Die) : Exec (List (BitVec 32)) :=
  (dwarfChild dbg cu fuel die ret).bind fun (status, ret) =>
    if status ≠ dleNoEntry then
      if ret.dieTag ≠ tagFormalParameter then .done []
      else
        (loop (typeBody dbg fuel cu) fuel (die, attrFind ret atType)).bind fun size =>
          let retVal := size.getD 8
          loop (paramBody dbg fuel cu) fuel ⟨ret, ret, retVal, [BitVec.ofNat 32 retVal]⟩
    else .done []

end

/-! ## Functions -/

/-- The tests of `list_func_die`: the entry is a function, and the address lies
between its addresses. -/
def covers (die : Die) (addr : Nat) : Bool :=
  match attrFind die atLowPc, attrFind die atHighPc with
  | some low, some high => die.dieTag = tagSubprogram && (low.u0 < addr && addr < high.u0)
  | _, _ => false

/-- What `list_func_die` stores of the function, and of its file. -/
def functionInfo (cudie die : Die) (namelen : Int) (ln : Lineno.Line)
    (sizes : List (BitVec 32)) : Ripdebuginfo where
  ripFile := .mem cudie.dieName
  ripLine := wrap32 ln.lnLineno
  ripFnName := .mem die.dieName
  ripFnNamelen := namelen
  ripFnAddr := ((attrFind die atLowPc).map Attribute.u0).getD 0
  sizeFnArg := sizes

section

variable (debugLine : Section) (cu : CU) (cudie ret die : Die) (addr : Nat)

/-- What `list_func_die` does when its tests have succeeded.  The line is looked for
before the parameters are. -/
def storeFunction : Exec Ripdebuginfo :=
  (Exec.ofOption (strlen dbg.mem die.dieName)).bind fun namelen =>
    (Lineno.dwarfSrclines dbg.order dbg.mem debugLine fuel cu.addrSize cudie .zero addr).bind
      fun (_, ln) =>
        (paramSizes dbg fuel cu die ret).bind fun sizes =>
          .done (functionInfo cudie die namelen ln sizes)

/-- `list_func_die`: whether the function is the one, and what is stored. -/
def listFuncDie (info : Ripdebuginfo) : Exec (Bool × Ripdebuginfo) :=
  if covers die addr then
    (storeFunction dbg fuel debugLine cu cudie ret die addr).bind fun info =>
      .done (true, info)
  else .done (false, info)

end

/-! ## The search -/

/-- The variables of the loop over the units. -/
structure UnitState where
  currOff : Nat
  cu : CU
  cudie : Die
  die : Die
  die2 : Die
  deriving DecidableEq

/-- Where the search is before its first unit. -/
def Locals.start (locals : Locals) : UnitState :=
  ⟨0, locals.cu, locals.cudie, locals.die, locals.die2⟩

/-- How the loop over the units goes on: there is no further one, there is
nothing in it, or its children are gone through. -/
inductive Enter where
  | finished
  | skip (state : UnitState)
  | inside (state : UnitState)
  deriving DecidableEq

/-- The loop over the units up to the loop over the children. -/
def enterUnit (state : UnitState) : Exec Enter :=
  (Exec.ofOption (getNextCu dbg state.currOff state.cu)).bind fun (ret, currOff, cu) =>
    if ret = 0 then
      (dwarfSiblingof dbg cu fuel none state.cudie).bind fun (ret, cudie) =>
        if ret = dleNoEntry then
          .done (.skip { state with currOff := currOff, cu := cu, cudie := cudie })
        else
          (dwarfChild dbg cu fuel cudie state.die).bind fun (ret, die) =>
            let state := { state with currOff := currOff, cu := cu, cudie := cudie, die := die }
            if ret = dleNoEntry then .done (.skip state) else .done (.inside state)
    else .done .finished

/-- The variables of the loop over the children. -/
structure ChildState where
  die : Die
  die2 : Die
  deriving DecidableEq

/-- How the loop over the children ends: at the function, with what is stored, or at
their end. -/
inductive Children where
  | found (info : Ripdebuginfo)
  | ended (state : ChildState)
  deriving DecidableEq

section

variable (debugLine : Section)

/-- A round of the loop over the children.  Up to the function that is found,
`list_func_die` leaves what was stored at first. -/
def childBody (cu : CU) (cudie ret : Die) (addr : Nat) (state : ChildState) :
    Exec (Next ChildState Children) :=
  (listFuncDie dbg fuel debugLine cu cudie ret state.die addr (.init addr)).bind
    fun (found, info) =>
      if found then .done (.stop (.found info))
      else
        (dwarfSiblingof dbg cu fuel (some state.die) state.die2).bind fun (ret, die2) =>
          if ret < 0 then .done (.stop (.ended ⟨state.die, die2⟩)) else .done (.again ⟨die2, die2⟩)

variable {dbg fuel debugLine} {cu : CU} {cudie ret : Die} {addr : Nat} {state : ChildState}

/-- The round on the function stores it, and is the last. -/
theorem childBody_of_covers (covered : covers state.die addr) :
    childBody dbg fuel debugLine cu cudie ret addr state =
      (storeFunction dbg fuel debugLine cu cudie ret state.die addr).bind fun info =>
        .done (.stop (.found info)) := by
  rw [childBody, listFuncDie, if_pos covered]
  cases storeFunction dbg fuel debugLine cu cudie ret state.die addr with
  | done info => rfl
  | fault => rfl
  | timeout => rfl

/-- Any other goes to the sibling. -/
theorem childBody_of_not_covers (elsewhere : ¬ covers state.die addr) :
    childBody dbg fuel debugLine cu cudie ret addr state =
      (dwarfSiblingof dbg cu fuel (some state.die) state.die2).bind fun (ret, die2) =>
        if ret < 0 then .done (.stop (.ended ⟨state.die, die2⟩))
        else .done (.again ⟨die2, die2⟩) := by
  rw [childBody, listFuncDie, if_neg elsewhere, Exec.done_bind]
  rfl

variable (dbg fuel debugLine)

/-- A round of the loop over the units. -/
def unitBody (ret : Die) (addr : Nat) (state : UnitState) :
    Exec (Next UnitState (Option Ripdebuginfo)) :=
  (enterUnit dbg fuel state).bind fun
    | .finished => .done (.stop none)
    | .skip state => .done (.again state)
    | .inside state =>
        (loop (childBody dbg fuel debugLine state.cu state.cudie ret addr) fuel
            ⟨state.die, state.die2⟩).bind fun
          | .found info => .done (.stop (some info))
          | .ended children =>
              .done (.again { state with die := children.die, die2 := children.die2 })

variable {dbg fuel debugLine} in
/-- The round in which the function is found is the last. -/
theorem unitBody_of_found {state inside : UnitState} {info : Ripdebuginfo}
    (entered : enterUnit dbg fuel state = .done (.inside inside))
    (found : loop (childBody dbg fuel debugLine inside.cu inside.cudie ret addr) fuel
      ⟨inside.die, inside.die2⟩ = .done (.found info)) :
    unitBody dbg fuel debugLine ret addr state = .done (.stop (some info)) := by
  rw [unitBody, entered, Exec.done_bind]
  dsimp only
  rw [found, Exec.done_bind]

/-- The search of `debuginfo_rip`, and what is stored for the function. -/
def search (locals : Locals) (addr : Nat) : Exec (Option Ripdebuginfo) :=
  loop (unitBody dbg fuel debugLine locals.ret addr) fuel locals.start

end

/-- `debuginfo_rip`: the code and what is stored.  A user address and an empty
section stop the kernel. -/
def debuginfoRip (kernel : Kernel) (locals : Locals) (addr : Nat) : Exec (Int × Ripdebuginfo) :=
  if addr < ulim then .fault
  else
    (Exec.ofOption (dwarfInit kernel)).bind fun dbg =>
      if dbg.debugInfo.dsSize = 0 then .fault
      else
        (search dbg fuel kernel.debugLine locals addr).bind fun
          | none => .done (-1, .init addr)
          | some info => .done (0, info)

variable {dbg fuel} in
/-- What is found is reported. -/
theorem debuginfoRip_of_found {kernel : Kernel} {locals : Locals} {addr : Nat}
    {info : Ripdebuginfo} (in_kernel : ulim ≤ addr) (initialised : dwarfInit kernel = some dbg)
    (nonempty : dbg.debugInfo.dsSize ≠ 0)
    (found : search dbg fuel kernel.debugLine locals addr = .done (some info)) :
    debuginfoRip fuel kernel locals addr = .done (0, info) := by
  rw [debuginfoRip, if_neg (Nat.not_lt.mpr in_kernel), initialised, Exec.ofOption_some,
    Exec.done_bind, if_neg nonempty, found, Exec.done_bind]

end Jos64.Debuginfo
