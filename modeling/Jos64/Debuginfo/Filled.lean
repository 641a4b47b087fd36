import Jos64.Debuginfo.Termination
import Jos64.Dwarf.Lookup

/-!
# What the result depends on

Not every answer of a lookup is tested for: the root of a unit may be outside the
unit, the children may end before the first of them, and an entry may have no
name.  Where none of this comes up, the variables may hold anything when a round
begins, and the result is the same.
-/

namespace Jos64.Debuginfo

open Loop Dwarf

section

variable (dbg : Debug) (fuel : Nat) (debugLine : Section)

/-! ## Conditions -/

/-- A lookup that ends answers as expected. -/
def Answers (lookup : Exec (Int × Die)) (expected : Int → Prop) : Prop :=
  ∀ status die, lookup = .done (status, die) → expected status

/-- The type that an attribute refers to is an entry of the unit. -/
structure TypeFound (cu : CU) (attr : Attribute) (sib : Die) : Prop where
  inside : u64 (cu.cuOffset + attr.u0) < cu.cuNextOffset
  answers : Answers (dwarfOffdie dbg cu fuel (u64 (cu.cuOffset + attr.u0)) sib) (· = dleNone)

/-- The parameters of a function, and their types. -/
structure ParamsFilled (cu : CU) (die ret : Die) : Prop where
  child : Answers (dwarfChild dbg cu fuel die ret) fun status =>
    status = dleNoEntry ∨ status = dlvOk
  first : ∀ first, dwarfChild dbg cu fuel die ret = .done (dlvOk, first) →
    first.dieTag = tagFormalParameter → ∀ state,
      Reached (typeBody dbg fuel cu) (die, attrFind first atType) state →
        ∀ attr, state.2 = some attr → TypeFound dbg fuel cu attr state.1
  more : ∀ first retVal, dwarfChild dbg cu fuel die ret = .done (dlvOk, first) → ∀ state,
    Reached (paramBody dbg fuel cu) ⟨first, first, retVal, [BitVec.ofNat 32 retVal]⟩ state →
      ∀ next, dwarfSiblingof dbg cu fuel (some state.sib) state.ret = .done (dlvOk, next) →
        next.dieTag = tagFormalParameter →
          ∀ attr, attrFind next atType = some attr → TypeFound dbg fuel cu attr state.sib

/-- The function that covers the address: its name and that of its file, and its
parameters. -/
structure FunctionFilled (cu : CU) (cudie ret die : Die) : Prop where
  named : cudie.Named ∧ die.Named
  params : ParamsFilled dbg fuel cu die ret

/-- A unit: its root, the first child of that, the siblings of the children, and
the function, if it is found there. -/
structure UnitFilled (addr : Nat) (ret : Die) (state : UnitState) : Prop where
  root_inside : ∀ currOff cu, getNextCu dbg state.currOff state.cu = some (0, currOff, cu) →
    cu.cuDieOffset < cu.cuNextOffset
  root : ∀ currOff cu, getNextCu dbg state.currOff state.cu = some (0, currOff, cu) →
    Answers (dwarfSiblingof dbg cu fuel none state.cudie) fun status =>
      status = dleNoEntry ∨ status = dleNone
  child : ∀ currOff cu cudie,
    getNextCu dbg state.currOff state.cu = some (0, currOff, cu) →
      dwarfSiblingof dbg cu fuel none state.cudie = .done (dleNone, cudie) →
        Answers (dwarfChild dbg cu fuel cudie state.die) fun status =>
          status = dleNoEntry ∨ status = dlvOk
  siblings : ∀ inside, enterUnit dbg fuel state = .done (.inside inside) → ∀ child,
    Reached (childBody dbg fuel debugLine inside.cu inside.cudie ret addr)
      ⟨inside.die, inside.die2⟩ child → ¬ covers child.die addr →
        Answers (dwarfSiblingof dbg inside.cu fuel (some child.die) child.die2) fun status =>
          status = dlvOk ∨ status < 0
  function : ∀ inside, enterUnit dbg fuel state = .done (.inside inside) → ∀ child,
    Reached (childBody dbg fuel debugLine inside.cu inside.cudie ret addr)
      ⟨inside.die, inside.die2⟩ child → covers child.die addr →
        FunctionFilled dbg fuel inside.cu inside.cudie ret child.die

end

/-! ## The parameters -/

section

variable {dbg : Debug} {fuel : Nat} {cu : CU}

/-- The type is the same whatever the variable for it held. -/
theorem TypeFound.both {attr : Attribute} {sib : Die} (found : TypeFound dbg fuel cu attr sib)
    (sib' : Die) :
    Exec.Both (fun result result' : Int × Die => result.2.Alike result'.2)
      (dwarfOffdie dbg cu fuel (u64 (cu.cuOffset + attr.u0)) sib)
      (dwarfOffdie dbg cu fuel (u64 (cu.cuOffset + attr.u0)) sib') := by
  apply (dwarfOffdie_both fuel found.inside sib sib').imp
  rintro ⟨status, die⟩ _ ended _ ⟨-, alike⟩
  exact alike (found.answers status die ended)

theorem typeBody_both {state state' : Die × Option Attribute}
    (found : ∀ attr, state.2 = some attr → TypeFound dbg fuel cu attr state.1)
    (same : state.2 = state'.2) :
    Exec.Both (Next.Both (fun state state' => state.2 = state'.2) Eq)
      (typeBody dbg fuel cu state) (typeBody dbg fuel cu state') := by
  obtain ⟨sib, attr⟩ := state
  obtain ⟨sib', attr'⟩ := state'
  obtain rfl : attr = attr' := same
  cases attr with
  | none => exact .done (.stop rfl)
  | some attr =>
      apply Exec.Both.bind ((found attr rfl).both sib')
      rintro ⟨status, die⟩ ⟨status', die'⟩ _ _ alike
      dsimp only at alike ⊢
      rw [alike.attrFind, alike.attrFind]
      cases attrFind die atByteSize with
      | none => exact .done (.again rfl)
      | some size => exact .done (.stop rfl)

theorem paramSize_both {sib ret ret' : Die} (alike : ret.Alike ret')
    (found : ∀ attr, attrFind ret atType = some attr → TypeFound dbg fuel cu attr sib)
    (sib' : Die) (retVal : Nat) :
    Exec.Both Eq (paramSize dbg fuel cu sib ret retVal)
      (paramSize dbg fuel cu sib' ret' retVal) := by
  unfold paramSize
  rw [alike.attrFind]
  cases attr_eq : attrFind ret atType with
  | none => exact .done rfl
  | some attr =>
      apply Exec.Both.bind ((found attr attr_eq).both sib')
      rintro ⟨status, die⟩ ⟨status', die'⟩ _ _ alike
      dsimp only at alike ⊢
      rw [alike.attrFind]
      cases attrFind die atByteSize with
      | none => exact .done rfl
      | some size => exact .done rfl

/-- The variables of the further parameters, up to what is no more looked at. -/
structure Params.Alike (state state' : Params) : Prop where
  sib : state.sib.Alike state'.sib
  retVal : state.retVal = state'.retVal
  sizes : state.sizes = state'.sizes

theorem paramBody_both {state state' : Params} (alike : state.Alike state')
    (found : ∀ next, dwarfSiblingof dbg cu fuel (some state.sib) state.ret = .done (dlvOk, next) →
      next.dieTag = tagFormalParameter →
        ∀ attr, attrFind next atType = some attr → TypeFound dbg fuel cu attr state.sib) :
    Exec.Both (Next.Both Params.Alike Eq)
      (paramBody dbg fuel cu state) (paramBody dbg fuel cu state') := by
  obtain ⟨sib, ret, retVal, sizes⟩ := state
  obtain ⟨sib', ret', retVal', sizes'⟩ := state'
  obtain ⟨sib_alike, rfl, rfl⟩ := alike
  apply Exec.Both.bind (dwarfSiblingof_both fuel sib_alike ret ret')
  rintro ⟨status, next⟩ ⟨status', next'⟩ ended _ ⟨same, next_alike⟩
  obtain rfl : status = status' := same
  dsimp only
  by_cases ok : status ≠ dlvOk
  · rw [if_pos ok, if_pos ok]
    exact .done (.stop rfl)
  · obtain rfl : status = dlvOk := not_not.mp ok
    have next_alike := next_alike rfl
    rw [if_neg ok, if_neg ok, next_alike.dieTag]
    by_cases other : next.dieTag ≠ tagFormalParameter
    · rw [if_pos other, if_pos other]
      exact .done (.stop rfl)
    · rw [if_neg other, if_neg other]
      apply Exec.Both.bind
        (paramSize_both next_alike (found next ended (not_not.mp other)) sib' retVal)
      rintro size _ _ _ rfl
      exact .done (.again ⟨next_alike, rfl, rfl⟩)

theorem paramSizes_both {die ret : Die} (filled : ParamsFilled dbg fuel cu die ret) (ret' : Die) :
    Exec.Both Eq (paramSizes dbg fuel cu die ret) (paramSizes dbg fuel cu die ret') := by
  apply Exec.Both.bind (dwarfChild_both fuel (Die.Alike.refl die) ret ret')
  rintro ⟨status, first⟩ ⟨status', first'⟩ ended _ ⟨same, alike⟩
  obtain rfl : status = status' := same
  dsimp only
  rcases filled.child _ _ ended with rfl | rfl
  · exact .done rfl
  · have alike := alike rfl
    have answered : dlvOk ≠ dleNoEntry := by decide
    rw [if_pos answered, if_pos answered, alike.dieTag, alike.attrFind]
    by_cases other : first.dieTag ≠ tagFormalParameter
    · rw [if_pos other, if_pos other]
      exact .done rfl
    · rw [if_neg other, if_neg other]
      apply Exec.Both.bind (R := Eq)
      · apply loop_both (fun state state' => state.2 = state'.2)
        · intro state state' reached same
          exact typeBody_both (filled.first first ended (not_not.mp other) state reached) same
        · rfl
      · rintro size _ _ _ rfl
        apply loop_both Params.Alike
        · intro state state' reached alike
          exact paramBody_both alike (filled.more first _ ended state reached)
        · exact ⟨alike, rfl, rfl⟩

end

/-! ## The units -/

section

variable {dbg : Debug} {fuel : Nat} {debugLine : Section}

/-- A unit is filled in completely, whatever the variable held before. -/
theorem getNextCu_both (currOff : Nat) (cu cu' : CU) :
    Exec.Both (fun result result' : Int × Nat × CU =>
        result.1 = result'.1 ∧ (result.1 = 0 → result = result'))
      (Exec.ofOption (getNextCu dbg currOff cu)) (Exec.ofOption (getNextCu dbg currOff cu')) := by
  unfold getNextCu
  split
  · exact .done ⟨rfl, fun zero => absurd zero (show (-1 : Int) ≠ 0 by decide)⟩
  · rw [Exec.ofOption_bind, Exec.ofOption_bind]
    apply Exec.Both.same_bind
    rintro ⟨short, offset⟩ -
    rw [Exec.ofOption_bind, Exec.ofOption_bind]
    apply Exec.Both.same_bind
    rintro ⟨length, dwarfSize, offset⟩ -
    dsimp only
    rw [Exec.ofOption_bind, Exec.ofOption_bind]
    apply Exec.Both.same_bind
    rintro ⟨version, offset⟩ -
    rw [Exec.ofOption_bind, Exec.ofOption_bind]
    apply Exec.Both.same_bind
    rintro ⟨debugAbbrevOffset, offset⟩ -
    rw [Exec.ofOption_map, Exec.ofOption_map]
    apply Exec.Both.same_bind
    rintro ⟨addrSize, offset⟩ -
    apply Exec.Both.done
    dsimp only
    split
    · exact ⟨rfl, fun zero => absurd zero (show (-1 : Int) ≠ 0 by decide)⟩
    · exact ⟨rfl, fun _ => rfl⟩

/-- Two units are entered alike. -/
inductive Enter.Both : Enter → Enter → Prop where
  | finished : Both .finished .finished
  | skip {state state' : UnitState} : state.currOff = state'.currOff →
      Both (.skip state) (.skip state')
  | inside {state state' : UnitState} : state.currOff = state'.currOff → state.cu = state'.cu →
      state.cudie.Alike state'.cudie → state.die.Alike state'.die →
        Both (.inside state) (.inside state')

theorem enterUnit_both {addr : Nat} {ret : Die} {state state' : UnitState}
    (filled : UnitFilled dbg fuel debugLine addr ret state)
    (same : state.currOff = state'.currOff) :
    Exec.Both Enter.Both (enterUnit dbg fuel state) (enterUnit dbg fuel state') := by
  unfold enterUnit
  rw [← same]
  apply Exec.Both.bind (getNextCu_both state.currOff state.cu state'.cu)
  rintro ⟨ret, currOff, cu⟩ result ended _ ⟨same_ret, same_unit⟩
  dsimp only at same_ret same_unit ⊢
  rw [← same_ret]
  by_cases found : ret = 0
  · obtain rfl := found
    obtain rfl := same_unit rfl
    rw [if_pos rfl, if_pos rfl]
    have unit_eq := Exec.ofOption_eq_done ended
    dsimp only
    apply Exec.Both.bind
      (dwarfOffdie_both fuel (filled.root_inside _ _ unit_eq) state.cudie state'.cudie)
    rintro ⟨status, cudie⟩ ⟨status', cudie'⟩ root_ended _ ⟨same_status, alike⟩
    obtain rfl : status = status' := same_status
    dsimp only
    rcases filled.root _ _ unit_eq _ _ root_ended with rfl | rfl
    · exact .done (.skip rfl)
    · have answered : dleNone ≠ dleNoEntry := by decide
      have alike := alike rfl
      rw [if_neg answered, if_neg answered]
      apply Exec.Both.bind (dwarfChild_both fuel alike state.die state'.die)
      rintro ⟨status, die⟩ ⟨status', die'⟩ child_ended _ ⟨same_status, die_alike⟩
      obtain rfl : status = status' := same_status
      dsimp only
      rcases filled.child _ _ _ unit_eq root_ended _ _ child_ended with rfl | rfl
      · exact .done (.skip rfl)
      · exact .done (.inside rfl rfl alike (die_alike rfl))
  · rw [if_neg found, if_neg found]
    exact .done .finished

/-- Two loops over the children end alike. -/
inductive Children.Both : Children → Children → Prop where
  | found (info : Ripdebuginfo) : Both (.found info) (.found info)
  | ended (state state' : ChildState) : Both (.ended state) (.ended state')

theorem covers_alike {die die' : Die} (alike : die.Alike die') (addr : Nat) :
    covers die' addr = covers die addr := by
  unfold covers
  rw [alike.attrFind, alike.attrFind, alike.dieTag]

theorem storeFunction_both {cu : CU} {cudie ret die : Die}
    (filled : ParamsFilled dbg fuel cu die ret) (ret' : Die) (addr : Nat) :
    Exec.Both Eq (storeFunction dbg fuel debugLine cu cudie ret die addr)
      (storeFunction dbg fuel debugLine cu cudie ret' die addr) := by
  unfold storeFunction
  apply Exec.Both.same_bind
  intro namelen _
  apply Exec.Both.same_bind
  rintro ⟨_, line⟩ _
  apply Exec.Both.bind (paramSizes_both filled ret')
  rintro sizes _ _ _ rfl
  exact .done rfl

theorem childBody_both {cu : CU} {addr : Nat} {cudie cudie' ret : Die} {state state' : ChildState}
    (root_alike : cudie.Alike cudie') (alike : state.die.Alike state'.die)
    (answers : ¬ covers state.die addr →
      Answers (dwarfSiblingof dbg cu fuel (some state.die) state.die2) fun status =>
        status = dlvOk ∨ status < 0)
    (function : covers state.die addr → FunctionFilled dbg fuel cu cudie ret state.die)
    (ret' : Die) :
    Exec.Both (Next.Both (fun state state' => state.die.Alike state'.die) Children.Both)
      (childBody dbg fuel debugLine cu cudie ret addr state)
      (childBody dbg fuel debugLine cu cudie' ret' addr state') := by
  have same_test := covers_alike alike addr
  by_cases covered : covers state.die addr
  · have filled := function covered
    rw [childBody_of_covers covered, childBody_of_covers (same_test.trans covered),
      ← root_alike.eq filled.named.1, ← alike.eq filled.named.2]
    apply Exec.Both.bind (storeFunction_both filled.params ret' addr)
    rintro info _ _ _ rfl
    exact .done (.stop (.found info))
  · have missed : ¬ covers state'.die addr := by
      rwa [same_test]
    rw [childBody_of_not_covers covered, childBody_of_not_covers missed]
    apply Exec.Both.bind (dwarfSiblingof_both fuel alike state.die2 state'.die2)
    rintro ⟨status, die2⟩ ⟨status', die2'⟩ ended _ ⟨same, found⟩
    obtain rfl : status = status' := same
    dsimp only
    split
    · exact .done (.stop (.ended _ _))
    · rename_i positive
      have ok := (answers covered _ _ ended).resolve_right positive
      exact .done (.again (found ok))

theorem unitBody_both {addr : Nat} {ret : Die} {state state' : UnitState}
    (filled : UnitFilled dbg fuel debugLine addr ret state) (same : state.currOff = state'.currOff)
    (ret' : Die) :
    Exec.Both (Next.Both (fun state state' => state.currOff = state'.currOff) Eq)
      (unitBody dbg fuel debugLine ret addr state)
      (unitBody dbg fuel debugLine ret' addr state') := by
  apply Exec.Both.bind (enterUnit_both filled same)
  intro enter enter' entered _ both
  cases both with
  | finished => exact .done (.stop rfl)
  | skip same => exact .done (.again same)
  | @inside inside inside' same same_cu root_alike die_alike =>
      dsimp only
      rw [← same_cu]
      apply Exec.Both.bind (R := Children.Both)
      · apply loop_both (fun child child' => child.die.Alike child'.die)
        · intro child child' reached alike
          exact childBody_both root_alike alike (filled.siblings inside entered child reached)
            (filled.function inside entered child reached) ret'
        · exact die_alike
      · intro children children' _ _ both
        cases both with
        | found info => exact .done (.stop rfl)
        | ended => exact .done (.again same)

/-! ## The result -/

variable (dbg fuel debugLine) in
/-- In every round of the search the lookups answer as they are expected to. -/
def Filled (locals : Locals) (addr : Nat) : Prop :=
  ∀ state, Reached (unitBody dbg fuel debugLine locals.ret addr) locals.start state →
    UnitFilled dbg fuel debugLine addr locals.ret state

/-- From where a round begins, the search goes on in the same way whatever the
variables hold. -/
theorem Filled.loop_eq {locals : Locals} {addr : Nat}
    (filled : Filled dbg fuel debugLine locals addr) {state : UnitState}
    (reached : Reached (unitBody dbg fuel debugLine locals.ret addr) locals.start state)
    (state' : UnitState) (same : state.currOff = state'.currOff) (ret' : Die) (rounds : Nat) :
    loop (unitBody dbg fuel debugLine locals.ret addr) rounds state =
      loop (unitBody dbg fuel debugLine ret' addr) rounds state' := by
  apply Exec.Both.eq
  apply loop_both (fun state state' => state.currOff = state'.currOff)
  · intro later later' later_reached same
    exact unitBody_both (filled later (reached.trans later_reached)) same ret'
  · exact same

end

/-- Where every lookup answers as it is expected to, what is returned and stored is
the same whatever the variables hold at first; and so is what the search finds whatever
`cudie`, `die`, `die2` and `ret` hold when a round of it begins, as a lookup that has failed
may have left them. -/
theorem debuginfoRip_independent {fuel : Nat} {kernel : Kernel} {locals : Locals} {addr : Nat}
    (filled : ∀ dbg, dwarfInit kernel = some dbg →
      Filled dbg fuel kernel.debugLine locals addr) :
    (∀ locals', debuginfoRip fuel kernel locals' addr = debuginfoRip fuel kernel locals addr) ∧
      ∀ dbg, dwarfInit kernel = some dbg → ∀ state,
        Reached (unitBody dbg fuel kernel.debugLine locals.ret addr) locals.start state →
          ∀ cudie die die2 ret rounds,
            loop (unitBody dbg fuel kernel.debugLine ret addr) rounds
                { state with cudie, die, die2 } =
              loop (unitBody dbg fuel kernel.debugLine locals.ret addr) rounds state := by
  refine ⟨fun locals' => ?_, fun dbg initialised state reached cudie die die2 ret rounds => ?_⟩
  · unfold debuginfoRip
    split
    · rfl
    · cases initialised : dwarfInit kernel with
      | none => rw [Exec.ofOption_none, Exec.fault_bind, Exec.fault_bind]
      | some dbg =>
          have searched : search dbg fuel kernel.debugLine locals addr =
              search dbg fuel kernel.debugLine locals' addr :=
            (filled dbg initialised).loop_eq .refl locals'.start rfl locals'.ret fuel
          rw [Exec.ofOption_some, Exec.done_bind, Exec.done_bind, searched]
  · exact ((filled dbg initialised).loop_eq reached { state with cudie, die, die2 } rfl ret
      rounds).symm

/-! ### A function that is found -/

/-- A function around an address, which `die` may happen to hold. -/
def leftover (low : Nat) : Die where
  dieOffset := 0
  dieNextOff := 0
  dieAbnum := 0
  dieTag := tagSubprogram
  dieAb := ⟨0, 0, 0, 0, 0, []⟩
  dieName := 0x800401000d
  dieAttr := [⟨atLowPc, 1, false, low, 0, 0, 0⟩, ⟨atHighPc, 1, false, 0x8004200001, 0, 0, 0⟩]

/-- The header of the kernel, declarations of an entry with a name and of a function
with a name and addresses, and a unit of one of each. -/
def functionBytes : List Byte :=
  [0x7F, 0x45, 0x4C, 0x46, 2, 1] ++
    [1, 0x11, 1, 0x03, 0x08, 0, 0, 2, 0x2E, 0, 0x03, 0x08, 0x11, 0x01, 0x12, 0x01, 0, 0, 0] ++
    ([30, 0, 0, 0, 2, 0, 0, 0, 0, 0, 8] ++ [1, 0x6B, 0] ++
      [2, 0x66, 0, 0xFF, 0xFF, 0x1F, 0x04, 0x80, 0, 0, 0, 0x01, 0, 0x20, 0x04, 0x80, 0, 0, 0] ++
      [0])

def functionDebug : Debug where
  mem := .image 0x8004010000 functionBytes (show 0x8004010000 + 59 < 2 ^ 47 by decide)
  order := .lsb
  debugInfo := ⟨0x8004010019, 34⟩
  debugAbbrev := ⟨0x8004010006, 19⟩
  debugStr := ⟨0x8004010006, 0⟩

def functionKernel : Kernel where
  mem := functionDebug.mem
  debugInfo := functionDebug.debugInfo
  debugAbbrev := functionDebug.debugAbbrev
  debugStr := functionDebug.debugStr
  debugLine := ⟨0x8004010006, 0⟩

def functionUnit : CU where
  cuLength := 30
  version := 2
  addrSize := 8
  debugAbbrevOffset := 0
  cuLengthSize := 4
  cuDwarfSize := 4
  cuNextOffset := 34
  cuDieOffset := 11
  cuOffset := 0

def functionRoot : Die where
  dieOffset := 11
  dieNextOff := 14
  dieAbnum := 1
  dieTag := 0x11
  dieAb := ⟨1, 0x11, 1, 0, 7, [⟨0x03, 0x08, 3⟩]⟩
  dieName := 0x8004010025
  dieAttr := [⟨0x03, 0x08, false, 0x8004010025, 0, 0, 0⟩]

def functionDie : Die where
  dieOffset := 14
  dieNextOff := 33
  dieAbnum := 2
  dieTag := tagSubprogram
  dieAb := ⟨2, tagSubprogram, 0, 7, 11, [⟨0x03, 0x08, 10⟩, ⟨atLowPc, 0x01, 12⟩,
    ⟨atHighPc, 0x01, 14⟩]⟩
  dieName := 0x8004010028
  dieAttr := [⟨0x03, 0x08, false, 0x8004010028, 0, 0, 0⟩,
    ⟨atLowPc, 0x01, false, 0x80041FFFFF, 0, 0, 0⟩, ⟨atHighPc, 0x01, false, 0x8004200001, 0, 0, 0⟩]

theorem function_initialised : dwarfInit functionKernel = some functionDebug := by
  have version : functionKernel.mem.byte (0x10000 + kernbase + 4) = some 2 := by
    decide
  have order : functionKernel.mem.byte (0x10000 + kernbase + eiData) = some 1 := by
    decide
  rw [dwarfInit]
  rw [version, Option.bind_some, order, Option.map_some, if_neg (by decide)]
  rfl

theorem function_unit :
    getNextCu functionDebug 0 zeroLocals.cu = some (0, 34, functionUnit) := by
  decide

theorem function_root : dwarfSiblingof functionDebug functionUnit 4 none zeroDie =
    .done (dleNone, functionRoot) := by
  decide

theorem function_child : dwarfChild functionDebug functionUnit 4 functionRoot zeroDie =
    .done (dlvOk, functionDie) := by
  decide

theorem function_no_params :
    dwarfChild functionDebug functionUnit 4 functionDie zeroDie = .done (dleNoEntry, zeroDie) := by
  decide

theorem function_entered : enterUnit functionDebug 4 zeroLocals.start =
    .done (.inside ⟨34, functionUnit, functionRoot, functionDie, zeroDie⟩) := by
  decide

theorem function_covers : covers functionDie 0x8004200000 := by
  decide

theorem function_stored :
    childBody functionDebug 4 functionKernel.debugLine functionUnit functionRoot zeroDie
        0x8004200000 ⟨functionDie, zeroDie⟩ =
      .done (.stop (.found ⟨.mem 0x8004010025, 0, .mem 0x8004010028, 1, 0x80041FFFFF, []⟩)) := by
  decide

theorem function_found :
    unitBody functionDebug 4 functionKernel.debugLine zeroDie 0x8004200000 zeroLocals.start =
      .done (.stop (some ⟨.mem 0x8004010025, 0, .mem 0x8004010028, 1, 0x80041FFFFF, []⟩)) :=
  unitBody_of_found function_entered (loop_stop function_stored 3)

/-- The loop over the children stops at the function. -/
theorem function_first {child : ChildState}
    (reached : Reached (childBody functionDebug 4 functionKernel.debugLine functionUnit
      functionRoot zeroDie 0x8004200000) ⟨functionDie, zeroDie⟩ child) :
    child = ⟨functionDie, zeroDie⟩ :=
  reached.eq_of_stop function_stored

theorem function_filled :
    Filled functionDebug 4 functionKernel.debugLine zeroLocals 0x8004200000 := by
  intro state reached
  obtain rfl := reached.eq_of_stop function_found
  have unit_eq : ∀ currOff cu, getNextCu functionDebug zeroLocals.start.currOff
      zeroLocals.start.cu = some (0, currOff, cu) → cu = functionUnit := by
    intro currOff cu found
    cases found.symm.trans function_unit
    rfl
  constructor
  · intro currOff cu found
    rw [unit_eq currOff cu found]
    decide
  · intro currOff cu found status die ended
    rw [unit_eq currOff cu found] at ended
    cases ended.symm.trans function_root
    exact .inr rfl
  · intro currOff cu cudie found root status die ended
    rw [unit_eq currOff cu found] at root ended
    cases root.symm.trans function_root
    cases ended.symm.trans function_child
    exact .inr rfl
  · intro inside entered child child_reached elsewhere
    cases entered.symm.trans function_entered
    obtain rfl := function_first child_reached
    exact absurd function_covers elsewhere
  · intro inside entered child child_reached _
    cases entered.symm.trans function_entered
    obtain rfl := function_first child_reached
    refine ⟨⟨⟨_, List.mem_cons_self, rfl, .inr rfl⟩, ⟨_, List.mem_cons_self, rfl, .inr rfl⟩⟩, ?_⟩
    constructor
    · intro status die ended
      cases ended.symm.trans function_no_params
      exact .inl rfl
    · intro first ended
      cases ended.symm.trans function_no_params
    · intro first retVal ended
      cases ended.symm.trans function_no_params

/-- With a function left in `die`, the same is found as with nothing there. -/
theorem debuginfoRip_independent_function :
    debuginfoRip 4 functionKernel { zeroLocals with die := leftover 1 } 0x8004200000 =
      debuginfoRip 4 functionKernel zeroLocals 0x8004200000 := by
  have filled : ∀ dbg, dwarfInit functionKernel = some dbg →
      Filled dbg 4 functionKernel.debugLine zeroLocals 0x8004200000 := by
    intro dbg initialised
    cases initialised.symm.trans function_initialised
    exact function_filled
  exact (debuginfoRip_independent filled).1 _

/-! ### A unit without children -/

/-- The header of the kernel, a declaration of an entry that can have children, and
a unit of one such entry that has none. -/
def childlessBytes : List Byte :=
  [0x7F, 0x45, 0x4C, 0x46, 2, 1] ++ [1, 0x11, 1, 0, 0, 0] ++
    ([9, 0, 0, 0, 2, 0, 0, 0, 0, 0, 8] ++ [1, 0])

def childlessKernel : Kernel where
  mem := .image 0x8004010000 childlessBytes (show 0x8004010000 + 25 < 2 ^ 47 by decide)
  debugInfo := ⟨0x800401000c, 13⟩
  debugAbbrev := ⟨0x8004010006, 6⟩
  debugStr := ⟨0x8004010006, 0⟩
  debugLine := ⟨0x8004010006, 0⟩

/-- The search for the first child of the unit fails, and the code that says so is
not the one that is tested for. -/
theorem leftover_found :
    ¬ ∀ (fuel : Nat) (kernel : Kernel) (locals locals' : Locals) (addr : Nat),
      debuginfoRip fuel kernel locals addr = debuginfoRip fuel kernel locals' addr := by
  intro claim
  have same := claim 4 childlessKernel { zeroLocals with die := leftover 1 }
    { zeroLocals with die := leftover 2 } 0x8004200000
  revert same
  decide

end Jos64.Debuginfo
