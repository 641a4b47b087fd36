import Jos64.Debuginfo.Core
import Jos64.Dwarf.Search
import Jos64.Lineno.Lookup
import Jos64.Loop.Runs

/-!
# Where the search ends

The search of `debuginfo_rip` ends if each of its steps leads forward: from an
entry to a larger offset, over skipped entries to larger offsets, and for the
function that is found over its lines and parameters, none of whose types refers
back to one before.  Nothing in the code sees to that: an entry whose sibling
reference refers to itself is visited forever.
-/

namespace Jos64.Debuginfo

open Loop Dwarf Lineno

variable {dbg : Debug} {cu : CU}

/-! ## Searches for an entry -/

theorem searchBody_ne_timeout (searchSibling : Bool) (state : SearchState) :
    searchBody dbg cu searchSibling state ≠ .timeout := by
  rw [searchBody]
  split
  · apply Exec.bind_ne_timeout (Exec.ofOption_ne_timeout _)
    intro read _
    cases read with
    | null next =>
        dsimp only
        split
        · exact Exec.done_ne_timeout _
        · exact Exec.done_ne_timeout _
    | failed ret die => exact Exec.done_ne_timeout _
    | entry die =>
        dsimp only
        split
        · exact Exec.done_ne_timeout _
        · exact Exec.done_ne_timeout _
  · exact Exec.done_ne_timeout _

/-- The search goes on only inside the section, and only if it skips
entries. -/
theorem searchBody_again {searchSibling : Bool} {state state' : SearchState}
    (round : searchBody dbg cu searchSibling state = .done (.again state')) :
    state.offset < dbg.debugInfo.dsSize ∧ searchSibling = true := by
  cases searchBody_round round with
  | null inside _ skips => exact ⟨inside, skips⟩
  | passed inside _ skips => exact ⟨inside, skips⟩

/-- What the search reports, unless that there is no entry, stands inside the
section where the last round has looked. -/
theorem searchBody_stop {searchSibling : Bool} {state : SearchState} {ret : Int} {die : Die}
    (round : searchBody dbg cu searchSibling state = .done (.stop (ret, die)))
    (some_entry : ret ≠ dleNoEntry) :
    die.dieOffset = state.offset ∧ state.offset < dbg.debugInfo.dsSize := by
  cases searchBody_round round with
  | ended => exact absurd rfl some_entry
  | failed inside read =>
      rcases readEntry_failed read with missing | ⟨-, offset_eq⟩
      · exact absurd missing some_entry
      · exact ⟨offset_eq, inside⟩
  | found inside read => exact ⟨dieOffset_of_readEntry read, inside⟩

/-- Every entry that the search passes over ends behind its beginning. -/
def PassesForward (dbg : Debug) (cu : CU) (offset : Nat) (searchSibling : Bool) (retDie : Die) :
    Prop :=
  ∀ state, Reached (searchBody dbg cu searchSibling) ⟨offset, 1, retDie⟩ state →
    ∀ die, readEntry dbg cu state.offset state.retDie = some (.entry die) →
      searchSibling = true → 0 < state.level → state.offset < die.dieNextOff

/-- A search that skips nothing passes over nothing. -/
theorem passesForward_single (offset : Nat) (retDie : Die) :
    PassesForward dbg cu offset false retDie :=
  fun _ _ _ _ => nofun

section

variable (in_memory : dbg.debugInfo.dsData + dbg.debugInfo.dsSize ≤ dbg.mem.top)
  {offset fuel : Nat} {searchSibling : Bool} {retDie : Die}
  (forward : PassesForward dbg cu offset searchSibling retDie)

include in_memory forward

/-- The rounds lead forward: over entries as they are to, over entries of code
zero by what is read of them. -/
theorem searchBody_forward {state state' : SearchState}
    (reached : Reached (searchBody dbg cu searchSibling) ⟨offset, 1, retDie⟩ state)
    (round : searchBody dbg cu searchSibling state = .done (.again state')) :
    state.offset < state'.offset := by
  cases searchBody_round round with
  | null inside read =>
      obtain ⟨abnum, next', code_eq, outcome⟩ := readEntry_cases read
      rcases outcome with ⟨-, same⟩ | ⟨-, same⟩ | ⟨_, _, _, _, _, same | same⟩
      · cases same
        exact lt_of_readUleb128 in_memory inside code_eq
      · cases same
      · cases same
      · cases same
  | passed _ read skips above => exact forward state reached _ read skips above

theorem search_ne_timeout (enough : dbg.debugInfo.dsSize < fuel) :
    searchDieWithinCu dbg cu fuel offset retDie searchSibling ≠ .timeout := by
  apply loop_ne_timeout_of_reached fun state => dbg.debugInfo.dsSize - state.offset
  · exact fun state _ => searchBody_ne_timeout searchSibling state
  · intro state state' reached round
    have inside := (searchBody_again round).1
    have further := searchBody_forward in_memory forward reached round
    omega
  · omega

theorem search_offset {ret : Int} {die : Die}
    (ended : searchDieWithinCu dbg cu fuel offset retDie searchSibling = .done (ret, die))
    (some_entry : ret ≠ dleNoEntry) :
    offset ≤ die.dieOffset ∧ die.dieOffset < dbg.debugInfo.dsSize := by
  refine loop_result
    (fun state => Reached (searchBody dbg cu searchSibling) ⟨offset, 1, retDie⟩ state ∧
      offset ≤ state.offset)
    (fun result => result.1 ≠ dleNoEntry →
      offset ≤ result.2.dieOffset ∧ result.2.dieOffset < dbg.debugInfo.dsSize)
    ?_ ?_ ⟨.refl, le_refl _⟩ ended some_entry
  · rintro state state' ⟨reached, behind⟩ round
    exact ⟨reached.again round,
      behind.trans (searchBody_forward in_memory forward reached round).le⟩
  · rintro state ⟨ret, die⟩ ⟨-, behind⟩ round some_entry
    obtain ⟨offset_eq, inside⟩ := searchBody_stop round some_entry
    dsimp only
    omega

end

/-! ## Siblings -/

/-- The search for the sibling of an entry begins behind the entry, and passes
over entries that end behind their beginning. -/
structure StepForward (dbg : Debug) (cu : CU) (die retDie : Die) : Prop where
  start : die.dieOffset < (siblingStart cu die).1
  passes : PassesForward dbg cu (siblingStart cu die).1 (siblingStart cu die).2 retDie

section

variable (in_memory : dbg.debugInfo.dsData + dbg.debugInfo.dsSize ≤ dbg.mem.top)
  {die retDie : Die} {fuel : Nat} (forward : StepForward dbg cu die retDie)

include in_memory forward

theorem siblingof_ne_timeout (enough : dbg.debugInfo.dsSize < fuel) :
    dwarfSiblingof dbg cu fuel (some die) retDie ≠ .timeout := by
  apply Exec.bind_ne_timeout (search_ne_timeout in_memory forward.passes enough)
  exact fun _ _ => nofun

/-- A status that does not end the loop comes with an entry further on. -/
theorem siblingof_offset {ret : Int} {die' : Die}
    (ended : dwarfSiblingof dbg cu fuel (some die) retDie = .done (ret, die'))
    (goes_on : ¬ ret < 0) :
    die.dieOffset < die'.dieOffset ∧ die'.dieOffset < dbg.debugInfo.dsSize := by
  obtain ⟨⟨code, found⟩, search, result⟩ := Exec.bind_eq_done ended
  cases result
  have some_entry : code ≠ dleNoEntry := by
    rintro rfl
    exact goes_on (by decide)
  obtain ⟨behind, inside⟩ := search_offset in_memory forward.passes search some_entry
  exact ⟨forward.start.trans_le behind, inside⟩

end

/-! ## Single entries -/

section

variable (in_memory : dbg.debugInfo.dsData + dbg.debugInfo.dsSize ≤ dbg.mem.top)

include in_memory

theorem offdie_ne_timeout {fuel offset : Nat} {retDie : Die}
    (enough : dbg.debugInfo.dsSize < fuel) :
    dwarfOffdie dbg cu fuel offset retDie ≠ .timeout := by
  rw [dwarfOffdie]
  split
  · exact search_ne_timeout in_memory (passesForward_single offset retDie) enough
  · exact nofun

theorem child_ne_timeout {fuel : Nat} {die retDie : Die} (enough : dbg.debugInfo.dsSize < fuel) :
    dwarfChild dbg cu fuel die retDie ≠ .timeout := by
  rw [dwarfChild]
  split
  · exact nofun
  · apply Exec.bind_ne_timeout (search_ne_timeout in_memory (passesForward_single _ retDie) enough)
    exact fun _ _ => nofun

end

/-- Where there is no entry the variable is left as it is. -/
theorem offdie_outside {fuel offset : Nat} (positive : 0 < fuel)
    (outside : ¬ offset < dbg.debugInfo.dsSize) (retDie : Die) :
    ∃ status, dwarfOffdie dbg cu fuel offset retDie = .done (status, retDie) := by
  obtain ⟨fuel, rfl⟩ : ∃ more, fuel = more + 1 := ⟨fuel - 1, by omega⟩
  rw [dwarfOffdie]
  split
  · rw [search_single, if_neg fun inside => outside inside.2]
    exact ⟨_, rfl⟩
  · exact ⟨_, rfl⟩

/-! ## The parameters -/

/-- The offset of the type that is looked at next. -/
def typeOffset (cu : CU) (state : Die × Option Attribute) : Option Nat :=
  state.2.map fun attr => u64 (cu.cuOffset + attr.u0)

/-- A round that goes on has the attribute of the next type from the entry of this
one. -/
theorem typeBody_again {fuel : Nat} {state state' : Die × Option Attribute}
    (round : typeBody dbg fuel cu state = .done (.again state')) :
    state'.2 = attrFind state'.1 atType ∧ ∃ offset status, typeOffset cu state = some offset ∧
      dwarfOffdie dbg cu fuel offset state.1 = .done (status, state'.1) := by
  obtain ⟨sib, attr⟩ := state
  cases attr with
  | none => cases round
  | some attr =>
      obtain ⟨⟨status, die⟩, ended, round⟩ := Exec.bind_eq_done round
      dsimp only at round
      split at round
      · cases round
      · cases round
        exact ⟨rfl, _, status, rfl, ended⟩

section

variable (in_memory : dbg.debugInfo.dsData + dbg.debugInfo.dsSize ≤ dbg.mem.top) {fuel : Nat}
  (enough : dbg.debugInfo.dsSize + 1 < fuel)

include in_memory enough

theorem typeBody_ne_timeout (state : Die × Option Attribute) :
    typeBody dbg fuel cu state ≠ .timeout := by
  obtain ⟨sib, attr⟩ := state
  cases attr with
  | none => exact Exec.done_ne_timeout _
  | some attr =>
      apply Exec.bind_ne_timeout (offdie_ne_timeout in_memory (by omega))
      rintro ⟨status, die⟩ -
      dsimp only
      split
      · exact nofun
      · exact nofun

/-- A chain of types that comes to none of them twice ends: after the first, each of them
is at an offset of its own in the section. -/
theorem typeLoop_ne_timeout {start : Die × Option Attribute}
    (fresh : Fresh (typeBody dbg fuel cu) (typeOffset cu) start) :
    loop (typeBody dbg fuel cu) fuel start ≠ .timeout := by
  obtain ⟨rounds, fuel_eq⟩ : ∃ rounds, fuel = rounds + 1 := ⟨fuel - 1, by omega⟩
  have first : loop (typeBody dbg fuel cu) (rounds + 1) start ≠ .timeout := by
    apply Exec.bind_ne_timeout (typeBody_ne_timeout in_memory enough start)
    intro next round
    cases next with
    | stop size => exact nofun
    | again second =>
        have fresh := fresh.next round
        refine fresh.loop_ne_timeout ((Finset.range dbg.debugInfo.dsSize).image some)
          (fun state _ => typeBody_ne_timeout in_memory enough state)
          (fun state next reached again => ?_) ?_
        · have attr_eq : state.2 = attrFind state.1 atType := by
            cases reached with
            | refl => exact (typeBody_again round).1
            | again _ before => exact (typeBody_again before).1
          obtain ⟨next_eq, offset, status, offset_eq, ended⟩ := typeBody_again again
          rw [offset_eq, Finset.mem_image]
          refine ⟨offset, Finset.mem_range.mpr ?_, rfl⟩
          -- outside of the section the state would be left as it is
          by_contra outside
          obtain ⟨_, left⟩ := @offdie_outside dbg cu fuel offset (by omega) outside state.1
          have same : next = state := by
            have kept := (Prod.mk.inj (Exec.done.inj (left.symm.trans ended))).2
            rw [← kept] at next_eq
            exact Prod.ext kept.symm (next_eq.trans attr_eq.symm)
          exact fresh state next next reached again .refl (congrArg (typeOffset cu) same)
        · exact (Finset.card_image_le.trans_eq (Finset.card_range _)).trans_lt (by omega)
  rwa [← fuel_eq] at first

theorem paramSize_ne_timeout (sib ret : Die) (retVal : Nat) :
    paramSize dbg fuel cu sib ret retVal ≠ .timeout := by
  rw [paramSize]
  split
  · exact nofun
  · apply Exec.bind_ne_timeout (offdie_ne_timeout in_memory (by omega))
    rintro ⟨status, die⟩ -
    dsimp only
    split
    · exact nofun
    · exact nofun

/-- The loop over the further parameters ends if each of its steps leads forward. -/
theorem paramLoop_ne_timeout {start : Params}
    (forward : ∀ state, Reached (paramBody dbg fuel cu) start state →
      StepForward dbg cu state.sib state.ret) :
    loop (paramBody dbg fuel cu) fuel start ≠ .timeout := by
  apply loop_ne_timeout_of_reached fun state => dbg.debugInfo.dsSize - state.sib.dieOffset
  · intro state reached
    apply Exec.bind_ne_timeout
      (siblingof_ne_timeout in_memory (forward state reached) (by omega))
    rintro ⟨status, ret⟩ -
    dsimp only
    split
    · exact nofun
    · split
      · exact nofun
      · exact Exec.bind_ne_timeout (paramSize_ne_timeout in_memory enough _ _ _) fun _ _ => nofun
  · intro state state' reached round
    obtain ⟨⟨status, ret⟩, sibling, round⟩ := Exec.bind_eq_done round
    dsimp only at round
    split at round
    · cases round
    · rename_i found
      split at round
      · cases round
      · obtain ⟨size, -, made⟩ := Exec.bind_eq_done round
        cases made
        obtain rfl : status = dlvOk := not_not.mp found
        obtain ⟨further, inside⟩ := siblingof_offset in_memory (forward state reached) sibling
          (by decide)
        dsimp only
        omega
  · omega

end

/-! ## A function -/

/-- The first child of the function is a parameter. -/
def FirstParam (dbg : Debug) (fuel : Nat) (cu : CU) (die ret first : Die) : Prop :=
  first.dieTag = tagFormalParameter ∧
    ∃ status, status ≠ dleNoEntry ∧ dwarfChild dbg cu fuel die ret = .done (status, first)

/-- What is looked up for a function that is found leads forward: its line, the types of
its first parameter, none of which is come to twice, and the further parameters. -/
structure CallForward (dbg : Debug) (fuel : Nat) (debugLine : Section) (cu : CU)
    (cudie ret die : Die) (addr : Nat) : Prop where
  line : Lineno.LookupForward dbg.order dbg.mem debugLine fuel cu.addrSize cudie addr
  types : ∀ first, FirstParam dbg fuel cu die ret first →
    Fresh (typeBody dbg fuel cu) (typeOffset cu) (die, attrFind first atType)
  params : ∀ first, FirstParam dbg fuel cu die ret first → ∀ size,
    loop (typeBody dbg fuel cu) fuel (die, attrFind first atType) = .done size → ∀ state,
      Reached (paramBody dbg fuel cu)
        ⟨first, first, size.getD 8, [BitVec.ofNat 32 (size.getD 8)]⟩ state →
          StepForward dbg cu state.sib state.ret

/-- The step from a child leads forward: to its sibling, or, for the function, over what
is looked up. -/
structure ChildForward (dbg : Debug) (fuel : Nat) (debugLine : Section) (cu : CU)
    (cudie ret : Die) (addr : Nat) (child : ChildState) : Prop where
  sibling : ¬ covers child.die addr → StepForward dbg cu child.die child.die2
  call : covers child.die addr → CallForward dbg fuel debugLine cu cudie ret child.die addr

theorem childBody_again {fuel : Nat} {debugLine : Section} {cudie ret : Die} {addr : Nat}
    {state state' : ChildState}
    (round : childBody dbg fuel debugLine cu cudie ret addr state = .done (.again state')) :
    ¬ covers state.die addr ∧ ∃ status, ¬ status < 0 ∧
      dwarfSiblingof dbg cu fuel (some state.die) state.die2 = .done (status, state'.die) := by
  by_cases covered : covers state.die addr
  · rw [childBody_of_covers covered] at round
    obtain ⟨info, -, round⟩ := Exec.bind_eq_done round
    cases round
  · rw [childBody_of_not_covers covered] at round
    obtain ⟨⟨status, die2⟩, sibling, round⟩ := Exec.bind_eq_done round
    dsimp only at round
    split at round
    · cases round
    · rename_i goes_on
      cases round
      exact ⟨covered, status, goes_on, sibling⟩

section

variable (in_memory : dbg.debugInfo.dsData + dbg.debugInfo.dsSize ≤ dbg.mem.top) {fuel : Nat}
  (enough : dbg.mem.top + 1 < fuel) {debugLine : Section} {cudie ret : Die} {addr : Nat}

include in_memory enough

theorem storeFunction_ne_timeout {die : Die}
    (forward : CallForward dbg fuel debugLine cu cudie ret die addr) :
    storeFunction dbg fuel debugLine cu cudie ret die addr ≠ .timeout := by
  refine Exec.bind_ne_timeout (Exec.ofOption_ne_timeout _) fun namelen _ => ?_
  refine Exec.bind_ne_timeout
    (Lineno.dwarfSrclines_ne_timeout (by omega) forward.line .zero) fun line _ => ?_
  refine Exec.bind_ne_timeout ?_ fun sizes _ => nofun
  apply Exec.bind_ne_timeout (child_ne_timeout in_memory (by omega))
  rintro ⟨status, first⟩ child
  dsimp only
  split
  · rename_i found
    split
    · exact nofun
    · rename_i tag
      have is_param : FirstParam dbg fuel cu die ret first := ⟨not_not.mp tag, status, found, child⟩
      refine Exec.bind_ne_timeout (typeLoop_ne_timeout in_memory (by omega)
        (forward.types first is_param)) fun size sized => ?_
      exact paramLoop_ne_timeout in_memory (by omega) (forward.params first is_param size sized)
  · exact nofun

/-- The loop over the children ends if each of its steps leads forward. -/
theorem childLoop_ne_timeout {start : ChildState}
    (forward : ∀ child, Reached (childBody dbg fuel debugLine cu cudie ret addr) start child →
      ChildForward dbg fuel debugLine cu cudie ret addr child) :
    loop (childBody dbg fuel debugLine cu cudie ret addr) fuel start ≠ .timeout := by
  apply loop_ne_timeout_of_reached fun state => dbg.debugInfo.dsSize - state.die.dieOffset
  · intro state reached
    by_cases covered : covers state.die addr
    · rw [childBody_of_covers covered]
      exact Exec.bind_ne_timeout
        (storeFunction_ne_timeout in_memory enough ((forward state reached).call covered))
        fun _ _ => nofun
    · rw [childBody_of_not_covers covered]
      apply Exec.bind_ne_timeout
        (siblingof_ne_timeout in_memory ((forward state reached).sibling covered) (by omega))
      rintro ⟨ret, die2⟩ _
      dsimp only
      split
      · exact nofun
      · exact nofun
  · intro state state' reached round
    obtain ⟨elsewhere, status, goes_on, sibling⟩ := childBody_again round
    obtain ⟨further, inside⟩ := siblingof_offset in_memory
      ((forward state reached).sibling elsewhere) sibling goes_on
    omega
  · omega

end

/-! ## Units -/

section

variable (in_memory : dbg.debugInfo.dsData + dbg.debugInfo.dsSize ≤ dbg.mem.top)

include in_memory

theorem enterUnit_ne_timeout {fuel : Nat} (enough : dbg.debugInfo.dsSize < fuel)
    (state : UnitState) : enterUnit dbg fuel state ≠ .timeout := by
  apply Exec.bind_ne_timeout (Exec.ofOption_ne_timeout _)
  rintro ⟨ret, currOff, cu⟩ _
  dsimp only
  split
  · apply Exec.bind_ne_timeout (offdie_ne_timeout in_memory enough)
    rintro ⟨ret, cudie⟩ _
    dsimp only
    split
    · exact nofun
    · apply Exec.bind_ne_timeout (child_ne_timeout in_memory enough)
      rintro ⟨ret, die⟩ _
      dsimp only
      split
      · exact nofun
      · exact nofun
  · exact nofun

end

/-- The loop over the units goes on with the next of them. -/
theorem enterUnit_currOff {fuel : Nat} {state : UnitState} {enter : Enter}
    (entered : enterUnit dbg fuel state = .done enter) :
    enter = .finished ∨ ∃ next cu state',
      getNextCu dbg state.currOff state.cu = some (0, next, cu) ∧ state'.currOff = next ∧
        (enter = .skip state' ∨ enter = .inside state') := by
  obtain ⟨⟨ret, next, cu⟩, read_eq, rest⟩ := Exec.bind_eq_done entered
  cases found : getNextCu dbg state.currOff state.cu with
  | none =>
      rw [found] at read_eq
      contradiction
  | some read =>
      rw [found] at read_eq
      cases read_eq
      dsimp only at rest
      split at rest
      · rename_i ok
        subst ok
        obtain ⟨⟨ret, cudie⟩, -, rest⟩ := Exec.bind_eq_done rest
        dsimp only at rest
        split at rest
        · cases rest
          exact .inr ⟨next, cu, _, rfl, rfl, .inl rfl⟩
        · obtain ⟨⟨ret, die⟩, -, rest⟩ := Exec.bind_eq_done rest
          dsimp only at rest
          split at rest
          · cases rest
            exact .inr ⟨next, cu, _, rfl, rfl, .inl rfl⟩
          · cases rest
            exact .inr ⟨next, cu, _, rfl, rfl, .inr rfl⟩
      · cases rest
        exact .inl rfl

theorem unitBody_again {fuel addr : Nat} {debugLine : Section} {ret : Die}
    {state state' : UnitState}
    (round : unitBody dbg fuel debugLine ret addr state = .done (.again state')) :
    ∃ cu, getNextCu dbg state.currOff state.cu = some (0, state'.currOff, cu) := by
  obtain ⟨enter, entered, rest⟩ := Exec.bind_eq_done round
  rcases enterUnit_currOff entered with rfl | ⟨next, cu, middle, found, rfl, rfl | rfl⟩
  · cases rest
  · cases rest
    exact ⟨cu, found⟩
  · obtain ⟨children, -, result⟩ := Exec.bind_eq_done rest
    cases children with
    | found die => cases result
    | ended children =>
        cases result
        exact ⟨cu, found⟩

/-- Every step of the loops over the children leads forward, in every unit that
the search comes to. -/
def SearchForward (dbg : Debug) (fuel : Nat) (debugLine : Section) (locals : Locals)
    (addr : Nat) : Prop :=
  ∀ state, Reached (unitBody dbg fuel debugLine locals.ret addr) locals.start state →
    ∀ inside, enterUnit dbg fuel state = .done (.inside inside) → ∀ child,
      Reached (childBody dbg fuel debugLine inside.cu inside.cudie locals.ret addr)
        ⟨inside.die, inside.die2⟩ child →
          ChildForward dbg fuel debugLine inside.cu inside.cudie locals.ret addr child

/-- A search whose steps all lead forward ends, after no more rounds of each of its
loops than the memory has addresses. -/
theorem search_terminates
    (in_memory : dbg.debugInfo.dsData + dbg.debugInfo.dsSize ≤ dbg.mem.top) {fuel : Nat}
    (enough : dbg.mem.top + 1 < fuel) {debugLine : Section} {locals : Locals} {addr : Nat}
    (forward : SearchForward dbg fuel debugLine locals addr) :
    search dbg fuel debugLine locals addr ≠ .timeout := by
  apply loop_ne_timeout_of_reached fun state => dbg.debugInfo.dsSize + 1 - state.currOff
  · intro state reached
    apply Exec.bind_ne_timeout (enterUnit_ne_timeout in_memory (by omega) state)
    intro enter entered
    cases enter with
    | finished => exact nofun
    | skip state => exact nofun
    | inside inside =>
        apply Exec.bind_ne_timeout
          (childLoop_ne_timeout in_memory enough (forward state reached inside entered))
        intro children _
        cases children with
        | found info => exact nofun
        | ended children => exact nofun
  · intro state state' _ round
    obtain ⟨cu, found⟩ := unitBody_again round
    have further := currOff_lt_of_getNextCu in_memory found
    omega
  · rw [Locals.start]
    omega

/-! ## A function behind its types -/

section

def zeroDie : Die :=
  ⟨0, 0, 0, 0, ⟨0, 0, 0, 0, 0, []⟩, 0, []⟩

def zeroLocals : Locals :=
  ⟨⟨0, 0, 0, 0, 0, 0, 0, 0, 0⟩, zeroDie, zeroDie, zeroDie, zeroDie⟩

/-- Declarations of an entry with a name and lines, of a type with a size, of another name
for a type, of a function with a name and addresses, and of a parameter; a unit of a file
with two types and a function of two parameters; and the lines of the file. -/
def forwardBytes : List Byte :=
  [1, 0x11, 1, 0x03, 0x08, 0x10, 0x0B, 0, 0, 2, 0x24, 0, 0x0B, 0x0B, 0, 0,
    3, 0x16, 0, 0x49, 0x11, 0, 0, 4, 0x2E, 1, 0x03, 0x08, 0x11, 0x01, 0x12, 0x01, 0, 0,
    5, 0x05, 0, 0x49, 0x11, 0, 0, 0] ++
    ([40, 0, 0, 0, 2, 0, 0, 0, 0, 0, 8] ++ ([1, 0x6B, 0, 0, 2, 1, 3, 15] ++
      [4, 0x66, 0, 0, 0x20, 0, 0, 0, 0, 0, 0, 0x10, 0x20, 0, 0, 0, 0, 0, 0, 5, 17, 5, 15, 0] ++
      [0])) ++
    [20, 0, 0, 0, 2, 0, 12, 0, 0, 0, 1, 1, 1, 1, 1, 0, 0x6B, 0, 0, 0, 0, 0, 5, 5]

def forwardDebug : Debug where
  mem := .image 0x1000 forwardBytes (show 0x1000 + 110 < 2 ^ 47 by decide)
  order := .lsb
  debugInfo := ⟨0x102A, 44⟩
  debugAbbrev := ⟨0x1000, 42⟩
  debugStr := ⟨0x1000, 0⟩

def forwardLines : Section :=
  ⟨0x1056, 24⟩

def forwardUnit : CU where
  cuLength := 40
  version := 2
  addrSize := 8
  debugAbbrevOffset := 0
  cuLengthSize := 4
  cuDwarfSize := 4
  cuNextOffset := 44
  cuDieOffset := 11
  cuOffset := 0

def forwardRoot : Die where
  dieOffset := 11
  dieNextOff := 15
  dieAbnum := 1
  dieTag := 0x11
  dieAb := ⟨1, 0x11, 1, 0, 9, [⟨0x03, 0x08, 3⟩, ⟨0x10, 0x0B, 5⟩]⟩
  dieName := 0x1036
  dieAttr := [⟨0x03, 0x08, false, 0x1036, 0, 0, 0⟩, ⟨0x10, 0x0B, false, 0, 0, 0, 0⟩]

/-- The type with a size. -/
def forwardBase : Die where
  dieOffset := 15
  dieNextOff := 17
  dieAbnum := 2
  dieTag := 0x24
  dieAb := ⟨2, 0x24, 0, 9, 7, [⟨0x0B, 0x0B, 12⟩]⟩
  dieName := 0
  dieAttr := [⟨0x0B, 0x0B, false, 1, 0, 0, 0⟩]

def forwardFunction : Die where
  dieOffset := 19
  dieNextOff := 38
  dieAbnum := 4
  dieTag := tagSubprogram
  dieAb := ⟨4, tagSubprogram, 1, 23, 11, [⟨0x03, 0x08, 26⟩, ⟨atLowPc, 0x01, 28⟩,
    ⟨atHighPc, 0x01, 30⟩]⟩
  dieName := 0x103E
  dieAttr := [⟨0x03, 0x08, false, 0x103E, 0, 0, 0⟩, ⟨atLowPc, 0x01, false, 0x2000, 0, 0, 0⟩,
    ⟨atHighPc, 0x01, false, 0x2010, 0, 0, 0⟩]

def forwardParam : Die where
  dieOffset := 38
  dieNextOff := 40
  dieAbnum := 5
  dieTag := tagFormalParameter
  dieAb := ⟨5, tagFormalParameter, 0, 34, 7, [⟨atType, 0x11, 37⟩]⟩
  dieName := 0
  dieAttr := [⟨atType, 0x11, false, 17, 0, 0, 0⟩]

/-- The other name for the type, as it is read over the function. -/
def forwardTypedef : Die where
  dieOffset := 17
  dieNextOff := 19
  dieAbnum := 3
  dieTag := 0x16
  dieAb := ⟨3, 0x16, 0, 16, 7, [⟨atType, 0x11, 19⟩]⟩
  dieName := 0x103E
  dieAttr := [⟨atType, 0x11, false, 15, 0, 0, 0⟩]

theorem forward_entered : enterUnit forwardDebug 5000 zeroLocals.start =
    .done (.inside ⟨44, forwardUnit, forwardRoot, forwardBase, zeroDie⟩) := by
  decide

/-- The function is found, with its line and two parameters of a byte. -/
theorem forward_found : unitBody forwardDebug 5000 forwardLines zeroDie 0x2008 zeroLocals.start =
    .done (.stop (some ⟨.mem 0x1036, 3, .mem 0x103E, 1, 0x2000, [1, 1]⟩)) := by
  -- the typedef is read over an entry without a name
  let typedef : Die := { forwardTypedef with dieName := 0 }
  have base : childBody forwardDebug 5000 forwardLines forwardUnit forwardRoot zeroDie 0x2008
      ⟨forwardBase, zeroDie⟩ = .done (.again ⟨typedef, typedef⟩) := by
    decide
  have other : childBody forwardDebug 5000 forwardLines forwardUnit forwardRoot zeroDie 0x2008
      ⟨typedef, typedef⟩ = .done (.again ⟨forwardFunction, forwardFunction⟩) := by
    decide
  have function : childBody forwardDebug 5000 forwardLines forwardUnit forwardRoot zeroDie 0x2008
      ⟨forwardFunction, forwardFunction⟩ =
        .done (.stop (.found ⟨.mem 0x1036, 3, .mem 0x103E, 1, 0x2000, [1, 1]⟩)) := by
    decide
  exact unitBody_of_found forward_entered
    ((loop_again base 4999).trans ((loop_again other 4998).trans (loop_stop function 4997)))

/-- The search for the sibling of an entry skips nothing, and begins behind the entry. -/
def stepsForward (cu : CU) (die : Die) : Bool :=
  !(siblingStart cu die).2 && die.dieOffset < (siblingStart cu die).1

theorem stepForward_of_check {die : Die} (checked : stepsForward cu die) (retDie : Die) :
    StepForward dbg cu die retDie := by
  obtain ⟨single, start⟩ := (Bool.and_eq_true _ _).mp checked
  refine ⟨of_decide_eq_true start, ?_⟩
  rw [Bool.not_eq_true'] at single
  rw [single]
  exact passesForward_single _ _

theorem forward_children {child : ChildState}
    (reached : Reached (childBody forwardDebug 5000 forwardLines forwardUnit forwardRoot zeroDie
      0x2008) ⟨forwardBase, zeroDie⟩ child) :
    child.die = forwardFunction ∨
      ¬ covers child.die 0x2008 ∧ stepsForward forwardUnit child.die := by
  have checked : checkRun
      (childBody forwardDebug 5000 forwardLines forwardUnit forwardRoot zeroDie 0x2008)
      (fun child => decide (child.die = forwardFunction ∨
        ¬ covers child.die 0x2008 ∧ stepsForward forwardUnit child.die)) 3
      ⟨forwardBase, zeroDie⟩ := by
    decide
  have held := reached.check checked
  exact of_decide_eq_true held

theorem forward_tables {tables : Nat}
    (tabled : TablesAt .lsb forwardDebug.mem forwardLines 0 tables) : tables = 15 := by
  obtain ⟨length, dwarfSize, next, header, hdroff, opcodes, liOplen, length_read, fields_read,
    oplen_read⟩ := tabled.fields
  have first : readLength .lsb forwardDebug.mem forwardLines 0 = some (20, 4, 4) := by
    decide
  cases length_read.symm.trans first
  have second : readFields .lsb forwardDebug.mem forwardLines 20 4 4 =
      some (⟨20, 2, 12, 1, 1, 1, 1, 1, [], 0⟩, 10, 15) := by
    decide
  cases fields_read.symm.trans second
  cases oplen_read
  rfl

theorem forward_lookup :
    LookupForward .lsb forwardDebug.mem forwardLines 5000 8 forwardRoot 0x2008 := by
  have attr_eq : ∀ atref, attrFind forwardRoot atStmtList = some atref → atref.u0 = 0 := by
    intro atref found
    cases found
    rfl
  constructor
  · intro atref found tables tabled p inclen dirs q reached next read
    rw [attr_eq atref found] at tabled
    obtain rfl := forward_tables tabled
    have dirs_ended : loop (dirBody forwardDebug.mem) 5000 (forwardLines.at 15, 0) =
        .done (0x1065, 0) := by
      decide
    obtain ⟨rfl, -⟩ := Prod.mk.inj (Exec.done.inj (dirs.symm.trans dirs_ended))
    have checked : checkRun (fileBody forwardDebug.mem) (fun q => decide
        (∀ next ∈ behindFile (linenoAddFile forwardDebug.mem q), q < next)) 2
          (u64 (0x1065 + 1)) := by
      decide
    have further := reached.check checked
    rw [read] at further
    exact of_decide_eq_true further next (List.mem_singleton_self next)
  · intro atref found header p pe started state reached
    rw [attr_eq atref found] at started
    have header_ended : linenoHeader .lsb forwardDebug.mem forwardLines 5000 0 =
        .done (.program ⟨20, 2, 12, 1, 1, 1, 1, 1, [], 0⟩ 0x106C 0x106E) := by
      decide
    cases started.symm.trans header_ended
    have checked : checkRun (runBody .lsb forwardDebug.mem
        (Header.info ⟨20, 2, 12, 1, 1, 1, 1, 1, [], 0⟩ 8) 0x106E 0x2008)
        (fun state => decide (forwardDebug.mem.byte state.p ≠ some 0)) 3
        (startAt (Header.info ⟨20, 2, 12, 1, 1, 1, 1, 1, [], 0⟩ 8) 0x106C) := by
      decide
    have held := reached.check checked
    exact fun back => of_decide_eq_true held back.2.1

theorem forward_first {first : Die}
    (is_param : FirstParam forwardDebug 5000 forwardUnit forwardFunction zeroDie first) :
    first = forwardParam := by
  obtain ⟨-, status, -, child⟩ := is_param
  have child_eq : dwarfChild forwardDebug forwardUnit 5000 forwardFunction zeroDie =
      .done (dlvOk, forwardParam) := by
    decide
  exact (Prod.mk.inj (Exec.done.inj (child.symm.trans child_eq))).2

/-- The other name leads to the type, where the chain of the types ends. -/
theorem forward_types : Fresh (typeBody forwardDebug 5000 forwardUnit) (typeOffset forwardUnit)
    (forwardFunction, attrFind forwardParam atType) := by
  have first : typeBody forwardDebug 5000 forwardUnit
        (forwardFunction, attrFind forwardParam atType) =
      .done (.again (forwardTypedef, attrFind forwardTypedef atType)) := by
    decide
  have second : typeBody forwardDebug 5000 forwardUnit
      (forwardTypedef, attrFind forwardTypedef atType) = .done (.stop (some 1)) := by
    decide
  intro state next later reached round behind
  rcases reached.head first with rfl | at_second
  · cases first.symm.trans round
    rw [behind.eq_of_stop second]
    decide
  · rw [at_second.eq_of_stop second, second] at round
    cases round

theorem forward_params {state : Params}
    (reached : Reached (paramBody forwardDebug 5000 forwardUnit)
      ⟨forwardParam, forwardParam, 1, [1]⟩ state) : stepsForward forwardUnit state.sib := by
  have checked : checkRun (paramBody forwardDebug 5000 forwardUnit)
      (fun state => stepsForward forwardUnit state.sib) 2
      ⟨forwardParam, forwardParam, 1, [1]⟩ := by
    decide
  have held := reached.check checked
  exact held

theorem forward_call : CallForward forwardDebug 5000 forwardLines forwardUnit forwardRoot zeroDie
    forwardFunction 0x2008 where
  line := forward_lookup
  types := by
    intro first is_param
    rw [forward_first is_param]
    exact forward_types
  params := by
    intro first is_param size sized state reached
    rw [forward_first is_param] at sized reached
    have size_eq : loop (typeBody forwardDebug 5000 forwardUnit) 5000
        (forwardFunction, attrFind forwardParam atType) = .done (some 1) := by
      decide
    obtain rfl := Exec.done.inj (sized.symm.trans size_eq)
    exact stepForward_of_check (forward_params reached) state.ret

theorem forward_forward : SearchForward forwardDebug 5000 forwardLines zeroLocals 0x2008 := by
  intro state reached inside entered child child_reached
  obtain rfl := reached.eq_of_stop forward_found
  obtain rfl := Enter.inside.inj (Exec.done.inj (entered.symm.trans forward_entered))
  have missed_function : ¬ ¬ covers forwardFunction 0x2008 := by
    decide
  rcases forward_children child_reached with function_eq | ⟨elsewhere, steps⟩
  · rw [← function_eq] at missed_function
    refine ⟨fun elsewhere => absurd elsewhere missed_function, fun _ => ?_⟩
    rw [function_eq]
    exact forward_call
  · exact ⟨fun _ => stepForward_of_check steps child.die2, fun hit => absurd hit elsewhere⟩

/-- The search for the function comes to its end. -/
theorem search_terminates_function :
    search forwardDebug 5000 forwardLines zeroLocals 0x2008 =
        .done (some ⟨.mem 0x1036, 3, .mem 0x103E, 1, 0x2000, [1, 1]⟩) ∧
      search forwardDebug 5000 forwardLines zeroLocals 0x2008 ≠ .timeout :=
  ⟨loop_stop forward_found 4999, search_terminates (by decide) (by decide) forward_forward⟩

end

/-! ## An entry and its sibling -/

section

/-- A table of two declarations, both of entries with children, the second with
`DW_AT_sibling` as `DW_FORM_ref1`; and a unit of two entries, of which the second
is at 12 and ends at 14. -/
def siblingBytes (sibling : Byte) : List Byte :=
  [1, 0x11, 1, 0, 0, 2, 0x34, 1, 0x01, 0x11, 0, 0, 0] ++
    ([12, 0, 0, 0, 2, 0, 0, 0, 0, 0, 8] ++ [1, 2, sibling, 0, 0])

def siblingDebug (sibling : Byte) : Debug where
  mem := .image 0x1000 (siblingBytes sibling) (show 0x1000 + 29 < 2 ^ 47 by decide)
  order := .lsb
  debugInfo := ⟨0x100d, 16⟩
  debugAbbrev := ⟨0x1000, 13⟩
  debugStr := ⟨0x1000, 0⟩

def siblingUnit : CU where
  cuLength := 12
  version := 2
  addrSize := 8
  debugAbbrevOffset := 0
  cuLengthSize := 4
  cuDwarfSize := 4
  cuNextOffset := 16
  cuDieOffset := 11
  cuOffset := 0

def siblingRoot : Die where
  dieOffset := 11
  dieNextOff := 12
  dieAbnum := 1
  dieTag := 0x11
  dieAb := ⟨1, 0x11, 1, 0, 5, []⟩
  dieName := 0
  dieAttr := []

def siblingDie (sibling : Nat) : Die where
  dieOffset := 12
  dieNextOff := 14
  dieAbnum := 2
  dieTag := 0x34
  dieAb := ⟨2, 0x34, 1, 5, 7, [⟨1, 0x11, 8⟩]⟩
  dieName := 0
  dieAttr := [⟨1, 0x11, false, sibling, 0, 0, 0⟩]

/-! ### The entry for its sibling -/

theorem itself_unit :
    getNextCu (siblingDebug 12) 0 zeroLocals.cu = some (0, 16, siblingUnit) := by
  decide

theorem itself_root :
    readEntry (siblingDebug 12) siblingUnit 11 zeroDie = some (.entry siblingRoot) := by
  decide

theorem itself_die :
    readEntry (siblingDebug 12) siblingUnit 12 zeroDie = some (.entry (siblingDie 12)) ∧
      readEntry (siblingDebug 12) siblingUnit 12 (siblingDie 12) =
        some (.entry (siblingDie 12)) := by
  decide

theorem itself_entered (fuel : Nat) :
    enterUnit (siblingDebug 12) (fuel + 1) zeroLocals.start =
      .done (.inside ⟨16, siblingUnit, siblingRoot, siblingDie 12, zeroDie⟩) := by
  have root_inside : 11 < siblingUnit.cuNextOffset ∧ 11 < (siblingDebug 12).debugInfo.dsSize := by
    decide
  have die_inside : 12 < siblingUnit.cuNextOffset ∧ 12 < (siblingDebug 12).debugInfo.dsSize := by
    decide
  have root : dwarfSiblingof (siblingDebug 12) siblingUnit (fuel + 1) none zeroDie =
      .done (dleNone, siblingRoot) := by
    change dwarfOffdie (siblingDebug 12) siblingUnit (fuel + 1) 11 zeroDie = _
    rw [dwarfOffdie, if_pos root_inside.1, search_single, if_pos root_inside, itself_root]
    rfl
  have child : dwarfChild (siblingDebug 12) siblingUnit (fuel + 1) siblingRoot zeroDie =
      .done (dlvOk, siblingDie 12) := by
    rw [dwarfChild, if_neg (by decide)]
    change (searchDieWithinCu (siblingDebug 12) siblingUnit (fuel + 1) 12 zeroDie false).bind _ = _
    rw [search_single, if_pos die_inside, itself_die.1]
    rfl
  rw [Locals.start, enterUnit, itself_unit, Exec.ofOption_some, Exec.done_bind]
  dsimp only
  rw [if_pos rfl]
  change (dwarfSiblingof (siblingDebug 12) siblingUnit (fuel + 1) none zeroDie).bind _ = _
  rw [root, Exec.done_bind]
  dsimp only
  rw [if_neg (by decide)]
  change (dwarfChild (siblingDebug 12) siblingUnit (fuel + 1) siblingRoot zeroDie).bind _ = _
  rw [child, Exec.done_bind]
  rfl

/-- The sibling of the entry is the entry. -/
theorem itself_again (fuel : Nat) (debugLine : Section) {die2 : Die}
    (holds : die2 = zeroDie ∨ die2 = siblingDie 12) :
    childBody (siblingDebug 12) (fuel + 1) debugLine siblingUnit siblingRoot zeroDie 0x8004200000
        ⟨siblingDie 12, die2⟩ =
      .done (.again ⟨siblingDie 12, siblingDie 12⟩) := by
  have elsewhere : ¬ covers (siblingDie 12) 0x8004200000 := by decide
  have inside : 12 < siblingUnit.cuNextOffset ∧ 12 < (siblingDebug 12).debugInfo.dsSize := by
    decide
  have start : siblingStart siblingUnit (siblingDie 12) = (12, false) := by decide
  have read : readEntry (siblingDebug 12) siblingUnit 12 die2 = some (.entry (siblingDie 12)) := by
    rcases holds with rfl | rfl
    · exact itself_die.1
    · exact itself_die.2
  rw [childBody_of_not_covers elsewhere, dwarfSiblingof]
  dsimp only
  rw [start]
  dsimp only
  rw [search_single, if_pos inside, read]
  rfl

/-- However long the search goes on, it does not come to an end. -/
theorem itself_searched_forever :
    ¬ ∃ (fuel : Nat) (debugLine : Section),
      search (siblingDebug 12) fuel debugLine zeroLocals 0x8004200000 ≠ .timeout := by
  rintro ⟨fuel, debugLine, ended⟩
  apply ended
  cases fuel with
  | zero => rfl
  | succ fuel =>
      apply loop_timeout
      left
      change unitBody (siblingDebug 12) (fuel + 1) debugLine zeroDie _ zeroLocals.start = _
      rw [unitBody, itself_entered, Exec.done_bind]
      dsimp only
      rw [loop_again (itself_again fuel debugLine (.inl rfl)),
        loop_timeout (.inr (itself_again fuel debugLine (.inr rfl)))]
      rfl

end

end Jos64.Debuginfo
