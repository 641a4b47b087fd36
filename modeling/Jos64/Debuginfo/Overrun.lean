import Jos64.Debuginfo.Arguments
import Jos64.Debuginfo.Filled

/-!
# The array of the sizes

The sizes of the parameters are stored one behind the other, as many as there are
parameters.  The array has room for ten; the eleventh falls into the padding behind
it and the twelfth into the table of registers.
-/

namespace Jos64.Debuginfo

open Loop Dwarf Forest

/-! ## The words behind the array -/

/-- The length of `size_fn_arg`. -/
def sizeFnArgLength : Nat := 10

/-- Where `reg_table` begins, in words from `size_fn_arg` on: it is aligned to eight
bytes, and so there is a word in between. -/
def regTableWord : Nat := 11

/-- The words from `size_fn_arg` on when these sizes have been stored, with what they held
before. -/
def words (sizes : List (BitVec 32)) (before : Nat → BitVec 32) (i : Nat) : BitVec 32 :=
  sizes[i]?.getD (before i)

/-- Where nothing is stored the words are as before. -/
theorem words_of_le {sizes : List (BitVec 32)} {i : Nat} (le : sizes.length ≤ i)
    (before : Nat → BitVec 32) : words sizes before i = before i := by
  rw [words, List.getElem?_eq_none le, Option.getD_none]

/-- Every one of the sizes is stored in the array, and the table of registers is left as it
is. -/
def Fit (sizes : List (BitVec 32)) : Prop :=
  (∀ index < sizes.length, index < sizeFnArgLength) ∧
    ∀ before i, regTableWord ≤ i → words sizes before i = before i

theorem fit_iff {sizes : List (BitVec 32)} : Fit sizes ↔ sizes.length ≤ sizeFnArgLength := by
  constructor
  · rintro ⟨inside, -⟩
    by_contra many
    exact absurd (inside sizeFnArgLength (not_le.mp many)) (Nat.lt_irrefl _)
  · intro few
    refine ⟨fun index stored => stored.trans_le few, fun before i behind => ?_⟩
    have array_le : sizeFnArgLength ≤ regTableWord := by decide
    exact words_of_le (few.trans (array_le.trans behind)) before

section

variable {dbg : Debug} {cu : CU} {table : List Decl}

/-! ## The number of the stores -/

theorem opened_of_cons {entry first : Entry cu} {inner later rest : Forest (Entry cu)}
    {offset : Nat} (row : Row dbg cu table (.cons entry (.cons first inner later) rest) offset) :
    entry.decl.children = true := by
  cases flag : entry.decl.children with
  | false => cases (eachEntry_cons.mp row.placed).1.childless flag
  | true => rfl

/-- The number of parameters that the entries begin with. -/
def leading : Forest (Entry cu) → Nat
  | .nil => 0
  | .cons entry _ rest =>
      if entry.decl.tag.value = tagFormalParameter then leading rest + 1 else 0

theorem leading_of_other {entry : Entry cu} {children rest : Forest (Entry cu)}
    (other : entry.decl.tag.value ≠ tagFormalParameter) :
    leading (.cons entry children rest) = 0 :=
  if_neg other

/-- The loop over the further parameters stores once for each. -/
theorem paramLoop_length {entry : Entry cu} {children rest : Forest (Entry cu)} {offset : Nat}
    (row : Row dbg cu table (.cons entry children rest) offset) {sib : Die}
    (found : Found dbg entry offset sib) {fuel : Nat} (enough : dbg.debugInfo.dsSize < fuel)
    {rounds : Nat} {ret : Die} {retVal : Nat} {sizes stored : List (BitVec 32)}
    (ended : loop (paramBody dbg fuel cu) rounds ⟨sib, ret, retVal, sizes⟩ = .done stored) :
    stored.length = sizes.length + leading rest := by
  induction rest generalizing entry children offset sib rounds ret retVal sizes with
  | nil =>
      obtain ⟨die, next_ended⟩ := row.finds_next found fuel enough ret
      have stop : paramBody dbg fuel cu ⟨sib, ret, retVal, sizes⟩ = .done (.stop sizes) :=
        (paramBody_next next_ended retVal sizes).trans (if_pos (.inl (by decide)))
      cases rounds with
      | zero => cases ended
      | succ rounds =>
          rw [loop_stop stop] at ended
          cases ended
          rfl
  | cons next inner later _ later_ih =>
      obtain ⟨die, next_ended, next_found⟩ := row.finds_next found fuel enough ret
      have die_found := next_found next inner later rfl
      have round := paramBody_next next_ended retVal sizes
      cases rounds with
      | zero => cases ended
      | succ rounds =>
          by_cases tag : next.decl.tag.value = tagFormalParameter
          · have param : ¬ (dlvOk ≠ dlvOk ∨ die.dieTag ≠ tagFormalParameter) := by
              rw [die_found.tag_eq, tag]
              decide
            rw [if_neg param] at round
            obtain ⟨went, stepped, goes_on⟩ := Exec.bind_eq_done ended
            rw [round] at stepped
            obtain ⟨size, -, made⟩ := Exec.bind_eq_done stepped
            cases made
            have rest_length := later_ih row.behind die_found goes_on
            rw [List.length_append, List.length_singleton] at rest_length
            rw [leading, if_pos tag]
            omega
          · rw [if_pos (.inr (by rwa [die_found.tag_eq]))] at round
            rw [loop_stop round] at ended
            cases ended
            rw [leading_of_other tag, Nat.add_zero]

/-- It never has stored more. -/
theorem paramLoop_reached {entry : Entry cu} {children rest : Forest (Entry cu)} {offset : Nat}
    (row : Row dbg cu table (.cons entry children rest) offset) {sib : Die}
    (found : Found dbg entry offset sib) {fuel : Nat} (enough : dbg.debugInfo.dsSize < fuel)
    {ret : Die} {retVal : Nat} {sizes : List (BitVec 32)} {state : Params}
    (reached : Reached (paramBody dbg fuel cu) ⟨sib, ret, retVal, sizes⟩ state) :
    state.sizes.length ≤ sizes.length + leading rest := by
  induction rest generalizing entry children offset sib ret retVal sizes with
  | nil =>
      obtain ⟨die, next_ended⟩ := row.finds_next found fuel enough ret
      have stop : paramBody dbg fuel cu ⟨sib, ret, retVal, sizes⟩ = .done (.stop sizes) :=
        (paramBody_next next_ended retVal sizes).trans (if_pos (.inl (by decide)))
      rw [reached.eq_of_stop stop]
      exact Nat.le_add_right _ _
  | cons next inner later _ later_ih =>
      rcases reached.cases_head with rfl | ⟨second, round, behind⟩
      · exact Nat.le_add_right _ _
      · obtain ⟨die, next_ended, next_found⟩ := row.finds_next found fuel enough ret
        have die_found := next_found next inner later rfl
        rw [paramBody_next next_ended] at round
        split at round
        · cases round
        · rename_i is_param
          obtain ⟨size, -, made⟩ := Exec.bind_eq_done round
          cases made
          have tag : next.decl.tag.value = tagFormalParameter := by
            rw [not_or, not_not, die_found.tag_eq] at is_param
            exact not_not.mp is_param.2
          have rest_le := later_ih row.behind die_found behind
          rw [List.length_append, List.length_singleton] at rest_le
          rw [leading, if_pos tag]
          omega

/-- Where the loop stops it stores nothing more. -/
theorem paramBody_stop {fuel : Nat} {state : Params} {sizes : List (BitVec 32)}
    (stop : paramBody dbg fuel cu state = .done (.stop sizes)) : sizes = state.sizes := by
  obtain ⟨⟨status, ret⟩, -, rest⟩ := Exec.bind_eq_done stop
  dsimp only at rest
  split at rest
  · cases rest
    rfl
  · split at rest
    · cases rest
      rfl
    · obtain ⟨size, -, made⟩ := Exec.bind_eq_done rest
      cases made

/-! ## `list_func_die` -/

/-- The sizes that have been stored at a point of a call of `list_func_die`, which need not
come to an end. -/
inductive Stored (dbg : Debug) (fuel : Nat) (debugLine : Section) (cu : CU)
    (cudie die ret : Die) (addr : Nat) : List (BitVec 32) → Prop where
  | none : Stored dbg fuel debugLine cu cudie die ret addr []
  | params {namelen : Int} {line : Int × Lineno.Line} {first : Die} {size : Option Nat}
      {state : Params} (covered : covers die addr)
      (named : strlen dbg.mem die.dieName = some namelen)
      (lined : Lineno.dwarfSrclines dbg.order dbg.mem debugLine fuel cu.addrSize cudie .zero addr =
        .done line)
      (is_param : FirstParam dbg fuel cu die ret first)
      (sized : loop (typeBody dbg fuel cu) fuel (die, attrFind first atType) = .done size)
      (reached : Reached (paramBody dbg fuel cu)
        ⟨first, first, size.getD 8, [BitVec.ofNat 32 (size.getD 8)]⟩ state) :
      Stored dbg fuel debugLine cu cudie die ret addr state.sizes

/-- A lookup comes to the function. -/
def ComesTo (dbg : Debug) (fuel : Nat) (debugLine : Section) (locals : Locals) (addr : Nat)
    (cu : CU) (cudie die : Die) : Prop :=
  ∃ state inside child,
    Reached (unitBody dbg fuel debugLine locals.ret addr) locals.start state ∧
      enterUnit dbg fuel state = .done (.inside inside) ∧
        Reached (childBody dbg fuel debugLine inside.cu inside.cudie locals.ret addr)
          ⟨inside.die, inside.die2⟩ child ∧
            inside.cu = cu ∧ inside.cudie = cudie ∧ child.die = die

/-- The sizes that are stored by a call of `list_func_die` for the function, as far as it has
come, and those that a lookup which comes to the function returns with. -/
inductive Leaves (dbg : Debug) (fuel : Nat) (debugLine : Section) (cu : CU)
    (cudie die ret : Die) (addr : Nat) : List (BitVec 32) → Prop where
  | call {sizes : List (BitVec 32)}
      (stored : Stored dbg fuel debugLine cu cudie die ret addr sizes) :
      Leaves dbg fuel debugLine cu cudie die ret addr sizes
  | lookup {kernel : Kernel} {locals : Locals} {status : Int} {info : Ripdebuginfo}
      (initialised : dwarfInit kernel = some dbg) (line_eq : kernel.debugLine = debugLine)
      (ret_eq : locals.ret = ret) (comes : ComesTo dbg fuel debugLine locals addr cu cudie die)
      (ended : debuginfoRip fuel kernel locals addr = .done (status, info)) :
      Leaves dbg fuel debugLine cu cudie die ret addr info.sizeFnArg

/-- No size is stored behind the array, and the table of registers is left as it
is. -/
def StaysInside (dbg : Debug) (debugLine : Section) (cu : CU) (cudie die ret : Die)
    (addr : Nat) : Prop :=
  ∃ bound, ∀ fuel, bound ≤ fuel → ∀ sizes,
    Leaves dbg fuel debugLine cu cudie die ret addr sizes → Fit sizes

section

variable {fuel : Nat} {debugLine : Section} {cudie die ret : Die} {addr : Nat}

/-- A lookup that comes to the function ends with it. -/
theorem lookup_ends {kernel : Kernel} {locals : Locals} {result : Int × Ripdebuginfo}
    (initialised : dwarfInit kernel = some dbg) (line_eq : kernel.debugLine = debugLine)
    (ret_eq : locals.ret = ret) {state inside : UnitState} {child : ChildState}
    (reached : Reached (unitBody dbg fuel debugLine locals.ret addr) locals.start state)
    (entered : enterUnit dbg fuel state = .done (.inside inside))
    (child_reached : Reached (childBody dbg fuel debugLine inside.cu inside.cudie locals.ret addr)
      ⟨inside.die, inside.die2⟩ child) (covered : covers child.die addr)
    (ended : debuginfoRip fuel kernel locals addr = .done result) :
    ∃ info, storeFunction dbg fuel debugLine inside.cu inside.cudie ret child.die addr =
      .done info ∧ result = (0, info) := by
  subst line_eq ret_eq
  rw [debuginfoRip] at ended
  split at ended
  · cases ended
  rw [initialised, Exec.ofOption_some, Exec.done_bind] at ended
  split at ended
  · cases ended
  obtain ⟨answer, searched, made⟩ := Exec.bind_eq_done ended
  -- the rest of the search is the one from the unit, and that of the unit from the function
  obtain ⟨rounds, unit_rest⟩ := reached.loop_rest searched
  cases rounds with
  | zero => cases unit_rest
  | succ rounds =>
      obtain ⟨next, round, goes_on⟩ := Exec.bind_eq_done unit_rest
      rw [unitBody, entered, Exec.done_bind] at round
      obtain ⟨children, children_ended, round⟩ := Exec.bind_eq_done round
      obtain ⟨rounds, child_rest⟩ := child_reached.loop_rest children_ended
      cases rounds with
      | zero => cases child_rest
      | succ rounds =>
          rw [loop_last (childBody_of_covers covered)] at child_rest
          obtain ⟨info, stored, found⟩ := Exec.bind_eq_done child_rest
          cases found
          cases round
          cases goes_on
          cases made
          exact ⟨info, stored, rfl⟩

variable (covered : covers die addr)

include covered

/-- What is stored when the function is done has been stored on the way. -/
theorem stored_of_storeFunction {info : Ripdebuginfo}
    (ended : storeFunction dbg fuel debugLine cu cudie ret die addr = .done info) :
    Stored dbg fuel debugLine cu cudie die ret addr info.sizeFnArg := by
  obtain ⟨namelen, named, ended⟩ := Exec.bind_eq_done ended
  obtain ⟨line, lined, ended⟩ := Exec.bind_eq_done ended
  obtain ⟨sizes, sizes_ended, made⟩ := Exec.bind_eq_done ended
  cases made
  obtain ⟨⟨status, first⟩, child, rest⟩ := Exec.bind_eq_done sizes_ended
  dsimp only at rest
  split at rest
  case isFalse => cases rest; exact .none
  case isTrue found =>
    split at rest
    case isTrue => cases rest; exact .none
    case isFalse tag =>
      obtain ⟨size, sized, rest⟩ := Exec.bind_eq_done rest
      obtain ⟨state, reached, stop⟩ := exists_stop_of_loop rest
      have sizes_eq : sizes = state.sizes := paramBody_stop stop
      rw [functionInfo, sizes_eq]
      exact .params covered (Exec.ofOption_eq_done named) lined
        ⟨not_not.mp tag, status, found, child⟩ sized reached

/-- What a lookup returns with is what has been stored for the function that it has come to. -/
theorem Leaves.stored {sizes : List (BitVec 32)}
    (leaves : Leaves dbg fuel debugLine cu cudie die ret addr sizes) :
    Stored dbg fuel debugLine cu cudie die ret addr sizes := by
  cases leaves with
  | call stored => exact stored
  | lookup initialised line_eq ret_eq comes ended =>
      obtain ⟨state, inside, child, reached, entered, child_reached, rfl, rfl, rfl⟩ := comes
      obtain ⟨info', function_ended, made⟩ := lookup_ends initialised line_eq ret_eq reached
        entered child_reached covered ended
      cases made
      exact stored_of_storeFunction covered function_ended

end

section

variable {debugLine : Section} {entry : Entry cu} {children rest : Forest (Entry cu)}
  {offset : Nat} (row : Row dbg cu table (.cons entry children rest) offset)
  {cudie die ret : Die} {addr : Nat} (found : Found dbg entry offset die)

include row found

/-- No more sizes are stored than there are parameters at the front.  A function that says
it has children and has none must not have a parameter left in the variable. -/
theorem stored_le
    (unset : entry.decl.children = true → children = .nil → ret.dieTag ≠ tagFormalParameter)
    {fuel : Nat} (enough : dbg.debugInfo.dsSize < fuel) {sizes : List (BitVec 32)}
    (stored : Stored dbg fuel debugLine cu cudie die ret addr sizes) :
    sizes.length ≤ leading children := by
  cases stored with
  | none => exact Nat.zero_le _
  | params _ _ _ is_param _ reached =>
      obtain ⟨tag, status, answered, child⟩ := is_param
      cases children with
      | nil =>
          cases opened : entry.decl.children with
          | false =>
              cases (Row.childless found opened fuel ret).symm.trans child
              exact absurd rfl answered
          | true =>
              have no_child := dwarfChild_of_ends found opened (row.below opened).ends
                (Nat.zero_lt_of_lt enough) ret
              cases no_child.symm.trans child
              exact absurd tag (unset opened rfl)
      | cons first inner later =>
          have opened := opened_of_cons row
          obtain ⟨die', child_ended, first_found⟩ := row.finds_first found fuel enough ret
          have die_found := first_found first inner later rfl
          cases child_ended.symm.trans child
          rw [die_found.tag_eq] at tag
          have length_le := paramLoop_reached (row.below opened) die_found enough reached
          rw [List.length_singleton] at length_le
          rw [leading, if_pos tag]
          omega

/-- As many are stored where the parameters are gone through to the end. -/
theorem paramSizes_length (nonempty : children ≠ .nil) {fuel : Nat}
    (enough : dbg.debugInfo.dsSize < fuel) {sizes : List (BitVec 32)}
    (ended : paramSizes dbg fuel cu die ret = .done sizes) : sizes.length = leading children := by
  cases children with
  | nil => exact absurd rfl nonempty
  | cons first inner later =>
      have opened := opened_of_cons row
      obtain ⟨die', child_ended, first_found⟩ := row.finds_first found fuel enough ret
      have die_found := first_found first inner later rfl
      rw [paramSizes_first child_ended] at ended
      by_cases tag : first.decl.tag.value = tagFormalParameter
      · rw [if_pos ⟨by decide, die_found.tag_eq.trans tag⟩] at ended
        obtain ⟨size, -, loop_ended⟩ := Exec.bind_eq_done ended
        have stored := paramLoop_length (row.below opened) die_found enough loop_ended
        rw [List.length_singleton] at stored
        rw [leading, if_pos tag]
        omega
      · rw [if_neg fun child => tag (die_found.tag_eq.symm.trans child.2)] at ended
        cases ended
        rw [leading_of_other tag]
        rfl

variable (covered : covers die addr)

include covered

/-- Where the name and the line can be looked up and the types followed, a size is stored for
each parameter. -/
theorem listFuncDie_stores (ret : Die)
    (named : ∃ namelen, strlen dbg.mem die.dieName = some namelen)
    (lined : LineEnds dbg debugLine cu cudie addr) (nonempty : children ≠ .nil)
    (typed : ∀ tree ∈ children.trees, tree.1.decl.tag.value = tagFormalParameter →
      TypeFollowed dbg table tree.1) :
    ∃ bound, ∀ fuel, bound ≤ fuel → ∃ sizes,
      Stored dbg fuel debugLine cu cudie die ret addr sizes ∧
        sizes.length = leading children := by
  obtain ⟨namelen, named⟩ := named
  obtain ⟨enough_lines, line, lined⟩ := lined
  obtain ⟨bound, ends⟩ := paramSizes_ends (fun _ => nonempty) typed
  refine ⟨max (max bound enough_lines) (dbg.debugInfo.dsSize + 1), fun fuel enough => ?_⟩
  obtain ⟨sizes, sizes_ended⟩ := ends fuel (by omega) rest offset die row found ret
  have line_found := Lineno.dwarfSrclines_mono (show enough_lines ≤ fuel by omega) lined
  have ended : storeFunction dbg fuel debugLine cu cudie ret die addr =
      .done (functionInfo cudie die namelen line.2 sizes) := by
    rw [storeFunction, named, Exec.ofOption_some, Exec.done_bind, line_found, Exec.done_bind]
    dsimp only
    rw [sizes_ended, Exec.done_bind]
  exact ⟨sizes, stored_of_storeFunction covered ended,
    paramSizes_length row found nonempty (by omega) sizes_ended⟩

/-- Then there are no more than fit. -/
theorem few_of_staysInside (inside : StaysInside dbg debugLine cu cudie die ret addr)
    (named : ∃ namelen, strlen dbg.mem die.dieName = some namelen)
    (lined : LineEnds dbg debugLine cu cudie addr)
    (typed : ∀ tree ∈ children.trees, tree.1.decl.tag.value = tagFormalParameter →
      TypeFollowed dbg table tree.1) :
    leading children ≤ sizeFnArgLength := by
  by_cases empty : children = .nil
  · rw [empty]
    exact Nat.zero_le _
  · obtain ⟨bound, inside⟩ := inside
    obtain ⟨enough, stores⟩ := listFuncDie_stores row found covered ret named lined empty typed
    obtain ⟨sizes, stored, length_eq⟩ := stores (max bound enough) (Nat.le_max_right _ _)
    rw [← length_eq]
    exact fit_iff.mp (inside _ (Nat.le_max_left _ _) sizes (.call stored))

/-- All sizes are stored in the array exactly if the function has at most ten
parameters. -/
theorem staysInside_iff
    (unset : entry.decl.children = true → children = .nil → ret.dieTag ≠ tagFormalParameter)
    (named : 10 < leading children → ∃ namelen, strlen dbg.mem die.dieName = some namelen)
    (lined : 10 < leading children → LineEnds dbg debugLine cu cudie addr)
    (typed : 10 < leading children → ∀ tree ∈ children.trees,
      tree.1.decl.tag.value = tagFormalParameter → TypeFollowed dbg table tree.1) :
    StaysInside dbg debugLine cu cudie die ret addr ↔ leading children ≤ 10 := by
  constructor
  · intro inside
    by_contra many
    have many' := not_le.mp many
    exact many (few_of_staysInside row found covered inside (named many') (lined many')
      (typed many'))
  · intro few
    refine ⟨dbg.debugInfo.dsSize + 1, fun fuel enough sizes leaves => fit_iff.mpr ?_⟩
    exact (stored_le row found unset enough (leaves.stored covered)).trans few

end

/-- The two parameters of `f` are stored in the array. -/
theorem staysInside_two :
    ∃ cudie die, Found calledDebug rootEntry 11 cudie ∧ Found calledDebug directFirst 20 die ∧
      StaysInside calledDebug calledLines calledUnit cudie die zeroDie 0x2008 := by
  obtain ⟨cudie, root⟩ := called_root_found
  obtain ⟨die, found, covered, named⟩ := direct_first_found
  exact ⟨cudie, die, root, found, (staysInside_iff called_functions found covered nofun
    (fun _ => named) (fun _ => called_lined root _) fun many => absurd many (by decide)).mpr
      (by decide)⟩

end

/-! ## A function with many parameters -/

/-- So many parameters of a type of one byte. -/
def crowd : Nat → Forest (Entry calledUnit)
  | 0 => .nil
  | count + 1 => .cons charParam .nil (crowd count)

/-- What holds of a parameter wherever it stands holds of all of them. -/
theorem eachEntry_crowd {P : Nat → Entry calledUnit → Forest (Entry calledUnit) →
      Forest (Entry calledUnit) → Prop}
    (holds : ∀ offset rest, P offset charParam .nil rest) (count offset : Nat) :
    EachEntry .lsb P (crowd count) offset := by
  induction count generalizing offset with
  | zero => trivial
  | succ count ih => exact eachEntry_cons.mpr ⟨holds _ _, trivial, ih _⟩

theorem charParam_no_sibling (target : Option Nat) :
    ∀ attr ∈ charParam.attrs, attr.spec.attrib.value = atSibling → attr.value.target = target := by
  intro attr member sibling
  obtain rfl := List.mem_singleton.mp member
  exact absurd sibling (by decide)

theorem one_lt : 1 < 256 ^ 1 := by
  decide

def crowdedForest : Forest (Entry calledUnit) :=
  .cons (baseEntry 1 one_lt) .nil (.cons directFirst (crowd 12) .nil)

/-- The declarations, and the unit of the entries. -/
def crowdedBytes : List Byte :=
  calledBytes.take 50 ++ ([1, 0x6B, 0, 2, 1] ++
    [4, 0x66, 0, 0, 0x20, 0, 0, 0, 0, 0, 0, 0x10, 0x20, 0, 0, 0, 0, 0, 0] ++
    [5, 14, 5, 14, 5, 14, 5, 14, 5, 14, 5, 14, 5, 14, 5, 14, 5, 14, 5, 14, 5, 14, 5, 14, 0] ++
    List.replicate 9 0)

def crowdedDebug : Debug where
  mem := .image 0x1000 crowdedBytes (by decide)
  order := .lsb
  debugInfo := ⟨0x1027, 69⟩
  debugAbbrev := ⟨0x1000, 39⟩
  debugStr := ⟨0x1000, 0⟩

theorem crowded_bytes_eq :
    entryBytes .lsb (.cons rootEntry crowdedForest .nil) = (crowdedBytes.drop 50).take 50 := by
  decide

/-- The entries of the unit. -/
theorem crowded_root :
    Row crowdedDebug calledUnit calledTable (.cons rootEntry crowdedForest .nil) 11 where
  standard := ⟨.inl rfl, by decide, .inl rfl⟩
  tabled := by
    refine ⟨Memory.image_holds _ [] (crowdedBytes.drop 39) rfl, ?_, ?_⟩
    · change 0 + (tableBytes .lsb calledTable).length ≤ 39
      decide
    · change 0x1000 + 39 < 2 ^ 64
      decide
  placed := by
    refine eachEntry_cons.mpr ⟨⟨⟨rfl, nofun⟩, by decide⟩, ?_, trivial⟩
    refine eachEntry_cons.mpr ⟨⟨⟨rfl, fun _ => rfl⟩, by decide⟩, trivial, ?_⟩
    refine eachEntry_cons.mpr ⟨⟨⟨rfl, nofun⟩, by decide⟩, ?_, trivial⟩
    exact eachEntry_crowd (fun _ _ => ⟨⟨rfl, fun _ => rfl⟩, charParam_no_sibling _⟩) 12 _
  passable := by
    refine eachEntry_cons.mpr ⟨.of_no_sibling (by decide) rfl, ?_, trivial⟩
    refine eachEntry_cons.mpr ⟨.of_no_sibling (by decide) rfl, trivial, ?_⟩
    refine eachEntry_cons.mpr ⟨.of_no_sibling (by decide) rfl, ?_, trivial⟩
    exact eachEntry_crowd (fun _ _ => .of_no_sibling (by decide) rfl) 12 _
  contains := by
    rw [show crowdedDebug.order = .lsb from rfl, crowded_bytes_eq]
    refine ⟨Memory.image_holds _ (crowdedBytes.take 50) (crowdedBytes.drop 100) rfl, ?_, ?_⟩
    · decide
    · change 0x1027 + 69 < 2 ^ 64
      decide
  inside := by
    rw [show crowdedDebug.order = .lsb from rfl, crowded_bytes_eq]
    decide
  ends := by
    rw [show crowdedDebug.order = .lsb from rfl, crowded_bytes_eq]
    refine .inr ⟨endNull, rfl, Memory.image_holds _ (crowdedBytes.take 100)
      (crowdedBytes.drop 101) rfl, ?_, ?_⟩
    · decide
    · change 0x1027 + 69 < 2 ^ 64
      decide

theorem crowded_functions :
    Row crowdedDebug calledUnit calledTable (.cons directFirst (crowd 12) .nil) 16 :=
  (Row.below crowded_root rfl).behind

/-- Each of the types can be followed, to a size of one byte. -/
theorem crowd_typed (count : Nat) : ∀ tree ∈ (crowd count).trees,
    tree.1.decl.tag.value = tagFormalParameter → TypeFollowed crowdedDebug calledTable tree.1 := by
  have types := Row.below crowded_root rfl
  induction count with
  | zero => exact nofun
  | succ count ih =>
      intro tree member
      rcases List.mem_cons.mp member with rfl | later
      · rintro - attr ⟨⟩
        exact ⟨14, ⟨rfl, by decide, trivial⟩,
          .sized types.stands ⟨_, List.mem_singleton_self _, rfl⟩⟩
      · exact ih tree later

theorem crowd_leads (count : Nat) :
    Leads crowdedDebug calledTable (crowd count) (List.replicate count ⟨0, 1⟩) := by
  have types := Row.below crowded_root rfl
  induction count with
  | zero => trivial
  | succ count ih =>
      exact ⟨⟨rfl, _, 14, rfl, ⟨rfl, by decide, trivial⟩, .sized types.stands rfl trivial rfl⟩, ih⟩

/-- For a function with twelve parameters of one byte, a size is stored in the table of
registers. -/
theorem twelve_overrun :
    (∃ cudie die, Found crowdedDebug rootEntry 11 cudie ∧ Found crowdedDebug directFirst 16 die ∧
      ∃ bound, ∀ fuel, bound ≤ fuel → ∀ ret info, ∃ info',
        listFuncDie crowdedDebug fuel calledLines calledUnit cudie ret die 0x2008 info =
          .done (true, info') ∧
        info'.sizeFnArg = List.replicate 12 1 ∧
          ∀ before, words info'.sizeFnArg before regTableWord = 1) ∧
    ¬ ∀ (dbg : Debug) (debugLine : Section) (cu : CU) (table : List Decl) (entry : Entry cu)
      (children rest : Forest (Entry cu)) (offset : Nat) (cudie die ret : Die) (addr : Nat),
      Row dbg cu table (.cons entry children rest) offset → Found dbg entry offset die →
        covers die addr → (∃ namelen, strlen dbg.mem die.dieName = some namelen) →
          LineEnds dbg debugLine cu cudie addr → children ≠ .nil →
            (∀ tree ∈ children.trees, tree.1.decl.tag.value = tagFormalParameter →
              TypeFollowed dbg table tree.1) →
                StaysInside dbg debugLine cu cudie die ret addr := by
  have describes : Describes crowdedDebug rootEntry directFirst ⟨0x2000, 0x2010, [0x66], [0x6B]⟩ :=
    ⟨rfl, rfl, rfl, ⟨by decide, _, rfl, rfl⟩, ⟨by decide, _, rfl, rfl⟩⟩
  have direct : ∀ attr ∈ directFirst.attrs, attr.spec.attrib.value = atName → attr.links = [] := by
    decide
  obtain ⟨cudie, -, root⟩ := (Row.stands crowded_root).dwarfOffdie Nat.one_pos zeroDie
  obtain ⟨die, -, found⟩ := (Row.stands crowded_functions).dwarfOffdie Nat.one_pos zeroDie
  have covered := (covers_of_describes found describes 0x2008).mpr ⟨by decide, by decide⟩
  have named := strlen_eq describes.name.1
    (found.holds_name describes.name direct (Row.entry_contains crowded_functions))
  have lined := lineEnds_of_no_lines root rfl calledLines 0x2008
  obtain ⟨bound, run⟩ := listFuncDie_recorded crowded_functions (crowd_leads 12) found covered
    ⟨_, named⟩ lined fun _ => nofun
  refine ⟨⟨cudie, die, root, found, bound, fun fuel enough ret info => ?_⟩, fun claim => ?_⟩
  · obtain ⟨info', ended, sizes_eq⟩ := run fuel enough ret info
    refine ⟨info', ended, sizes_eq, fun before => ?_⟩
    rw [words, sizes_eq]
    rfl
  · have inside := claim _ calledLines _ _ _ _ _ _ cudie die die _ crowded_functions found covered
      ⟨_, named⟩ lined nofun (crowd_typed 12)
    have few := few_of_staysInside crowded_functions found covered inside ⟨_, named⟩ lined
      (crowd_typed 12)
    exact absurd few (by decide)

end Jos64.Debuginfo
