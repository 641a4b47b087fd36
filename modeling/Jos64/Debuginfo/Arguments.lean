import Jos64.Debuginfo.Correctness

/-!
# The sizes of the arguments

The type of the first parameter is followed through its links to a size, and so
its size is always found.  Of each further parameter only the first type is
looked at: where that has no size of its own, the size of the parameter before
is stored again.
-/

namespace Jos64.Debuginfo

open Loop Dwarf Forest

/-! ## Types of parameters -/

section

variable {cu : CU}

/-- A value that is a number. -/
def constant : Value cu → Option Nat
  | .fixed _ _ number _ _ => some number
  | .uleb _ n _ => some n.value
  | .sleb n => some n.word
  | _ => none

def sizeAttr (entry : Entry cu) : Option (Attr cu) :=
  entry.attrs.find? fun attr => attr.spec.attrib.value = atByteSize

/-- From the type at an offset so many links lead to one with a size. -/
inductive Resolves (dbg : Debug) (cu : CU) (table : List Decl) :
    (offset links size : Nat) → Prop where
  | sized {entry : Entry cu} {attr : Attr cu} {offset size : Nat}
      (stands : Stands dbg cu table entry offset) (has_size : sizeAttr entry = some attr)
      (back : attr.value.ReadBack) (size_eq : constant attr.value = some size) :
      Resolves dbg cu table offset 0 size
  | linked {entry : Entry cu} {attr : Attr cu} {offset target links size : Nat}
      (stands : Stands dbg cu table entry offset) (no_size : sizeAttr entry = none)
      (has_type : typeAttr entry = some attr) (refers : Refers attr target)
      (resolves : Resolves dbg cu table target links size) :
      Resolves dbg cu table offset (links + 1) size

/-- The type of a parameter: its size, and the number of links that lead to it. -/
structure ParamType where
  links : Nat
  size : Nat

variable (dbg : Debug) (table : List Decl)

/-- The entry is a parameter of the type. -/
def IsParam (entry : Entry cu) (type : ParamType) : Prop :=
  entry.decl.tag.value = tagFormalParameter ∧ ∃ attr target, typeAttr entry = some attr ∧
    Refers attr target ∧ Resolves dbg cu table target type.links type.size

/-- The entries begin with parameters of the types, behind which there is none. -/
def Leads : Forest (Entry cu) → List ParamType → Prop
  | .nil, [] => True
  | .cons entry _ _, [] => entry.decl.tag.value ≠ tagFormalParameter
  | .nil, _ :: _ => False
  | .cons entry _ rest, type :: types => IsParam dbg table entry type ∧ Leads rest types

end

/-- What is stored of a size. -/
def word (size : Nat) : BitVec 32 :=
  BitVec.ofNat 32 size

/-- What is stored of further parameters, behind one of which a size was stored. -/
def recorded : (before : Nat) → List ParamType → List (BitVec 32)
  | _, [] => []
  | before, type :: types =>
      let size := if type.links = 0 then type.size else before
      word size :: recorded size types

/-- A parameter behind another one has a type with a size of its own, or the same
size as the other. -/
def Plain (before type : ParamType) : Prop :=
  type.links = 0 ∨ word type.size = word before.size

/-- The sizes are stored as they are exactly if each has a type with a size, or
follows one of the same size. -/
theorem recorded_eq_iff {before : Nat} {first : ParamType} (same : word before = word first.size)
    (types : List ParamType) :
    recorded before types = types.map (fun type => word type.size) ↔
      (first :: types).IsChain Plain := by
  induction types generalizing before first with
  | nil => exact iff_of_true rfl (.singleton first)
  | cons type types ih =>
      rw [recorded, List.map_cons, List.cons_eq_cons, List.isChain_cons_cons, Plain]
      by_cases own : type.links = 0
      · rw [if_pos own, ih rfl]
        exact and_congr_left fun _ => iff_of_true rfl (.inl own)
      · rw [if_neg own, same, or_iff_right own]
        constructor
        · rintro ⟨kept, rest⟩
          exact ⟨kept.symm, (ih (same.trans kept)).mp rest⟩
        · rintro ⟨kept, rest⟩
          exact ⟨kept.symm, (ih (same.trans kept.symm)).mpr rest⟩

variable {dbg : Debug} {cu : CU} {table : List Decl}

/-! ## Following the types -/

theorem Resolves.stands {offset links size : Nat}
    (resolves : Resolves dbg cu table offset links size) :
    ∃ entry, Stands dbg cu table entry offset := by
  cases resolves with
  | sized stands => exact ⟨_, stands⟩
  | linked stands => exact ⟨_, stands⟩

/-- A number that is read back is what `_dwarf_attr_find` leads to. -/
theorem u0_of_constant {attr : Attr cu} (back : attr.value.ReadBack) {size : Nat}
    (size_eq : constant attr.value = some size) (attrOffset : Nat) :
    (attr.readAt dbg attrOffset).u0 = size := by
  have number_eq : (attr.readAt dbg attrOffset).u0 =
      attr.value.number dbg (attrOffset + attr.linkBytes.length) :=
    Value.decoded_of_readBack back _
  rw [number_eq]
  cases value_eq : attr.value with
  | fixed | uleb | sleb =>
      rw [value_eq] at size_eq
      exact Option.some.inj size_eq
  | _ =>
      rw [value_eq] at size_eq
      cases size_eq

/-- A type with a size that is found has that size. -/
theorem attrFind_size {entry : Entry cu} {attr : Attr cu} (has_size : sizeAttr entry = some attr)
    (back : attr.value.ReadBack) {size : Nat} (size_eq : constant attr.value = some size)
    {offset : Nat} {die : Die} (found : Found dbg entry offset die) :
    ∃ atref, attrFind die atByteSize = some atref ∧ atref.u0 = size := by
  rcases attrFind_of_found found atByteSize with ⟨none, -⟩ | ⟨attr', attrOffset, some, atref_eq⟩
  · cases has_size.symm.trans none
  · cases has_size.symm.trans some
    exact ⟨_, atref_eq, u0_of_constant back size_eq attrOffset⟩

theorem attrFind_no_size {entry : Entry cu} (no_size : sizeAttr entry = none) {offset : Nat}
    {die : Die} (found : Found dbg entry offset die) : attrFind die atByteSize = none := by
  rcases attrFind_of_found found atByteSize with ⟨-, none⟩ | ⟨attr', attrOffset, some, -⟩
  · exact none
  · cases no_size.symm.trans some

/-- The type of an entry that is found. -/
theorem attrFind_typeAttr {entry : Entry cu} {attr : Attr cu}
    (has_type : typeAttr entry = some attr) {offset : Nat} {die : Die}
    (found : Found dbg entry offset die) :
    ∃ attrOffset, attrFind die atType = some (attr.readAt dbg attrOffset) := by
  rcases attrFind_type found with ⟨none, -⟩ | ⟨attr', attrOffset, some, type_eq⟩
  · cases has_type.symm.trans none
  · cases has_type.symm.trans some
    exact ⟨attrOffset, type_eq⟩

/-- The loop at `try_again` follows the links to the size. -/
theorem typeLoop_resolves {offset links size : Nat}
    (resolves : Resolves dbg cu table offset links size) {fuel : Nat} (positive : 0 < fuel)
    {rounds : Nat} (enough : links < rounds) (sib : Die) {atref : Attribute}
    (offset_eq : u64 (cu.cuOffset + atref.u0) = offset) :
    loop (typeBody dbg fuel cu) rounds (sib, some atref) = .done (some size) := by
  induction resolves generalizing rounds sib atref with
  | sized stands has_size back size_eq =>
      obtain ⟨rounds, rfl⟩ : ∃ more, rounds = more + 1 := ⟨rounds - 1, by omega⟩
      obtain ⟨die, ended, found⟩ := stands.dwarfOffdie positive sib
      obtain ⟨sizeRef, size_found, rfl⟩ := attrFind_size has_size back size_eq found
      apply loop_stop
      rw [typeBody, offset_eq, ended, Exec.done_bind]
      dsimp only
      rw [size_found]
  | linked stands no_size has_type refers resolves ih =>
      obtain ⟨rounds, rfl⟩ : ∃ more, rounds = more + 1 := ⟨rounds - 1, by omega⟩
      obtain ⟨die, ended, found⟩ := stands.dwarfOffdie positive sib
      obtain ⟨attrOffset, type_found⟩ := attrFind_typeAttr has_type found
      obtain ⟨_, target_stands⟩ := resolves.stands
      have again : typeBody dbg fuel cu (sib, some atref) =
          .done (.again (die, attrFind die atType)) := by
        rw [typeBody, offset_eq, ended, Exec.done_bind]
        dsimp only
        rw [attrFind_no_size no_size found]
      rw [loop_again again, type_found]
      exact ih (Nat.lt_of_succ_lt_succ enough) die (refers.offset_eq target_stands attrOffset)

/-- The size of a further parameter is looked for in its first type only. -/
theorem paramSize_eq {entry : Entry cu} {type : ParamType} (isParam : IsParam dbg table entry type)
    {offset : Nat} {ret : Die} (found : Found dbg entry offset ret) {fuel : Nat}
    (positive : 0 < fuel) (sib : Die) (retVal : Nat) :
    paramSize dbg fuel cu sib ret retVal =
      .done (if type.links = 0 then type.size else retVal) := by
  obtain ⟨-, attr, target, has_type, refers, resolves⟩ := isParam
  obtain ⟨attrOffset, type_found⟩ := attrFind_typeAttr has_type found
  obtain ⟨links, size⟩ := type
  cases resolves with
  | sized stands has_size back size_eq =>
      obtain ⟨die, ended, die_found⟩ := stands.dwarfOffdie positive sib
      obtain ⟨sizeRef, size_found, rfl⟩ := attrFind_size has_size back size_eq die_found
      rw [paramSize, type_found]
      dsimp only
      rw [refers.offset_eq stands, ended, Exec.done_bind]
      dsimp only
      rw [size_found, if_pos rfl]
  | linked stands no_size _ _ _ =>
      obtain ⟨die, ended, die_found⟩ := stands.dwarfOffdie positive sib
      rw [paramSize, type_found]
      dsimp only
      rw [refers.offset_eq stands, ended, Exec.done_bind]
      dsimp only
      rw [attrFind_no_size no_size die_found, if_neg (Nat.succ_ne_zero _)]

/-! ## The loop over the parameters -/

/-- Of each further parameter the size is stored that `recorded` says. -/
theorem paramLoop_recorded {entry : Entry cu} {children rest : Forest (Entry cu)} {offset : Nat}
    (row : Row dbg cu table (.cons entry children rest) offset) {types : List ParamType}
    (leads : Leads dbg table rest types) {sib : Die} (found : Found dbg entry offset sib)
    {fuel : Nat} (enough : dbg.debugInfo.dsSize < fuel) {rounds : Nat}
    (enough_rounds : types.length < rounds) (ret : Die) (retVal : Nat) (sizes : List (BitVec 32)) :
    loop (paramBody dbg fuel cu) rounds ⟨sib, ret, retVal, sizes⟩ =
      .done (sizes ++ recorded retVal types) := by
  induction types generalizing entry children rest offset sib rounds ret retVal sizes with
  | nil =>
      obtain ⟨rounds, rfl⟩ : ∃ more, rounds = more + 1 := ⟨rounds - 1, by omega⟩
      have stop : paramBody dbg fuel cu ⟨sib, ret, retVal, sizes⟩ = .done (.stop sizes) := by
        cases rest with
        | nil =>
            obtain ⟨die, ended⟩ := row.finds_next found fuel enough ret
            exact (paramBody_next ended retVal sizes).trans (if_pos (.inl (by decide)))
        | cons next inner later =>
            obtain ⟨die, ended, next_found⟩ := row.finds_next found fuel enough ret
            rw [paramBody_next ended, if_pos]
            rw [(next_found next inner later rfl).tag_eq]
            exact .inr leads
      rw [loop_stop stop, recorded, List.append_nil]
  | cons type types ih =>
      cases rest with
      | nil => exact leads.elim
      | cons next inner later =>
          obtain ⟨isParam, leads⟩ := leads
          rw [List.length_cons] at enough_rounds
          obtain ⟨rounds, rfl⟩ : ∃ more, rounds = more + 1 := ⟨rounds - 1, by omega⟩
          obtain ⟨die, ended, next_found⟩ := row.finds_next found fuel enough ret
          have die_found := next_found next inner later rfl
          have size_eq := paramSize_eq isParam die_found (Nat.zero_lt_of_lt enough) sib retVal
          have again : paramBody dbg fuel cu ⟨sib, ret, retVal, sizes⟩ =
              .done (.again ⟨die, die, if type.links = 0 then type.size else retVal,
                sizes ++ [word (if type.links = 0 then type.size else retVal)]⟩) := by
            rw [paramBody_next ended, if_neg, size_eq, Exec.done_bind]
            · rfl
            · rw [die_found.tag_eq, isParam.1]
              decide
          rw [loop_again again,
            ih row.behind leads die_found (Nat.lt_of_succ_lt_succ enough_rounds),
            List.append_assoc, List.singleton_append, recorded]

/-- What is stored of all parameters. -/
def recordedAll : List ParamType → List (BitVec 32)
  | [] => []
  | type :: types => word type.size :: recorded type.size types

theorem recordedAll_eq_iff (types : List ParamType) :
    recordedAll types = types.map (fun type => word type.size) ↔ types.IsChain Plain := by
  cases types with
  | nil => exact iff_of_true rfl .nil
  | cons type types =>
      rw [recordedAll, List.map_cons, List.cons_eq_cons, and_iff_right rfl, recorded_eq_iff rfl]

/-- The sizes that are stored for a function with children. -/
theorem paramSizes_recorded {entry : Entry cu} {children rest : Forest (Entry cu)} {offset : Nat}
    (row : Row dbg cu table (.cons entry children rest) offset) {types : List ParamType}
    (leads : Leads dbg table children types) {die : Die} (found : Found dbg entry offset die)
    (opens : entry.decl.children = true → children ≠ .nil) :
    ∃ bound, ∀ fuel, bound ≤ fuel → ∀ ret,
      paramSizes dbg fuel cu die ret = .done (recordedAll types) := by
  have placed := (eachEntry_cons.mp row.placed).1
  cases children with
  | nil =>
      have closed : entry.decl.children = false := by
        cases flag : entry.decl.children with
        | false => rfl
        | true => exact absurd rfl (opens flag)
      cases types with
      | nil =>
          refine ⟨0, fun fuel _ ret => ?_⟩
          rw [paramSizes_first (Row.childless found closed fuel ret)]
          exact if_neg fun child => child.1 rfl
      | cons type types => exact leads.elim
  | cons first inner later =>
      have opened : entry.decl.children = true := by
        cases flag : entry.decl.children with
        | false => cases placed.childless flag
        | true => rfl
      cases types with
      | nil =>
          refine ⟨dbg.debugInfo.dsSize + 1, fun fuel enough ret => ?_⟩
          obtain ⟨die', ended, first_found⟩ := row.finds_first found fuel (by omega) ret
          have tag_eq := (first_found first inner later rfl).tag_eq
          rw [paramSizes_first ended, if_neg fun isParam => leads (tag_eq.symm.trans isParam.2)]
          rfl
      | cons type types =>
          obtain ⟨isParam, leads⟩ := leads
          obtain ⟨tag, attr, target, has_type, refers, resolves⟩ := isParam
          obtain ⟨_, stands⟩ := resolves.stands
          refine ⟨dbg.debugInfo.dsSize + type.links + types.length + 1, fun fuel enough ret => ?_⟩
          obtain ⟨die', ended, first_found⟩ := row.finds_first found fuel (by omega) ret
          have die_found := first_found first inner later rfl
          obtain ⟨attrOffset, type_found⟩ := attrFind_typeAttr has_type die_found
          rw [paramSizes_first ended, if_pos ⟨by decide, die_found.tag_eq.trans tag⟩, type_found,
            typeLoop_resolves resolves (by omega) (by omega) die
              (refers.offset_eq stands attrOffset), Exec.done_bind]
          dsimp only [Option.getD_some]
          rw [paramLoop_recorded (row.below opened) leads die_found (by omega) (by omega)]
          rfl

/-! ## `list_func_die` -/

/-- A function that says it has children and has none: the first child is what the
variable holds from before. -/
theorem dwarfChild_of_ends {entry : Entry cu} {offset : Nat} {die : Die}
    (found : Found dbg entry offset die) (opened : entry.decl.children = true)
    (ends : Ends dbg cu (offset + (entry.bytes dbg.order).length)) {fuel : Nat}
    (positive : 0 < fuel) (ret : Die) :
    dwarfChild dbg cu fuel die ret = .done (dlvNoEntry, ret) := by
  obtain ⟨fuel, rfl⟩ : ∃ more, fuel = more + 1 := ⟨fuel - 1, by omega⟩
  have has_children : die.dieAb.abChildren ≠ childrenNo := by
    rw [found.children_eq, ne_eq, Decl.childrenFlag_eq_no_iff, opened]
    exact Bool.true_eq_false_eq_False
  rw [← found.next_eq] at ends
  have stop : searchBody dbg cu false ⟨die.dieNextOff, 1, ret⟩ =
      .done (.stop (dleNoEntry, ret)) :=
    searchBody_of_ends ends (.inl rfl)
  rw [dwarfChild, if_neg has_children, searchDieWithinCu, loop_stop stop, Exec.done_bind]
  rfl

/-- The loop over the parameters keeps what is stored. -/
theorem paramLoop_keeps {fuel rounds : Nat} {state : Params} {sizes : List (BitVec 32)}
    (ended : loop (paramBody dbg fuel cu) rounds state = .done sizes) : state.sizes <+: sizes := by
  refine loop_result (fun later => state.sizes <+: later.sizes) (fun sizes => state.sizes <+: sizes)
    ?_ ?_ (List.prefix_refl _) ended
  · intro now later kept round
    rw [paramBody] at round
    obtain ⟨⟨status, ret⟩, -, rest⟩ := Exec.bind_eq_done round
    dsimp only at rest
    split at rest
    · cases rest
    · split at rest
      · cases rest
      · obtain ⟨size, -, made⟩ := Exec.bind_eq_done rest
        cases made
        exact kept.trans (List.prefix_append _ _)
  · intro now result kept round
    rw [paramBody] at round
    obtain ⟨⟨status, ret⟩, -, rest⟩ := Exec.bind_eq_done round
    dsimp only at rest
    split at rest
    · cases rest
      exact kept
    · split at rest
      · cases rest
        exact kept
      · obtain ⟨size, -, made⟩ := Exec.bind_eq_done rest
        cases made

/-- A variable that holds a parameter without a type. -/
def staleParam (ret : Die) : Die :=
  { ret with dieTag := tagFormalParameter, dieAttr := [] }

/-- It is counted when there is no child. -/
theorem paramSizes_stale {fuel : Nat} {die ret : Die} {sizes : List (BitVec 32)}
    (positive : 0 < fuel)
    (no_child : dwarfChild dbg cu fuel die (staleParam ret) = .done (dlvNoEntry, staleParam ret))
    (ended : paramSizes dbg fuel cu die (staleParam ret) = .done sizes) : sizes ≠ [] := by
  obtain ⟨more, rfl⟩ : ∃ more, fuel = more + 1 := ⟨fuel - 1, by omega⟩
  have no_type : attrFind (staleParam ret) atType = none := rfl
  rw [paramSizes_first no_child, if_pos ⟨by decide, rfl⟩, no_type, loop_stop rfl,
    Exec.done_bind] at ended
  intro none
  rw [none] at ended
  exact absurd (paramLoop_keeps ended).length_le (Nat.not_succ_le_zero 0)

/-- What `list_func_die` has looked up of a function when it returns. -/
theorem listFuncDie_done {fuel : Nat} {debugLine : Section} {cudie ret die : Die} {addr : Nat}
    {info : Ripdebuginfo} (covered : covers die addr) {result : Bool × Ripdebuginfo}
    (ended : listFuncDie dbg fuel debugLine cu cudie ret die addr info = .done result) :
    (∃ namelen, strlen dbg.mem die.dieName = some namelen) ∧
      (∃ line, Lineno.dwarfSrclines dbg.order dbg.mem debugLine fuel cu.addrSize cudie .zero addr =
        .done line) ∧
      paramSizes dbg fuel cu die ret = .done result.2.sizeFnArg := by
  rw [listFuncDie, if_pos covered] at ended
  obtain ⟨info', stored, made⟩ := Exec.bind_eq_done ended
  obtain ⟨namelen, named, stored⟩ := Exec.bind_eq_done stored
  obtain ⟨line, lined, stored⟩ := Exec.bind_eq_done stored
  obtain ⟨sizes, sizes_ended, stored⟩ := Exec.bind_eq_done stored
  cases made
  cases stored
  exact ⟨⟨namelen, Exec.ofOption_eq_done named⟩, ⟨line, lined⟩, sizes_ended⟩

/-- Whatever the variables hold before, `list_func_die` stores the size of the type
of each parameter. -/
def StoresSizes (dbg : Debug) (debugLine : Section) (cu : CU) (cudie die : Die) (addr : Nat)
    (types : List ParamType) : Prop :=
  ∀ ret info, ∃ bound, ∀ fuel, bound ≤ fuel → ∃ info',
    listFuncDie dbg fuel debugLine cu cudie ret die addr info = .done (true, info') ∧
      info'.sizeFnArg = types.map fun type => word type.size

section

variable {debugLine : Section} {entry : Entry cu} {children rest : Forest (Entry cu)}
  {offset : Nat} (row : Row dbg cu table (.cons entry children rest) offset)
  {types : List ParamType} (leads : Leads dbg table children types) {cudie die : Die} {addr : Nat}
  (found : Found dbg entry offset die) (covered : covers die addr)

include row leads found covered

/-- What `list_func_die` stores for a function that can be looked at. -/
theorem listFuncDie_recorded (named : ∃ namelen, strlen dbg.mem die.dieName = some namelen)
    (lined : LineEnds dbg debugLine cu cudie addr)
    (opens : entry.decl.children = true → children ≠ .nil) :
    ∃ bound, ∀ fuel, bound ≤ fuel → ∀ ret info, ∃ info',
      listFuncDie dbg fuel debugLine cu cudie ret die addr info = .done (true, info') ∧
        info'.sizeFnArg = recordedAll types := by
  obtain ⟨namelen, named⟩ := named
  obtain ⟨enough_lines, line, lined⟩ := lined
  obtain ⟨bound, recorded_run⟩ := paramSizes_recorded row leads found opens
  refine ⟨max bound enough_lines, fun fuel enough ret info => ?_⟩
  have line_found := Lineno.dwarfSrclines_mono (show enough_lines ≤ fuel by omega) lined
  rw [listFuncDie, if_pos covered, storeFunction, named, Exec.ofOption_some, Exec.done_bind,
    line_found, Exec.done_bind]
  dsimp only
  rw [recorded_run fuel (by omega) ret, Exec.done_bind]
  exact ⟨_, rfl, rfl⟩

/-- A function that says it has children and has none has a parameter, where a
parameter was left. -/
theorem children_of_storesSizes (stores : StoresSizes dbg debugLine cu cudie die addr types) :
    entry.decl.children = true → children ≠ .nil := by
  rintro opened rfl
  obtain rfl : types = [] := by
    cases types with
    | nil => rfl
    | cons type types => exact leads.elim
  obtain ⟨bound, run⟩ := stores (staleParam die) (.init addr)
  obtain ⟨info', ended, sizes_eq⟩ := run (bound + 1) (Nat.le_succ bound)
  obtain ⟨-, -, sizes_ended⟩ := listFuncDie_done covered ended
  have no_child := dwarfChild_of_ends found opened (row.below opened).ends
    (Nat.succ_pos bound) (staleParam die)
  exact paramSizes_stale (Nat.succ_pos bound) no_child sizes_ended sizes_eq

/-- The sizes that `list_func_die` stores are those of the types exactly if every
parameter but the first has a type with a size of its own or the same size as the
parameter before, there are children where there can be, the name can be read and the
lookup of the line comes to an end. -/
theorem storesSizes_iff :
    StoresSizes dbg debugLine cu cudie die addr types ↔
      types.IsChain Plain ∧ (entry.decl.children = true → children ≠ .nil) ∧
        (∃ namelen, strlen dbg.mem die.dieName = some namelen) ∧
          LineEnds dbg debugLine cu cudie addr := by
  constructor
  · intro stores
    have opens := children_of_storesSizes row leads found covered stores
    obtain ⟨bound, run⟩ := stores die (.init addr)
    obtain ⟨_, ended, _⟩ := run bound (le_refl bound)
    obtain ⟨named, ⟨line, lined⟩, -⟩ := listFuncDie_done covered ended
    have line_ends : LineEnds dbg debugLine cu cudie addr := ⟨bound, line, lined⟩
    refine ⟨?_, opens, named, line_ends⟩
    -- both what is stored and what would have to be are known from some fuel on
    obtain ⟨bound', recorded_run⟩ := listFuncDie_recorded row leads found covered named line_ends
      opens
    obtain ⟨info, ended, sizes_eq⟩ := run (max bound bound') (Nat.le_max_left _ _)
    obtain ⟨info', ended', recorded_eq⟩ :=
      recorded_run (max bound bound') (Nat.le_max_right _ _) die (.init addr)
    cases ended.symm.trans ended'
    exact (recordedAll_eq_iff types).mp (recorded_eq.symm.trans sizes_eq)
  · rintro ⟨plain, opens, named, lined⟩ ret info
    obtain ⟨bound, recorded_run⟩ := listFuncDie_recorded row leads found covered named lined opens
    refine ⟨bound, fun fuel enough => ?_⟩
    obtain ⟨info', ended, recorded_eq⟩ := recorded_run fuel enough ret info
    exact ⟨info', ended, recorded_eq.trans ((recordedAll_eq_iff types).mpr plain)⟩

end

/-! ## Two functions of the same types -/

section

theorem four_ends : ¬ Leb.Continues 4 := by
  decide

theorem param_ends : ¬ Leb.Continues 5 := by
  decide

theorem size_ends : ¬ Leb.Continues 0x0b := by
  decide

theorem typedef_ends : ¬ Leb.Continues 0x16 := by
  decide

theorem base_ends : ¬ Leb.Continues 0x24 := by
  decide

theorem type_ends : ¬ Leb.Continues 0x49 := by
  decide

theorem subprogram_ends : ¬ Leb.Continues 0x2e := by
  decide

theorem ref_ends : ¬ Leb.Continues 0x11 := by
  decide

theorem four_nonzero : Leb.group 4 ≠ 0 := by
  decide

theorem five_nonzero : Leb.group 5 ≠ 0 := by
  decide

theorem size_nonzero : Leb.group 0x0b ≠ 0 := by
  decide

theorem type_nonzero : Leb.group 0x49 ≠ 0 := by
  decide

theorem one_spec_le : 1 ≤ nattrdef := by
  decide

theorem three_specs_le : 3 ≤ nattrdef := by
  decide

/-- `DW_AT_byte_size` as `DW_FORM_data1` -/
def byteSizeSpec : Spec :=
  .ofBytes 0x0b 0x0b size_ends size_ends size_nonzero

/-- `DW_AT_type` as `DW_FORM_ref1` -/
def typeSpec : Spec :=
  .ofBytes 0x49 0x11 type_ends ref_ends type_nonzero

/-- `DW_TAG_base_type` with a size -/
def baseDecl : Decl :=
  .ofBytes 2 0x24 two_ends base_ends two_nonzero false [byteSizeSpec] one_spec_le

/-- `DW_TAG_typedef` -/
def typedefDecl : Decl :=
  .ofBytes 3 0x16 three_ends typedef_ends three_nonzero false [typeSpec] one_spec_le

/-- `DW_TAG_subprogram` with children, a name and addresses -/
def calledDecl : Decl :=
  .ofBytes 4 0x2e four_ends subprogram_ends four_nonzero true [nameSpec, lowSpec, highSpec]
    three_specs_le

/-- `DW_TAG_formal_parameter` with a type -/
def paramDecl : Decl :=
  .ofBytes 5 0x05 param_ends param_ends five_nonzero false [typeSpec] one_spec_le

/-- The unit of the entries below. -/
def calledUnit : CU where
  cuLength := 65
  version := 2
  addrSize := 8
  debugAbbrevOffset := 0
  cuLengthSize := 4
  cuDwarfSize := 4
  cuNextOffset := 69
  cuDieOffset := 11
  cuOffset := 0

def endNull : Uleb :=
  .byte 0 zero_ends

theorem root_text : ∀ c ∈ [(0x6B : Byte)], c ≠ 0 := by
  decide

theorem root_code : (Uleb.byte 1 one_ends).value = fileDecl.code.value :=
  rfl

theorem root_specs : [nameSpec] = fileDecl.specs :=
  rfl

theorem direct_text : ∀ c ∈ [(0x66 : Byte)], c ≠ 0 := by
  decide

theorem linked_text : ∀ c ∈ [(0x67 : Byte)], c ≠ 0 := by
  decide

theorem name_chained : nameSpec.form.value = Form.string.code :=
  rfl

theorem low_chained : lowSpec.form.value = Form.addr.code :=
  rfl

theorem high_chained : highSpec.form.value = Form.addr.code :=
  rfl

def rootEntry : Entry calledUnit where
  code := .byte 1 one_ends
  decl := fileDecl
  attrs := [⟨nameSpec, [], .string [0x6B] root_text, name_chained⟩]
  null := endNull
  code_eq := root_code
  specs_eq := root_specs
  null_eq := rfl

/-- A type of so many bytes. -/
def baseEntry (size : Nat) (small : size < 256 ^ 1) : Entry calledUnit where
  code := .byte 2 two_ends
  decl := baseDecl
  attrs := [⟨byteSizeSpec, [], .fixed .data1 1 size rfl small, rfl⟩]
  null := endNull
  code_eq := rfl
  specs_eq := rfl
  null_eq := rfl

/-- A reference to the type at the offset. -/
def typeRef (target : Nat) (small : target < 256 ^ 1) : Attr calledUnit :=
  ⟨typeSpec, [], .fixed .ref1 1 target rfl small, rfl⟩

def typedefEntry (target : Nat) (small : target < 256 ^ 1) : Entry calledUnit where
  code := .byte 3 three_ends
  decl := typedefDecl
  attrs := [typeRef target small]
  null := endNull
  code_eq := rfl
  specs_eq := rfl
  null_eq := rfl

def paramEntry (target : Nat) (small : target < 256 ^ 1) : Entry calledUnit where
  code := .byte 5 param_ends
  decl := paramDecl
  attrs := [typeRef target small]
  null := endNull
  code_eq := rfl
  specs_eq := rfl
  null_eq := rfl

/-- A function of the name, from one address to another. -/
def calledEntry (name : Byte) (nonzero : ∀ c ∈ [name], c ≠ 0) (low high : Nat)
    (low_lt : low < 256 ^ 8) (high_lt : high < 256 ^ 8) : Entry calledUnit where
  code := .byte 4 four_ends
  decl := calledDecl
  attrs := [⟨nameSpec, [], .string [name] nonzero, name_chained⟩,
    ⟨lowSpec, [], .fixed .addr 8 low rfl low_lt, low_chained⟩,
    ⟨highSpec, [], .fixed .addr 8 high rfl high_lt, high_chained⟩]
  null := endNull
  code_eq := rfl
  specs_eq := rfl
  null_eq := rfl

def calledTable : List Decl :=
  [fileDecl, baseDecl, typedefDecl, calledDecl, paramDecl]

/-- `f` from 0x2000 on, with parameters of the types at 14 and 18. -/
def directFirst : Entry calledUnit :=
  calledEntry 0x66 direct_text 0x2000 0x2010 (by decide) (by decide)

/-- `g` from 0x2010 on, with parameters of the types at 18 and 14. -/
def linkedFirst : Entry calledUnit :=
  calledEntry 0x67 linked_text 0x2010 0x2020 (by decide) (by decide)

/-- A parameter of a type of one byte. -/
def charParam : Entry calledUnit :=
  paramEntry 14 (by decide)

/-- A parameter of another name for a type of eight bytes. -/
def wordParam : Entry calledUnit :=
  paramEntry 18 (by decide)

def calledForest : Forest (Entry calledUnit) :=
  .cons (baseEntry 1 (by decide)) .nil <|
    .cons (baseEntry 8 (by decide)) .nil <|
      .cons (typedefEntry 16 (by decide)) .nil <|
        .cons directFirst (.cons charParam .nil (.cons wordParam .nil .nil)) <|
          .cons linkedFirst (.cons wordParam .nil (.cons charParam .nil .nil)) .nil

/-- The declarations, and the unit of the entries. -/
def calledBytes : List Byte :=
  [1, 0x11, 1, 0x03, 0x08, 0, 0, 2, 0x24, 0, 0x0B, 0x0B, 0, 0, 3, 0x16, 0, 0x49, 0x11, 0, 0,
    4, 0x2E, 1, 0x03, 0x08, 0x11, 0x01, 0x12, 0x01, 0, 0, 5, 0x05, 0, 0x49, 0x11, 0, 0] ++
    ([65, 0, 0, 0, 2, 0, 0, 0, 0, 0, 8] ++
      ([1, 0x6B, 0, 2, 1, 2, 8, 3, 16] ++
        [4, 0x66, 0, 0, 0x20, 0, 0, 0, 0, 0, 0, 0x10, 0x20, 0, 0, 0, 0, 0, 0, 5, 14, 5, 18, 0] ++
        [4, 0x67, 0, 0x10, 0x20, 0, 0, 0, 0, 0, 0, 0x20, 0x20, 0, 0, 0, 0, 0, 0, 5, 18, 5, 14, 0]
        ++ [0]))

def calledDebug : Debug where
  mem := .image 0x1000 calledBytes (by decide)
  order := .lsb
  debugInfo := ⟨0x1027, 69⟩
  debugAbbrev := ⟨0x1000, 39⟩
  debugStr := ⟨0x1000, 0⟩

theorem called_bytes_eq :
    entryBytes .lsb (.cons rootEntry calledForest .nil) = calledBytes.drop 50 := by
  decide

/-- The entries of the unit. -/
theorem called_root :
    Row calledDebug calledUnit calledTable (.cons rootEntry calledForest .nil) 11 where
  standard := ⟨.inl rfl, by decide, .inl rfl⟩
  tabled := by
    refine ⟨Memory.image_holds _ [] (calledBytes.drop 39) rfl, ?_, ?_⟩
    · change 0 + (tableBytes .lsb calledTable).length ≤ 39
      decide
    · change 0x1000 + 39 < 2 ^ 64
      decide
  placed := by
    refine eachEntry_cons.mpr ⟨⟨⟨rfl, nofun⟩, by decide⟩, ?_, trivial⟩
    refine eachEntry_cons.mpr ⟨⟨⟨rfl, fun _ => rfl⟩, by decide⟩, trivial, ?_⟩
    refine eachEntry_cons.mpr ⟨⟨⟨rfl, fun _ => rfl⟩, by decide⟩, trivial, ?_⟩
    refine eachEntry_cons.mpr ⟨⟨⟨rfl, fun _ => rfl⟩, by decide⟩, trivial, ?_⟩
    refine eachEntry_cons.mpr ⟨⟨⟨rfl, nofun⟩, by decide⟩, ?_, ?_⟩
    · refine eachEntry_cons.mpr ⟨⟨⟨rfl, fun _ => rfl⟩, by decide⟩, trivial, ?_⟩
      exact eachEntry_cons.mpr ⟨⟨⟨rfl, fun _ => rfl⟩, by decide⟩, trivial, trivial⟩
    · refine eachEntry_cons.mpr ⟨⟨⟨rfl, nofun⟩, by decide⟩, ?_, trivial⟩
      refine eachEntry_cons.mpr ⟨⟨⟨rfl, fun _ => rfl⟩, by decide⟩, trivial, ?_⟩
      exact eachEntry_cons.mpr ⟨⟨⟨rfl, fun _ => rfl⟩, by decide⟩, trivial, trivial⟩
  passable := by
    refine eachEntry_cons.mpr ⟨.of_no_sibling (by decide) rfl, ?_, trivial⟩
    refine eachEntry_cons.mpr ⟨.of_no_sibling (by decide) rfl, trivial, ?_⟩
    refine eachEntry_cons.mpr ⟨.of_no_sibling (by decide) rfl, trivial, ?_⟩
    refine eachEntry_cons.mpr ⟨.of_no_sibling (by decide) rfl, trivial, ?_⟩
    refine eachEntry_cons.mpr ⟨.of_no_sibling (by decide) rfl, ?_, ?_⟩
    · refine eachEntry_cons.mpr ⟨.of_no_sibling (by decide) rfl, trivial, ?_⟩
      exact eachEntry_cons.mpr ⟨.of_no_sibling (by decide) rfl, trivial, trivial⟩
    · refine eachEntry_cons.mpr ⟨.of_no_sibling (by decide) rfl, ?_, trivial⟩
      refine eachEntry_cons.mpr ⟨.of_no_sibling (by decide) rfl, trivial, ?_⟩
      exact eachEntry_cons.mpr ⟨.of_no_sibling (by decide) rfl, trivial, trivial⟩
  contains := by
    rw [show calledDebug.order = .lsb from rfl, called_bytes_eq]
    refine ⟨Memory.image_holds _ (calledBytes.take 50) [] rfl, ?_, ?_⟩
    · decide
    · change 0x1027 + 69 < 2 ^ 64
      decide
  inside := by
    rw [show calledDebug.order = .lsb from rfl, called_bytes_eq]
    decide
  ends := by
    rw [show calledDebug.order = .lsb from rfl, called_bytes_eq]
    exact .inl (le_refl 69)

/-- The entries of the types and functions. -/
theorem called_types : Row calledDebug calledUnit calledTable calledForest 14 :=
  Row.below called_root rfl

theorem called_functions : Row calledDebug calledUnit calledTable
    (.cons directFirst (.cons charParam .nil (.cons wordParam .nil .nil)) <|
      .cons linkedFirst (.cons wordParam .nil (.cons charParam .nil .nil)) .nil) 20 :=
  Row.behind (Row.behind (Row.behind called_types))

/-- The type at 14. -/
theorem char_resolves : Resolves calledDebug calledUnit calledTable 14 0 1 :=
  .sized (Row.stands called_types) rfl trivial rfl

/-- The type at 18, which refers to the one at 16. -/
theorem word_resolves : Resolves calledDebug calledUnit calledTable 18 1 8 :=
  .linked (Row.behind (Row.behind called_types)).stands rfl rfl ⟨rfl, by decide, trivial⟩
    (.sized (Row.behind called_types).stands rfl trivial rfl)

theorem charParam_isParam : IsParam calledDebug calledTable charParam ⟨0, 1⟩ :=
  ⟨rfl, _, 14, rfl, ⟨rfl, by decide, trivial⟩, char_resolves⟩

theorem wordParam_isParam : IsParam calledDebug calledTable wordParam ⟨1, 8⟩ :=
  ⟨rfl, _, 18, rfl, ⟨rfl, by decide, trivial⟩, word_resolves⟩

theorem linked_leads : Leads calledDebug calledTable
    (.cons wordParam .nil (.cons charParam .nil .nil)) [⟨1, 8⟩, ⟨0, 1⟩] :=
  ⟨wordParam_isParam, charParam_isParam, trivial⟩

theorem direct_leads : Leads calledDebug calledTable
    (.cons charParam .nil (.cons wordParam .nil .nil)) [⟨0, 1⟩, ⟨1, 8⟩] :=
  ⟨charParam_isParam, wordParam_isParam, trivial⟩

/-- The function that is read at the offset has a name, and the address is inside. -/
theorem called_found {entry : Entry calledUnit} {children rest : Forest (Entry calledUnit)}
    {offset : Nat} (row : Row calledDebug calledUnit calledTable (.cons entry children rest) offset)
    {f : Function} (describes : Describes calledDebug rootEntry entry f)
    (direct : entry.NameDirect) {addr : Nat} (inside : f.Inside addr) :
    ∃ die, Found calledDebug entry offset die ∧ covers die addr ∧
      ∃ namelen, strlen calledDebug.mem die.dieName = some namelen := by
  obtain ⟨die, -, found⟩ := row.stands.dwarfOffdie Nat.one_pos zeroDie
  have named := found.holds_name describes.name direct row.entry_contains
  exact ⟨die, found, (covers_of_describes found describes addr).mpr inside, _,
    strlen_eq describes.name.1 named⟩

theorem linked_first_found :
    ∃ die, Found calledDebug linkedFirst 44 die ∧ covers die 0x2018 ∧
      ∃ namelen, strlen calledDebug.mem die.dieName = some namelen := by
  have describes : Describes calledDebug rootEntry linkedFirst ⟨0x2010, 0x2020, [0x67], [0x6B]⟩ :=
    ⟨rfl, rfl, rfl, ⟨by decide, _, rfl, rfl⟩, ⟨by decide, _, rfl, rfl⟩⟩
  have direct : ∀ attr ∈ linkedFirst.attrs, attr.spec.attrib.value = atName → attr.links = [] := by
    decide
  exact called_found (Row.behind called_functions) describes direct ⟨by decide, by decide⟩

theorem direct_first_found :
    ∃ die, Found calledDebug directFirst 20 die ∧ covers die 0x2008 ∧
      ∃ namelen, strlen calledDebug.mem die.dieName = some namelen := by
  have describes : Describes calledDebug rootEntry directFirst ⟨0x2000, 0x2010, [0x66], [0x6B]⟩ :=
    ⟨rfl, rfl, rfl, ⟨by decide, _, rfl, rfl⟩, ⟨by decide, _, rfl, rfl⟩⟩
  have direct : ∀ attr ∈ directFirst.attrs, attr.spec.attrib.value = atName → attr.links = [] := by
    decide
  exact called_found called_functions describes direct ⟨by decide, by decide⟩

def calledLines : Section :=
  ⟨0x1000, 0⟩

/-- The entry of the file, which has no lines. -/
theorem called_lined {cudie : Die} (found : Found calledDebug rootEntry 11 cudie) (addr : Nat) :
    LineEnds calledDebug calledLines calledUnit cudie addr :=
  lineEnds_of_no_lines found rfl _ _

theorem called_root_found : ∃ cudie, Found calledDebug rootEntry 11 cudie := by
  obtain ⟨cudie, -, found⟩ := (Row.stands called_root).dwarfOffdie Nat.one_pos zeroDie
  exact ⟨cudie, found⟩

/-- The sizes of the parameters of `g` are stored. -/
theorem storesSizes_linked_first :
    ∃ cudie die, Found calledDebug rootEntry 11 cudie ∧ Found calledDebug linkedFirst 44 die ∧
      StoresSizes calledDebug calledLines calledUnit cudie die 0x2018 [⟨1, 8⟩, ⟨0, 1⟩] := by
  obtain ⟨cudie, root⟩ := called_root_found
  obtain ⟨die, found, covered, named⟩ := linked_first_found
  have functions := Row.behind called_functions
  exact ⟨cudie, die, root, found, (storesSizes_iff functions linked_leads found covered).mpr
    ⟨List.isChain_pair.mpr (.inl rfl), fun _ => nofun, named, called_lined root _⟩⟩

/-- Of those of `f`, which are of the same types, the first is stored twice. -/
theorem first_size_carried :
    (∃ cudie die, Found calledDebug rootEntry 11 cudie ∧ Found calledDebug directFirst 20 die ∧
      ∃ bound, ∀ fuel, bound ≤ fuel → ∀ ret info, ∃ info',
        listFuncDie calledDebug fuel calledLines calledUnit cudie ret die 0x2008 info =
          .done (true, info') ∧ info'.sizeFnArg = [1, 1]) ∧
    ¬ ∀ (dbg : Debug) (debugLine : Section) (cu : CU) (table : List Decl) (entry : Entry cu)
      (children rest : Forest (Entry cu)) (offset : Nat) (types : List ParamType) (cudie die : Die)
      (addr : Nat), Row dbg cu table (.cons entry children rest) offset →
        Leads dbg table children types → types.length ≤ 10 → Found dbg entry offset die →
          covers die addr → (∃ namelen, strlen dbg.mem die.dieName = some namelen) →
            LineEnds dbg debugLine cu cudie addr → children ≠ .nil →
              StoresSizes dbg debugLine cu cudie die addr types := by
  obtain ⟨cudie, root⟩ := called_root_found
  obtain ⟨die, found, covered, named⟩ := direct_first_found
  have lined := called_lined root 0x2008
  refine ⟨⟨cudie, die, root, found, listFuncDie_recorded called_functions direct_leads found
    covered named lined fun _ => nofun⟩, fun claim => ?_⟩
  obtain ⟨bound, run⟩ := claim _ calledLines _ _ _ _ _ _ _ cudie _ _ called_functions direct_leads
    (by decide) found covered named lined nofun die (.init 0x2008)
  obtain ⟨bound', recorded_run⟩ := listFuncDie_recorded called_functions direct_leads found covered
    named lined fun _ => nofun
  obtain ⟨info, ended, sizes_eq⟩ := run (max bound bound') (Nat.le_max_left _ _)
  obtain ⟨info', ended', recorded_eq⟩ :=
    recorded_run (max bound bound') (Nat.le_max_right _ _) die (.init 0x2008)
  cases ended.symm.trans ended'
  exact absurd (recorded_eq.symm.trans sizes_eq) (by decide)

end

end Jos64.Debuginfo
