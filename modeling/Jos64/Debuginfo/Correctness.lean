import Jos64.Debuginfo.Filled
import Jos64.Debuginfo.Parameters
import Jos64.Debuginfo.Units

/-!
# Finding the function of an address

What is returned and stored for an address is right, unless the address is the
first of a function, which is not inside of it, or its line is looked for without end.
-/

namespace Jos64.Debuginfo

open Loop Dwarf Forest

variable {dbg : Debug}

/-! ## The call -/

/-- What holds from some bound on for each member of a list does so for all. -/
theorem bound_of_forall {α : Type*} {members : List α} {p : α → Nat → Prop}
    (each : ∀ a ∈ members, ∃ bound, ∀ fuel, bound ≤ fuel → p a fuel) :
    ∃ bound, ∀ fuel, bound ≤ fuel → ∀ a ∈ members, p a fuel := by
  have finite : {a | a ∈ members}.Finite := members.finite_toSet
  have eventually := (Filter.eventually_all_finite finite).mpr fun a mem =>
    Filter.eventually_atTop.mpr (each a mem)
  exact Filter.eventually_atTop.mp eventually

/-- The sizes of the parameters are found for the function that the address belongs
to, wherever in the unit it stands. -/
def ParamsEnd (u : FileUnit dbg) (addr fuel : Nat) : Prop :=
  ∀ tree ∈ u.children.trees, ∀ f, Describes dbg u.root tree.1 f → f.Holds addr →
    ∀ rest offset die, Row dbg (u.unit.cu u.offset) u.table (.cons tree.1 tree.2 rest) offset →
      Found dbg tree.1 offset die → ∀ ret, ∃ sizes,
        paramSizes dbg fuel (u.unit.cu u.offset) die ret = .done sizes

theorem Located.functionOf {u : FileUnit dbg} {units : List (FileUnit dbg)} (u_mem : u ∈ units)
    {f : Function} {cudie die : Die} (located : Located u f cudie die) : FunctionOf units f := by
  obtain ⟨mem, describes, -⟩ := located
  exact ⟨u, u_mem, _, mem, describes⟩

theorem Located.found_root {u : FileUnit dbg} {f : Function} {cudie die : Die}
    (located : Located u f cudie die) :
    Found dbg u.root (u.unit.cu u.offset).cuDieOffset cudie := by
  obtain ⟨-, -, root, -, -⟩ := located
  exact root

/-- The line is found from what is read of the entry of the file. -/
theorem dwarfSrclines_of_found {cu : CU} {entry : Entry cu} {offset : Nat} {cudie cudie' : Die}
    (found : Found dbg entry offset cudie) (found' : Found dbg entry offset cudie')
    (debugLine : Section) (fuel addrSize : Nat) (linebuf : Lineno.Line) (pc : Nat) :
    Lineno.dwarfSrclines dbg.order dbg.mem debugLine fuel addrSize cudie linebuf pc =
      Lineno.dwarfSrclines dbg.order dbg.mem debugLine fuel addrSize cudie' linebuf pc := by
  have same : attrFind cudie Lineno.atStmtList = attrFind cudie' Lineno.atStmtList := by
    rw [attrFind, attrFind, found.attrs_eq, found'.attrs_eq]
  rw [Lineno.dwarfSrclines, Lineno.dwarfSrclines, same]

/-- From some bound on the lookup of the line ends, from whatever is read of the entry. -/
theorem LinesEnd.bound {debugLine : Section} {u : FileUnit dbg} {addr : Nat}
    (lines : LinesEnd debugLine u addr) : ∃ bound, ∀ fuel, bound ≤ fuel → ∀ cudie,
      Found dbg u.root (u.unit.cu u.offset).cuDieOffset cudie → ∃ result,
        Lineno.dwarfSrclines dbg.order dbg.mem debugLine fuel u.unit.addrSize cudie .zero addr =
          .done result := by
  by_cases read : ∃ cudie, Found dbg u.root (u.unit.cu u.offset).cuDieOffset cudie
  · obtain ⟨cudie, found⟩ := read
    obtain ⟨bound, result, ended⟩ := lines cudie found
    refine ⟨bound, fun fuel enough cudie' found' => ⟨result, ?_⟩⟩
    rw [dwarfSrclines_of_found found' found]
    exact Lineno.dwarfSrclines_mono enough ended
  · exact ⟨0, fun _ _ cudie found => absurd ⟨cudie, found⟩ read⟩

section

variable {units : List (FileUnit dbg)} {addr : Nat} (searchable : Searchable units addr)

include searchable

theorem params_end : ∃ bound, ∀ fuel, bound ≤ fuel → ∀ u ∈ units, ParamsEnd u addr fuel := by
  apply bound_of_forall
  intro u u_mem
  apply bound_of_forall
  intro tree tree_mem
  by_cases belongs : ∃ f, Describes dbg u.root tree.1 f ∧ f.Holds addr
  · obtain ⟨f, describes, holds⟩ := belongs
    obtain ⟨-, visible⟩ := searchable.visible u u_mem tree tree_mem f describes holds
    obtain ⟨bound, ends⟩ := paramSizes_ends visible.opens visible.typed
    exact ⟨bound, fun fuel enough _ _ _ => ends fuel enough⟩
  · exact ⟨0, fun _ _ f describes holds => absurd ⟨f, describes, holds⟩ belongs⟩

/-- What is stored for the function that has been found, with its line. -/
theorem storeFunction_located {u : FileUnit dbg} (u_mem : u ∈ units) {f : Function}
    {cudie die : Die} (inside : f.Inside addr) (located : Located u f cudie die) {fuel : Nat}
    (params : ParamsEnd u addr fuel) (debugLine : Section) (ret : Die) :
    ∃ info : Lineno.Line → Ripdebuginfo,
      storeFunction dbg fuel debugLine (u.unit.cu u.offset) cudie ret die addr =
        (Lineno.dwarfSrclines dbg.order dbg.mem debugLine fuel u.unit.addrSize cudie .zero
          addr).bind (fun result => .done (info result.2)) ∧
      ∀ ln, Names dbg.mem f (info ln) ∧ (info ln).ripLine = wrap32 ln.lnLineno := by
  obtain ⟨mem, describes, root, row, found⟩ := located
  have holds : f.Holds addr := ⟨inside.1.le, inside.2⟩
  obtain ⟨root_direct, visible⟩ := searchable.visible u u_mem _ mem f describes holds
  have named := found.holds_name describes.name visible.named row.entry_contains
  have filed := root.holds_name describes.file root_direct
    (u.row (searchable.passable u u_mem)).entry_contains
  obtain ⟨low, low_found, low_eq⟩ := attrFind_of_pc found describes.low
  obtain ⟨sizes, sizes_eq⟩ := params _ mem f describes holds _ _ _ row found ret
  refine ⟨fun ln => functionInfo cudie die (wrap32 f.name.length) ln sizes, ?_, fun ln => ?_⟩
  · rw [storeFunction, strlen_eq describes.name.1 named, Exec.ofOption_some, Exec.done_bind,
      sizes_eq]
    rfl
  · refine ⟨⟨⟨die.dieName, rfl, named⟩, ?_, ⟨cudie.dieName, rfl, filed⟩, ?_⟩, ?_⟩
    · dsimp only [functionInfo]
    · dsimp only [functionInfo]
      rw [low_found]
      exact low_eq
    · dsimp only [functionInfo]

variable (formed : WellFormed units)

include formed

/-- The search of `debuginfo_rip` in well-formed units. -/
theorem search_ends (debugLine : Section) : ∃ bound, ∀ fuel, bound ≤ fuel → ∀ locals,
    (∃ u f cudie die, firstUnit units addr = some u ∧ f.Inside addr ∧ Located u f cudie die ∧
      search dbg fuel debugLine locals addr =
        (storeFunction dbg fuel debugLine (u.unit.cu u.offset) cudie locals.ret die addr).bind
          fun info => .done (some info)) ∨
    ((∀ f, FunctionOf units f → ¬ f.Inside addr) ∧
      search dbg fuel debugLine locals addr = .done none) := by
  obtain ⟨bound, rounds⟩ := bound_of_forall (p := fun u fuel => u.children.trees.length < fuel)
    fun (u : FileUnit dbg) (_ : u ∈ units) => ⟨u.children.trees.length + 1, fun _ => id⟩
  refine ⟨max bound (max (dbg.debugInfo.dsSize + 1) (units.length + 1)),
    fun fuel enough locals => ?_⟩
  have enough_fuel : dbg.debugInfo.dsSize < fuel := by omega
  have enough_units : units.length < fuel := by omega
  have ends := unitLoop_ends debugLine locals.ret addr formed.laid formed.described
    searchable.short searchable.passable searchable.opens enough_fuel (rounds fuel (by omega))
    enough_units locals.start rfl
  rcases ends with found | ⟨none, state, rounds, behind, ended⟩
  · exact .inl found
  · obtain ⟨ret, ret_ne, next⟩ := searchable.ended none
    obtain ⟨currOff, cu, next_eq⟩ := next state.cu
    have stop : unitBody dbg fuel debugLine locals.ret addr state = .done (.stop .none) := by
      rw [unitBody, enterUnit, behind, next_eq, Exec.ofOption_some, Exec.done_bind]
      dsimp only
      rw [if_neg ret_ne, Exec.done_bind]
    exact .inr ⟨none, ended.trans (loop_stop stop rounds)⟩

/-- What `debuginfo_rip` returns and stores: for a function with the address inside, what is
stored for it once its line has been looked up. -/
theorem debuginfoRip_ends {kernel : Kernel} (initialised : dwarfInit kernel = some dbg)
    (in_kernel : ulim ≤ addr) : ∃ bound, ∀ fuel, bound ≤ fuel → ∀ locals,
    (∃ u f cudie die, firstUnit units addr = some u ∧ f.Inside addr ∧ Located u f cudie die ∧
      ∃ info : Lineno.Line → Ripdebuginfo,
        debuginfoRip fuel kernel locals addr =
          (Lineno.dwarfSrclines dbg.order dbg.mem kernel.debugLine fuel u.unit.addrSize cudie .zero
            addr).bind (fun result => .done (0, info result.2)) ∧
        ∀ ln, Names dbg.mem f (info ln) ∧ (info ln).ripLine = wrap32 ln.lnLineno) ∨
    ((∀ f, FunctionOf units f → ¬ f.Inside addr) ∧
      debuginfoRip fuel kernel locals addr = .done (-1, .init addr)) := by
  obtain ⟨bound, search_eq⟩ := search_ends searchable formed kernel.debugLine
  obtain ⟨bound', params⟩ := params_end searchable
  refine ⟨max bound bound', fun fuel enough locals => ?_⟩
  have has_size : dbg.debugInfo.dsSize ≠ 0 := formed.dsSize_pos.ne'
  rw [debuginfoRip, if_neg (by omega), initialised, Exec.ofOption_some, Exec.done_bind,
    if_neg has_size]
  rcases search_eq fuel (by omega) locals with
    ⟨u, f, cudie, die, first, inside, located, found⟩ | ⟨none, ended⟩
  · have u_mem := mem_of_firstUnit first
    obtain ⟨info, stored, names⟩ := storeFunction_located searchable u_mem inside located
      (params fuel (by omega) u u_mem) kernel.debugLine locals.ret
    refine .inl ⟨u, f, cudie, die, first, inside, located, info, ?_, names⟩
    rw [found, stored]
    cases Lineno.dwarfSrclines dbg.order dbg.mem kernel.debugLine fuel u.unit.addrSize cudie .zero
        addr with
    | done result => rfl
    | fault => rfl
    | timeout => rfl
  · refine .inr ⟨none, ?_⟩
    rw [ended, Exec.done_bind]

section

variable {kernel : Kernel} {locals : Locals} (initialised : dwarfInit kernel = some dbg)
  (in_kernel : ulim ≤ addr)

include initialised in_kernel

theorem reports_of_elsewhere
    (elsewhere : ∀ f, FunctionOf units f → f.low = addr → ¬ addr < f.high)
    (lines : ∀ u, firstUnit units addr = some u → LinesEnd kernel.debugLine u addr) :
    Reports units (fun fuel => debuginfoRip fuel kernel locals addr) addr := by
  have inside {f : Function} (f_of : FunctionOf units f) (holds : f.Holds addr) :
      f.Inside addr :=
    ⟨holds.1.lt_of_ne fun low_eq => elsewhere f f_of low_eq holds.2, holds.2⟩
  obtain ⟨bound, ends⟩ := debuginfoRip_ends searchable formed initialised in_kernel
  obtain ⟨bound', lined⟩ := @bound_of_forall _ (firstUnit units addr).toList _
    fun u member => (lines u (Option.mem_toList.mp member)).bound
  refine ⟨max bound bound', fun fuel enough => ?_⟩
  rcases ends fuel (by omega) locals with
    ⟨u, f, cudie, die, first, within, located, info, call_eq, names⟩ | ⟨none, ended⟩
  · obtain ⟨result, ended⟩ := lined fuel (by omega) u (Option.mem_toList.mpr first) cudie
      located.found_root
    rw [ended, Exec.done_bind] at call_eq
    exact .inl ⟨f, _, located.functionOf (mem_of_firstUnit first),
      ⟨within.1.le, within.2⟩, call_eq, (names result.2).1⟩
  · exact .inr ⟨fun f f_of holds => none f f_of (inside f_of holds), -1, by decide, ended⟩

/-- The first address of a function is missed. -/
theorem not_reports_of_low {f : Function} (f_of : FunctionOf units f) (low : f.low = addr)
    (high : addr < f.high) :
    ¬ Reports units (fun fuel => debuginfoRip fuel kernel locals addr) addr := by
  rintro ⟨bound, reports⟩
  have holds : f.Holds addr := ⟨low.le, high⟩
  obtain ⟨bound', ends⟩ := debuginfoRip_ends searchable formed initialised in_kernel
  rcases ends (max bound bound') (le_max_right _ _) locals with
    ⟨u, g, cudie, die, first, within, located, -⟩ | ⟨-, ended⟩
  · have g_of := located.functionOf (mem_of_firstUnit first)
    obtain rfl := formed.disjoint f g addr f_of g_of holds ⟨within.1.le, within.2⟩
    exact absurd low within.1.ne
  · rcases reports (max bound bound') (le_max_left _ _) with ⟨_, _, _, _, found, -⟩ | ⟨none, -⟩
    · cases found.symm.trans ended
    · exact none f f_of holds

/-- Nothing is reported before the line has been looked up. -/
theorem linesEnd_of_reports {u : FileUnit dbg} (first : firstUnit units addr = some u)
    (reports : Reports units (fun fuel => debuginfoRip fuel kernel locals addr) addr) :
    LinesEnd kernel.debugLine u addr := by
  obtain ⟨bound, reports⟩ := reports
  obtain ⟨bound', ends⟩ := debuginfoRip_ends searchable formed initialised in_kernel
  obtain ⟨tree, tree_mem, f, describes, inside⟩ := encloses_of_firstUnit first
  have f_of : FunctionOf units f :=
    ⟨u, mem_of_firstUnit first, tree, tree_mem, describes⟩
  rcases ends (max bound bound') (le_max_right _ _) locals with
    ⟨v, g, root, die, first', within, located, info, call_eq, -⟩ | ⟨none, -⟩
  · cases first.symm.trans first'
    rcases reports (max bound bound') (le_max_left _ _) with
      ⟨_, _, _, _, reported, -⟩ | ⟨none, -⟩
    · obtain ⟨result, ended, -⟩ := Exec.bind_eq_done (call_eq.symm.trans reported)
      intro cudie found
      refine ⟨max bound bound', result, ?_⟩
      rw [dwarfSrclines_of_found found located.found_root]
      exact ended
    · exact absurd ⟨inside.1.le, inside.2⟩ (none f f_of)
  · exact absurd inside (none f f_of)

/-- In well-formed sections that nothing else stands in the way of searching, what
`debuginfo_rip` reports for an address is right exactly if the address is not the
first of a function, and the lookup of its line comes to an end where it is inside of one. -/
theorem debuginfoRip_reports_iff :
    Reports units (fun fuel => debuginfoRip fuel kernel locals addr) addr ↔
      (∀ f, FunctionOf units f → f.low = addr → ¬ addr < f.high) ∧
        ∀ u, firstUnit units addr = some u → LinesEnd kernel.debugLine u addr := by
  constructor
  · intro reports
    refine ⟨fun f f_of low high => ?_, fun u first => ?_⟩
    · exact not_reports_of_low searchable formed initialised in_kernel f_of low high reports
    · exact linesEnd_of_reports searchable formed initialised in_kernel first reports
  · rintro ⟨elsewhere, lines⟩
    exact reports_of_elsewhere searchable formed initialised in_kernel elsewhere lines

end

end

/-! ## A unit of one function -/

section

/-- `DW_AT_name` as `DW_FORM_string` -/
def nameSpec : Spec where
  attrib := .byte 0x03 three_ends
  form := .byte 0x08 eight_ends
  attrib_ne := by decide
  attrib_lt := by decide
  form_lt := by decide

/-- `DW_AT_low_pc` as `DW_FORM_addr` -/
def lowSpec : Spec where
  attrib := .byte 0x11 (by decide)
  form := .byte 0x01 one_ends
  attrib_ne := by decide
  attrib_lt := by decide
  form_lt := by decide

/-- `DW_AT_high_pc` as `DW_FORM_addr` -/
def highSpec : Spec where
  attrib := .byte 0x12 (by decide)
  form := .byte 0x01 one_ends
  attrib_ne := by decide
  attrib_lt := by decide
  form_lt := by decide

/-- `DW_TAG_compile_unit` with children and a name -/
def fileDecl : Decl where
  code := .byte 1 one_ends
  tag := .byte 0x11 (by decide)
  children := true
  specs := [nameSpec]
  endAttrib := .byte 0 zero_ends
  endForm := .byte 0 zero_ends
  code_ne := by decide
  code_lt := by decide
  tag_lt := by decide
  specs_le := by decide
  endAttrib_eq := rfl

/-- `DW_TAG_subprogram` with a name and addresses -/
def functionDecl : Decl where
  code := .byte 2 two_ends
  tag := .byte 0x2e (by decide)
  children := false
  specs := [nameSpec, lowSpec, highSpec]
  endAttrib := .byte 0 zero_ends
  endForm := .byte 0 zero_ends
  code_ne := by decide
  code_lt := by decide
  tag_lt := by decide
  specs_le := by decide
  endAttrib_eq := rfl

/-- The unit of the entries, which `functionBytes` holds. -/
def oneFunction : CompUnit where
  wide := false
  version := 2
  abbrevOffset := 0
  addrSize := 8
  contents := [1, 0x6B, 0] ++
    [2, 0x66, 0, 0xFF, 0xFF, 0x1F, 0x04, 0x80, 0, 0, 0, 0x01, 0, 0x20, 0x04, 0x80, 0, 0, 0] ++ [0]
  known := emptyUnit.known
  abbrevOffset_lt := emptyUnit.abbrevOffset_lt
  addrSize_lt := emptyUnit.addrSize_lt
  contents_lt := by decide

def fileEntry : Entry (oneFunction.cu 0) where
  code := .byte 1 one_ends
  decl := fileDecl
  attrs := [⟨nameSpec, [], .string [0x6B] (by decide), rfl⟩]
  null := .byte 0 zero_ends
  code_eq := rfl
  specs_eq := rfl
  null_eq := rfl

def functionEntry : Entry (oneFunction.cu 0) where
  code := .byte 2 two_ends
  decl := functionDecl
  attrs := [⟨nameSpec, [], .string [0x66] (by decide), rfl⟩,
    ⟨lowSpec, [], .fixed .addr 8 0x80041FFFFF rfl (by decide), rfl⟩,
    ⟨highSpec, [], .fixed .addr 8 0x8004200001 rfl (by decide), rfl⟩]
  null := .byte 0 zero_ends
  code_eq := rfl
  specs_eq := rfl
  null_eq := rfl

def onlyFunction : Function where
  low := 0x80041FFFFF
  high := 0x8004200001
  name := [0x66]
  file := [0x6B]

/-- The unit, with zeros behind it. -/
def fileDebug : Debug where
  mem := .image 0x8004010000 (functionBytes ++ List.replicate 11 0) (by decide)
  order := .lsb
  debugInfo := ⟨0x8004010019, 34⟩
  debugAbbrev := ⟨0x8004010006, 19⟩
  debugStr := ⟨0x8004010006, 0⟩

def fileKernel : Kernel where
  mem := fileDebug.mem
  debugInfo := fileDebug.debugInfo
  debugAbbrev := fileDebug.debugAbbrev
  debugStr := fileDebug.debugStr
  debugLine := ⟨0x8004010006, 0⟩

theorem file_initialised : dwarfInit fileKernel = some fileDebug := by
  have version : fileKernel.mem.byte (0x10000 + kernbase + 4) = some 2 := by
    decide
  have order : fileKernel.mem.byte (0x10000 + kernbase + eiData) = some 1 := by
    decide
  rw [dwarfInit]
  rw [version, Option.bind_some, order, Option.map_some, if_neg (by decide)]
  rfl

theorem file_bytes_eq :
    entryBytes .lsb (.cons fileEntry (.cons functionEntry .nil .nil) .nil) =
      oneFunction.contents := by
  decide

theorem file_encodes : Encodes fileDebug (oneFunction.cu 0) [fileDecl, functionDecl]
    (.cons fileEntry (.cons functionEntry .nil .nil) .nil) [] := by
  constructor
  · exact ⟨.inl rfl, by decide, .inl rfl⟩
  · refine ⟨Memory.image_holds _ (functionBytes.take 6) _ rfl, ?_, ?_⟩
    · change 0 + (tableBytes .lsb [fileDecl, functionDecl]).length ≤ 19
      decide
    · change 0x8004010006 + 19 < 2 ^ 64
      decide
  · rw [show fileDebug.order = .lsb from rfl, file_bytes_eq]
    refine ⟨Memory.image_holds _ (functionBytes.take 36) _ rfl, ?_, ?_⟩
    · decide
    · change 0x8004010019 + 34 < 2 ^ 64
      decide
  · rw [show fileDebug.order = .lsb from rfl, file_bytes_eq]
    rfl
  · exact .inl rfl
  · decide
  · refine eachEntry_cons.mpr ⟨⟨⟨rfl, nofun⟩, by decide⟩, ?_, trivial⟩
    exact eachEntry_cons.mpr ⟨⟨⟨rfl, fun _ => rfl⟩, by decide⟩, trivial, trivial⟩

def fileUnit : FileUnit fileDebug where
  offset := 0
  unit := oneFunction
  table := [fileDecl, functionDecl]
  root := fileEntry
  children := .cons functionEntry .nil .nil
  tail := []
  held := Memory.image_holds _ (functionBytes.take 25) _ rfl
  encodes := file_encodes

theorem only_describes : Describes fileDebug fileEntry functionEntry onlyFunction where
  tag := rfl
  low := rfl
  high := rfl
  name := ⟨by decide, _, rfl, rfl⟩
  file := ⟨by decide, _, rfl, rfl⟩

theorem eq_onlyFunction {f : Function} (describes : Describes fileDebug fileEntry functionEntry f) :
    f = onlyFunction := by
  obtain ⟨-, low, high, ⟨-, _, name_only, name_eq⟩, -, _, file_only, file_eq⟩ := describes
  obtain ⟨f_low, f_high, f_name, f_file⟩ := f
  cases low
  cases high
  cases name_only
  cases file_only
  cases name_eq
  cases file_eq
  rfl

theorem functionOf_file {f : Function} :
    FunctionOf [fileUnit] f ↔ f = onlyFunction := by
  constructor
  · rintro ⟨u, u_mem, tree, tree_mem, describes⟩
    obtain rfl := List.mem_singleton.mp u_mem
    obtain rfl := List.mem_singleton.mp tree_mem
    exact eq_onlyFunction describes
  · rintro rfl
    exact ⟨_, List.mem_singleton_self _, _, List.mem_singleton_self _, only_describes⟩

theorem file_formed : WellFormed [fileUnit] where
  nonempty := nofun
  laid := ⟨rfl, rfl⟩
  described := by
    intro u u_mem tree tree_mem _
    obtain rfl := List.mem_singleton.mp u_mem
    obtain rfl := List.mem_singleton.mp tree_mem
    exact ⟨_, only_describes⟩
  disjoint := by
    intro f g _ f_of g_of _ _
    exact (functionOf_file.mp f_of).trans (functionOf_file.mp g_of).symm

theorem file_passable : EachEntry .lsb (Passable fileDebug)
    (.cons fileEntry (.cons functionEntry .nil .nil) .nil) 11 := by
  have root_spanned : fileEntry.Spanned := by
    intro attr attr_mem
    obtain rfl := List.mem_singleton.mp attr_mem
    trivial
  have function_spanned : functionEntry.Spanned := by
    intro attr attr_mem
    rcases attr_mem with _ | ⟨_, _ | ⟨_, _ | ⟨_, attr_mem⟩⟩⟩
    · trivial
    · exact nofun
    · exact nofun
    · contradiction
  refine eachEntry_cons.mpr ⟨⟨root_spanned, fun _ _ none => ?_, fun _ _ none => ?_⟩, ?_, trivial⟩
  · cases none
  · cases none
  · exact eachEntry_cons.mpr ⟨⟨function_spanned, nofun, nofun⟩, trivial, trivial⟩

/-- The zeros behind the section are not taken for a unit. -/
theorem file_ended (cu : CU) :
    ∃ next cu', getNextCu fileDebug fileDebug.debugInfo.dsSize cu = some (-1, next, cu') := by
  have length : fileDebug.read fileDebug.debugInfo 34 4 = some (0, 38) := by
    decide
  have version : fileDebug.read fileDebug.debugInfo 38 2 = some (0, 40) := by
    decide
  have abbrevs : fileDebug.read fileDebug.debugInfo 40 4 = some (0, 44) := by
    decide
  have addrSize : fileDebug.read fileDebug.debugInfo 44 1 = some (0, 45) := by
    decide
  refine ⟨38, { cu with
    cuOffset := 34
    cuDwarfSize := 4
    cuNextOffset := 38
    cuLength := 0
    cuLengthSize := 4
    version := 0
    debugAbbrevOffset := 0
    addrSize := 0 }, ?_⟩
  rw [show fileDebug.debugInfo.dsSize = 34 from rfl, getNextCu, if_neg (by decide), length,
    Option.bind_some]
  dsimp only
  rw [if_neg (by decide), Option.bind_some]
  dsimp only
  rw [version, Option.bind_some]
  dsimp only
  rw [abbrevs, Option.bind_some]
  dsimp only
  rw [addrSize, Option.map_some]
  rfl

theorem file_searchable (addr : Nat) : Searchable [fileUnit] addr where
  short := by
    intro u u_mem
    obtain rfl := List.mem_singleton.mp u_mem
    decide
  passable := by
    intro u u_mem
    obtain rfl := List.mem_singleton.mp u_mem
    exact file_passable
  opens := by
    intro u u_mem
    obtain rfl := List.mem_singleton.mp u_mem
    exact nofun
  visible := by
    intro u u_mem tree tree_mem f _ _
    obtain rfl := List.mem_singleton.mp u_mem
    obtain rfl := List.mem_singleton.mp tree_mem
    have root_direct : fileEntry.NameDirect := by
      intro attr attr_mem _
      obtain rfl := List.mem_singleton.mp attr_mem
      rfl
    have function_direct : functionEntry.NameDirect := by
      intro attr attr_mem _
      rcases attr_mem with _ | ⟨_, _ | ⟨_, _ | ⟨_, attr_mem⟩⟩⟩
      · rfl
      · rfl
      · rfl
      · contradiction
    exact ⟨root_direct, function_direct, nofun, nofun⟩
  ended := fun _ => ⟨-1, by decide, file_ended⟩

/-- Inside of the function the report is right. -/
theorem debuginfoRip_reports_iff_inside :
    Reports [fileUnit] (fun fuel => debuginfoRip fuel fileKernel zeroLocals 0x8004200000)
      0x8004200000 := by
  refine (debuginfoRip_reports_iff (file_searchable _) file_formed file_initialised
    (by decide)).mpr ⟨?_, ?_⟩
  · intro f f_of low
    rw [functionOf_file.mp f_of] at low
    exact absurd low (by decide)
  · intro u first cudie found
    obtain rfl := List.mem_singleton.mp (mem_of_firstUnit first)
    exact lineEnds_of_no_lines found rfl _ _

/-- At its first address it is not, although nothing stands in the way. -/
theorem first_address_missed :
    ¬ ∀ (kernel : Kernel) (dbg : Debug) (locals : Locals) (units : List (FileUnit dbg))
      (addr : Nat), dwarfInit kernel = some dbg → WellFormed units → ulim ≤ addr →
        Reports units (fun fuel => debuginfoRip fuel kernel locals addr) addr := by
  intro claim
  exact not_reports_of_low (file_searchable 0x80041FFFFF) file_formed file_initialised (by decide)
    (functionOf_file.mpr rfl) rfl (by decide)
    (claim fileKernel fileDebug zeroLocals [fileUnit] 0x80041FFFFF file_initialised file_formed
      (by decide))

end

end Jos64.Debuginfo
