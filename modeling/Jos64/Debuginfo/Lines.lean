import Jos64.Debuginfo.Correctness
import Jos64.Lineno.Srclines

/-!
# The file and the line of an address

The entry of the file that a function is in leads to the rows of its lines.  The line that is
reported with the function is that of the row that the scan of these has come to.
-/

namespace Jos64.Debuginfo

open Loop Dwarf Forest
open Lineno hiding one_ends

/-! ## The rows of a unit -/

section

variable {cu : CU}

def stmtListAttr (entry : Entry cu) : Option (Attr cu) :=
  entry.attrs.find? fun attr => attr.spec.attrib.value = atStmtList

/-- A value that is an offset of fixed width. -/
def fixedNumber : Value cu → Option Nat
  | .fixed _ _ number _ _ => some number
  | _ => none

end

variable {dbg : Debug}

/-- The rows of a unit: those of the program that its entry leads to, or none. -/
inductive Lines (debugLine : Section) (u : FileUnit dbg) : List Line → Prop where
  | absent (none : stmtListAttr u.root = none) : Lines debugLine u []
  | listed {offset : Nat} {lines : LineUnit} {program : List Sequence}
      (stmtList : (stmtListAttr u.root).bind (fun attr => fixedNumber attr.value) = some offset)
      (lists : Lists dbg.order dbg.mem debugLine u.unit.addrSize offset lines program) :
      Lines debugLine u (programRows ((lines.header dbg.order).info u.unit.addrSize) program)

/-- What `dwarf_srclines` finds from the entry of a file. -/
theorem Lines.dwarfSrclines {debugLine : Section} {u : FileUnit dbg} {rows : List Line}
    (lines : Lines debugLine u rows) :
    ∃ bound, ∀ fuel, bound ≤ fuel → ∀ {offset : Nat} {cudie : Die},
      Found dbg u.root offset cudie → ∀ pc, ∃ code,
        dwarfSrclines dbg.order dbg.mem debugLine fuel u.unit.addrSize cudie .zero pc =
          .done (code, rowAt rows pc) := by
  cases lines with
  | absent none =>
      refine ⟨0, fun fuel _ offset cudie found pc => ⟨dlvNoEntry, ?_⟩⟩
      rcases attrFind_of_found found atStmtList with ⟨-, missing⟩ | ⟨attr, _, first, -⟩
      · rw [Lineno.dwarfSrclines, missing]
        rfl
      · cases none.symm.trans first
  | listed stmtList lists =>
      obtain ⟨bound, run⟩ := lists.dwarfSrclines
      refine ⟨bound, fun fuel enough offset cudie found pc => ⟨dlvOk, ?_⟩⟩
      obtain ⟨attr, first, number_eq⟩ := Option.bind_eq_some_iff.mp stmtList
      rcases attrFind_of_found found atStmtList with ⟨missing, -⟩ | ⟨attr', at', first', atref⟩
      · cases first.symm.trans missing
      · cases first.symm.trans first'
        refine run fuel enough atref ?_ .zero pc
        obtain ⟨spec, links, value, chained⟩ := attr
        cases value with
        | fixed form width number has small => exact Option.some.inj number_eq
        | _ => cases number_eq

/-! ## The call -/

section

variable {units : List (FileUnit dbg)} {addr : Nat} (searchable : Searchable units addr)
  (formed : WellFormed units)

include searchable formed

/-- In well-formed sections that nothing stands in the way of searching, a function that the
address is inside of is reported with its name, its file and the line of its unit's rows, as
an `int` holds it. -/
theorem debuginfoRip_line {kernel : Kernel} (initialised : dwarfInit kernel = some dbg)
    (in_kernel : ulim ≤ addr) {rows : List Line}
    (lined : ∀ u, firstUnit units addr = some u → Lines kernel.debugLine u rows) :
    ∃ bound, ∀ fuel, bound ≤ fuel → ∀ locals,
      (∃ u ∈ units, ∃ tree ∈ u.children.trees, ∃ f info, Describes dbg u.root tree.1 f ∧
        f.Inside addr ∧ debuginfoRip fuel kernel locals addr = .done (0, info) ∧
        Names dbg.mem f info ∧ info.ripLine = wrap32 (rowAt rows addr).lnLineno) ∨
      ((∀ f, FunctionOf units f → ¬ f.Inside addr) ∧
        debuginfoRip fuel kernel locals addr = .done (-1, .init addr)) := by
  obtain ⟨bound, ends⟩ := debuginfoRip_ends searchable formed initialised in_kernel
  have lines : ∃ bound, ∀ fuel, bound ≤ fuel → ∀ u, firstUnit units addr = some u →
      ∀ {cudie : Die}, Found dbg u.root (u.unit.cu u.offset).cuDieOffset cudie → ∃ code,
        dwarfSrclines dbg.order dbg.mem kernel.debugLine fuel u.unit.addrSize cudie .zero addr =
          .done (code, rowAt rows addr) := by
    cases first : firstUnit units addr with
    | none => exact ⟨0, fun _ _ _ => nofun⟩
    | some u =>
        obtain ⟨bound, lookup⟩ := (lined u first).dwarfSrclines
        refine ⟨bound, fun fuel enough u' same _ found => ?_⟩
        cases same
        exact lookup fuel enough found addr
  obtain ⟨bound', lines⟩ := lines
  refine ⟨max bound bound', fun fuel enough locals => ?_⟩
  rcases ends fuel (by omega) locals with
    ⟨u, f, cudie, die, first, inside, located, info, call_eq, names⟩ | elsewhere
  · obtain ⟨mem, describes, root, -, -⟩ := located
    obtain ⟨code, called⟩ := lines fuel (by omega) u first root
    rw [called, Exec.done_bind] at call_eq
    obtain ⟨named, line_eq⟩ := names (rowAt rows addr)
    exact .inl ⟨u, mem_of_firstUnit first, _, mem, f, _, describes, inside, call_eq, named, line_eq⟩
  · exact .inr elsewhere

end

/-! ## A unit of one function and its lines -/

theorem six_ends : ¬ Leb.Continues 6 := by
  decide

theorem sixteen_ends : ¬ Leb.Continues 16 := by
  decide

/-- `DW_AT_stmt_list` as `DW_FORM_data4` -/
def stmtSpec : Spec where
  attrib := .byte 0x10 sixteen_ends
  form := .byte 0x06 six_ends
  attrib_ne := by decide
  attrib_lt := by decide
  form_lt := by decide

/-- `DW_TAG_compile_unit` with children, a name and lines -/
def linedDecl : Decl :=
  { fileDecl with
    specs := [nameSpec, stmtSpec]
    specs_le := by decide }

def linedContents : List Byte :=
  [1, 0x6B, 0, 0, 0, 0, 0] ++
    [2, 0x66, 0, 0xFF, 0xFF, 0x1F, 0x04, 0x80, 0, 0, 0, 0x01, 0, 0x20, 0x04, 0x80, 0, 0, 0] ++ [0]

def linedFunction : CompUnit where
  wide := false
  version := 2
  abbrevOffset := 0
  addrSize := 8
  contents := linedContents
  known := emptyUnit.known
  abbrevOffset_lt := emptyUnit.abbrevOffset_lt
  addrSize_lt := emptyUnit.addrSize_lt
  contents_lt := by decide

theorem nameSpec_form : Chained nameSpec.form.value [] Form.string.code :=
  rfl

theorem lowSpec_form : Chained lowSpec.form.value [] Form.addr.code :=
  rfl

theorem highSpec_form : Chained highSpec.form.value [] Form.addr.code :=
  rfl

theorem fileName_nonzero : ∀ c ∈ [(0x6B : Byte)], c ≠ 0 := by
  decide

theorem functionName_nonzero : ∀ c ∈ [(0x66 : Byte)], c ≠ 0 := by
  decide

theorem low_small : 0x80041FFFFF < 256 ^ 8 := by
  decide

theorem high_small : 0x8004200001 < 256 ^ 8 := by
  decide

def linedEntry : Entry (linedFunction.cu 0) where
  code := fileEntry.code
  decl := linedDecl
  attrs := [⟨nameSpec, [], .string [0x6B] fileName_nonzero, nameSpec_form⟩,
    ⟨stmtSpec, [], .fixed .data4 4 0 rfl (by decide), rfl⟩]
  null := fileEntry.null
  code_eq := rfl
  specs_eq := rfl
  null_eq := fileEntry.null_eq

def linedFunctionEntry : Entry (linedFunction.cu 0) where
  code := functionEntry.code
  decl := functionDecl
  attrs := [⟨nameSpec, [], .string [0x66] functionName_nonzero, nameSpec_form⟩,
    ⟨lowSpec, [], .fixed .addr 8 0x80041FFFFF rfl low_small, lowSpec_form⟩,
    ⟨highSpec, [], .fixed .addr 8 0x8004200001 rfl high_small, highSpec_form⟩]
  null := functionEntry.null
  code_eq := functionEntry.code_eq
  specs_eq := functionEntry.specs_eq
  null_eq := functionEntry.null_eq

/-- Line 7 for the function. -/
def functionLine : Sequence :=
  sampleSequence 0x80041FFFFF 2 6 two_ends six_ends

def linedLines : LineUnit where
  wide := false
  version := 2
  headerLength := 26
  minlen := 1
  defstmt := 1
  lbase := 251
  lrange := 14
  opbase := 13
  oplens := [0, 1, 1, 1, 1, 0, 0, 0, 1, 0, 0, 1]
  dirs := (plainUnit 14 []).dirs
  files := (plainUnit 14 []).files
  program := programBytes .lsb sampleInfo [functionLine]
  known := version_two
  headerLength_lt := by decide
  opbase_eq := by decide

/-- The header of the kernel, the declarations, the unit with zeros behind it, and the lines. -/
def linedBytes : List Byte :=
  [0x7F, 0x45, 0x4C, 0x46, 2, 1] ++ (tableBytes .lsb [linedDecl, functionDecl] ++ [0]) ++
    linedFunction.bytes .lsb ++ List.replicate 11 0 ++ linedLines.bytes .lsb

theorem linedBytes_fits : 0x8004010000 + linedBytes.length < 2 ^ 47 := by
  have length_eq : linedBytes.length = 131 := rfl
  rw [length_eq]
  decide

def linedDebug : Debug where
  mem := .image 0x8004010000 linedBytes linedBytes_fits
  order := .lsb
  debugInfo := ⟨0x800401001B, 38⟩
  debugAbbrev := ⟨0x8004010006, 21⟩
  debugStr := ⟨0x8004010006, 0⟩

def linedSection : Section :=
  ⟨0x800401004C, 55⟩

def linedKernel : Kernel where
  mem := linedDebug.mem
  debugInfo := linedDebug.debugInfo
  debugAbbrev := linedDebug.debugAbbrev
  debugStr := linedDebug.debugStr
  debugLine := linedSection

theorem lined_initialised : dwarfInit linedKernel = some linedDebug := by
  have version : linedKernel.mem.byte (0x10000 + kernbase + 4) = some 2 := by
    decide
  have order : linedKernel.mem.byte (0x10000 + kernbase + eiData) = some 1 := by
    decide
  rw [dwarfInit]
  rw [version, Option.bind_some, order, Option.map_some, if_neg (by decide)]
  rfl

theorem lined_bytes_eq :
    entryBytes .lsb (.cons linedEntry (.cons linedFunctionEntry .nil .nil) .nil) =
      linedContents := by
  decide

theorem lined_encodes : Encodes linedDebug (linedFunction.cu 0) [linedDecl, functionDecl]
    (.cons linedEntry (.cons linedFunctionEntry .nil .nil) .nil) [] := by
  constructor
  · exact ⟨.inl rfl, by decide, .inl rfl⟩
  · refine ⟨Memory.image_holds _ (linedBytes.take 6) (linedBytes.drop 26) (by decide),
      ?_, ?_⟩
    · change 0 + (tableBytes .lsb [linedDecl, functionDecl]).length ≤ 21
      decide
    · change 0x8004010006 + 21 < 2 ^ 64
      decide
  · rw [show linedDebug.order = .lsb from rfl, lined_bytes_eq]
    refine ⟨Memory.image_holds _ (linedBytes.take 38) (linedBytes.drop 65) (by decide),
      ?_, ?_⟩
    · decide
    · change 0x800401001B + 38 < 2 ^ 64
      decide
  · rw [show linedDebug.order = .lsb from rfl, lined_bytes_eq]
    rfl
  · exact .inl rfl
  · decide
  · refine eachEntry_cons.mpr ⟨⟨⟨rfl, nofun⟩, by decide⟩, ?_, trivial⟩
    exact eachEntry_cons.mpr ⟨⟨⟨rfl, fun _ => rfl⟩, by decide⟩, trivial, trivial⟩

def linedFileUnit : FileUnit linedDebug where
  offset := 0
  unit := linedFunction
  table := [linedDecl, functionDecl]
  root := linedEntry
  children := .cons linedFunctionEntry .nil .nil
  tail := []
  held := Memory.image_holds _ (linedBytes.take 27) (linedBytes.drop 65) (by decide)
  encodes := lined_encodes

theorem lined_describes :
    Describes linedDebug linedEntry linedFunctionEntry onlyFunction where
  tag := rfl
  low := rfl
  high := rfl
  name := ⟨by decide, _, rfl, rfl⟩
  file := ⟨by decide, _, rfl, rfl⟩

theorem functionOf_lined {f : Function} (f_of : FunctionOf [linedFileUnit] f) :
    f = onlyFunction := by
  obtain ⟨u, u_mem, tree, tree_mem, describes⟩ := f_of
  obtain rfl := List.mem_singleton.mp u_mem
  obtain rfl := List.mem_singleton.mp tree_mem
  obtain ⟨-, low, high, ⟨-, _, name_only, name_eq⟩, -, _, file_only, file_eq⟩ := describes
  obtain ⟨f_low, f_high, f_name, f_file⟩ := f
  cases low
  cases high
  cases name_only
  cases file_only
  cases name_eq
  cases file_eq
  rfl

theorem lined_formed : WellFormed [linedFileUnit] where
  nonempty := nofun
  laid := ⟨rfl, rfl⟩
  described := by
    intro u u_mem tree tree_mem _
    obtain rfl := List.mem_singleton.mp u_mem
    obtain rfl := List.mem_singleton.mp tree_mem
    exact ⟨_, lined_describes⟩
  disjoint := by
    intro f g _ f_of g_of _ _
    exact (functionOf_lined f_of).trans (functionOf_lined g_of).symm

theorem lined_passable : EachEntry .lsb (Passable linedDebug)
    (.cons linedEntry (.cons linedFunctionEntry .nil .nil) .nil) 11 := by
  have root_spanned : linedEntry.Spanned := by
    intro attr attr_mem
    rcases attr_mem with _ | ⟨_, _ | ⟨_, attr_mem⟩⟩
    · trivial
    · exact nofun
    · contradiction
  have function_spanned : linedFunctionEntry.Spanned := by
    intro attr attr_mem
    rcases attr_mem with _ | ⟨_, _ | ⟨_, _ | ⟨_, attr_mem⟩⟩⟩
    · trivial
    · exact nofun
    · exact nofun
    · contradiction
  exact eachEntry_cons.mpr ⟨.of_no_sibling root_spanned rfl,
    eachEntry_cons.mpr ⟨.of_no_sibling function_spanned rfl, trivial, trivial⟩, trivial⟩

/-- The zeros behind the unit are not taken for another one. -/
theorem lined_ended (cu : CU) :
    ∃ next cu', getNextCu linedDebug linedDebug.debugInfo.dsSize cu = some (-1, next, cu') := by
  have length : linedDebug.read linedDebug.debugInfo 38 4 = some (0, 42) := by
    decide
  have version : linedDebug.read linedDebug.debugInfo 42 2 = some (0, 44) := by
    decide
  have abbrevs : linedDebug.read linedDebug.debugInfo 44 4 = some (0, 48) := by
    decide
  have addrSize : linedDebug.read linedDebug.debugInfo 48 1 = some (0, 49) := by
    decide
  rw [show linedDebug.debugInfo.dsSize = 38 from rfl, getNextCu, if_neg (by decide), length,
    Option.bind_some]
  dsimp only
  rw [if_neg (by decide), Option.bind_some]
  dsimp only
  rw [version, Option.bind_some]
  dsimp only
  rw [abbrevs, Option.bind_some]
  dsimp only
  rw [addrSize, Option.map_some]
  exact ⟨_, _, rfl⟩

theorem lined_searchable (addr : Nat) : Searchable [linedFileUnit] addr where
  short := by
    intro u u_mem
    obtain rfl := List.mem_singleton.mp u_mem
    decide
  passable := by
    intro u u_mem
    obtain rfl := List.mem_singleton.mp u_mem
    exact lined_passable
  opens := by
    intro u u_mem
    obtain rfl := List.mem_singleton.mp u_mem
    exact nofun
  visible := by
    intro u u_mem tree tree_mem f _ _
    obtain rfl := List.mem_singleton.mp u_mem
    obtain rfl := List.mem_singleton.mp tree_mem
    have root_direct : linedEntry.NameDirect := by
      intro attr attr_mem _
      rcases attr_mem with _ | ⟨_, _ | ⟨_, attr_mem⟩⟩
      · rfl
      · rfl
      · contradiction
    have function_direct : linedFunctionEntry.NameDirect := by
      intro attr attr_mem _
      rcases attr_mem with _ | ⟨_, _ | ⟨_, _ | ⟨_, attr_mem⟩⟩⟩
      · rfl
      · rfl
      · rfl
      · contradiction
    exact ⟨root_direct, function_direct, nofun, nofun⟩
  ended := fun _ => ⟨-1, by decide, lined_ended⟩

theorem functionLine_rows :
    programRows sampleInfo [functionLine] = [⟨0x80041FFFFF, 0, 1, 7, 0, 0, 1, 0⟩] := by
  decide

theorem lined_lists :
    Lists .lsb linedDebug.mem linedSection 8 0 linedLines [functionLine] where
  contains := ⟨Memory.image_holds _ (linedBytes.take 76) [] (by decide), by decide,
    by decide⟩
  small := by decide
  wellFormed := by decide
  program_eq := rfl
  sequences := by
    intro s member
    obtain rfl := List.mem_singleton.mp member
    exact (sampleSequence_wellFormed (by decide) (.inr rfl) (by decide)).1
  readsBack := by
    intro s member
    obtain rfl := List.mem_singleton.mp member
    exact (sampleSequence_wellFormed (by decide) (.inr rfl) (by decide)).2
  lrange := by decide

theorem debuginfoRip_line_seven :
    ∃ bound, ∀ fuel, bound ≤ fuel → ∀ locals, ∃ info,
      debuginfoRip fuel linedKernel locals 0x8004200000 = .done (0, info) ∧
      Names linedDebug.mem onlyFunction info ∧ info.ripLine = 7 := by
  have lined : ∀ u, firstUnit [linedFileUnit] 0x8004200000 = some u →
      Lines linedSection u (programRows sampleInfo [functionLine]) := by
    intro u first
    obtain rfl := List.mem_singleton.mp (mem_of_firstUnit first)
    exact @Lines.listed linedDebug linedSection linedFileUnit 0 linedLines [functionLine] rfl
      lined_lists
  obtain ⟨bound, ends⟩ := debuginfoRip_line (lined_searchable 0x8004200000) lined_formed
    lined_initialised (by decide) lined
  refine ⟨bound, fun fuel enough locals => ?_⟩
  rcases ends fuel enough locals with
    ⟨u, u_mem, tree, tree_mem, f, info, describes, -, ended, names, line_eq⟩ | ⟨none, -⟩
  · obtain rfl := functionOf_lined ⟨u, u_mem, tree, tree_mem, describes⟩
    refine ⟨info, ended, names, line_eq.trans ?_⟩
    rw [functionLine_rows]
    decide
  · exact absurd (by decide : onlyFunction.low < 0x8004200000 ∧ 0x8004200000 < onlyFunction.high)
      (none onlyFunction ⟨_, List.mem_singleton_self _, _, List.mem_singleton_self _,
        lined_describes⟩)

end Jos64.Debuginfo
