import Jos64.Frame.Find
import Jos64.Frame.Registers

/-!
# From an address to the registers of the caller

A function is looked up in the section, and the registers are asked for with the structs
that the lookup has filled in.
-/

namespace Jos64.Frame

open Loop Dwarf Leb

/-- What the interpreter knows of `dbg`. -/
def FrameDebug.runDebug (dbg : FrameDebug) (dbgFrameCfaValue : Nat) : RunDebug where
  order := dbg.order
  mem := dbg.mem
  dbgPointerSize := dbg.dbgPointerSize
  dbgFrameCfaValue := dbgFrameCfaValue
  pointer_known := dbg.pointer_known

theorem dwarfSigned_word (n : Sleb) : dwarfSigned n.word = n.value := by
  have low := n.low
  have high := n.high
  rw [dwarfSigned, Sleb.word, BitVec.ofNat_toNat, BitVec.setWidth_eq, BitVec.toInt_ofInt,
    Int.bmod_eq_of_le (by norm_num; omega) (by norm_num; omega)]

section

variable {dbg : FrameDebug} {c : CieEntry} {cie : Cie}

/-- The factors of a CIE that is loaded. -/
theorem Loaded.factors (loaded : Loaded dbg c cie) (caf_back : ReadsUnsigned c.caf.value)
    (daf_back : ReadsSigned c.daf.bytes c.daf.value) :
    cie.cieCaf = c.caf.value ∧ dwarfSigned cie.cieDaf = c.daf.value := by
  rw [loaded.holds.caf_eq, loaded.holds.daf_eq, c.caf.decoded_eq_iff.mpr caf_back,
    c.daf.decoded_eq_iff.mpr daf_back]
  exact ⟨rfl, dwarfSigned_word c.daf⟩

end

/-- The instructions of the function and of its CIE, which can be executed with the CIE's
factors, and the factors survive the reader. -/
structure Described.Executable (dbg : FrameDebug) (d : Described) (dbgFrameCfaValue pc : Nat)
    (cieInsts fdeInsts : List Instr) : Prop where
  cie_instrs : d.cie.instrs = instrBytes dbg.order dbg.dbgPointerSize cieInsts
  fde_instrs : d.instrs = instrBytes dbg.order dbg.dbgPointerSize fdeInsts
  caf_back : ReadsUnsigned d.cie.caf.value
  daf_back : ReadsSigned d.cie.daf.bytes d.cie.daf.value
  executable : Frame.Executable d.cie.caf.value d.cie.daf.value (dbg.runDebug dbgFrameCfaValue)
    cieInsts fdeInsts d.initloc pc

/-- The row of a function at a location. -/
def Described.row (d : Described) (cieInsts fdeInsts : List Instr) (pc : Nat) : Table :=
  fdeRow d.cie.caf.value d.cie.daf.value cieInsts fdeInsts d.initloc pc

/-- A lookup followed by the query for the registers: whatever the structs and the tables held
before, the caller is shown the row that the standard's machine has at the address, by the
instructions of the first function that contains it and by those of its CIE. -/
theorem lookup_showsRow {dbg : FrameDebug} {groups : List (Group dbg.dbgPointerSize)}
    (stands : Stands dbg (groupEntries dbg groups)) (grouped : Grouped dbg 0 groups) {pc : Nat}
    {d : Described}
    (found : (describeGroups dbg 0 groups).find? (Described.covers pc) = some d)
    {dbgFrameCfaValue : Nat} {cieInsts fdeInsts : List Instr}
    (executable : d.Executable dbg dbgFrameCfaValue pc cieInsts fdeInsts) (start : Cie)
    (rowPc : Nat) (regTable : Fin dwRegTableSize → RegColumn) (tables : Regtables) :
    ∃ result out, (∃ bound, ∀ fuel, bound ≤ fuel →
        dwarfGetFdeAtPc dbg fuel 0 pc start = .done result ∧
          dwarfGetFdeInfoForAllRegs (dbg.runDebug dbgFrameCfaValue) fuel result.state.cie
            result.state.fde pc rowPc regTable tables = .done out) ∧
      result.ret = dlvOk ∧ out.ret = dlvOk ∧
      ShowsRow (dbg.runDebug dbgFrameCfaValue) out.regTable (d.row cieInsts fdeInsts pc) := by
  obtain ⟨terminator, -, contains⟩ := stands.contains
  have away : ¬ Fde.zero.Covers pc := fun covers => Nat.not_lt_zero pc covers.2
  have scans : Scans dbg pc ⟨0, .zero, start⟩ _ _ _ :=
    scans_groups grouped stands.wellFormed contains.left rfl away
  rw [found] at scans
  obtain ⟨state', last, reached, stops, read, loaded⟩ := scans
  obtain ⟨bound, lookup⟩ := reached.loop_done stops
  have covers : last.fde.Covers pc := (read.covers_iff pc).mpr (List.find?_some found)
  obtain ⟨caf_eq, daf_eq⟩ := loaded.factors executable.caf_back executable.daf_back
  have cie_program : Program (dbg.runDebug dbgFrameCfaValue) cieInsts last.cie.cieInitinst
      last.cie.cieInstlen :=
    ⟨executable.cie_instrs ▸ loaded.holds.instrs_held,
      executable.cie_instrs ▸ loaded.holds.instlen_eq⟩
  have fde_program : Program (dbg.runDebug dbgFrameCfaValue) fdeInsts last.fde.fdeInst
      last.fde.fdeInstlen :=
    ⟨executable.fde_instrs ▸ read.instrs_held, executable.fde_instrs ▸ read.instlen_eq⟩
  have runs := executable.executable
  rw [← caf_eq, ← daf_eq, ← read.initloc_eq] at runs
  obtain ⟨out, query, ok, -, shows⟩ :=
    allRegs_showsRow covers cie_program fde_program runs rowPc regTable tables
  rw [caf_eq, daf_eq, read.initloc_eq] at shows
  refine ⟨⟨dlvOk, some (d.initloc, sub64 (d.initloc + d.adrange) 1), last⟩, out,
    ⟨max bound (max cieInsts.length fdeInsts.length + 1), fun fuel enough => ?_⟩, rfl, ok, shows⟩
  exact ⟨lookup fuel (by omega), query fuel (by omega) (by omega)⟩

/-! ## The function with its prologue -/

theorem eight_small : (Uleb.byte 8 eight_ends).value < 2 ^ 28 := by
  decide

theorem two_small : (Uleb.byte 2 two_ends).value < 2 ^ 28 := by
  decide

theorem seven_ends : ¬ Continues 7 := by
  decide

theorem sixteen_ends : ¬ Continues 16 := by
  decide

theorem seven_small : (Uleb.byte 7 seven_ends).value < 2 ^ 28 := by
  decide

theorem sixteen_small : (Uleb.byte 16 sixteen_ends).value < 2 ^ 28 := by
  decide

theorem seven_inside : (Uleb.byte 7 seven_ends).value < dwFrameLastRegNum := by
  decide

theorem sixteen_column : 16 < 64 := by
  decide

theorem six_column : 6 < 64 := by
  decide

theorem one_step : 1 < 64 := by
  decide

def prologueCieInsts : List Instr :=
  [.defCfa ⟨⟨.byte 7 seven_ends, seven_small⟩, seven_inside⟩ ⟨.byte 8 eight_ends, eight_small⟩,
    .offset ⟨16, sixteen_column⟩ ⟨.byte 1 one_ends, one_small⟩]

def prologueFdeInsts : List Instr :=
  [.advanceLoc ⟨1, one_step⟩, .defCfaOffset ⟨.byte 16 sixteen_ends, sixteen_small⟩,
    .offset ⟨6, six_column⟩ ⟨.byte 2 two_ends, two_small⟩]

def prologue : Described :=
  ⟨prologueCie, 0x800, 0x40, prologueFde.instrs⟩

theorem prologue_found :
    (describeGroups prologueDebug 0 prologueGroups).find? (Described.covers 0x810) =
      some prologue :=
  rfl

theorem prologue_executable :
    prologue.Executable prologueDebug 1436 0x810 prologueCieInsts prologueFdeInsts where
  cie_instrs := by decide
  fde_instrs := by decide
  caf_back := by decide
  daf_back := by decide
  executable := by
    refine ⟨⟨?_, trivial, trivial, trivial, trivial⟩, ?_, ⟨?_, trivial, trivial, rfl, trivial,
      trivial⟩, ?_⟩
    · intro i member
      rcases List.mem_cons.mp member with rfl | member
      · trivial
      · rw [List.mem_singleton.mp member]
        trivial
    · exact ⟨⟨rfl, trivial⟩, ⟨rfl, fun plain => absurd plain Bool.false_ne_true⟩, trivial⟩
    · intro i member
      rcases List.mem_cons.mp member with rfl | member
      · trivial
      · rcases List.mem_cons.mp member with rfl | member
        · trivial
        · rw [List.mem_singleton.mp member]
          trivial
    · exact ⟨⟨rfl, trivial⟩, ⟨rfl, trivial⟩,
        ⟨rfl, fun plain => absurd plain Bool.false_ne_true⟩, trivial⟩

theorem lookup_showsRow_prologue :
    ∃ result out, (∃ bound, ∀ fuel, bound ≤ fuel →
        dwarfGetFdeAtPc prologueDebug fuel 0 0x810 .zero = .done result ∧
          dwarfGetFdeInfoForAllRegs (prologueDebug.runDebug 1436) fuel result.state.cie
            result.state.fde 0x810 0 (fun _ => ⟨0, 0, 0⟩) clearedRegtables = .done out) ∧
      result.ret = dlvOk ∧ out.ret = dlvOk ∧
      ShowsRow (prologueDebug.runDebug 1436) out.regTable
        (prologue.row prologueCieInsts prologueFdeInsts 0x810) :=
  lookup_showsRow prologue_stands prologue_grouped prologue_found prologue_executable .zero 0
    (fun _ => ⟨0, 0, 0⟩) clearedRegtables

/-- Behind the prologue the frame address is 16 bytes above register 7, and register 6 was
saved 16 bytes below. -/
example : (prologue.row prologueCieInsts prologueFdeInsts 0x810).cfa = .offset 7 16 ∧
    (prologue.row prologueCieInsts prologueFdeInsts 0x810).rules (lowRegister 6) =
      .offset (2 ^ 64 - 16) := by
  decide

end Jos64.Frame
