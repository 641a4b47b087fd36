import Jos64.Frame.Semantics

/-!
# The registers of a caller

`dwarf_get_fde_info_for_all_regs` clears the one table that there is, runs the
instructions of the CIE and then those of the FDE on it, and copies the columns to the
table of its caller.  Whatever earlier lookups have left, the columns show the row of the
standard's machine.
-/

namespace Jos64.Frame

open Loop Dwarf

/-! ## The table of the caller -/

/-- `DW_REG_TABLE_SIZE`, which is the size of the internal table as well. -/
def dwRegTableSize : Nat := 66

/-- A column of `Dwarf_Regtable`. -/
structure RegColumn where
  dwOffsetRelevant : Nat
  dwRegnum : Nat
  dwOffset : Nat
  deriving DecidableEq

/-- What is copied of an entry. -/
def RegEntry.column (entry : RegEntry) : RegColumn :=
  ⟨entry.dwOffsetRelevant, entry.dwRegnum, entry.dwOffsetOrBlockLen⟩

/-- What `dwarf_get_fde_info_for_all_regs` returns and leaves.  Its failures store a zero
to the null pointer before they return. -/
structure AllRegs where
  ret : Int
  nullStored : Bool
  rowPc : Nat
  regTable : Fin dwRegTableSize → RegColumn
  tables : Regtables

section

variable (dbg : RunDebug)

/-- A word as a `Dwarf_Signed`. -/
def dwarfSigned (word : Nat) : Int :=
  (BitVec.ofNat 64 word).toInt

/-- `_dwarf_frame_get_internal_table` -/
def frameGetInternalTable (fuel : Nat) (cie : Cie) (fde : Fde) (pcReq : Nat)
    (tables : Regtables) : Exec RunResult :=
  let cleared := { tables with globalRtTable := clearedRegtable }
  let daf := dwarfSigned cie.cieDaf
  (frameRunInst dbg cie.cieCaf daf (2 ^ 64 - 1) fuel cleared cie.cieInitinst cie.cieInstlen
      0).bind fun result =>
    if result.ret ≠ dleNone then .done result
    else if fde.fdeInitloc ≤ pcReq then
      frameRunInst dbg cie.cieCaf daf pcReq fuel result.tables fde.fdeInst fde.fdeInstlen
        fde.fdeInitloc
    else .done result

/-- The copies of `dwarf_get_fde_info_for_all_regs`: the rule for the frame address goes to
its column if there is one, and no other rule does. -/
def copyColumns (rt : Regtable) (regTable : Fin dwRegTableSize → RegColumn) :
    Fin dwRegTableSize → RegColumn :=
  fun i =>
    if i.val = dbg.dbgFrameCfaValue then
      if dbg.dbgFrameCfaValue < dwRegTableSize then rt.rt3CfaRule.column else regTable i
    else (rt.rt3Rules i).column

/-- `dwarf_get_fde_info_for_all_regs` with pointers that are not null. -/
def dwarfGetFdeInfoForAllRegs (fuel : Nat) (cie : Cie) (fde : Fde) (pcRequested rowPc : Nat)
    (regTable : Fin dwRegTableSize → RegColumn) (tables : Regtables) : Exec AllRegs :=
  if pcRequested < fde.fdeInitloc ∨ u64 (fde.fdeInitloc + fde.fdeAdrange) ≤ pcRequested then
    .done ⟨dlvError, true, rowPc, regTable, tables⟩
  else
    (frameGetInternalTable dbg fuel cie fde pcRequested tables).bind fun result =>
      if result.ret ≠ dleNone then .done ⟨dlvError, true, rowPc, regTable, result.tables⟩
      else
        .done ⟨dlvOk, false, result.rowPc,
          copyColumns dbg result.tables.globalRtTable regTable, result.tables⟩

end

/-! ## What the columns show -/

/-- A column says how the register is found.  Of an expression there is the length. -/
def RegColumn.Shows (dbgFrameCfaValue : Nat) (column : RegColumn) : Rule → Prop
  | .undefined => column.dwOffsetRelevant = 0 ∧ column.dwRegnum = dwFrameUndefinedVal
  | .sameValue => column.dwOffsetRelevant = 0 ∧ column.dwRegnum = dwFrameSameVal
  | .register reg => column.dwOffsetRelevant = 0 ∧ column.dwRegnum = reg
  | .offset off | .valOffset off =>
      column.dwOffsetRelevant = 1 ∧ column.dwRegnum = dbgFrameCfaValue ∧ column.dwOffset = off
  | .expression block | .valExpression block =>
      column.dwOffsetRelevant = 0 ∧ column.dwOffset = block.length

/-- The column of the frame address says how that is found. -/
def RegColumn.ShowsCfa (column : RegColumn) : CfaRule → Prop
  | .offset reg off => column.dwRegnum = reg ∧ column.dwOffset = off
  | .expression block => column.dwOffset = block.length

/-- The fields of an entry go together: it has an offset, from the frame address, only where
it is not an expression. -/
def RegEntry.Consistent (dbgFrameCfaValue : Nat) (entry : RegEntry) : Prop :=
  entry.dwOffsetRelevant = 0 ∨
    entry.dwOffsetRelevant = 1 ∧ entry.dwRegnum = dbgFrameCfaValue ∧
      (entry.dwValueType = dwExprOffset ∨ entry.dwValueType = dwExprValOffset)

theorem blockAt_length (mem : Memory) (address length : Nat) :
    (blockAt mem address length).length = length := by
  rw [blockAt, List.length_map, List.length_range]

theorem RegEntry.Consistent.shows {cfa : Nat} {entry : RegEntry}
    (consistent : entry.Consistent cfa) (mem : Memory) :
    entry.column.Shows cfa (entry.rule mem) := by
  have without (relevant : entry.dwValueType = dwExprExpression ∨
      entry.dwValueType = dwExprValExpression) : entry.dwOffsetRelevant = 0 := by
    rcases consistent with zero | ⟨-, -, type | type⟩
    · exact zero
    · rw [type] at relevant
      exact absurd relevant (by decide)
    · rw [type] at relevant
      exact absurd relevant (by decide)
  unfold rule
  split
  · rename_i expression
    exact ⟨without (.inl expression), (blockAt_length _ _ _).symm⟩
  · split
    · rename_i expression
      exact ⟨without (.inr expression), (blockAt_length _ _ _).symm⟩
    · split
      · rename_i irrelevant
        split
        · rename_i undefined
          exact ⟨irrelevant, undefined⟩
        · split
          · rename_i same
            exact ⟨irrelevant, same⟩
          · exact ⟨irrelevant, rfl⟩
      · rename_i relevant
        obtain ⟨one, regnum, -⟩ := consistent.resolve_left relevant
        split
        · exact ⟨one, regnum, rfl⟩
        · exact ⟨one, regnum, rfl⟩

theorem RegEntry.showsCfa (mem : Memory) (entry : RegEntry) :
    entry.column.ShowsCfa (entry.cfaRule mem) := by
  unfold cfaRule
  split
  · exact (blockAt_length _ _ _).symm
  · exact ⟨rfl, rfl⟩

/-! ## Entries that stay consistent -/

/-- All entries of both tables are consistent. -/
def Regtables.Consistent (cfa : Nat) (tables : Regtables) : Prop :=
  ∀ reg, (tables.globalRtTable.rt3Rules reg).Consistent cfa ∧
    (tables.globalRtTableShadow.rt3Rules reg).Consistent cfa

theorem storeRule_consistent (cfa p : Nat) (entry : RegEntry) (rule : Rule) :
    (entry.storeRule cfa p rule).Consistent cfa := by
  cases rule with
  | offset off => exact .inr ⟨rfl, rfl, .inl rfl⟩
  | valOffset off => exact .inr ⟨rfl, rfl, .inr rfl⟩
  | _ => exact .inl rfl

section

variable {cfa : Nat} {state next : RunTables}

theorem RunTables.setRule_consistent (consistent : state.tables.Consistent cfa)
    {reg : Fin dwFrameLastRegNum} {entry : RegEntry} (entry_consistent : entry.Consistent cfa) :
    (state.setRule reg entry).tables.Consistent cfa := by
  intro other
  refine ⟨?_, (consistent other).2⟩
  by_cases same : other = reg
  · subst same
    rw [show (state.setRule other entry).tables.globalRtTable.rt3Rules other = entry from
      Function.update_self _ _ _]
    exact entry_consistent
  · rw [show (state.setRule reg entry).tables.globalRtTable.rt3Rules other = _ from
      Function.update_of_ne same _ _]
    exact (consistent other).1

/-- A round keeps the entries consistent. -/
theorem Op.round_consistent {op : Op} {caf pcReq p : Nat}
    (round : op.round cfa caf pcReq p state = some next)
    (consistent : state.tables.Consistent cfa) : next.tables.Consistent cfa := by
  cases op with
  | nop =>
      cases round
      exact consistent
  | setLoc location => cases round
  | advance delta =>
      rw [Op.round] at round
      split at round
      · cases round
      · cases round
        exact consistent
  | setRule reg rule =>
      cases round
      exact RunTables.setRule_consistent consistent (storeRule_consistent cfa p _ rule)
  | restore reg =>
      cases round
      exact RunTables.setRule_consistent consistent (consistent reg).2
  | rememberState =>
      cases round
      exact fun reg => ⟨(consistent reg).1, (consistent reg).1⟩
  | restoreState =>
      cases round
      exact fun reg => ⟨(consistent reg).2, (consistent reg).2⟩
  | setCfa rule =>
      cases round
      exact consistent
  | setCfaRegister reg =>
      cases round
      exact consistent
  | setCfaOffset off =>
      cases round
      exact consistent

theorem roundTables_consistent {dbg : RunDebug} {caf : Nat} {daf : Int} {pcReq p : Nat}
    {insts : List Instr} (consistent : state.tables.Consistent dbg.dbgFrameCfaValue) :
    (roundTables dbg caf daf pcReq state p insts).Consistent dbg.dbgFrameCfaValue := by
  induction insts generalizing state p with
  | nil => exact consistent
  | cons i insts ih =>
      rw [roundTables]
      cases round : (i.op daf readSigned).round dbg.dbgFrameCfaValue caf pcReq
          (p + (i.bytes dbg.order dbg.dbgPointerSize).length) state with
      | none => exact consistent
      | some next => exact ih (Op.round_consistent round consistent)

end

/-! ## The row -/

section

variable {dbg : RunDebug} {caf : Nat} {daf : Int} {pcReq p pc : Nat} {insts : List Instr}

/-- A program that is well-formed and sound leaves the row of the standard's machine, and
entries that are consistent. -/
theorem frameRunInst_row {tables : Regtables}
    (wellFormed : WellFormed dbg caf daf pcReq (tables.globalRtTable.row dbg.mem) pc insts)
    (sound : Sound caf daf pcReq (tables.globalRtTable.row dbg.mem)
      ⟨pc, tables.globalRtTable.row dbg.mem, none⟩ insts)
    (held : dbg.mem.Holds p (instrBytes dbg.order dbg.dbgPointerSize insts))
    (consistent : ∀ reg,
      (tables.globalRtTable.rt3Rules reg).Consistent dbg.dbgFrameCfaValue) :
    ∃ result, (∀ fuel, insts.length < fuel →
        frameRunInst dbg caf daf pcReq fuel tables p
          (instrBytes dbg.order dbg.dbgPointerSize insts).length pc = .done result) ∧
      result.ret = dleNone ∧
      result.tables.globalRtTable.row dbg.mem =
        finalRow caf pcReq (tables.globalRtTable.row dbg.mem)
          ⟨pc, tables.globalRtTable.row dbg.mem, none⟩ (programOps daf insts) ∧
      result.tables.Consistent dbg.dbgFrameCfaValue := by
  obtain ⟨rowPc, run⟩ :=
    frameRunInst_eq caf daf pcReq tables pc wellFormed.fits wellFormed.paired held
  have agree := (rowsAgree_iff (Follows.start dbg.mem tables pc) held wellFormed.paired
    (fun one => nomatch one) wellFormed.valid).mpr sound insts.length
  rw [List.take_length] at agree
  exact ⟨_, run, rfl, agree, roundTables_consistent fun reg => ⟨consistent reg, consistent reg⟩⟩

end

/-- The row before the instructions of a CIE. -/
def initialRow : Table :=
  ⟨.offset 0 0, fun _ => .sameValue⟩

theorem clearedRegtable_row (mem : Memory) : clearedRegtable.row mem = initialRow := by
  have same : RegEntry.rule mem ⟨0, 0, dwFrameSameVal, 0, 0⟩ = .sameValue := by
    rw [RegEntry.rule, if_neg (by decide), if_neg (by decide), if_pos rfl, if_neg (by decide),
      if_pos rfl]
  rw [Regtable.row, initialRow, clearedRegtable]
  dsimp only
  rw [same]
  rfl

/-- An address at which instructions stand, with their number of bytes. -/
structure Program (dbg : RunDebug) (insts : List Instr) (address length : Nat) : Prop where
  held : dbg.mem.Holds address (instrBytes dbg.order dbg.dbgPointerSize insts)
  length_eq : length = (instrBytes dbg.order dbg.dbgPointerSize insts).length

section

variable (caf : Nat) (daf : Int)

/-- The row behind the instructions of a CIE. -/
def cieRow (insts : List Instr) : Table :=
  finalRow caf (2 ^ 64 - 1) initialRow ⟨0, initialRow, none⟩ (programOps daf insts)

/-- The row at a location, by the instructions of a CIE and of an FDE. -/
def fdeRow (cieInsts fdeInsts : List Instr) (initloc pc : Nat) : Table :=
  finalRow caf pc (cieRow caf daf cieInsts) ⟨initloc, cieRow caf daf cieInsts, none⟩
    (programOps daf fdeInsts)

/-- Both programs are well-formed and sound where they are run. -/
structure Executable (dbg : RunDebug) (cieInsts fdeInsts : List Instr) (initloc pc : Nat) :
    Prop where
  cie_wellFormed : WellFormed dbg caf daf (2 ^ 64 - 1) initialRow 0 cieInsts
  cie_sound : Sound caf daf (2 ^ 64 - 1) initialRow ⟨0, initialRow, none⟩ cieInsts
  fde_wellFormed : WellFormed dbg caf daf pc (cieRow caf daf cieInsts) initloc fdeInsts
  fde_sound : Sound caf daf pc (cieRow caf daf cieInsts)
    ⟨initloc, cieRow caf daf cieInsts, none⟩ fdeInsts

end

/-- The columns of a caller's table show a row. -/
structure ShowsRow (dbg : RunDebug) (regTable : Fin dwRegTableSize → RegColumn) (row : Table) :
    Prop where
  rules : ∀ i, i.val ≠ dbg.dbgFrameCfaValue →
    (regTable i).Shows dbg.dbgFrameCfaValue (row.rules i)
  cfa : ∀ i, i.val = dbg.dbgFrameCfaValue → (regTable i).ShowsCfa row.cfa

theorem copyColumns_showsRow {dbg : RunDebug} {rt : Regtable}
    (regTable : Fin dwRegTableSize → RegColumn)
    (consistent : ∀ reg, (rt.rt3Rules reg).Consistent dbg.dbgFrameCfaValue) :
    ShowsRow dbg (copyColumns dbg rt regTable) (rt.row dbg.mem) where
  rules := by
    intro i other
    rw [copyColumns, if_neg other]
    exact (consistent i).shows dbg.mem
  cfa := by
    intro i same
    rw [copyColumns, if_pos same, if_pos (same ▸ i.isLt)]
    exact RegEntry.showsCfa dbg.mem _

/-- The caller of `dwarf_get_fde_info_for_all_regs` is shown the row of the standard's machine
at the address, whatever earlier lookups have left in the tables and in its own. -/
theorem allRegs_showsRow {dbg : RunDebug} {cie : Cie} {fde : Fde} {cieInsts fdeInsts : List Instr}
    {pc : Nat} (covers : fde.Covers pc)
    (cie_program : Program dbg cieInsts cie.cieInitinst cie.cieInstlen)
    (fde_program : Program dbg fdeInsts fde.fdeInst fde.fdeInstlen)
    (executable : Executable cie.cieCaf (dwarfSigned cie.cieDaf) dbg cieInsts fdeInsts
      fde.fdeInitloc pc)
    (rowPc : Nat) (regTable : Fin dwRegTableSize → RegColumn) (tables : Regtables) :
    ∃ out, (∀ fuel, cieInsts.length < fuel → fdeInsts.length < fuel →
        dwarfGetFdeInfoForAllRegs dbg fuel cie fde pc rowPc regTable tables = .done out) ∧
      out.ret = dlvOk ∧ out.nullStored = false ∧
      ShowsRow dbg out.regTable
        (fdeRow cie.cieCaf (dwarfSigned cie.cieDaf) cieInsts fdeInsts fde.fdeInitloc pc) := by
  let cleared : Regtables := { tables with globalRtTable := clearedRegtable }
  have cleared_row : cleared.globalRtTable.row dbg.mem = initialRow := clearedRegtable_row dbg.mem
  obtain ⟨middle, cie_run, cie_ret, cie_row_eq, cie_consistent⟩ :=
    frameRunInst_row (cleared_row ▸ executable.cie_wellFormed)
      (cleared_row ▸ executable.cie_sound) cie_program.held fun _ => .inl rfl
  rw [cleared_row] at cie_row_eq
  have middle_row : middle.tables.globalRtTable.row dbg.mem =
      cieRow cie.cieCaf (dwarfSigned cie.cieDaf) cieInsts := cie_row_eq
  obtain ⟨last, fde_run, fde_ret, fde_row_eq, fde_consistent⟩ :=
    frameRunInst_row (middle_row ▸ executable.fde_wellFormed)
      (middle_row ▸ executable.fde_sound) fde_program.held fun reg => (cie_consistent reg).1
  rw [middle_row] at fde_row_eq
  have inside : ¬ (pc < fde.fdeInitloc ∨ u64 (fde.fdeInitloc + fde.fdeAdrange) ≤ pc) :=
    not_or.mpr ⟨not_lt.mpr covers.1, not_le.mpr covers.2⟩
  refine ⟨⟨dlvOk, false, last.rowPc, copyColumns dbg last.tables.globalRtTable regTable,
    last.tables⟩, fun fuel cie_enough fde_enough => ?_, rfl, rfl, ?_⟩
  · rw [dwarfGetFdeInfoForAllRegs, if_neg inside, frameGetInternalTable, cie_program.length_eq,
      fde_program.length_eq, cie_run fuel cie_enough, Exec.done_bind, if_neg (not_not.mpr cie_ret),
      if_pos covers.1, fde_run fuel fde_enough, Exec.done_bind, if_neg (not_not.mpr fde_ret)]
  · have shows := copyColumns_showsRow regTable fun reg => (fde_consistent reg).1
    rw [fde_row_eq] at shows
    exact shows

end Jos64.Frame
