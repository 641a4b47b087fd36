import Jos64.Frame.Core
import Jos64.Frame.Rules
import Jos64.Lineno.Core

/-!
# The interpreter of the frame programs

`_dwarf_frame_run_inst` executes a program on the one table that there is.  Memory is not
allocated: the copy of the table at the beginning and the copy that
`DW_CFA_remember_state` makes are both stored to the same shadow table.
-/

namespace Jos64.Frame

open Loop Dwarf
open Lineno (decodeUleb128 decodeSleb128 dbgDecode)

/-! ## Constants -/

/-- `DW_DLE_FRAME_INSTR_EXEC_ERROR` -/
def dleFrameInstrExecError : Int := 21

/-- `DW_DLE_DF_REG_NUM_TOO_HIGH` -/
def dleDfRegNumTooHigh : Int := 24

/-- `DW_FRAME_UNDEFINED_VAL` -/
def dwFrameUndefinedVal : Nat := 1034

/-- `DW_FRAME_SAME_VAL` -/
def dwFrameSameVal : Nat := 1035

/-- `DW_EXPR_OFFSET` -/
def dwExprOffset : Nat := 0

/-- `DW_EXPR_VAL_OFFSET` -/
def dwExprValOffset : Nat := 1

/-- `DW_EXPR_EXPRESSION` -/
def dwExprExpression : Nat := 2

/-- `DW_EXPR_VAL_EXPRESSION` -/
def dwExprValExpression : Nat := 3

/-! ## Tables -/

/-- `Dwarf_Regtable_Entry3` -/
structure RegEntry where
  dwOffsetRelevant : Nat
  dwValueType : Nat
  dwRegnum : Nat
  dwOffsetOrBlockLen : Nat
  dwBlockPtr : Nat
  deriving DecidableEq

namespace RegEntry

variable (entry : RegEntry)

/-- A rule with an offset is stored. -/
def storeOffset (valueType regnum offset : Nat) : RegEntry :=
  { entry with
    dwOffsetRelevant := 1
    dwValueType := valueType
    dwRegnum := regnum
    dwOffsetOrBlockLen := offset }

/-- A rule without one is stored.  `dw_value_type` is left. -/
def storeRegnum (regnum : Nat) : RegEntry :=
  { entry with dwOffsetRelevant := 0, dwRegnum := regnum }

/-- An expression is stored. -/
def storeBlock (valueType length blockPtr : Nat) : RegEntry :=
  { entry with
    dwOffsetRelevant := 0
    dwValueType := valueType
    dwOffsetOrBlockLen := length
    dwBlockPtr := blockPtr }

end RegEntry

/-- `Dwarf_Regtable3`, whose `rt3_reg_table_size` is that of both tables. -/
structure Regtable where
  rt3CfaRule : RegEntry
  rt3Rules : Fin dwFrameLastRegNum → RegEntry

namespace Regtable

def updateRule (rt : Regtable) (reg : Fin dwFrameLastRegNum) (entry : RegEntry) : Regtable :=
  { rt with rt3Rules := Function.update rt.rt3Rules reg entry }

end Regtable

/-- The tables that a pointer can point to. -/
inductive RegtablePtr where
  | globalRtTable
  | globalRtTableShadow
  deriving DecidableEq

/-- `global_rt_table` with `global_rules`, and their shadows. -/
structure Regtables where
  globalRtTable : Regtable
  globalRtTableShadow : Regtable

namespace Regtables

def deref (tables : Regtables) : RegtablePtr → Regtable
  | .globalRtTable => tables.globalRtTable
  | .globalRtTableShadow => tables.globalRtTableShadow

def store (tables : Regtables) (rt : Regtable) : RegtablePtr → Regtables
  | .globalRtTable => { tables with globalRtTable := rt }
  | .globalRtTableShadow => { tables with globalRtTableShadow := rt }

end Regtables

/-- `_dwarf_frame_regtable_copy`: `*dest` and the tables.  A null pointer is made to point
to the shadow, and the assertion fails if there is no source. -/
def frameRegtableCopy (tables : Regtables) (dest src : Option RegtablePtr) :
    Option (RegtablePtr × Regtables) :=
  src.map fun src =>
    let dest := dest.getD .globalRtTableShadow
    (dest, tables.store (tables.deref src) dest)

/-! ## The interpreter -/

/-- What the interpreter reads of `dbg`, and the memory. -/
structure RunDebug where
  order : Endianness
  mem : Memory
  dbgPointerSize : Nat
  dbgFrameCfaValue : Nat
  -- `_dwarf_elf_get_pointer_size`
  pointer_known : dbgPointerSize = 4 ∨ dbgPointerSize = 8

/-- The location, `saved_rt` and the tables. -/
structure RunTables where
  pc : Nat
  savedRt : Option RegtablePtr
  tables : Regtables

/-- Also the cursor and `*row_pc`. -/
structure RunState extends RunTables where
  p : Nat
  rowPc : Nat

/-- The code, and what is left in `*row_pc` and the tables. -/
structure RunResult where
  ret : Int
  rowPc : Nat
  tables : Regtables

namespace RunState

variable (state : RunState)

/-- `goto program_done` -/
def programDone (ret : Int) : Exec (Next RunState RunResult) :=
  .done (.stop ⟨ret, state.rowPc, state.tables⟩)

/-- `RL[reg]` -/
def rule (reg : Fin dwFrameLastRegNum) : RegEntry :=
  state.tables.globalRtTable.rt3Rules reg

/-- An entry is stored to `RL[reg]`, and the cursor is moved. -/
def setRule (p : Nat) (reg : Fin dwFrameLastRegNum) (entry : RegEntry) :
    Exec (Next RunState RunResult) :=
  .done (.again { state with
    p
    tables := { state.tables with
      globalRtTable := state.tables.globalRtTable.updateRule reg entry } })

/-- `CFA` -/
def cfa : RegEntry :=
  state.tables.globalRtTable.rt3CfaRule

/-- An entry is stored to `CFA`, and the cursor is moved. -/
def setCfa (p : Nat) (entry : RegEntry) : Exec (Next RunState RunResult) :=
  .done (.again { state with
    p
    tables := { state.tables with
      globalRtTable := { state.tables.globalRtTable with rt3CfaRule := entry } } })

/-- `CHECK_TABLE_SIZE` -/
def checkTableSize (x : Nat)
    (next : Fin dwFrameLastRegNum → Exec (Next RunState RunResult)) :
    Exec (Next RunState RunResult) :=
  if inside : x < dwFrameLastRegNum then next ⟨x, inside⟩
  else state.programDone dleDfRegNumTooHigh

/-- The location is advanced, up to the one that is asked for. -/
def advance (caf pcReq p delta : Nat) : Exec (Next RunState RunResult) :=
  let pc := u64 (state.pc + delta * caf)
  if pcReq < pc then state.programDone dleNone else .done (.again { state with p, pc })

end RunState

section

variable (dbg : RunDebug) (caf : Nat) (daf : Int) (pcReq : Nat) (initRt : RegtablePtr)

/-- The switch over the opcodes of the upper two bits, with the cursor behind. -/
def frameRunHigh (high2 low6 : Byte) (state : RunState) (p : Nat) :
    Exec (Next RunState RunResult) :=
  let row := { state with rowPc := state.pc }
  match high2.toNat with
  -- `DW_CFA_advance_loc`
  | 0x40 => state.advance caf pcReq p low6.toNat
  -- `DW_CFA_offset`
  | 0x80 =>
      row.checkTableSize low6.toNat fun reg =>
        (decodeUleb128 dbg.mem p).bind fun (uoff, p) =>
          row.setRule p reg ((row.rule reg).storeOffset dwExprOffset dbg.dbgFrameCfaValue
            (factored uoff daf))
  -- `DW_CFA_restore`
  | 0xc0 =>
      row.checkTableSize low6.toNat fun reg =>
        row.setRule p reg ((row.tables.deref initRt).rt3Rules reg)
  | _ => state.programDone dleFrameInstrExecError

/-- The switch over the opcodes of the lower six bits, with the cursor behind. -/
def frameRunLow (low6 : Byte) (state : RunState) (p : Nat) : Exec (Next RunState RunResult) :=
  let row := { state with rowPc := state.pc }
  match low6.toNat with
  -- `DW_CFA_set_loc`, whose `goto` is not under the test in front of it
  | 0x01 =>
      (dbgDecode dbg.order dbg.mem p dbg.dbgPointerSize).bind fun (pc, p) =>
        { state with p, pc }.programDone dleNone
  -- `DW_CFA_advance_loc1`
  | 0x02 =>
      (dbgDecode dbg.order dbg.mem p 1).bind fun (delta, p) => state.advance caf pcReq p delta
  -- `DW_CFA_advance_loc2`
  | 0x03 =>
      (dbgDecode dbg.order dbg.mem p 2).bind fun (delta, p) => state.advance caf pcReq p delta
  -- `DW_CFA_advance_loc4`
  | 0x04 =>
      (dbgDecode dbg.order dbg.mem p 4).bind fun (delta, p) => state.advance caf pcReq p delta
  -- `DW_CFA_offset_extended`
  | 0x05 =>
      (decodeUleb128 dbg.mem p).bind fun (reg, p) =>
        (decodeUleb128 dbg.mem p).bind fun (uoff, p) =>
          row.checkTableSize reg fun reg =>
            row.setRule p reg ((row.rule reg).storeOffset dwExprOffset dbg.dbgFrameCfaValue
              (factored uoff daf))
  -- `DW_CFA_restore_extended`
  | 0x06 =>
      (decodeUleb128 dbg.mem p).bind fun (reg, p) =>
        row.checkTableSize reg fun reg =>
          row.setRule p reg ((row.tables.deref initRt).rt3Rules reg)
  -- `DW_CFA_undefined`
  | 0x07 =>
      (decodeUleb128 dbg.mem p).bind fun (reg, p) =>
        row.checkTableSize reg fun reg =>
          row.setRule p reg ((row.rule reg).storeRegnum dwFrameUndefinedVal)
  -- `DW_CFA_same_value`
  | 0x08 =>
      (decodeUleb128 dbg.mem p).bind fun (reg, p) =>
        state.checkTableSize reg fun reg =>
          state.setRule p reg ((state.rule reg).storeRegnum dwFrameSameVal)
  -- `DW_CFA_register`
  | 0x09 =>
      (decodeUleb128 dbg.mem p).bind fun (reg, p) =>
        (decodeUleb128 dbg.mem p).bind fun (reg2, p) =>
          row.checkTableSize reg fun reg =>
            row.setRule p reg ((row.rule reg).storeRegnum (reg2 % 2 ^ 16))
  -- `DW_CFA_remember_state`
  | 0x0a =>
      (Exec.ofOption (frameRegtableCopy state.tables state.savedRt (some .globalRtTable))).bind
        fun (savedRt, tables) => .done (.again { state with p, savedRt, tables })
  -- `DW_CFA_restore_state`
  | 0x0b =>
      (Exec.ofOption (frameRegtableCopy state.tables (some .globalRtTable) state.savedRt)).bind
        fun (_, tables) => .done (.again { row with p, tables })
  -- `DW_CFA_def_cfa`
  | 0x0c =>
      (decodeUleb128 dbg.mem p).bind fun (reg, p) =>
        (decodeUleb128 dbg.mem p).bind fun (uoff, p) =>
          row.setCfa p (row.cfa.storeOffset dwExprOffset (reg % 2 ^ 16) uoff)
  -- `DW_CFA_def_cfa_register`
  | 0x0d =>
      (decodeUleb128 dbg.mem p).bind fun (reg, p) =>
        row.setCfa p { row.cfa with dwRegnum := reg % 2 ^ 16 }
  -- `DW_CFA_def_cfa_offset`
  | 0x0e =>
      (decodeUleb128 dbg.mem p).bind fun (uoff, p) =>
        row.setCfa p (row.cfa.storeOffset dwExprOffset row.cfa.dwRegnum uoff)
  -- `DW_CFA_def_cfa_expression`
  | 0x0f =>
      (decodeUleb128 dbg.mem p).bind fun (length, p) =>
        row.setCfa (u64 (p + length)) (row.cfa.storeBlock dwExprExpression length p)
  -- `DW_CFA_expression`
  | 0x10 =>
      (decodeUleb128 dbg.mem p).bind fun (reg, p) =>
        row.checkTableSize reg fun reg =>
          (decodeUleb128 dbg.mem p).bind fun (length, p) =>
            row.setRule (u64 (p + length)) reg
              ((row.rule reg).storeBlock dwExprExpression length p)
  -- `DW_CFA_offset_extended_sf`
  | 0x11 =>
      (decodeUleb128 dbg.mem p).bind fun (reg, p) =>
        (decodeSleb128 dbg.mem p).bind fun (soff, p) =>
          row.checkTableSize reg fun reg =>
            row.setRule p reg ((row.rule reg).storeOffset dwExprOffset dbg.dbgFrameCfaValue
              (factored soff daf))
  -- `DW_CFA_def_cfa_sf`
  | 0x12 =>
      (decodeUleb128 dbg.mem p).bind fun (reg, p) =>
        (decodeSleb128 dbg.mem p).bind fun (soff, p) =>
          row.setCfa p (row.cfa.storeOffset dwExprOffset (reg % 2 ^ 16) (factored soff daf))
  -- `DW_CFA_def_cfa_offset_sf`
  | 0x13 =>
      (decodeSleb128 dbg.mem p).bind fun (soff, p) =>
        row.setCfa p (row.cfa.storeOffset dwExprOffset row.cfa.dwRegnum (factored soff daf))
  -- `DW_CFA_val_offset`
  | 0x14 =>
      (decodeUleb128 dbg.mem p).bind fun (reg, p) =>
        (decodeUleb128 dbg.mem p).bind fun (uoff, p) =>
          row.checkTableSize reg fun reg =>
            row.setRule p reg ((row.rule reg).storeOffset dwExprValOffset dbg.dbgFrameCfaValue
              (factored uoff daf))
  -- `DW_CFA_val_offset_sf`
  | 0x15 =>
      (decodeUleb128 dbg.mem p).bind fun (reg, p) =>
        (decodeSleb128 dbg.mem p).bind fun (soff, p) =>
          row.checkTableSize reg fun reg =>
            row.setRule p reg ((row.rule reg).storeOffset dwExprValOffset dbg.dbgFrameCfaValue
              (factored soff daf))
  -- `DW_CFA_val_expression`
  | 0x16 =>
      (decodeUleb128 dbg.mem p).bind fun (reg, p) =>
        row.checkTableSize reg fun reg =>
          (decodeUleb128 dbg.mem p).bind fun (length, p) =>
            row.setRule (u64 (p + length)) reg
              ((row.rule reg).storeBlock dwExprValExpression length p)
  | _ => state.programDone dleFrameInstrExecError

/-- A round of the loop of `_dwarf_frame_run_inst`. -/
def frameRunBody (pe : Nat) (state : RunState) : Exec (Next RunState RunResult) :=
  if state.p < pe then
    (Exec.ofOption (dbg.mem.byte state.p)).bind fun opcode =>
      let p := u64 (state.p + 1)
      -- `DW_CFA_nop`
      if opcode = 0 then .done (.again { state with p })
      else
        let high2 := opcode &&& 0xc0
        let low6 := opcode &&& 0x3f
        if high2 ≠ 0 then frameRunHigh dbg caf daf pcReq initRt high2 low6 state p
        else frameRunLow dbg caf daf pcReq initRt low6 state p
  else state.programDone dleNone

/-- `_dwarf_frame_run_inst` on `global_rt_table`, with whatever is in the shadow. -/
def frameRunInst (fuel : Nat) (tables : Regtables) (insts len pc : Nat) : Exec RunResult :=
  (Exec.ofOption (frameRegtableCopy tables none (some .globalRtTable))).bind
    fun (initRt, tables) =>
      let state : RunState := ⟨⟨pc, none, tables⟩, insts, pc⟩
      loop (frameRunBody dbg caf daf pcReq initRt (u64 (insts + len))) fuel state

end

end Jos64.Frame
