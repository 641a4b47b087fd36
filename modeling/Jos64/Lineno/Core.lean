import Jos64.Dwarf.Text
import Jos64.Loop.Core

/-!
# The line number program

A line number program is a byte code whose interpreter appends rows to a table.
This one keeps the last row only, and returns at the first row that is beyond the
address that is looked for.
-/

namespace Jos64.Lineno

open Loop Dwarf

/-! ## Data -/

/-- `struct _Dwarf_Line_` -/
structure Line where
  lnAddr : Nat
  lnSymndx : Nat
  lnFileno : Nat
  lnLineno : Nat
  lnColumn : Nat
  lnBblock : Nat
  lnStmt : Nat
  lnEndseq : Nat
  deriving DecidableEq

/-- A line of which nothing has been stored. -/
def Line.zero : Line := ⟨0, 0, 0, 0, 0, 0, 0, 0⟩

/-- What the interpreter reads of `struct _Dwarf_LineInfo_`, and the size of an
address in the unit. -/
structure LineInfo where
  liMinlen : Byte
  liDefstmt : Byte
  liLbase : BitVec 8
  liLrange : Byte
  liOpbase : Byte
  addrSize : Nat
  deriving DecidableEq

/-- The variables whose values get into a row.  The others are stored and never
read. -/
structure Registers where
  address : Nat
  file : Nat
  line : Nat
  column : Nat
  isStmt : Nat
  basicBlock : Nat
  deriving DecidableEq

/-- `RESET_REGISTERS` -/
def resetRegisters (li : LineInfo) : Registers :=
  ⟨0, 1, 1, 0, li.liDefstmt.toNat, 0⟩

/-- The cursor, the registers, `li_line` and `li_lnlen`. -/
structure RunState where
  p : Nat
  registers : Registers
  liLine : Line
  liLnlen : Nat

/-- What the interpreter leaves in `li_line` and `li_lnlen`. -/
structure Result where
  liLine : Line
  liLnlen : Nat
  deriving DecidableEq

/-! ## Operands -/

/-- `_dwarf_decode_uleb128`: the value and the pointer behind it. -/
def decodeUleb128 (mem : Memory) (p : Nat) : Exec (Nat × Nat) :=
  Exec.ofOption (readUleb128 mem ⟨0, 0⟩ p)

/-- `_dwarf_decode_sleb128` -/
def decodeSleb128 (mem : Memory) (p : Nat) : Exec (Nat × Nat) :=
  Exec.ofOption (readSleb128 mem ⟨0, 0⟩ p)

/-- `dbg->decode` -/
def dbgDecode (order : Endianness) (mem : Memory) (p width : Nat) : Exec (Nat × Nat) :=
  Exec.ofOption (dbgRead order mem ⟨0, 0⟩ p width)

/-- A `uint64_t` to which a signed number has been added. -/
def addSigned (x : Nat) (delta : Int) : Nat :=
  ((x + delta) % 2 ^ 64).toNat

/-- `_dwarf_lineno_add_file`: the pointer behind the entry.  What is added for the
name is an `int`. -/
def linenoAddFile (mem : Memory) (p : Nat) : Exec Nat :=
  (Exec.ofOption (strlen mem p)).bind fun slen =>
    (decodeUleb128 mem (addSigned p (wrap32 (slen + 1)))).bind fun (_, src) =>
      (decodeUleb128 mem src).bind fun (_, src) =>
        (decodeUleb128 mem src).bind fun (_, src) => .done src

/-! ## Rows -/

/-- The row of the registers.  The register `end_sequence` is never set when a
row is appended. -/
def Registers.row (registers : Registers) : Line where
  lnAddr := registers.address
  lnSymndx := 0
  lnFileno := registers.file
  lnLineno := registers.line
  lnColumn := registers.column
  lnBblock := registers.basicBlock
  lnStmt := registers.isStmt
  lnEndseq := 0

/-- `LINE(x)`, an `int` -/
def lineDelta (li : LineInfo) (x : Nat) : Int :=
  li.liLbase.toInt + ((x - li.liOpbase.toNat) % li.liLrange.toNat : Nat)

/-- `ADDRESS(x)` -/
def addressDelta (li : LineInfo) (x : Nat) : Nat :=
  (x - li.liOpbase.toNat) / li.liLrange.toNat * li.liMinlen.toNat

section

variable (order : Endianness) (mem : Memory) (li : LineInfo) (pe pc : Nat)

/-- `APPEND_ROW` and what follows it.  Beyond the address it returns. -/
def appendRow (state : RunState) (p : Nat) (registers : Registers) :
    Exec (Next RunState Result) :=
  if pc < registers.address then .done (.stop ⟨state.liLine, state.liLnlen⟩)
  else
    .done (.again ⟨p, { registers with basicBlock := 0 }, registers.row,
      u64 (state.liLnlen + 1)⟩)

/-- The switch over the extended opcodes, with the pointer to the opcode. -/
def extendedSwitch (state : RunState) (opsize p : Nat) (opcode : Byte) :
    Exec (Next RunState Result) :=
  match opcode.toNat with
  -- `DW_LNE_end_sequence`
  | 0x01 => .done (.again { state with p := u64 (p + 1), registers := resetRegisters li })
  -- `DW_LNE_set_address`
  | 0x02 =>
      (dbgDecode order mem (u64 (p + 1)) li.addrSize).bind fun (address, p) =>
        .done (.again { state with p, registers := { state.registers with address } })
  -- `DW_LNE_define_file`
  | 0x03 => (linenoAddFile mem (u64 (p + 1))).bind fun p => .done (.again { state with p })
  | _ => .done (.again { state with p := u64 (p + opsize) })

/-- The extended opcodes, from behind the byte 0 on. -/
def extendedOpcode (state : RunState) (p : Nat) : Exec (Next RunState Result) :=
  (decodeUleb128 mem p).bind fun (opsize, p) =>
    (Exec.ofOption (mem.byte p)).bind fun opcode =>
      extendedSwitch order mem li state opsize p opcode

/-- The standard opcodes, from behind the opcode on. -/
def standardOpcode (opcode : Byte) (state : RunState) (p : Nat) :
    Exec (Next RunState Result) :=
  let registers := state.registers
  match opcode.toNat with
  -- `DW_LNS_copy`
  | 0x01 => appendRow pc state p registers
  -- `DW_LNS_advance_pc`
  | 0x02 =>
      (decodeUleb128 mem p).bind fun (operand, p) =>
        let address := u64 (registers.address + operand * li.liMinlen.toNat)
        .done (.again { state with p, registers := { registers with address } })
  -- `DW_LNS_advance_line`
  | 0x03 =>
      (decodeSleb128 mem p).bind fun (operand, p) =>
        let line := u64 (registers.line + operand)
        .done (.again { state with p, registers := { registers with line } })
  -- `DW_LNS_set_file`
  | 0x04 =>
      (decodeUleb128 mem p).bind fun (file, p) =>
        .done (.again { state with p, registers := { registers with file } })
  -- `DW_LNS_set_column`
  | 0x05 =>
      (decodeUleb128 mem p).bind fun (column, p) =>
        .done (.again { state with p, registers := { registers with column } })
  -- `DW_LNS_negate_stmt`
  | 0x06 =>
      let isStmt := if registers.isStmt = 0 then 1 else 0
      .done (.again { state with p, registers := { registers with isStmt } })
  -- `DW_LNS_set_basic_block`
  | 0x07 => .done (.again { state with p, registers := { registers with basicBlock := 1 } })
  -- `DW_LNS_const_add_pc`
  | 0x08 =>
      if li.liLrange = 0 then .fault
      else
        let address := u64 (registers.address + addressDelta li 255)
        .done (.again { state with p, registers := { registers with address } })
  -- `DW_LNS_fixed_advance_pc`
  | 0x09 =>
      (dbgDecode order mem p 2).bind fun (operand, p) =>
        let address := u64 (registers.address + operand)
        .done (.again { state with p, registers := { registers with address } })
  -- `DW_LNS_set_isa`
  | 0x0c => (decodeUleb128 mem p).bind fun (_, p) => .done (.again { state with p })
  -- `DW_LNS_set_prologue_end`, `DW_LNS_set_epilogue_begin` and those that are not
  -- known
  | _ => .done (.again { state with p })

/-- The special opcodes.  A division by zero is a fault. -/
def specialOpcode (opcode : Byte) (state : RunState) : Exec (Next RunState Result) :=
  if li.liLrange = 0 then .fault
  else
    appendRow pc state (u64 (state.p + 1))
      { state.registers with
        line := addSigned state.registers.line (lineDelta li opcode.toNat)
        address := u64 (state.registers.address + addressDelta li opcode.toNat) }

/-- A round of the loop of `_dwarf_lineno_run_program`. -/
def runBody (state : RunState) : Exec (Next RunState Result) :=
  if state.p < pe then
    (Exec.ofOption (mem.byte state.p)).bind fun opcode =>
      if opcode = 0 then extendedOpcode order mem li state (u64 (state.p + 1))
      else if opcode < li.liOpbase then
        standardOpcode order mem li pc opcode state (u64 (state.p + 1))
      else specialOpcode li pc opcode state
  else .done (.stop ⟨state.liLine, state.liLnlen⟩)

/-- `_dwarf_lineno_run_program` for a program from `p` to `pe`, with nothing in
`li_line` before. -/
def runProgram (fuel p : Nat) : Exec Result :=
  loop (runBody order mem li pe pc) fuel ⟨p, resetRegisters li, .zero, 0⟩

end

end Jos64.Lineno
