import Jos64.Dwarf.Contents

/-!
# Rules and the standard's machine

Each register of a caller has a rule by which it is found, and so has the canonical
frame address.  A program gives the table of the rules from location to location; the
standard's machine executes it up to the location that is asked for.
-/

namespace Jos64.Frame

open Dwarf Leb

/-! ## Rules -/

/-- `DW_FRAME_LAST_REG_NUM` -/
def dwFrameLastRegNum : Nat := 66

/-- How a register is found.  Offsets are 64-bit words, and an expression is what
stands in memory. -/
inductive Rule where
  | undefined
  | sameValue
  | offset (offset : Nat)
  | valOffset (offset : Nat)
  | register (register : Nat)
  | expression (block : List (Option Byte))
  | valExpression (block : List (Option Byte))
  deriving DecidableEq

namespace Rule

/-- The rule is given by an expression. -/
def isExpression : Rule → Bool
  | expression _ | valExpression _ => true
  | _ => false

/-- The rule has neither an offset nor an expression. -/
def isPlain : Rule → Bool
  | undefined | sameValue | register _ => true
  | _ => false

end Rule

/-- How the canonical frame address is found. -/
inductive CfaRule where
  | offset (register offset : Nat)
  | expression (block : List (Option Byte))
  deriving DecidableEq

namespace CfaRule

def isExpression : CfaRule → Bool
  | expression _ => true
  | offset .. => false

def setRegister (register : Nat) : CfaRule → CfaRule
  | offset _ off => offset register off
  | expression block => expression block

def setOffset (off : Nat) : CfaRule → CfaRule
  | offset register _ => offset register off
  | expression block => expression block

end CfaRule

/-- A row of the table: the rules at a location. -/
structure Table where
  cfa : CfaRule
  rules : Fin dwFrameLastRegNum → Rule

namespace Table

def setRule (table : Table) (register : Fin dwFrameLastRegNum) (rule : Rule) : Table :=
  { table with rules := Function.update table.rules register rule }

@[simp]
theorem setRule_rules (table : Table) (register : Fin dwFrameLastRegNum) (rule : Rule) :
    (table.setRule register rule).rules register = rule := by
  unfold setRule
  exact Function.update_self _ _ _

end Table

/-! ## The machine -/

/-- What an instruction does, whatever its form. -/
inductive Op where
  | nop
  | setLoc (location : Nat)
  | advance (delta : Nat)
  | setRule (register : Fin dwFrameLastRegNum) (rule : Rule)
  | restore (register : Fin dwFrameLastRegNum)
  | rememberState
  | restoreState
  | setCfa (rule : CfaRule)
  | setCfaRegister (register : Nat)
  | setCfaOffset (offset : Nat)
  deriving DecidableEq

/-- The location, its row, and the row that was remembered last. -/
structure MachineState where
  location : Nat
  table : Table
  remembered : Option Table

section

variable (caf pcReq : Nat) (initial : Table)

/-- A step of the machine.  It stops in front of a location beyond the one that is
asked for. -/
def Op.step (state : MachineState) : Op → Option MachineState
  | nop => some state
  | setLoc location => if pcReq < location then none else some { state with location }
  | advance delta =>
      let location := u64 (state.location + delta * caf)
      if pcReq < location then none else some { state with location }
  | setRule register rule => some { state with table := state.table.setRule register rule }
  | restore register =>
      some { state with table := state.table.setRule register (initial.rules register) }
  | rememberState => some { state with remembered := some state.table }
  | restoreState => some { state with table := state.remembered.getD state.table }
  | setCfa rule => some { state with table := { state.table with cfa := rule } }
  | setCfaRegister register =>
      some { state with table := { state.table with cfa := state.table.cfa.setRegister register } }
  | setCfaOffset offset =>
      some { state with table := { state.table with cfa := state.table.cfa.setOffset offset } }

/-- The row at which the machine stops. -/
def finalRow : MachineState → List Op → Table
  | state, [] => state.table
  | state, op :: ops =>
      match op.step caf pcReq initial state with
      | none => state.table
      | some next => finalRow next ops

end

/-! ## Instructions -/

/-- An unsigned operand. -/
structure Operand extends Uleb where
  small : value < 2 ^ 28

/-- A signed operand. -/
structure SignedOperand extends Sleb where
  above : -(2 ^ 28) < value
  below : value < 2 ^ 28

/-- The number of a register. -/
structure Register extends Operand where
  inside : value < dwFrameLastRegNum

/-- An expression behind its length. -/
structure Block where
  length : Operand
  bytes : List Byte
  length_eq : length.value = bytes.length

namespace Register

def number (register : Register) : Fin dwFrameLastRegNum :=
  ⟨register.value, register.inside⟩

end Register

/-- A register in the lower six bits of an opcode. -/
def lowRegister (register : Fin 64) : Fin dwFrameLastRegNum :=
  register.castLE (by decide)

namespace Block

def encoded (block : Block) : List Byte :=
  block.length.bytes ++ block.bytes

def content (block : Block) : List (Option Byte) :=
  block.bytes.map some

end Block

/-- The instructions with their operands. -/
inductive Instr where
  | nop
  | advanceLoc (delta : Fin 64)
  | offset (reg : Fin 64) (off : Operand)
  | restore (reg : Fin 64)
  | setLoc (location : Nat)
  | advanceLoc1 (delta : Fin (256 ^ 1))
  | advanceLoc2 (delta : Fin (256 ^ 2))
  | advanceLoc4 (delta : Fin (256 ^ 4))
  | offsetExtended (reg : Register) (off : Operand)
  | restoreExtended (reg : Register)
  | undefined (reg : Register)
  | sameValue (reg : Register)
  | register (reg source : Register)
  | rememberState
  | restoreState
  | defCfa (reg : Register) (off : Operand)
  | defCfaRegister (reg : Register)
  | defCfaOffset (off : Operand)
  | defCfaExpression (block : Block)
  | expression (reg : Register) (block : Block)
  | offsetExtendedSf (reg : Register) (off : SignedOperand)
  | defCfaSf (reg : Register) (off : SignedOperand)
  | defCfaOffsetSf (off : SignedOperand)
  | valOffset (reg : Register) (off : Operand)
  | valOffsetSf (reg : Register) (off : SignedOperand)
  | valExpression (reg : Register) (block : Block)

/-- A number times the data alignment factor, as a 64-bit word. -/
def factored (number daf : Int) : Nat :=
  ((number * daf) % 2 ^ 64).toNat

namespace Instr

def opcode : Instr → Byte
  | nop => 0x00
  | advanceLoc delta => BitVec.ofNat 8 (0x40 + delta)
  | offset reg _ => BitVec.ofNat 8 (0x80 + reg)
  | restore reg => BitVec.ofNat 8 (0xc0 + reg)
  | setLoc _ => 0x01
  | advanceLoc1 _ => 0x02
  | advanceLoc2 _ => 0x03
  | advanceLoc4 _ => 0x04
  | offsetExtended .. => 0x05
  | restoreExtended _ => 0x06
  | undefined _ => 0x07
  | sameValue _ => 0x08
  | register .. => 0x09
  | rememberState => 0x0a
  | restoreState => 0x0b
  | defCfa .. => 0x0c
  | defCfaRegister _ => 0x0d
  | defCfaOffset _ => 0x0e
  | defCfaExpression _ => 0x0f
  | expression .. => 0x10
  | offsetExtendedSf .. => 0x11
  | defCfaSf .. => 0x12
  | defCfaOffsetSf _ => 0x13
  | valOffset .. => 0x14
  | valOffsetSf .. => 0x15
  | valExpression .. => 0x16

section

variable (order : Endianness) (dbgPointerSize : Nat)

/-- The bytes behind the opcode. -/
def operands : Instr → List Byte
  | nop | advanceLoc _ | restore _ | rememberState | restoreState => []
  | setLoc location => order.bytes dbgPointerSize location
  | advanceLoc1 delta => order.bytes 1 delta
  | advanceLoc2 delta => order.bytes 2 delta
  | advanceLoc4 delta => order.bytes 4 delta
  | offset _ off | defCfaOffset off => off.bytes
  | defCfaOffsetSf off => off.bytes
  | restoreExtended reg | undefined reg | sameValue reg | defCfaRegister reg => reg.bytes
  | register reg source => reg.bytes ++ source.bytes
  | offsetExtended reg off | valOffset reg off | defCfa reg off => reg.bytes ++ off.bytes
  | offsetExtendedSf reg off | valOffsetSf reg off | defCfaSf reg off => reg.bytes ++ off.bytes
  | defCfaExpression block => block.encoded
  | expression reg block | valExpression reg block => reg.bytes ++ block.encoded

def bytes (i : Instr) : List Byte :=
  i.opcode :: i.operands order dbgPointerSize

end

/-- What an instruction does under a reading of the signed operands. -/
def op (daf : Int) (signed : Sleb → Int) : Instr → Op
  | nop => .nop
  | setLoc location => .setLoc location
  | advanceLoc delta => .advance delta
  | advanceLoc1 delta => .advance delta
  | advanceLoc2 delta => .advance delta
  | advanceLoc4 delta => .advance delta
  | offset reg off => .setRule (lowRegister reg) (.offset (factored off.value daf))
  | offsetExtended reg off =>
      .setRule reg.number (.offset (factored off.value daf))
  | offsetExtendedSf reg off =>
      .setRule reg.number (.offset (factored (signed off.toSleb) daf))
  | valOffset reg off =>
      .setRule reg.number (.valOffset (factored off.value daf))
  | valOffsetSf reg off =>
      .setRule reg.number (.valOffset (factored (signed off.toSleb) daf))
  | undefined reg => .setRule reg.number .undefined
  | sameValue reg => .setRule reg.number .sameValue
  | register reg source => .setRule reg.number (.register source.value)
  | expression reg block => .setRule reg.number (.expression block.content)
  | valExpression reg block => .setRule reg.number (.valExpression block.content)
  | restore reg => .restore (lowRegister reg)
  | restoreExtended reg => .restore reg.number
  | rememberState => .rememberState
  | restoreState => .restoreState
  | defCfa reg off => .setCfa (.offset reg.value off.value)
  | defCfaSf reg off =>
      .setCfa (.offset reg.value (factored (signed off.toSleb) daf))
  | defCfaExpression block => .setCfa (.expression block.content)
  | defCfaRegister reg => .setCfaRegister reg.value
  | defCfaOffset off => .setCfaOffset off.value
  | defCfaOffsetSf off => .setCfaOffset (factored (signed off.toSleb) daf)

end Instr

/-- The bytes of a program. -/
def instrBytes (order : Endianness) (dbgPointerSize : Nat) (insts : List Instr) : List Byte :=
  insts.flatMap (Instr.bytes order dbgPointerSize)

/-- What a program does. -/
def programOps (daf : Int) (insts : List Instr) : List Op :=
  insts.map (Instr.op daf Sleb.value)

/-! ## Well-formed programs -/

/-- Each row that is restored has been remembered, and none is remembered while another
one is still to be restored. -/
def Paired (remembered opened : Bool) : List Instr → Prop
  | [] => True
  | .rememberState :: insts => opened = false ∧ Paired true true insts
  | .restoreState :: insts => remembered = true ∧ Paired remembered false insts
  | _ :: insts => Paired remembered opened insts

section

variable (caf pcReq : Nat) (initial : Table)

/-- The register or the offset of the rule for the frame address is changed only where the
rule has them. -/
def Op.Valid (state : MachineState) : Op → Prop
  | setCfaRegister _ | setCfaOffset _ => state.table.cfa.isExpression = false
  | _ => True

/-- So it is wherever the machine gets to. -/
def Valid : MachineState → List Op → Prop
  | _, [] => True
  | state, op :: ops =>
      op.Valid state ∧
        match op.step caf pcReq initial state with
        | none => True
        | some next => Valid next ops

end

end Jos64.Frame
