import Jos64.Dwarf.Numbers
import Jos64.Lineno.Core

/-!
# Line number programs and their tables

A program is a list of sequences, each closed by `DW_LNE_end_sequence`.  The
standard's machine executes the instructions of a sequence one after the other
from the initial registers, and some of them append a row.
-/

namespace Jos64.Lineno

open Dwarf Leb

/-! ## Instructions -/

/-- An unsigned operand, in any of its encodings. -/
structure Operand where
  bytes : List Byte
  value : Nat
  valid : Unsigned bytes value

/-- A signed one. -/
structure SignedOperand where
  bytes : List Byte
  value : Int
  valid : Signed bytes value

/-- The instructions but for the end of a sequence.  An extended one starts with
its length. -/
inductive Instr where
  | copy
  | advancePc (operand : Operand)
  | advanceLine (operand : SignedOperand)
  | setFile (operand : Operand)
  | setColumn (operand : Operand)
  | negateStmt
  | setBasicBlock
  | constAddPc
  | fixedAdvancePc (operand : Nat)
  | setPrologueEnd
  | setEpilogueBegin
  | setIsa (operand : Operand)
  | special (opcode : Byte)
  | setAddress (length : Operand) (address : Nat)
  | defineFile (length : Operand) (name : CString) (dirIndex time size : Operand)
  | unknown (length : Operand) (opcode : Byte) (operands : List Byte)

/-- The standard opcode of an instruction, if it has one. -/
def Instr.standardOpcode? : Instr → Option Byte
  | copy => some 0x01
  | advancePc _ => some 0x02
  | advanceLine _ => some 0x03
  | setFile _ => some 0x04
  | setColumn _ => some 0x05
  | negateStmt => some 0x06
  | setBasicBlock => some 0x07
  | constAddPc => some 0x08
  | fixedAdvancePc _ => some 0x09
  | setPrologueEnd => some 0x0a
  | setEpilogueBegin => some 0x0b
  | setIsa _ => some 0x0c
  | _ => none

section

variable (order : Endianness) (li : LineInfo)

/-- The bytes of an instruction. -/
def Instr.bytes : Instr → List Byte
  | copy => [0x01]
  | advancePc operand => 0x02 :: operand.bytes
  | advanceLine operand => 0x03 :: operand.bytes
  | setFile operand => 0x04 :: operand.bytes
  | setColumn operand => 0x05 :: operand.bytes
  | negateStmt => [0x06]
  | setBasicBlock => [0x07]
  | constAddPc => [0x08]
  | fixedAdvancePc operand => 0x09 :: order.bytes 2 operand
  | setPrologueEnd => [0x0a]
  | setEpilogueBegin => [0x0b]
  | setIsa operand => 0x0c :: operand.bytes
  | special opcode => [opcode]
  | setAddress length address => 0 :: length.bytes ++ 0x02 :: order.bytes li.addrSize address
  | defineFile length name dirIndex time size =>
      0 :: length.bytes ++
        0x03 :: (name.bytes ++ [0]) ++ dirIndex.bytes ++ time.bytes ++ size.bytes
  | unknown length opcode operands => 0 :: length.bytes ++ opcode :: operands

/-- The operands are in their ranges, the opcode is the instruction's under the
header, and the length of an extended instruction is the one of its bytes. -/
def Instr.WellFormed (i : Instr) : Prop :=
  (∀ opcode ∈ i.standardOpcode?, opcode < li.liOpbase) ∧
    match i with
    | advancePc operand => operand.value < 2 ^ 28
    | advanceLine operand => -(2 ^ 28) < operand.value ∧ operand.value < 2 ^ 28
    | setFile operand => operand.value < 2 ^ 28
    | setColumn operand => operand.value < 2 ^ 28
    | fixedAdvancePc operand => operand < 2 ^ 16
    | special opcode => opcode ≠ 0 ∧ li.liOpbase ≤ opcode
    | setAddress length address =>
        length.value = 1 + li.addrSize ∧ IsWidth li.addrSize ∧ address < 256 ^ li.addrSize
    | defineFile length name dirIndex time size =>
        length.value = 1 + (name.bytes.length + 1) + dirIndex.bytes.length + time.bytes.length +
          size.bytes.length ∧ length.value < 2 ^ 28
    | unknown length opcode operands =>
        opcode ≠ 1 ∧ opcode ≠ 2 ∧ opcode ≠ 3 ∧ length.value = 1 + operands.length ∧
          length.value < 2 ^ 28
    | _ => True

/-- The operand of `DW_LNS_advance_line` is one that the reader of signed numbers
gets right: a negative one is not padded. -/
def Instr.ReadsBack : Instr → Prop
  | advanceLine operand => ReadsSigned operand.bytes operand.value
  | _ => True

/-- What the standard's machine does: the registers afterwards, and the row that
is appended. -/
def Instr.exec (registers : Registers) : Instr → Registers × Option Line
  | copy => ({ registers with basicBlock := 0 }, some registers.row)
  | advancePc operand =>
      let address := u64 (registers.address + operand.value * li.liMinlen.toNat)
      ({ registers with address }, none)
  | advanceLine operand =>
      ({ registers with line := addSigned registers.line operand.value }, none)
  | setFile operand => ({ registers with file := operand.value }, none)
  | setColumn operand => ({ registers with column := operand.value }, none)
  | negateStmt =>
      ({ registers with isStmt := if registers.isStmt = 0 then 1 else 0 }, none)
  | setBasicBlock => ({ registers with basicBlock := 1 }, none)
  | constAddPc =>
      ({ registers with address := u64 (registers.address + addressDelta li 255) }, none)
  | fixedAdvancePc operand =>
      ({ registers with address := u64 (registers.address + operand) }, none)
  | special opcode =>
      let registers := { registers with
        line := addSigned registers.line (lineDelta li opcode.toNat)
        address := u64 (registers.address + addressDelta li opcode.toNat) }
      ({ registers with basicBlock := 0 }, some registers.row)
  | setAddress _ address => ({ registers with address }, none)
  | setPrologueEnd | setEpilogueBegin | setIsa _ | defineFile .. | unknown .. =>
      (registers, none)

/-- The registers after some instructions. -/
def execRegisters (registers : Registers) : List Instr → Registers
  | [] => registers
  | i :: body => execRegisters (i.exec li registers).1 body

/-- The rows that they append. -/
def execRows (registers : Registers) : List Instr → List Line
  | [] => []
  | i :: body => (i.exec li registers).2.toList ++ execRows (i.exec li registers).1 body

end

/-! ## Sequences -/

/-- A sequence: its instructions and the length that its end starts with. -/
structure Sequence where
  body : List Instr
  endLength : Operand

namespace Sequence

variable (order : Endianness) (li : LineInfo) (s : Sequence)

def bodyBytes : List Byte :=
  s.body.flatMap (Instr.bytes order li)

/-- `DW_LNE_end_sequence` -/
def endBytes : List Byte :=
  0 :: s.endLength.bytes ++ [0x01]

def bytes : List Byte :=
  s.bodyBytes order li ++ s.endBytes

def WellFormed : Prop :=
  (∀ i ∈ s.body, i.WellFormed li) ∧ s.endLength.value = 1

def ReadsBack : Prop :=
  ∀ i ∈ s.body, i.ReadsBack

/-- The rows of the sequence, but for the one that says where it ends. -/
def rows : List Line :=
  execRows li (resetRegisters li) s.body

/-- The address of `DW_LNE_end_sequence`. -/
def endAddress : Nat :=
  (execRegisters li (resetRegisters li) s.body).address

/-- The addresses do not decrease. -/
def Ordered : Prop :=
  ((s.rows li).map Line.lnAddr ++ [s.endAddress li]).Pairwise (· ≤ ·)

/-- An address from that of the first row up to the end. -/
def Covers (pc : Nat) : Prop :=
  (∃ row ∈ (s.rows li).head?, row.lnAddr ≤ pc) ∧ pc < s.endAddress li

end Sequence

/-! ## Programs -/

/-- The bytes of a program. -/
def programBytes (order : Endianness) (li : LineInfo) (program : List Sequence) : List Byte :=
  program.flatMap (Sequence.bytes order li)

/-- The rows of its sequences, in its order. -/
def programRows (li : LineInfo) (program : List Sequence) : List Line :=
  program.flatMap (Sequence.rows li)

/-- The instructions of a sequence up to the first row beyond the address read back. -/
def BodyReadsBack (li : LineInfo) (pc : Nat) (registers : Registers) : List Instr → Prop
  | [] => True
  | i :: body =>
      i.ReadsBack ∧
        ((∀ row ∈ (i.exec li registers).2, row.lnAddr ≤ pc) →
          BodyReadsBack li pc (i.exec li registers).1 body)

/-- So do those of a program. -/
def ProgramReadsBack (li : LineInfo) (pc : Nat) : List Sequence → Prop
  | [] => True
  | s :: program =>
      BodyReadsBack li pc (resetRegisters li) s.body ∧
        ((∀ row ∈ s.rows li, row.lnAddr ≤ pc) → ProgramReadsBack li pc program)

theorem bodyReadsBack_of_forall {li : LineInfo} {pc : Nat} {body : List Instr}
    (readsBack : ∀ i ∈ body, i.ReadsBack) (registers : Registers) :
    BodyReadsBack li pc registers body := by
  induction body generalizing registers with
  | nil => trivial
  | cons i body ih =>
      exact ⟨readsBack i List.mem_cons_self, fun _ =>
        ih (fun j member => readsBack j (List.mem_cons_of_mem i member)) _⟩

theorem programReadsBack_of_forall {li : LineInfo} {pc : Nat} {program : List Sequence}
    (readsBack : ∀ s ∈ program, s.ReadsBack) : ProgramReadsBack li pc program := by
  induction program with
  | nil => trivial
  | cons s program ih =>
      exact ⟨bodyReadsBack_of_forall (readsBack s List.mem_cons_self) _, fun _ =>
        ih fun s' member => readsBack s' (List.mem_cons_of_mem s member)⟩

/-- The rounds that its instructions take. -/
def programSteps : List Sequence → Nat
  | [] => 0
  | s :: program => s.body.length + 1 + programSteps program

end Jos64.Lineno
