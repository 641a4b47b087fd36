import Jos64.Dwarf.Length
import Jos64.Dwarf.Unit
import Jos64.Lineno.Core

/-!
# The header of a line number program

`_dwarf_lineno_init` reads the header of a unit field by field, goes over the tables
of directories and files, and runs the program from behind them to the end of the
unit.  `dwarf_srclines` takes the offset of the unit from the entry of a file.
-/

namespace Jos64.Lineno

open Loop Dwarf

/-! ## Data -/

/-- `DW_DLE_DEBUG_LINE_LENGTH_BAD` -/
def dleDebugLineLengthBad : Int := 15

/-- `DW_AT_stmt_list` -/
def atStmtList : Nat := 0x10

/-- What is read of a header into `struct _Dwarf_LineInfo_`.  The lengths of the
standard opcodes are those from `li_oplen[1]` on. -/
structure Header where
  liLength : Nat
  liVersion : Nat
  liHdrlen : Nat
  liMinlen : Byte
  liDefstmt : Byte
  liLbase : BitVec 8
  liLrange : Byte
  liOpbase : Byte
  liOplen : List Byte
  liInclen : Nat
  deriving DecidableEq

/-- What the interpreter is given. -/
def Header.info (header : Header) (addrSize : Nat) : LineInfo where
  liMinlen := header.liMinlen
  liDefstmt := header.liDefstmt
  liLbase := header.liLbase
  liLrange := header.liLrange
  liOpbase := header.liOpbase
  addrSize := addrSize

/-- How the header is left: with an error, or with a program from `p` to `pe`. -/
inductive Started where
  | failed (ret : Int)
  | program (header : Header) (p pe : Nat)
  deriving DecidableEq

section

variable (order : Endianness) (mem : Memory) (ds : Section)

/-! ## The fields -/

/-- A field of one byte. -/
def readByte (offset : Nat) : Option (Byte × Nat) :=
  (dbgRead order mem ds offset 1).map fun (value, offset) => (BitVec.ofNat 8 value, offset)

/-- The fields up to `li_opbase`, with the offset behind `li_hdrlen` and that behind
all of them. -/
def readFields (length dwarfSize offset : Nat) : Option (Header × Nat × Nat) :=
  (dbgRead order mem ds offset 2).bind fun (liVersion, offset) =>
    (dbgRead order mem ds offset dwarfSize).bind fun (liHdrlen, hdroff) =>
      (readByte order mem ds hdroff).bind fun (liMinlen, offset) =>
        (readByte order mem ds offset).bind fun (liDefstmt, offset) =>
          (readByte order mem ds offset).bind fun (liLbase, offset) =>
            (readByte order mem ds offset).bind fun (liLrange, offset) =>
              (readByte order mem ds offset).map fun (liOpbase, offset) =>
                (⟨length, liVersion, liHdrlen, liMinlen, liDefstmt, liLbase, liLrange, liOpbase,
                  [], 0⟩, hdroff, offset)

/-- The loop over the lengths of the standard opcodes. -/
def readOplen : (count offset : Nat) → Option (List Byte × Nat)
  | 0, offset => some ([], offset)
  | count + 1, offset =>
      (readByte order mem ds offset).bind fun (oplen, offset) =>
        (readOplen count offset).map fun (oplens, offset) => (oplen :: oplens, offset)

/-! ## The tables -/

/-- `while (*p++ != '\0')`: the pointer behind the NUL. -/
def skipString (mem : Memory) : (p room : Nat) → Option Nat
  | _, 0 => none
  | p, room + 1 =>
      (mem.byte p).bind fun c => if c ≠ 0 then skipString mem (p + 1) room else some (p + 1)

/-- A round of the loop that counts the directories. -/
def dirBody : Nat × Nat → Exec (Next (Nat × Nat) (Nat × Nat))
  | (p, length) =>
      (Exec.ofOption (mem.byte p)).bind fun c =>
        if c ≠ 0 then
          (Exec.ofOption (skipString mem p (mem.room p))).bind fun p =>
            .done (.again (p, u64 (length + 1)))
        else .done (.stop (p, length))

/-- A round of the loop over the files. -/
def fileBody (p : Nat) : Exec (Next Nat Nat) :=
  (Exec.ofOption (mem.byte p)).bind fun c =>
    if c ≠ 0 then (linenoAddFile mem p).bind fun p => .done (.again p) else .done (.stop p)

/-- `p - ds->ds_data`, a `ptrdiff_t`. -/
def ptrdiff (p : Nat) : Int :=
  (BitVec.ofNat 64 (sub64 p ds.dsData)).toInt

/-- The tables from the offset on: the number of directories and the pointer behind
both, unless the directories end behind the section. -/
def linenoTables (fuel offset : Nat) : Exec (Option (Nat × Nat)) :=
  (loop (dirBody mem) fuel (ds.at offset, 0)).bind fun (p, inclen) =>
    if wrap32 ds.dsSize < ptrdiff ds p then .done none
    else
      (loop (fileBody mem) fuel (u64 (p + 1))).bind fun p => .done (some (inclen, u64 (p + 1)))

/-! ## The unit -/

/-- `_dwarf_lineno_init` up to the program. -/
def linenoHeader (fuel offset : Nat) : Exec Started :=
  (Exec.ofOption (readLength order mem ds offset)).bind fun (length, dwarfSize, offset) =>
    if sub64 ds.dsSize offset < length then .done (.failed dleDebugLineLengthBad)
    else
      let endoff := u64 (offset + length)
      (Exec.ofOption (readFields order mem ds length dwarfSize offset)).bind
        fun (header, hdroff, offset) =>
          if wrap32 (wrap32 header.liHdrlen - 5) < (header.liOpbase.toNat : Int) - 1 then
            .done (.failed dleDebugLineLengthBad)
          else
            (Exec.ofOption (readOplen order mem ds (header.liOpbase.toNat - 1) offset)).bind
              fun (liOplen, offset) =>
                (linenoTables mem ds fuel offset).bind fun
                  | none => .done (.failed dleDebugLineLengthBad)
                  | some (liInclen, p) =>
                      if sub64 (sub64 p ds.dsData) hdroff ≠ header.liHdrlen then
                        .done (.failed dleDebugLineLengthBad)
                      else .done (.program { header with liOplen, liInclen } p (ds.at endoff))

/-- `_dwarf_lineno_init`: the code and what is left in `li_line` and `li_lnlen`. -/
def linenoInit (fuel offset addrSize pc : Nat) : Exec (Int × Result) :=
  (linenoHeader order mem ds fuel offset).bind fun
    | .failed ret => .done (ret, ⟨.zero, 0⟩)
    | .program header p pe =>
        (runProgram order mem (header.info addrSize) pe pc fuel p).bind fun result =>
          .done (dleNone, result)

end

/-- `dwarf_srclines`: the code, and what is in the line that the caller passes. -/
def dwarfSrclines (order : Endianness) (mem : Memory) (ds : Section) (fuel addrSize : Nat)
    (die : Die) (linebuf : Line) (pc : Nat) : Exec (Int × Line) :=
  match attrFind die atStmtList with
  | none => .done (dlvNoEntry, linebuf)
  | some atref =>
      (linenoInit order mem ds fuel atref.u0 addrSize pc).bind fun (ret, result) =>
        if ret ≠ dleNone then .done (dlvError, linebuf) else .done (dlvOk, result.liLine)

end Jos64.Lineno
