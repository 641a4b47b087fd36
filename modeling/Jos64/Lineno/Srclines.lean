import Jos64.Lineno.Correctness
import Jos64.Lineno.Tables

/-!
# The line of an address

The entry of a file leads `dwarf_srclines` to a unit of the line section.  What it leaves is the
row that the interpreter has kept.
-/

namespace Jos64.Lineno

open Loop Dwarf

/-- The row that is left of some rows: the last one in front of the first that is beyond the
address, and zeros if there is none. -/
def rowAt (rows : List Line) (pc : Nat) : Line :=
  (Scan.read Line.lnAddr pc rows).getLast?.getD .zero

/-- At an offset of the section stands a unit with a program of these sequences. -/
structure Lists (order : Endianness) (mem : Memory) (ds : Section) (addrSize offset : Nat)
    (u : LineUnit) (program : List Sequence) : Prop where
  contains : ds.Contains mem offset (u.bytes order)
  small : ds.dsSize < 2 ^ 31
  wellFormed : u.WellFormed
  program_eq : u.program = programBytes order ((u.header order).info addrSize) program
  sequences : ∀ s ∈ program, s.WellFormed ((u.header order).info addrSize)
  readsBack : ∀ s ∈ program, s.ReadsBack
  lrange : u.lrange ≠ 0

section

variable {order : Endianness} {mem : Memory} {ds : Section} {addrSize offset : Nat}
  {u : LineUnit} {program : List Sequence}

/-- The program stands behind the tables, up to the end of the unit. -/
theorem Lists.held (lists : Lists order mem ds addrSize offset u program) :
    mem.Holds (ds.dsData + (offset + u.headerStart + u.headerLength))
        (programBytes order ((u.header order).info addrSize) program) ∧
      ds.dsData + (offset + (u.bytes order).length) =
        ds.dsData + (offset + u.headerStart + u.headerLength) +
          (programBytes order ((u.header order).info addrSize) program).length := by
  have contains := lists.contains
  have wellFormed : u.headerLength = u.tableBytes.length := lists.wellFormed
  rw [LineUnit.bytes, LineUnit.contents] at contains
  have behind := contains.right.right.right.right
  rw [lengthBytes_length, order.bytes_length, order.bytes_length, ← wellFormed,
    lists.program_eq] at behind
  have start_eq : offset + lengthWidth u.wide + 2 + offsetWidth u.wide + u.headerLength =
      offset + u.headerStart + u.headerLength := by
    rw [LineUnit.headerStart]
    omega
  rw [start_eq] at behind
  refine ⟨behind.held, ?_⟩
  rw [← lists.program_eq, u.length_bytes order, wellFormed]
  omega

theorem Lists.linenoInit (lists : Lists order mem ds addrSize offset u program) :
    ∃ bound, ∀ fuel, bound ≤ fuel → ∀ pc,
      ∃ count, linenoInit order mem ds fuel offset addrSize pc =
        .done (dleNone, ⟨rowAt (programRows ((u.header order).info addrSize) program) pc,
          count⟩) := by
  obtain ⟨held, end_eq⟩ := lists.held
  refine ⟨max (u.dirs.length + u.files.length + 1) (programSteps program + 1),
    fun fuel enough pc => ?_⟩
  have started : linenoHeader order mem ds fuel offset = _ :=
    linenoHeader_unit lists.small lists.contains (by omega) (by omega)
  rw [if_pos lists.wellFormed, end_eq] at started
  rw [Lineno.linenoInit, started, Exec.done_bind]
  dsimp only
  rw [runProgram_eq lists.sequences (programReadsBack_of_forall lists.readsBack) lists.lrange held
    (by omega), Exec.done_bind]
  exact ⟨_, rfl⟩

/-- The row for a file whose entry has the offset of such a unit. -/
theorem Lists.dwarfSrclines (lists : Lists order mem ds addrSize offset u program) :
    ∃ bound, ∀ fuel, bound ≤ fuel → ∀ {die : Die} {atref : Attribute},
      attrFind die atStmtList = some atref → atref.u0 = offset → ∀ linebuf pc,
        dwarfSrclines order mem ds fuel addrSize die linebuf pc =
          .done (dlvOk, rowAt (programRows ((u.header order).info addrSize) program) pc) := by
  obtain ⟨bound, run⟩ := lists.linenoInit
  refine ⟨bound, fun fuel enough die atref found offset_eq linebuf pc => ?_⟩
  obtain ⟨count, ended⟩ := run fuel enough pc
  rw [Lineno.dwarfSrclines, found]
  dsimp only
  rw [offset_eq, ended, Exec.done_bind]
  rfl

end

end Jos64.Lineno
