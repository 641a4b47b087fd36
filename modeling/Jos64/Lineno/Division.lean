import Jos64.Lineno.Tables

/-!
# The divisor of the special opcodes

Special opcodes and `DW_LNS_const_add_pc` divide by the line range of the header,
which no test of `_dwarf_lineno_init` looks at.
-/

namespace Jos64.Lineno

open Loop Dwarf

section

variable (order : Endianness) (mem : Memory) (li : LineInfo) (pe pc : Nat)

/-- The header with another line range. -/
def LineInfo.withLrange (lrange : Byte) : LineInfo :=
  { li with liLrange := lrange }

/-- A round divides by zero: it faults, and would not with any other line range. -/
def DividesByZero (state : RunState) : Prop :=
  runBody order mem li pe pc state = .fault ∧
    ∀ lrange ≠ 0, runBody order mem (li.withLrange lrange) pe pc state ≠ .fault

/-- The cursor is at a special opcode, or at `DW_LNS_const_add_pc`. -/
def AtDivision (state : RunState) : Prop :=
  state.p < pe ∧ ∃ opcode, mem.byte state.p = some opcode ∧ opcode ≠ 0 ∧
    (li.liOpbase ≤ opcode ∨ opcode = 8)

end

section

variable {order : Endianness} {mem : Memory} {li : LineInfo} {pe pc : Nat} {state : RunState}

/-! ## The opcodes that divide -/

/-- Every other standard opcode has nothing to do with the line range. -/
theorem standardOpcode_withLrange {opcode : Byte} (other : opcode ≠ 8) (lrange : Byte) (p : Nat) :
    standardOpcode order mem (li.withLrange lrange) pc opcode state p =
      standardOpcode order mem li pc opcode state p := by
  unfold standardOpcode
  split
  case h_8 constAddPc => exact absurd (BitVec.eq_of_toNat_eq constAddPc) other
  all_goals rfl

/-- Away from a division a round has nothing to do with the line range. -/
theorem runBody_withLrange (away : ¬ AtDivision mem li pe state) (lrange : Byte) :
    runBody order mem (li.withLrange lrange) pe pc state = runBody order mem li pe pc state := by
  unfold runBody
  by_cases inside : state.p < pe
  · rw [if_pos inside, if_pos inside]
    cases mapped : mem.byte state.p with
    | none => rfl
    | some opcode =>
        rw [Exec.ofOption_some, Exec.done_bind, Exec.done_bind]
        by_cases zero : opcode = 0
        · rw [if_pos zero, if_pos zero]
          rfl
        · rw [if_neg zero, if_neg zero]
          have harmless : ¬ (li.liOpbase ≤ opcode ∨ opcode = 8) :=
            fun divides => away ⟨inside, opcode, mapped, zero, divides⟩
          have below : opcode < li.liOpbase := BitVec.not_le.mp fun above => harmless (.inl above)
          rw [if_pos (show opcode < (li.withLrange lrange).liOpbase from below), if_pos below]
          exact standardOpcode_withLrange (fun same => harmless (.inr same)) lrange _
  · rw [if_neg inside, if_neg inside]

theorem appendRow_ne_fault (p : Nat) (registers : Registers) :
    appendRow pc state p registers ≠ .fault := by
  rw [appendRow_eq]
  exact nofun

/-- At a division the round faults exactly if the line range is zero. -/
theorem runBody_eq_fault_iff (at_division : AtDivision mem li pe state) :
    runBody order mem li pe pc state = .fault ↔ li.liLrange = 0 := by
  obtain ⟨inside, opcode, mapped, nonzero, divides⟩ := at_division
  unfold runBody
  rw [if_pos inside, mapped, Exec.ofOption_some, Exec.done_bind, if_neg nonzero]
  by_cases below : opcode < li.liOpbase
  · obtain rfl : opcode = 8 := divides.resolve_left (BitVec.not_le.mpr below)
    rw [if_pos below]
    change (if li.liLrange = 0 then _ else _) = _ ↔ _
    split
    · exact iff_of_true rfl ‹_›
    · exact iff_of_false nofun ‹_›
  · rw [if_neg below, specialOpcode]
    split
    · exact iff_of_true rfl ‹_›
    · exact iff_of_false (appendRow_ne_fault _ _) ‹_›

/-- A round divides by zero at the opcodes that divide, where the line range is
zero. -/
theorem dividesByZero_iff :
    DividesByZero order mem li pe pc state ↔ li.liLrange = 0 ∧ AtDivision mem li pe state := by
  constructor
  · rintro ⟨faults, divisor⟩
    have zero : li.liLrange = 0 := by
      by_contra nonzero
      exact divisor li.liLrange nonzero faults
    refine ⟨zero, ?_⟩
    by_contra away
    have same := divisor 1 (by decide)
    rw [runBody_withLrange away] at same
    exact same faults
  · rintro ⟨zero, at_division⟩
    refine ⟨(runBody_eq_fault_iff at_division).mpr zero, fun lrange nonzero faults => ?_⟩
    have elsewhere : AtDivision mem (li.withLrange lrange) pe state := at_division
    exact nonzero ((runBody_eq_fault_iff elsewhere).mp faults)

end

/-! ## `_dwarf_lineno_init` -/

section

variable (order : Endianness) (mem : Memory) (ds : Section) (fuel offset addrSize pc : Nat)

/-- The state in which the program of a header begins. -/
def Header.start (header : Header) (p : Nat) : RunState :=
  ⟨p, resetRegisters (header.info addrSize), .zero, 0⟩

/-- The header is accepted, and a round of its program divides by zero. -/
def InitDivides : Prop :=
  ∃ header p pe state, linenoHeader order mem ds fuel offset = .done (.program header p pe) ∧
    Reached (runBody order mem (header.info addrSize) pe pc) (header.start addrSize p) state ∧
    DividesByZero order mem (header.info addrSize) pe pc state

/-- No opcode divides by zero exactly if the line range of the header that is accepted
is not zero, or its program gets to none of the opcodes that divide. -/
theorem not_initDivides_iff :
    ¬ InitDivides order mem ds fuel offset addrSize pc ↔
      ∀ header p pe, linenoHeader order mem ds fuel offset = .done (.program header p pe) →
        header.liLrange ≠ 0 ∨
          ∀ state, Reached (runBody order mem (header.info addrSize) pe pc)
            (header.start addrSize p) state → ¬ AtDivision mem (header.info addrSize) pe state := by
  constructor
  · intro never header p pe accepted
    by_cases zero : header.liLrange = 0
    · refine .inr fun state reached at_division => ?_
      refine never ⟨header, p, pe, state, accepted, reached, ?_⟩
      exact dividesByZero_iff.mpr ⟨zero, at_division⟩
    · exact .inl zero
  · rintro clear ⟨header, p, pe, state, accepted, reached, divides⟩
    obtain ⟨zero, at_division⟩ := dividesByZero_iff.mp divides
    rcases clear header p pe accepted with nonzero | away
    · exact nonzero zero
    · exact away state reached at_division

end

/-- A unit with the line range 0, whose program is a special opcode. -/
def zeroRange : LineUnit :=
  plainUnit 0 [10]

def zeroRangeMemory : Memory :=
  plainMemory zeroRange (by decide)

theorem zeroRange_started {fuel : Nat} (enough : 1 < fuel) :
    linenoHeader .lsb zeroRangeMemory (plainSection zeroRange) fuel 1 =
      .done (.program (zeroRange.header .lsb) 0x1022 0x1023) :=
  linenoHeader_unit (show (plainSection zeroRange).dsSize < 2 ^ 31 by decide)
    (plain_contains zeroRange _) enough enough

theorem zeroRange_atDivision : AtDivision zeroRangeMemory ((zeroRange.header .lsb).info 8) 0x1023
    ((zeroRange.header .lsb).start 8 0x1022) :=
  ⟨by decide, 10, by decide, by decide, .inl (by decide)⟩

/-- It is accepted, and its program faults. -/
theorem zero_range_divides :
    (∀ fuel pc, 1 < fuel →
      linenoInit .lsb zeroRangeMemory (plainSection zeroRange) fuel 1 8 pc = .fault) ∧
    ¬ ∀ (order : Endianness) (mem : Memory) (ds : Section) (fuel offset addrSize pc : Nat),
      ¬ InitDivides order mem ds fuel offset addrSize pc := by
  refine ⟨fun fuel pc enough => ?_, fun claim => ?_⟩
  · have faults : runBody .lsb zeroRangeMemory ((zeroRange.header .lsb).info 8) 0x1023 pc
        ((zeroRange.header .lsb).start 8 0x1022) = .fault :=
      (runBody_eq_fault_iff zeroRange_atDivision).mpr rfl
    obtain ⟨rounds, rfl⟩ : ∃ rounds, fuel = rounds + 1 := ⟨fuel - 1, by omega⟩
    rw [linenoInit, zeroRange_started enough, Exec.done_bind]
    dsimp only
    rw [runProgram, loop]
    rw [Header.start] at faults
    rw [faults, Exec.fault_bind, Exec.fault_bind]
  · exact claim .lsb _ _ 2 1 8 0 ⟨_, _, _, _, zeroRange_started (by decide), .refl,
      dividesByZero_iff.mpr ⟨rfl, zeroRange_atDivision⟩⟩

end Jos64.Lineno
