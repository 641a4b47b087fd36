import Jos64.Lineno.Cursor
import Jos64.Lineno.Header

/-!
# Where the lookup of a line ends

The lookup goes over two tables and then over a program.  The loop over the
directories always ends; the loop over the files and the program do if each of their
steps leads forward.
-/

namespace Jos64.Lineno

open Loop Dwarf

section

variable {order : Endianness} {mem : Memory} {ds : Section}

/-! ## More fuel -/

variable {fuel more : Nat} (le : fuel ≤ more)

include le

theorem linenoTables_mono {offset : Nat} {result : Option (Nat × Nat)}
    (ended : linenoTables mem ds fuel offset = .done result) :
    linenoTables mem ds more offset = .done result := by
  obtain ⟨⟨p, inclen⟩, dirs, rest⟩ := Exec.bind_eq_done ended
  rw [linenoTables, loop_mono dirs le, Exec.done_bind]
  dsimp only at rest ⊢
  split at rest
  case isTrue behind =>
    rw [if_pos behind]
    exact rest
  case isFalse inside =>
    obtain ⟨q, files, rest⟩ := Exec.bind_eq_done rest
    rw [if_neg inside, loop_mono files le, Exec.done_bind]
    exact rest

theorem linenoHeader_mono {offset : Nat} {started : Started}
    (ended : linenoHeader order mem ds fuel offset = .done started) :
    linenoHeader order mem ds more offset = .done started := by
  obtain ⟨⟨length, dwarfSize, offset⟩, length_read, rest⟩ := Exec.bind_eq_done ended
  rw [linenoHeader, length_read, Exec.done_bind]
  dsimp only at rest ⊢
  split at rest
  case isTrue beyond =>
    rw [if_pos beyond]
    exact rest
  case isFalse within =>
    rw [if_neg within]
    obtain ⟨⟨header, hdroff, offset⟩, fields_read, rest⟩ := Exec.bind_eq_done rest
    rw [fields_read, Exec.done_bind]
    dsimp only at rest ⊢
    split at rest
    case isTrue short =>
      rw [if_pos short]
      exact rest
    case isFalse long =>
      rw [if_neg long]
      obtain ⟨⟨liOplen, offset⟩, oplen_read, rest⟩ := Exec.bind_eq_done rest
      rw [oplen_read, Exec.done_bind]
      obtain ⟨tables, tables_read, rest⟩ := Exec.bind_eq_done rest
      rw [linenoTables_mono le tables_read, Exec.done_bind]
      exact rest

theorem linenoInit_mono {offset addrSize pc : Nat} {result : Int × Result}
    (ended : linenoInit order mem ds fuel offset addrSize pc = .done result) :
    linenoInit order mem ds more offset addrSize pc = .done result := by
  obtain ⟨started, header_ended, rest⟩ := Exec.bind_eq_done ended
  rw [linenoInit, linenoHeader_mono le header_ended, Exec.done_bind]
  cases started with
  | failed ret => exact rest
  | program header p pe =>
      obtain ⟨row, run, rest⟩ := Exec.bind_eq_done rest
      dsimp only
      rw [runProgram, loop_mono run le, Exec.done_bind]
      exact rest

/-- More fuel does not change the line that is found. -/
theorem dwarfSrclines_mono {addrSize pc : Nat} {die : Die} {linebuf : Line} {result : Int × Line}
    (ended : dwarfSrclines order mem ds fuel addrSize die linebuf pc = .done result) :
    dwarfSrclines order mem ds more addrSize die linebuf pc = .done result := by
  unfold dwarfSrclines at ended ⊢
  split at ended
  · exact ended
  · obtain ⟨⟨ret, row⟩, init_ended, rest⟩ := Exec.bind_eq_done ended
    rw [linenoInit_mono le init_ended, Exec.done_bind]
    exact rest

end

section

variable (order : Endianness) (mem : Memory) (ds : Section)

/-! ## Steps forward -/

/-- The tables of the unit at an offset begin at another one. -/
structure TablesAt (offset tables : Nat) : Prop where
  fields : ∃ length dwarfSize next header hdroff opcodes liOplen,
    readLength order mem ds offset = some (length, dwarfSize, next) ∧
      readFields order mem ds length dwarfSize next = some (header, hdroff, opcodes) ∧
        readOplen order mem ds (header.liOpbase.toNat - 1) opcodes = some (liOplen, tables)

/-- Every file that the table from the offset on is read to have ends behind its
beginning. -/
def FilesForward (fuel offset : Nat) : Prop :=
  ∀ p inclen, loop (dirBody mem) fuel (ds.at offset, 0) = .done (p, inclen) →
    ∀ q, Reached (fileBody mem) (u64 (p + 1)) q → ∀ next, linenoAddFile mem q = .done next →
      q < next

/-- The steps over the files of the unit that an entry leads to and over its program
lead forward. -/
structure LookupForward (fuel addrSize : Nat) (die : Die) (pc : Nat) : Prop where
  files : ∀ atref, attrFind die atStmtList = some atref → ∀ tables,
    TablesAt order mem ds atref.u0 tables → FilesForward mem ds fuel tables
  program : ∀ atref, attrFind die atStmtList = some atref → ∀ header p pe,
    linenoHeader order mem ds fuel atref.u0 = .done (.program header p pe) → ∀ state,
      Reached (runBody order mem (header.info addrSize) pe pc) (startAt (header.info addrSize) p)
        state → ¬ JumpsBack mem pe state.p

end

section

variable {order : Endianness} {mem : Memory} {ds : Section}

/-! ## The tables -/

theorem skipString_forward {p room next : Nat} (skipped : skipString mem p room = some next) :
    p < next := by
  induction room generalizing p with
  | zero => contradiction
  | succ room ih =>
      obtain ⟨c, -, rest⟩ := Option.bind_eq_some_iff.mp skipped
      split at rest
      · exact (Nat.lt_succ_self p).trans (ih rest)
      · cases rest
        exact Nat.lt_succ_self p

/-- A directory is in memory, and the next one behind it. -/
theorem dirBody_again {state state' : Nat × Nat}
    (round : dirBody mem state = .done (.again state')) :
    state.1 < mem.top ∧ state.1 < state'.1 := by
  obtain ⟨p, length⟩ := state
  obtain ⟨c, found, round⟩ := Exec.bind_eq_done round
  split at round
  · obtain ⟨next, skipped, round⟩ := Exec.bind_eq_done round
    cases round
    exact ⟨Memory.lt_top (Exec.ofOption_eq_done found),
      skipString_forward (Exec.ofOption_eq_done skipped)⟩
  · cases round

theorem dirBody_ne_timeout (state : Nat × Nat) : dirBody mem state ≠ .timeout := by
  refine Exec.bind_ne_timeout (Exec.ofOption_ne_timeout _) fun c _ => ?_
  split
  · exact Exec.bind_ne_timeout (Exec.ofOption_ne_timeout _) fun _ _ => Exec.done_ne_timeout _
  · exact Exec.done_ne_timeout _

theorem fileBody_again {p next : Nat} (round : fileBody mem p = .done (.again next)) :
    p < mem.top ∧ linenoAddFile mem p = .done next := by
  obtain ⟨c, found, round⟩ := Exec.bind_eq_done round
  split at round
  · obtain ⟨behind, read, round⟩ := Exec.bind_eq_done round
    cases round
    exact ⟨Memory.lt_top (Exec.ofOption_eq_done found), read⟩
  · cases round

theorem fileBody_ne_timeout (p : Nat) : fileBody mem p ≠ .timeout := by
  refine Exec.bind_ne_timeout (Exec.ofOption_ne_timeout _) fun c _ => ?_
  split
  · exact Exec.bind_ne_timeout (linenoAddFile_ne_timeout p) fun _ _ => Exec.done_ne_timeout _
  · exact Exec.done_ne_timeout _

/-- A round that goes on has read its opcode. -/
theorem runBody_lt_top {li : LineInfo} {pe pc : Nat} {state state' : RunState}
    (round : runBody order mem li pe pc state = .done (.again state')) : state.p < mem.top := by
  unfold runBody at round
  split at round
  · obtain ⟨opcode, found, -⟩ := Exec.bind_eq_done round
    exact Memory.lt_top (Exec.ofOption_eq_done found)
  · cases round

section

variable {fuel : Nat} (enough : mem.top < fuel)

include enough

theorem dirLoop_ne_timeout (state : Nat × Nat) : loop (dirBody mem) fuel state ≠ .timeout := by
  refine loop_ne_timeout_of_reached (fun state => mem.top - state.1)
    (fun state _ => dirBody_ne_timeout state) (fun state state' _ round => ?_)
    ((Nat.sub_le _ _).trans_lt enough)
  obtain ⟨inside, further⟩ := dirBody_again round
  omega

theorem linenoTables_ne_timeout {offset : Nat} (forward : FilesForward mem ds fuel offset) :
    linenoTables mem ds fuel offset ≠ .timeout := by
  apply Exec.bind_ne_timeout (dirLoop_ne_timeout enough _)
  rintro ⟨p, inclen⟩ dirs
  dsimp only
  split
  · exact nofun
  · refine Exec.bind_ne_timeout ?_ fun _ _ => nofun
    refine loop_ne_timeout_of_reached (fun q => mem.top - q)
      (fun q _ => fileBody_ne_timeout q) (fun q next reached round => ?_)
      ((Nat.sub_le _ _).trans_lt enough)
    obtain ⟨inside, read⟩ := fileBody_again round
    have further := forward p inclen dirs q reached next read
    omega

/-! ## The program -/

theorem runProgram_ne_timeout {li : LineInfo} {pe pc p : Nat}
    (forward : ∀ state, Reached (runBody order mem li pe pc) (startAt li p) state →
      ¬ JumpsBack mem pe state.p) : runProgram order mem li pe pc fuel p ≠ .timeout := by
  refine loop_ne_timeout_of_reached (fun state => mem.top - state.p)
    (fun state _ => runBody_ne_timeout state) (fun state state' reached round => ?_)
    ((Nat.sub_le _ _).trans_lt enough)
  obtain ⟨inside, further⟩ := runBody_lt (forward state reached) round
  have mapped := runBody_lt_top round
  omega

/-! ## The lookup -/

theorem linenoHeader_ne_timeout {offset : Nat}
    (forward : ∀ tables, TablesAt order mem ds offset tables → FilesForward mem ds fuel tables) :
    linenoHeader order mem ds fuel offset ≠ .timeout := by
  apply Exec.bind_ne_timeout (Exec.ofOption_ne_timeout _)
  rintro ⟨length, dwarfSize, next⟩ length_read
  dsimp only
  split
  · exact nofun
  · apply Exec.bind_ne_timeout (Exec.ofOption_ne_timeout _)
    rintro ⟨header, hdroff, opcodes⟩ fields_read
    dsimp only
    split
    · exact nofun
    · apply Exec.bind_ne_timeout (Exec.ofOption_ne_timeout _)
      rintro ⟨liOplen, tables⟩ oplen_read
      have tabled : TablesAt order mem ds offset tables :=
        ⟨_, _, _, _, _, _, _, Exec.ofOption_eq_done length_read, Exec.ofOption_eq_done fields_read,
          Exec.ofOption_eq_done oplen_read⟩
      apply Exec.bind_ne_timeout (linenoTables_ne_timeout enough (forward tables tabled))
      rintro tables -
      cases tables with
      | none => exact nofun
      | some read =>
          dsimp only
          split
          · exact nofun
          · exact nofun

/-- The lookup of a line ends if its steps lead forward, after no more rounds of each of
its loops than there are addresses. -/
theorem dwarfSrclines_ne_timeout {addrSize pc : Nat} {die : Die}
    (forward : LookupForward order mem ds fuel addrSize die pc) (linebuf : Line) :
    dwarfSrclines order mem ds fuel addrSize die linebuf pc ≠ .timeout := by
  unfold dwarfSrclines
  split
  · exact nofun
  · rename_i atref found
    refine Exec.bind_ne_timeout ?_ fun result _ => ?_
    · apply Exec.bind_ne_timeout (linenoHeader_ne_timeout enough (forward.files atref found))
      intro started header_ended
      cases started with
      | failed ret => exact nofun
      | program header p pe =>
          exact Exec.bind_ne_timeout
            (runProgram_ne_timeout enough (forward.program atref found header p pe header_ended))
            fun _ _ => nofun
    · dsimp only
      split
      · exact nofun
      · exact nofun

end

end

end Jos64.Lineno
