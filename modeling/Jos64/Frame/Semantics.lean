import Jos64.Frame.Rows

/-!
# What the interpreter leaves

A program is run round by round, and the tables that it leaves are compared with the row
at which the standard's machine stops.
-/

namespace Jos64.Frame

open Loop Dwarf Leb

section

variable {mem : Memory}

/-! ## Instructions -/

/-- The signed operands are read back, as far as the factor shows it. -/
def Instr.ReadsBack (daf : Int) (i : Instr) : Prop :=
  i.op daf readSigned = i.op daf Sleb.value

theorem Block.placed {order : Endianness} {dbgPointerSize p : Nat} {i : Instr} {block : Block}
    {front : List Byte} (operands_eq : i.operands order dbgPointerSize = front ++ block.encoded)
    (held : mem.Holds p (i.bytes order dbgPointerSize)) :
    blockAt mem (p + (i.bytes order dbgPointerSize).length - block.content.length)
      block.content.length = block.content := by
  have content_length : block.content.length = block.bytes.length := List.length_map _
  have bytes_eq : i.bytes order dbgPointerSize =
      (i.opcode :: front ++ block.length.bytes) ++ block.bytes := by
    rw [Instr.bytes, operands_eq, Block.encoded, List.cons_append, List.cons_append,
      List.append_assoc]
  rw [bytes_eq] at held ⊢
  have block_held := blockAt_of_holds (Memory.holds_append.mp held).2
  rw [List.length_append, content_length, ← Nat.add_assoc, Nat.add_sub_cancel]
  exact block_held

theorem Instr.placed {order : Endianness} {dbgPointerSize p : Nat} {i : Instr}
    (held : mem.Holds p (i.bytes order dbgPointerSize)) (daf : Int) (signed : Sleb → Int) :
    (i.op daf signed).Placed mem (p + (i.bytes order dbgPointerSize).length) := by
  cases i with
  | register reg source => exact source.inside
  | defCfa reg off => exact reg.inside
  | defCfaSf reg off => exact reg.inside
  | defCfaRegister reg => exact reg.inside
  | expression reg block => exact Block.placed rfl held
  | valExpression reg block => exact Block.placed rfl held
  | defCfaExpression block => exact Block.placed (List.nil_append _).symm held
  | _ => trivial

theorem op_ne_setLoc {i : Instr} (stays : ∀ location, i ≠ .setLoc location) (daf : Int)
    (signed : Sleb → Int) (location : Nat) : i.op daf signed ≠ .setLoc location := by
  cases i with
  | setLoc other => exact absurd rfl (stays other)
  | _ => exact nofun

theorem restoreState_of_op {i : Instr} {daf : Int} {signed : Sleb → Int}
    (op_eq : i.op daf signed = .restoreState) : i = .restoreState := by
  cases i with
  | restoreState => rfl
  | _ => contradiction

section

variable (caf pcReq : Nat) (initial : Table)

/-- An operand that is not read back is seen in the row. -/
theorem step_of_misread {daf : Int} {i : Instr} {machine : MachineState}
    (misread : ¬ i.ReadsBack daf) (valid : (i.op daf Sleb.value).Valid machine) :
    (i.op daf readSigned).Valid machine ∧ (i.op daf readSigned).Kept initial machine ∧
      ∃ read after, (i.op daf readSigned).step caf pcReq initial machine = some read ∧
        (i.op daf Sleb.value).step caf pcReq initial machine = some after ∧
        read.table ≠ after.table := by
  unfold Instr.ReadsBack at misread
  cases i with
  | offsetExtendedSf reg off =>
      refine ⟨trivial, fun is_plain => absurd is_plain Bool.false_ne_true, _, _, rfl, rfl, ?_⟩
      exact fun same => misread (congrArg (Op.setRule reg.number) (setRule_inj.mp same))
  | valOffsetSf reg off =>
      refine ⟨trivial, fun is_plain => absurd is_plain Bool.false_ne_true, _, _, rfl, rfl, ?_⟩
      exact fun same => misread (congrArg (Op.setRule reg.number) (setRule_inj.mp same))
  | defCfaSf reg off =>
      refine ⟨trivial, trivial, _, _, rfl, rfl, ?_⟩
      exact fun same => misread (congrArg Op.setCfa (congrArg Table.cfa same))
  | defCfaOffsetSf off =>
      refine ⟨valid, trivial, _, _, rfl, rfl, fun same => misread ?_⟩
      have cfa_eq := congrArg Table.cfa same
      have not_expression : machine.table.cfa.isExpression = false := valid
      cases found : machine.table.cfa with
      | offset reg other =>
          dsimp only at cfa_eq
          rw [found] at cfa_eq
          exact congrArg Op.setCfaOffset (CfaRule.offset.inj cfa_eq).2
      | expression block =>
          rw [found] at not_expression
          contradiction
  | _ => exact absurd rfl misread

end

/-! ## Programs -/

section

variable (dbg : RunDebug) (caf : Nat) (daf : Int) (pcReq : Nat)

/-- The tables after the rounds at some instructions. -/
def roundTables : (state : RunTables) → (p : Nat) → List Instr → Regtables
  | state, _, [] => state.tables
  | state, p, i :: insts =>
      let next := p + (i.bytes dbg.order dbg.dbgPointerSize).length
      match (i.op daf readSigned).round dbg.dbgFrameCfaValue caf pcReq next state with
      | none => state.tables
      | some state => roundTables state next insts

variable (initial : Table)

/-- The operands are read back, the operations are kept, and nothing behind a location that
is set and not beyond the one that is asked for changes the row. -/
def Sound : MachineState → List Instr → Prop
  | _, [] => True
  | machine, .setLoc location :: insts =>
      pcReq < location ∨
        ∀ n, finalRow caf pcReq initial { machine with location } (programOps daf (insts.take n)) =
          machine.table
  | machine, i :: insts =>
      (i.ReadsBack daf ∧ (i.op daf Sleb.value).Kept initial machine) ∧
        match (i.op daf Sleb.value).step caf pcReq initial machine with
        | none => True
        | some next => Sound next insts

end

theorem forall_take_cons {α : Type*} (P : List α → Prop) (item : α) (items : List α) :
    (∀ n, P ((item :: items).take n)) ↔ P [] ∧ ∀ n, P (item :: items.take n) := by
  constructor
  · intro all
    exact ⟨all 0, fun n => all (n + 1)⟩
  · rintro ⟨none, some⟩ n
    cases n with
    | zero => exact none
    | succ n => exact some n

theorem paired_cons {remembered opened : Bool} {i : Instr} {insts : List Instr}
    (paired : Paired remembered opened (i :: insts)) :
    (i = .restoreState → remembered = true) ∧
      ∃ remembered' opened', Paired remembered' opened' insts ∧
        (remembered' = true → remembered = true ∨ i = .rememberState) := by
  cases i with
  | rememberState => exact ⟨nofun, _, _, paired.2, fun _ => .inr rfl⟩
  | restoreState => exact ⟨fun _ => paired.1, _, _, paired.2, .inl⟩
  | _ => exact ⟨nofun, _, _, paired, .inl⟩

theorem savedRt_of_advance {caf pcReq dbgFrameCfaValue p delta : Nat} {state next : RunTables}
    (round : (Op.advance delta).round dbgFrameCfaValue caf pcReq p state = some next) :
    next.savedRt = state.savedRt := by
  rw [Op.round] at round
  split at round
  · contradiction
  · cases round
    rfl

section

variable {dbg : RunDebug} {caf : Nat} {daf : Int} {pcReq : Nat}

theorem instrBytes_cons (order : Endianness) (dbgPointerSize : Nat) (i : Instr)
    (insts : List Instr) :
    instrBytes order dbgPointerSize (i :: insts) =
      i.bytes order dbgPointerSize ++ instrBytes order dbgPointerSize insts :=
  List.flatMap_cons

/-- `saved_rt` is set at `DW_CFA_remember_state` and nowhere else. -/
theorem savedRt_of_round {i : Instr} {signed : Sleb → Int} {dbgFrameCfaValue p : Nat}
    {state next : RunTables}
    (round : (i.op daf signed).round dbgFrameCfaValue caf pcReq p state = some next) :
    next.savedRt = some .globalRtTableShadow ∨
      i ≠ .rememberState ∧ next.savedRt = state.savedRt := by
  cases i with
  | rememberState =>
      cases round
      exact .inl rfl
  | advanceLoc delta => exact .inr ⟨nofun, savedRt_of_advance round⟩
  | advanceLoc1 delta => exact .inr ⟨nofun, savedRt_of_advance round⟩
  | advanceLoc2 delta => exact .inr ⟨nofun, savedRt_of_advance round⟩
  | advanceLoc4 delta => exact .inr ⟨nofun, savedRt_of_advance round⟩
  | setLoc location => contradiction
  | _ =>
      cases round
      exact .inr ⟨nofun, rfl⟩

/-- The rounds at the instructions of a program, up to its end. -/
theorem loop_roundTables {insts : List Instr} (state : RunState) {pe : Nat}
    {remembered opened : Bool} (fits : ∀ i ∈ insts, i.Fits dbg.dbgPointerSize)
    (paired : Paired remembered opened insts)
    (saved : state.savedRt.getD .globalRtTableShadow = .globalRtTableShadow)
    (saved_eq : remembered = true → state.savedRt = some .globalRtTableShadow)
    (held : dbg.mem.Holds state.p (instrBytes dbg.order dbg.dbgPointerSize insts))
    (pe_eq : pe = state.p + (instrBytes dbg.order dbg.dbgPointerSize insts).length) :
    ∃ rowPc, ∀ fuel, insts.length < fuel →
      loop (frameRunBody dbg caf daf pcReq .globalRtTableShadow pe) fuel state =
        .done ⟨dleNone, rowPc, roundTables dbg caf daf pcReq state.toRunTables state.p insts⟩ := by
  induction insts generalizing state remembered opened with
  | nil =>
      have at_end : ¬ state.p < pe := by
        rw [pe_eq]
        exact lt_irrefl _
      have stops : frameRunBody dbg caf daf pcReq .globalRtTableShadow pe state =
          .done (.stop ⟨dleNone, state.rowPc, state.tables⟩) := if_neg at_end
      refine ⟨state.rowPc, fun fuel enough => ?_⟩
      obtain ⟨fuel, rfl⟩ : ∃ rest, fuel = rest + 1 := ⟨fuel - 1, by omega⟩
      exact loop_stop stops fuel
  | cons i insts ih =>
      rw [instrBytes_cons] at held pe_eq
      obtain ⟨here, behind⟩ := Memory.holds_append.mp held
      obtain ⟨restores, remembered', opened', paired', remembers⟩ := paired_cons paired
      have positive : 0 < (i.bytes dbg.order dbg.dbgPointerSize).length := Nat.succ_pos _
      have inside : state.p < pe := by
        rw [pe_eq, List.length_append]
        omega
      have goes := frameRunBody_goes caf daf pcReq (fits i List.mem_cons_self) inside here saved
        fun is_restore => saved_eq (restores is_restore)
      cases round : (i.op daf readSigned).round dbg.dbgFrameCfaValue caf pcReq
          (state.p + (i.bytes dbg.order dbg.dbgPointerSize).length) state.toRunTables with
      | none =>
          rw [round] at goes
          obtain ⟨rowPc, stops⟩ := goes
          refine ⟨rowPc, fun fuel enough => ?_⟩
          obtain ⟨fuel, rfl⟩ : ∃ rest, fuel = rest + 1 := ⟨fuel - 1, by omega⟩
          rw [loop_stop stops, roundTables, round]
      | some next =>
          rw [round] at goes
          obtain ⟨rowPc, again⟩ := goes
          have next_saved := savedRt_of_round round
          obtain ⟨last, run⟩ := ih ⟨next, _, rowPc⟩
            (fun other member => fits other (List.mem_cons_of_mem _ member)) paired'
            (next_saved.elim (fun set => by rw [set]; rfl) fun kept => kept.2 ▸ saved)
            (fun is_remembered => next_saved.elim id fun kept =>
              kept.2.trans (saved_eq ((remembers is_remembered).resolve_right kept.1)))
            behind (by rw [pe_eq, List.length_append, Nat.add_assoc])
          refine ⟨last, fun fuel enough => ?_⟩
          obtain ⟨fuel, rfl⟩ : ∃ rest, fuel = rest + 1 := ⟨fuel - 1, by omega⟩
          rw [loop_again again, run fuel (Nat.lt_of_succ_lt_succ enough), roundTables, round]

end

/-! ## The rows -/

section

variable (dbg : RunDebug) (caf : Nat) (daf : Int) (pcReq : Nat) (initial : Table)

/-- The rounds leave the row at which the standard's machine stops. -/
def RowsAgree (state : RunTables) (machine : MachineState) (p : Nat) (insts : List Instr) : Prop :=
  (roundTables dbg caf daf pcReq state p insts).globalRtTable.row dbg.mem =
    finalRow caf pcReq initial machine (programOps daf insts)

variable {dbg caf daf pcReq initial} {state : RunTables} {machine : MachineState} {p : Nat}

/-- The program is left at a location that is set. -/
theorem rowsAgree_setLoc (follows : Follows dbg.mem initial state machine) (location : Nat)
    (insts : List Instr) :
    RowsAgree dbg caf daf pcReq initial state machine p (.setLoc location :: insts) ↔
      pcReq < location ∨
        finalRow caf pcReq initial { machine with location } (programOps daf insts) =
          machine.table := by
  have left_eq : roundTables dbg caf daf pcReq state p (.setLoc location :: insts) =
      state.tables := rfl
  rw [RowsAgree, left_eq, follows.row_eq]
  change machine.table =
    finalRow caf pcReq initial machine (.setLoc location :: programOps daf insts) ↔ _
  rw [finalRow, Op.step]
  by_cases beyond : pcReq < location
  · rw [if_pos beyond]
    exact ⟨fun _ => .inl beyond, fun _ => rfl⟩
  · rw [if_neg beyond]
    exact ⟨fun same => .inr same.symm, fun either => (either.resolve_left beyond).symm⟩

/-- An instruction at which both stop. -/
theorem rowsAgree_of_stop {i : Instr} (follows : Follows dbg.mem initial state machine)
    (round : (i.op daf readSigned).round dbg.dbgFrameCfaValue caf pcReq
      (p + (i.bytes dbg.order dbg.dbgPointerSize).length) state = none)
    (step : (i.op daf Sleb.value).step caf pcReq initial machine = none) (insts : List Instr) :
    RowsAgree dbg caf daf pcReq initial state machine p (i :: insts) := by
  rw [RowsAgree, roundTables, round, programOps, List.map_cons, finalRow, step]
  exact follows.row_eq

/-- An instruction at which both go on. -/
theorem rowsAgree_cons {i : Instr} {next : RunTables} {after : MachineState}
    (round : (i.op daf readSigned).round dbg.dbgFrameCfaValue caf pcReq
      (p + (i.bytes dbg.order dbg.dbgPointerSize).length) state = some next)
    (step : (i.op daf Sleb.value).step caf pcReq initial machine = some after)
    (insts : List Instr) :
    RowsAgree dbg caf daf pcReq initial state machine p (i :: insts) ↔
      RowsAgree dbg caf daf pcReq initial next after
        (p + (i.bytes dbg.order dbg.dbgPointerSize).length) insts := by
  rw [RowsAgree, roundTables, round, programOps, List.map_cons, finalRow, step]
  rfl

theorem rowsAgree_single_iff {i : Instr} {next : RunTables} {after : MachineState}
    (round : (i.op daf readSigned).round dbg.dbgFrameCfaValue caf pcReq
      (p + (i.bytes dbg.order dbg.dbgPointerSize).length) state = some next)
    (step : (i.op daf Sleb.value).step caf pcReq initial machine = some after) :
    RowsAgree dbg caf daf pcReq initial state machine p [i] ↔
      next.tables.globalRtTable.row dbg.mem = after.table :=
  rowsAgree_cons round step []

/-- An instruction whose operands are not read back leaves another row. -/
theorem not_rowsAgree_of_misread {i : Instr} (follows : Follows dbg.mem initial state machine)
    (here : dbg.mem.Holds p (i.bytes dbg.order dbg.dbgPointerSize))
    (valid : (i.op daf Sleb.value).Valid machine)
    (ready : i = .restoreState → machine.remembered.isSome = true)
    (stays : ∀ location, i ≠ .setLoc location) (misread : ¬ i.ReadsBack daf) :
    ¬ RowsAgree dbg caf daf pcReq initial state machine p [i] := by
  obtain ⟨read_valid, kept, read, after, read_step, step, row_ne⟩ :=
    step_of_misread caf pcReq initial misread valid
  rcases follows.round (i.placed here daf readSigned) read_valid
      (fun restores => ready (restoreState_of_op restores)) (op_ne_setLoc stays daf readSigned)
      dbg.dbgFrameCfaValue caf pcReq with ⟨_, stopped, _⟩ | ⟨next, other, round, same, _, keeps⟩
  · rw [read_step] at stopped
    contradiction
  · obtain rfl : read = other := Option.some.inj (read_step.symm.trans same)
    rw [rowsAgree_single_iff round step, (keeps kept).row_eq]
    exact row_ne

theorem sound_cons {i : Instr} (stays : ∀ location, i ≠ .setLoc location) (insts : List Instr) :
    Sound caf daf pcReq initial machine (i :: insts) ↔
      (i.ReadsBack daf ∧ (i.op daf Sleb.value).Kept initial machine) ∧
        match (i.op daf Sleb.value).step caf pcReq initial machine with
        | none => True
        | some next => Sound caf daf pcReq initial next insts := by
  rw [Sound]
  exact stays

/-- What a step remembers. -/
theorem remembered_of_step {op : Op} {after : MachineState}
    (step : op.step caf pcReq initial machine = some after)
    (either : machine.remembered.isSome = true ∨ op = .rememberState) :
    after.remembered.isSome = true := by
  cases op with
  | rememberState =>
      cases step
      rfl
  | setLoc location =>
      rw [Op.step] at step
      split at step
      · contradiction
      · cases step
        exact either.resolve_right fun same => by cases same
  | advance delta =>
      rw [Op.step] at step
      split at step
      · contradiction
      · cases step
        exact either.resolve_right fun same => by cases same
  | _ =>
      cases step
      exact either.resolve_right fun same => by cases same

/-- The tables against the rows of the standard's machine, for a program and everything that
it begins with. -/
theorem rowsAgree_iff {insts : List Instr} {remembered opened : Bool}
    (follows : Follows dbg.mem initial state machine)
    (held : dbg.mem.Holds p (instrBytes dbg.order dbg.dbgPointerSize insts))
    (paired : Paired remembered opened insts)
    (remembered_eq : remembered = true → machine.remembered.isSome = true)
    (valid : Valid caf pcReq initial machine (programOps daf insts)) :
    (∀ n, RowsAgree dbg caf daf pcReq initial state machine p (insts.take n)) ↔
      Sound caf daf pcReq initial machine insts := by
  induction insts generalizing state machine p remembered opened with
  | nil =>
      refine ⟨fun _ => trivial, fun _ n => ?_⟩
      rw [List.take_nil]
      exact follows.row_eq
  | cons i insts ih =>
      have at_once : RowsAgree dbg caf daf pcReq initial state machine p [] := follows.row_eq
      rw [forall_take_cons (RowsAgree dbg caf daf pcReq initial state machine p),
        and_iff_right at_once]
      by_cases sets : ∃ location, i = .setLoc location
      · obtain ⟨location, rfl⟩ := sets
        rw [Sound]
        constructor
        · intro agree
          by_cases beyond : pcReq < location
          · exact .inl beyond
          · exact .inr fun n =>
              ((rowsAgree_setLoc follows location _).mp (agree n)).resolve_left beyond
        · intro either n
          exact (rowsAgree_setLoc follows location _).mpr (either.imp_right fun all => all n)
      · have stays (location : Nat) : i ≠ .setLoc location := fun same => sets ⟨location, same⟩
        rw [instrBytes_cons] at held
        obtain ⟨here, behind⟩ := Memory.holds_append.mp held
        obtain ⟨restores, remembered', opened', paired', remembers⟩ := paired_cons paired
        obtain ⟨op_valid, rest_valid⟩ := valid
        have ready (restore : i = .restoreState) : machine.remembered.isSome = true :=
          remembered_eq (restores restore)
        rw [sound_cons stays]
        by_cases reads : i.ReadsBack daf
        · rcases follows.round (i.placed here daf Sleb.value) op_valid
              (fun restore => ready (restoreState_of_op restore))
              (op_ne_setLoc stays daf Sleb.value) dbg.dbgFrameCfaValue caf pcReq with
            ⟨round, step, kept⟩ | ⟨next, after, round, step, row_iff, keeps⟩
          · rw [← reads] at round
            rw [step]
            exact ⟨fun _ => ⟨⟨reads, kept⟩, trivial⟩,
              fun _ n => rowsAgree_of_stop follows round step _⟩
          · rw [← reads] at round
            simp only [rowsAgree_cons round step]
            rw [step] at rest_valid ⊢
            by_cases kept : (i.op daf Sleb.value).Kept initial machine
            · have after_remembered (is_remembered : remembered' = true) :
                  after.remembered.isSome = true := by
                refine remembered_of_step step ((remembers is_remembered).imp remembered_eq ?_)
                rintro rfl
                rfl
              rw [ih (keeps kept) behind paired' after_remembered rest_valid,
                and_iff_right ⟨reads, kept⟩]
            · refine ⟨fun agree => ?_, fun sound => absurd sound.1.2 kept⟩
              exact absurd (row_iff.mp (agree 0)) kept
        · refine ⟨fun agree => ?_, fun sound => absurd sound.1.1 reads⟩
          exact absurd (agree 0) (not_rowsAgree_of_misread follows here op_valid ready stays reads)

/-! ## The interpreter -/

variable (dbg caf daf pcReq) in
/-- The interpreter leaves the row of the standard's machine at the location that is asked
for. -/
def LeavesRow (tables : Regtables) (p pc : Nat) (insts : List Instr) : Prop :=
  ∃ result, (∀ fuel, insts.length < fuel →
      frameRunInst dbg caf daf pcReq fuel tables p
        (instrBytes dbg.order dbg.dbgPointerSize insts).length pc = .done result) ∧
    result.ret = dleNone ∧
    result.tables.globalRtTable.row dbg.mem =
      finalRow caf pcReq (tables.globalRtTable.row dbg.mem)
        ⟨pc, tables.globalRtTable.row dbg.mem, none⟩ (programOps daf insts)

theorem Paired.take {remembered opened : Bool} {insts : List Instr}
    (paired : Paired remembered opened insts) (n : Nat) :
    Paired remembered opened (insts.take n) := by
  induction insts generalizing n remembered opened with
  | nil =>
      rw [List.take_nil]
      trivial
  | cons i insts ih =>
      cases n with
      | zero => trivial
      | succ n =>
          rw [List.take_succ_cons]
          cases i with
          | rememberState => exact ⟨paired.1, ih paired.2 n⟩
          | restoreState => exact ⟨paired.1, ih paired.2 n⟩
          | _ => exact ih paired n

theorem Holds_take {order : Endianness} {dbgPointerSize p : Nat} {insts : List Instr}
    (held : mem.Holds p (instrBytes order dbgPointerSize insts)) (n : Nat) :
    mem.Holds p (instrBytes order dbgPointerSize (insts.take n)) := by
  rw [← List.take_append_drop n insts, instrBytes, List.flatMap_append] at held
  exact (Memory.holds_append.mp held).1

/-- The table before the program, and the copy of it in the shadow. -/
theorem Follows.start (mem : Memory) (tables : Regtables) (pc : Nat) :
    Follows mem (tables.globalRtTable.row mem)
      ⟨pc, none, { tables with globalRtTableShadow := tables.globalRtTable }⟩
      ⟨pc, tables.globalRtTable.row mem, none⟩ :=
  ⟨rfl, rfl, rfl, rfl⟩

variable (caf daf pcReq) in
/-- The interpreter goes round the instructions of a program. -/
theorem frameRunInst_eq (tables : Regtables) (pc : Nat) {insts : List Instr}
    (fits : ∀ i ∈ insts, i.Fits dbg.dbgPointerSize) (paired : Paired false false insts)
    (held : dbg.mem.Holds p (instrBytes dbg.order dbg.dbgPointerSize insts)) :
    ∃ rowPc, ∀ fuel, insts.length < fuel →
      frameRunInst dbg caf daf pcReq fuel tables p
          (instrBytes dbg.order dbg.dbgPointerSize insts).length pc =
        .done ⟨dleNone, rowPc, roundTables dbg caf daf pcReq
          ⟨pc, none, { tables with globalRtTableShadow := tables.globalRtTable }⟩ p insts⟩ := by
  let start : RunState :=
    ⟨⟨pc, none, { tables with globalRtTableShadow := tables.globalRtTable }⟩, p, pc⟩
  cases insts with
  | nil =>
      have at_end : ¬ p < u64 (p + 0) := not_lt.mpr (Nat.mod_le _ _)
      have stops : frameRunBody dbg caf daf pcReq .globalRtTableShadow (u64 (p + 0)) start =
          .done (.stop ⟨dleNone, pc, start.tables⟩) := if_neg at_end
      refine ⟨pc, fun fuel enough => ?_⟩
      obtain ⟨fuel, rfl⟩ : ∃ rest, fuel = rest + 1 := ⟨fuel - 1, by omega⟩
      exact loop_stop stops fuel
  | cons i insts =>
      have bound := Lineno.end_lt held (List.cons_ne_nil _ _)
      have pe_eq : u64 (p + (instrBytes dbg.order dbg.dbgPointerSize (i :: insts)).length) =
          p + (instrBytes dbg.order dbg.dbgPointerSize (i :: insts)).length :=
        u64_of_lt (by omega)
      exact loop_roundTables start fits paired rfl (fun one => nomatch one) held pe_eq

/-- The instructions fit in their bytes, the rows that are restored have been remembered, and
the rule for the frame address is changed only where it can be. -/
structure WellFormed (dbg : RunDebug) (caf : Nat) (daf : Int) (pcReq : Nat) (initial : Table)
    (pc : Nat) (insts : List Instr) : Prop where
  fits : ∀ i ∈ insts, i.Fits dbg.dbgPointerSize
  paired : Paired false false insts
  valid : Valid caf pcReq initial ⟨pc, initial, none⟩ (programOps daf insts)

theorem leavesRow_iff_rowsAgree (tables : Regtables) (pc : Nat) {insts : List Instr}
    (fits : ∀ i ∈ insts, i.Fits dbg.dbgPointerSize) (paired : Paired false false insts)
    (held : dbg.mem.Holds p (instrBytes dbg.order dbg.dbgPointerSize insts)) :
    LeavesRow dbg caf daf pcReq tables p pc insts ↔
      RowsAgree dbg caf daf pcReq (tables.globalRtTable.row dbg.mem)
        ⟨pc, none, { tables with globalRtTableShadow := tables.globalRtTable }⟩
        ⟨pc, tables.globalRtTable.row dbg.mem, none⟩ p insts := by
  obtain ⟨rowPc, run⟩ := frameRunInst_eq caf daf pcReq tables pc fits paired held
  constructor
  · rintro ⟨result, ran, _, row_eq⟩
    have result_eq := (ran _ (Nat.lt_succ_self _)).symm.trans (run _ (Nat.lt_succ_self _))
    cases result_eq
    exact row_eq
  · exact fun agree => ⟨_, run, rfl, agree⟩

/-- The interpreter leaves the row of the standard's machine, for a well-formed program and
everything that it begins with, exactly if the program is sound: signed operands are read
back, no rule without an offset follows an expression, a register is restored behind
`DW_CFA_remember_state` only to the rule that was remembered, and nothing behind a location
that is set and not beyond the one that is asked for changes the row. -/
theorem leavesRow_iff {tables : Regtables} {pc : Nat} {insts : List Instr}
    (wellFormed : WellFormed dbg caf daf pcReq (tables.globalRtTable.row dbg.mem) pc insts)
    (held : dbg.mem.Holds p (instrBytes dbg.order dbg.dbgPointerSize insts)) :
    (∀ n, LeavesRow dbg caf daf pcReq tables p pc (insts.take n)) ↔
      Sound caf daf pcReq (tables.globalRtTable.row dbg.mem)
        ⟨pc, tables.globalRtTable.row dbg.mem, none⟩ insts := by
  rw [← rowsAgree_iff (Follows.start dbg.mem tables pc) held wellFormed.paired
    (fun one => nomatch one) wellFormed.valid]
  apply forall_congr'
  intro n
  exact leavesRow_iff_rowsAgree tables pc
    (fun i member => wellFormed.fits i (List.mem_of_mem_take member)) (wellFormed.paired.take n)
    (Holds_take held n)

end

end

/-! ## A row that is remembered and restored -/

theorem one_small : (Uleb.byte 1 one_ends).value < 2 ^ 28 := by
  decide

/-- What `_dwarf_frame_get_internal_table` sets up. -/
def clearedRegtable : Regtable :=
  ⟨⟨0, 0, 0, 0, 0⟩, fun _ => ⟨0, 0, dwFrameSameVal, 0, 0⟩⟩

def clearedRegtables : Regtables :=
  ⟨clearedRegtable, clearedRegtable⟩

/-- A register is saved, and another one in between. -/
def savedBetween : List Instr :=
  [.offset 3 ⟨.byte 1 one_ends, one_small⟩, .rememberState, .advanceLoc 4,
    .offset 6 ⟨.byte 1 one_ends, one_small⟩, .restoreState, .advanceLoc 8]

theorem savedBetween_fits : 0x1000 + (instrBytes .lsb 8 savedBetween).length < 2 ^ 47 := by
  decide

def savedBetweenDebug : RunDebug where
  order := .lsb
  mem := .image 0x1000 (instrBytes .lsb 8 savedBetween) savedBetween_fits
  dbgPointerSize := 8
  dbgFrameCfaValue := 1436
  pointer_known := eight_known

theorem savedBetween_wellFormed :
    WellFormed savedBetweenDebug 1 (-8) 0x108
      (clearedRegtables.globalRtTable.row savedBetweenDebug.mem) 0x100 savedBetween where
  fits := by
    intro i member
    rcases List.mem_cons.mp member with rfl | member
    · trivial
    · rcases List.mem_cons.mp member with rfl | member
      · trivial
      · rcases List.mem_cons.mp member with rfl | member
        · trivial
        · rcases List.mem_cons.mp member with rfl | member
          · trivial
          · rcases List.mem_cons.mp member with rfl | member
            · trivial
            · rw [List.mem_singleton.mp member]
              trivial
  paired := ⟨rfl, rfl, trivial⟩
  valid := ⟨trivial, trivial, trivial, trivial, trivial, trivial, trivial⟩

theorem savedBetween_held :
    savedBetweenDebug.mem.Holds 0x1000 (instrBytes .lsb 8 savedBetween) :=
  Memory.image_holds savedBetween_fits [] [] (List.append_nil _).symm

theorem savedBetween_sound :
    Sound 1 (-8) 0x108 (clearedRegtables.globalRtTable.row savedBetweenDebug.mem)
      ⟨0x100, clearedRegtables.globalRtTable.row savedBetweenDebug.mem, none⟩ savedBetween :=
  ⟨⟨rfl, fun plain => absurd plain Bool.false_ne_true⟩, ⟨rfl, trivial⟩, ⟨rfl, trivial⟩,
    ⟨rfl, fun plain => absurd plain Bool.false_ne_true⟩, ⟨rfl, trivial⟩, ⟨rfl, trivial⟩, trivial⟩

/-- The row is left behind the register in between, and behind the end. -/
theorem leavesRow_iff_savedBetween :
    LeavesRow savedBetweenDebug 1 (-8) 0x108 clearedRegtables 0x1000 0x100
        (savedBetween.take 4) ∧
      LeavesRow savedBetweenDebug 1 (-8) 0x108 clearedRegtables 0x1000 0x100 savedBetween := by
  have leaves := (leavesRow_iff savedBetween_wellFormed savedBetween_held).mpr savedBetween_sound
  exact ⟨leaves 4, leaves 6⟩

/-! ## A register that is restored behind `DW_CFA_remember_state` -/

/-- A register is saved, the row is remembered, and the register is restored. -/
def savedRestored : List Instr :=
  [.offset 3 ⟨.byte 1 one_ends, one_small⟩, .rememberState, .restore 3]

theorem savedRestored_fits : 0x1000 + (instrBytes .lsb 8 savedRestored).length < 2 ^ 47 := by
  decide

def savedRestoredDebug : RunDebug where
  order := .lsb
  mem := .image 0x1000 (instrBytes .lsb 8 savedRestored) savedRestored_fits
  dbgPointerSize := 8
  dbgFrameCfaValue := 1436
  pointer_known := eight_known

theorem savedRestored_wellFormed :
    WellFormed savedRestoredDebug 1 (-8) 0x108
      (clearedRegtables.globalRtTable.row savedRestoredDebug.mem) 0x100 savedRestored where
  fits := by
    intro i member
    rcases List.mem_cons.mp member with rfl | member
    · trivial
    · rcases List.mem_cons.mp member with rfl | member
      · trivial
      · rw [List.mem_singleton.mp member]
        trivial
  paired := ⟨rfl, trivial⟩
  valid := ⟨trivial, trivial, trivial, trivial⟩

theorem savedRestored_held :
    savedRestoredDebug.mem.Holds 0x1000 (instrBytes .lsb 8 savedRestored) :=
  Memory.image_holds savedRestored_fits [] [] (List.append_nil _).symm

/-- The register is left with the rule that was remembered. -/
theorem savedRestored_left :
    ¬ ∀ (dbg : RunDebug) (caf : Nat) (daf : Int) (pcReq : Nat) (tables : Regtables) (p pc : Nat)
        (insts : List Instr),
      WellFormed dbg caf daf pcReq (tables.globalRtTable.row dbg.mem) pc insts →
      dbg.mem.Holds p (instrBytes dbg.order dbg.dbgPointerSize insts) →
      LeavesRow dbg caf daf pcReq tables p pc insts := by
  intro claim
  have leaves := claim savedRestoredDebug 1 (-8) 0x108 clearedRegtables 0x1000 0x100 savedRestored
    savedRestored_wellFormed savedRestored_held
  have wellFormed := savedRestored_wellFormed
  rw [leavesRow_iff_rowsAgree _ _ wellFormed.fits wellFormed.paired savedRestored_held] at leaves
  exact absurd (congrArg (fun row => row.rules (lowRegister 3)) leaves) (by decide)

end Jos64.Frame
