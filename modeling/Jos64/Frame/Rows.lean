import Jos64.Frame.Rounds

/-!
# Rows of rules in the tables

The tables that the interpreter works on are read as rows of rules.  Round by round they
are compared with the rows of the standard's machine.
-/

namespace Jos64.Frame

open Loop Dwarf Leb

/-! ## Reading the tables -/

/-- What stands in memory. -/
def blockAt (mem : Memory) (address length : Nat) : List (Option Byte) :=
  (List.range length).map fun k => mem.byte (address + k)

theorem blockAt_of_holds {mem : Memory} {address : Nat} {bytes : List Byte}
    (held : mem.Holds address bytes) : blockAt mem address bytes.length = bytes.map some := by
  induction bytes generalizing address with
  | nil => rfl
  | cons byte bytes ih =>
      obtain ⟨mapped, rest⟩ := Memory.holds_cons.mp held
      unfold blockAt at ih ⊢
      rw [List.length_cons, List.range_succ_eq_map, List.map_cons, List.map_map, List.map_cons,
        ← ih rest, Nat.add_zero, mapped]
      congr 1
      apply List.map_congr_left
      intro k _
      rw [Function.comp_apply, Nat.succ_eq_add_one, Nat.add_assoc, Nat.add_comm 1]

/-- The rule of an entry.  `dw_value_type` says if it is an expression, and
`dw_offset_relevant` if it has an offset. -/
def RegEntry.rule (mem : Memory) (entry : RegEntry) : Rule :=
  if entry.dwValueType = dwExprExpression then
    .expression (blockAt mem entry.dwBlockPtr entry.dwOffsetOrBlockLen)
  else if entry.dwValueType = dwExprValExpression then
    .valExpression (blockAt mem entry.dwBlockPtr entry.dwOffsetOrBlockLen)
  else if entry.dwOffsetRelevant = 0 then
    if entry.dwRegnum = dwFrameUndefinedVal then .undefined
    else if entry.dwRegnum = dwFrameSameVal then .sameValue
    else .register entry.dwRegnum
  else if entry.dwValueType = dwExprValOffset then .valOffset entry.dwOffsetOrBlockLen
  else .offset entry.dwOffsetOrBlockLen

def RegEntry.cfaRule (mem : Memory) (entry : RegEntry) : CfaRule :=
  if entry.dwValueType = dwExprExpression then
    .expression (blockAt mem entry.dwBlockPtr entry.dwOffsetOrBlockLen)
  else .offset entry.dwRegnum entry.dwOffsetOrBlockLen

def Regtable.row (mem : Memory) (rt : Regtable) : Table :=
  ⟨rt.rt3CfaRule.cfaRule mem, fun reg => (rt.rt3Rules reg).rule mem⟩

section

variable {mem : Memory}

@[simp]
theorem updateRule_row (rt : Regtable) (reg : Fin dwFrameLastRegNum) (entry : RegEntry) :
    (rt.updateRule reg entry).row mem = (rt.row mem).setRule reg (entry.rule mem) := by
  unfold Regtable.updateRule Regtable.row Table.setRule
  congr 1
  exact (Function.comp_update (RegEntry.rule mem) rt.rt3Rules reg entry)

theorem setRule_inj {table : Table} {reg : Fin dwFrameLastRegNum} {rule other : Rule} :
    table.setRule reg rule = table.setRule reg other ↔ rule = other := by
  constructor
  · intro same
    have at_reg := congrArg (fun row => row.rules reg) same
    rwa [Table.setRule_rules, Table.setRule_rules] at at_reg
  · rintro rfl
    rfl

theorem isExpression_rule (entry : RegEntry) :
    (entry.rule mem).isExpression = true ↔
      entry.dwValueType = dwExprExpression ∨ entry.dwValueType = dwExprValExpression := by
  unfold RegEntry.rule
  by_cases expression : entry.dwValueType = dwExprExpression
  · rw [if_pos expression]
    exact ⟨fun _ => .inl expression, fun _ => rfl⟩
  · rw [if_neg expression]
    by_cases valExpression : entry.dwValueType = dwExprValExpression
    · rw [if_pos valExpression]
      exact ⟨fun _ => .inr valExpression, fun _ => rfl⟩
    · rw [if_neg valExpression]
      refine ⟨fun is_expression => ?_, fun one => ?_⟩
      · repeat' split at is_expression
        all_goals contradiction
      · exact (one.elim expression valExpression).elim

/-- An expression stays where a rule without one is stored. -/
theorem storeRegnum_rule (entry : RegEntry) (regnum : Nat) :
    (entry.storeRegnum regnum).rule mem =
      if (entry.rule mem).isExpression then entry.rule mem
      else if regnum = dwFrameUndefinedVal then .undefined
      else if regnum = dwFrameSameVal then .sameValue
      else .register regnum := by
  by_cases expression : (entry.rule mem).isExpression = true
  · rw [if_pos expression]
    rcases (isExpression_rule entry).mp expression with same | same
    · have stored : (entry.storeRegnum regnum).dwValueType = dwExprExpression := same
      rw [RegEntry.rule, RegEntry.rule, if_pos stored, if_pos same]
      rfl
    · have other : ¬ entry.dwValueType = dwExprExpression := by
        rw [same]
        decide
      have stored : (entry.storeRegnum regnum).dwValueType = dwExprValExpression := same
      have stored_other : ¬ (entry.storeRegnum regnum).dwValueType = dwExprExpression := other
      rw [RegEntry.rule, RegEntry.rule, if_neg stored_other, if_pos stored, if_neg other,
        if_pos same]
      rfl
  · rw [if_neg expression]
    have neither : ¬ (_ ∨ _) := mt (isExpression_rule entry).mpr expression
    rw [not_or] at neither
    exact (if_neg neither.1).trans (if_neg neither.2)

/-- What the operands of an instruction that ends at `p` say about the rule. -/
def Op.Placed (mem : Memory) (p : Nat) : Op → Prop
  | setRule _ (.register reg) | setCfa (.offset reg _) | setCfaRegister reg =>
      reg < dwFrameLastRegNum
  | setRule _ (.expression block) | setRule _ (.valExpression block) | setCfa (.expression block) =>
      blockAt mem (p - block.length) block.length = block
  | _ => True

theorem storeRule_rule_iff {reg : Fin dwFrameLastRegNum} {rule : Rule} {p : Nat}
    (placed : (Op.setRule reg rule).Placed mem p) (dbgFrameCfaValue : Nat) (entry : RegEntry) :
    (entry.storeRule dbgFrameCfaValue p rule).rule mem = rule ↔
      (rule.isPlain = true → (entry.rule mem).isExpression = false) := by
  have plain (regnum : Nat) (rule : Rule) (not_expression : rule.isExpression = false)
      (is_plain : rule.isPlain = true)
      (regnum_rule : (if regnum = dwFrameUndefinedVal then Rule.undefined
        else if regnum = dwFrameSameVal then .sameValue else .register regnum) = rule) :
      (entry.storeRegnum regnum).rule mem = rule ↔
        (rule.isPlain = true → (entry.rule mem).isExpression = false) := by
    rw [storeRegnum_rule, regnum_rule]
    by_cases expression : (entry.rule mem).isExpression = true
    · rw [if_pos expression, expression]
      refine ⟨fun same => ?_, fun claim => absurd (claim is_plain) (by decide)⟩
      rw [same, not_expression] at expression
      contradiction
    · rw [if_neg expression, (Bool.not_eq_true _).mp expression]
      exact ⟨fun _ _ => rfl, fun _ => rfl⟩
  cases rule with
  | undefined => exact plain dwFrameUndefinedVal _ rfl rfl rfl
  | sameValue => exact plain dwFrameSameVal _ rfl rfl rfl
  | register reg =>
      have small : reg < 66 := placed
      have mod_eq : reg % 2 ^ 16 = reg := Nat.mod_eq_of_lt (by omega)
      rw [RegEntry.storeRule, mod_eq]
      refine plain reg _ rfl rfl ?_
      rw [if_neg, if_neg]
      · unfold dwFrameSameVal
        omega
      · unfold dwFrameUndefinedVal
        omega
  | offset off => exact ⟨fun _ is_plain => absurd is_plain Bool.false_ne_true, fun _ => rfl⟩
  | valOffset off => exact ⟨fun _ is_plain => absurd is_plain Bool.false_ne_true, fun _ => rfl⟩
  | expression block =>
      exact ⟨fun _ is_plain => absurd is_plain Bool.false_ne_true,
        fun _ => congrArg Rule.expression placed⟩
  | valExpression block =>
      exact ⟨fun _ is_plain => absurd is_plain Bool.false_ne_true,
        fun _ => congrArg Rule.valExpression placed⟩

theorem storeCfaRule_cfaRule {rule : CfaRule} {p : Nat} (placed : (Op.setCfa rule).Placed mem p)
    (entry : RegEntry) : (entry.storeCfaRule p rule).cfaRule mem = rule := by
  cases rule with
  | offset reg off =>
      have small : reg < 66 := placed
      have mod_eq : reg % 2 ^ 16 = reg := Nat.mod_eq_of_lt (by omega)
      rw [RegEntry.storeCfaRule, mod_eq]
      rfl
  | expression block => exact congrArg CfaRule.expression placed

theorem setRegister_cfaRule {reg : Nat} (small : reg < dwFrameLastRegNum) (entry : RegEntry) :
    { entry with dwRegnum := reg % 2 ^ 16 }.cfaRule mem = (entry.cfaRule mem).setRegister reg := by
  have small : reg < 66 := small
  have mod_eq : reg % 2 ^ 16 = reg := Nat.mod_eq_of_lt (by omega)
  rw [mod_eq]
  unfold RegEntry.cfaRule
  dsimp only
  split
  · rfl
  · rfl

theorem setOffset_cfaRule {entry : RegEntry} (valid : (entry.cfaRule mem).isExpression = false)
    (off : Nat) :
    (entry.storeOffset dwExprOffset entry.dwRegnum off).cfaRule mem =
      (entry.cfaRule mem).setOffset off := by
  unfold RegEntry.cfaRule at valid ⊢
  split at valid
  · contradiction
  · rename_i other
    rw [if_neg other]
    rfl

/-! ## Rounds and steps -/

/-- The tables are those of the standard's machine, with the initial row in the shadow as
long as none is remembered. -/
structure Follows (mem : Memory) (initial : Table) (state : RunTables) (machine : MachineState) :
    Prop where
  pc_eq : state.pc = machine.location
  row_eq : state.tables.globalRtTable.row mem = machine.table
  shadow_eq : state.tables.globalRtTableShadow.row mem = machine.remembered.getD initial
  saved_eq : state.savedRt = machine.remembered.map fun _ => .globalRtTableShadow

/-- What an operation must meet for its round to do what it is for: a rule without an offset
does not follow an expression, and a rule that is restored is the remembered one. -/
def Op.Kept (initial : Table) (machine : MachineState) : Op → Prop
  | setRule reg rule => rule.isPlain = true → (machine.table.rules reg).isExpression = false
  | restore reg => ∀ row ∈ machine.remembered, row.rules reg = initial.rules reg
  | _ => True

section

variable {initial : Table} {state : RunTables} {machine : MachineState}

/-- The row is the only thing that a round stores. -/
theorem Follows.store (follows : Follows mem initial state machine) {rt : Regtable} {row : Table}
    {kept : Prop} (row_iff : rt.row mem = row ↔ kept) :
    (rt.row mem = row ↔ kept) ∧
      (kept → Follows mem initial
        { state with tables := { state.tables with globalRtTable := rt } }
        { machine with table := row }) := by
  refine ⟨row_iff, fun is_kept => ?_⟩
  exact ⟨follows.pc_eq, row_iff.mpr is_kept, follows.shadow_eq, follows.saved_eq⟩

theorem Follows.rule_eq (follows : Follows mem initial state machine)
    (reg : Fin dwFrameLastRegNum) :
    (state.tables.globalRtTable.rt3Rules reg).rule mem = machine.table.rules reg :=
  congrArg (fun row => row.rules reg) follows.row_eq

theorem Follows.cfa_eq (follows : Follows mem initial state machine) :
    state.tables.globalRtTable.rt3CfaRule.cfaRule mem = machine.table.cfa :=
  congrArg Table.cfa follows.row_eq

/-- The rule that is reinstated is the remembered one, if there is one. -/
theorem Follows.restored_iff (follows : Follows mem initial state machine)
    (reg : Fin dwFrameLastRegNum) :
    (state.tables.globalRtTableShadow.rt3Rules reg).rule mem = initial.rules reg ↔
      ∀ row ∈ machine.remembered, row.rules reg = initial.rules reg := by
  have shadow_eq : (state.tables.globalRtTableShadow.rt3Rules reg).rule mem =
      (machine.remembered.getD initial).rules reg :=
    congrArg (fun row => row.rules reg) follows.shadow_eq
  rw [shadow_eq]
  cases machine.remembered with
  | none => exact ⟨fun _ _ member => absurd member (Option.not_mem_none _), fun _ => rfl⟩
  | some row =>
      refine ⟨fun same other member => ?_, fun same => same row rfl⟩
      rw [← Option.some.inj member]
      exact same

theorem Follows.setRule_row (follows : Follows mem initial state machine)
    (reg : Fin dwFrameLastRegNum) (entry : RegEntry) :
    (state.setRule reg entry).tables.globalRtTable.row mem =
      machine.table.setRule reg (entry.rule mem) := by
  rw [← follows.row_eq]
  exact updateRule_row _ reg entry

theorem Follows.setCfa_row (follows : Follows mem initial state machine) (entry : RegEntry) :
    (state.setCfa entry).tables.globalRtTable.row mem =
      { machine.table with cfa := entry.cfaRule mem } := by
  rw [← follows.row_eq]
  rfl

/-- A round against a step, wherever the interpreter does not leave the program. -/
theorem Follows.round {op : Op} (follows : Follows mem initial state machine) {p : Nat}
    (placed : op.Placed mem p) (valid : op.Valid machine)
    (ready : op = .restoreState → machine.remembered.isSome = true)
    (stays : ∀ location, op ≠ .setLoc location) (dbgFrameCfaValue caf pcReq : Nat) :
    (op.round dbgFrameCfaValue caf pcReq p state = none ∧
        op.step caf pcReq initial machine = none ∧ op.Kept initial machine) ∨
      ∃ next after, op.round dbgFrameCfaValue caf pcReq p state = some next ∧
        op.step caf pcReq initial machine = some after ∧
        (next.tables.globalRtTable.row mem = after.table ↔ op.Kept initial machine) ∧
        (op.Kept initial machine → Follows mem initial next after) := by
  cases op with
  | nop =>
      refine .inr ⟨_, _, rfl, rfl, ⟨fun _ => trivial, fun _ => follows.row_eq⟩, fun _ => follows⟩
  | setLoc location => exact absurd rfl (stays location)
  | advance delta =>
      rw [Op.round, Op.step, follows.pc_eq]
      split
      · exact .inl ⟨rfl, rfl, trivial⟩
      · refine .inr ⟨_, _, rfl, rfl, ⟨fun _ => trivial, fun _ => follows.row_eq⟩, fun _ => ?_⟩
        exact ⟨rfl, follows.row_eq, follows.shadow_eq, follows.saved_eq⟩
  | setRule reg rule =>
      refine .inr ⟨_, _, rfl, rfl, follows.store ?_⟩
      rw [Op.Kept, ← follows.rule_eq reg]
      exact Iff.trans (by rw [follows.setRule_row]; exact setRule_inj)
        (storeRule_rule_iff placed dbgFrameCfaValue _)
  | restore reg =>
      refine .inr ⟨_, _, rfl, rfl, follows.store ?_⟩
      exact Iff.trans (by rw [follows.setRule_row]; exact setRule_inj) (follows.restored_iff reg)
  | rememberState =>
      refine .inr ⟨_, _, rfl, rfl, ⟨fun _ => trivial, fun _ => follows.row_eq⟩, fun _ => ?_⟩
      exact ⟨follows.pc_eq, follows.row_eq, follows.row_eq, rfl⟩
  | restoreState =>
      obtain ⟨row, remembered⟩ := Option.isSome_iff_exists.mp (ready rfl)
      refine .inr ⟨_, _, rfl, rfl, follows.store ⟨fun _ => trivial, fun _ => ?_⟩⟩
      rw [follows.shadow_eq, remembered]
      rfl
  | setCfa rule =>
      refine .inr ⟨_, _, rfl, rfl, follows.store ⟨fun _ => trivial, fun _ => ?_⟩⟩
      rw [follows.setCfa_row, storeCfaRule_cfaRule placed]
  | setCfaRegister reg =>
      refine .inr ⟨_, _, rfl, rfl, follows.store ⟨fun _ => trivial, fun _ => ?_⟩⟩
      rw [follows.setCfa_row, setRegister_cfaRule placed, follows.cfa_eq]
  | setCfaOffset off =>
      have rule_valid : (state.tables.globalRtTable.rt3CfaRule.cfaRule mem).isExpression = false :=
        follows.cfa_eq ▸ valid
      refine .inr ⟨_, _, rfl, rfl, follows.store ⟨fun _ => trivial, fun _ => ?_⟩⟩
      rw [follows.setCfa_row, setOffset_cfaRule rule_valid, follows.cfa_eq]

end

end

end Jos64.Frame
