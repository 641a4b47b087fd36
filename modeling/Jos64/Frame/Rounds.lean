import Jos64.Frame.Run
import Jos64.Lineno.Run

/-!
# Rounds of the interpreter

A round does to the tables what the instruction is for, with two differences to the
standard's machine: the rows of the beginning and of `DW_CFA_remember_state` are the same,
and the program is left at `DW_CFA_set_loc`.
-/

namespace Jos64.Frame

open Loop Dwarf Leb
open Lineno (decodeUleb128 decodeSleb128 dbgDecode)

/-! ## What is stored -/

/-- The entry of a rule, with the address behind the instruction. -/
def RegEntry.storeRule (dbgFrameCfaValue p : Nat) (entry : RegEntry) : Rule → RegEntry
  | .undefined => entry.storeRegnum dwFrameUndefinedVal
  | .sameValue => entry.storeRegnum dwFrameSameVal
  | .register reg => entry.storeRegnum (reg % 2 ^ 16)
  | .offset off => entry.storeOffset dwExprOffset dbgFrameCfaValue off
  | .valOffset off => entry.storeOffset dwExprValOffset dbgFrameCfaValue off
  | .expression block => entry.storeBlock dwExprExpression block.length (p - block.length)
  | .valExpression block => entry.storeBlock dwExprValExpression block.length (p - block.length)

def RegEntry.storeCfaRule (p : Nat) (entry : RegEntry) : CfaRule → RegEntry
  | .offset reg off => entry.storeOffset dwExprOffset (reg % 2 ^ 16) off
  | .expression block => entry.storeBlock dwExprExpression block.length (p - block.length)

namespace RunTables

variable (state : RunTables)

def setRule (reg : Fin dwFrameLastRegNum) (entry : RegEntry) : RunTables :=
  { state with tables := { state.tables with
      globalRtTable := state.tables.globalRtTable.updateRule reg entry } }

def setCfa (entry : RegEntry) : RunTables :=
  { state with tables := { state.tables with
      globalRtTable := { state.tables.globalRtTable with rt3CfaRule := entry } } }

end RunTables

/-- What a round does to the tables.  It may end the program. -/
def Op.round (dbgFrameCfaValue caf pcReq p : Nat) (state : RunTables) : Op → Option RunTables
  | nop => some state
  | setLoc _ => none
  | advance delta =>
      let pc := u64 (state.pc + delta * caf)
      if pcReq < pc then none else some { state with pc }
  | setRule reg rule =>
      let entry := state.tables.globalRtTable.rt3Rules reg
      some (state.setRule reg (entry.storeRule dbgFrameCfaValue p rule))
  | restore reg => some (state.setRule reg (state.tables.globalRtTableShadow.rt3Rules reg))
  | rememberState =>
      some { state with
        savedRt := some .globalRtTableShadow
        tables := { state.tables with globalRtTableShadow := state.tables.globalRtTable } }
  | restoreState =>
      some { state with
        tables := { state.tables with globalRtTable := state.tables.globalRtTableShadow } }
  | setCfa rule => some (state.setCfa (state.tables.globalRtTable.rt3CfaRule.storeCfaRule p rule))
  | setCfaRegister reg =>
      some (state.setCfa { state.tables.globalRtTable.rt3CfaRule with dwRegnum := reg % 2 ^ 16 })
  | setCfaOffset off =>
      let entry := state.tables.globalRtTable.rt3CfaRule
      some (state.setCfa (entry.storeOffset dwExprOffset entry.dwRegnum off))

/-! ## Rounds -/

/-- The round ends so, up to the row that is reported. -/
def Goes (p : Nat) (tables : Regtables) (round : Exec (Next RunState RunResult)) :
    Option RunTables → Prop
  | none => ∃ rowPc, round = .done (.stop ⟨dleNone, rowPc, tables⟩)
  | some next => ∃ rowPc, round = .done (.again ⟨next, p, rowPc⟩)

/-- The location of `DW_CFA_set_loc` has the size of an address. -/
def Instr.Fits (dbgPointerSize : Nat) : Instr → Prop
  | setLoc location => location < 256 ^ dbgPointerSize
  | _ => True

/-- What the interpreter makes of the signed operands. -/
def readSigned (n : Sleb) : Int :=
  n.decoded

section

variable {dbg : RunDebug} {caf : Nat} {daf : Int} {pcReq pe p : Nat} {state : RunState}

theorem decode_operand {n : Operand} (held : dbg.mem.Holds p n.bytes) :
    decodeUleb128 dbg.mem p = .done (n.value, p + n.bytes.length) :=
  Lineno.decodeUleb128_eq n.valid n.small held

theorem decode_signed {n : SignedOperand} (held : dbg.mem.Holds p n.bytes) :
    decodeSleb128 dbg.mem p = .done (n.decoded, p + n.bytes.length) :=
  Lineno.decodeSleb128_bits n.valid.ended held

theorem checkTableSize_register (state : RunState) (reg : Register)
    (next : Fin dwFrameLastRegNum → Exec (Next RunState RunResult)) :
    state.checkTableSize reg.value next = next reg.number :=
  dif_pos reg.inside

theorem checkTableSize_low (state : RunState) (reg : Fin 64)
    (next : Fin dwFrameLastRegNum → Exec (Next RunState RunResult)) :
    state.checkTableSize reg next = next (lowRegister reg) :=
  dif_pos (lowRegister reg).isLt

/-- An opcode in the upper two bits. -/
theorem frameRunBody_high {initRt : RegtablePtr} {opcode high2 : Byte} {low : Fin 64}
    (inside : state.p < pe) (mapped : dbg.mem.byte state.p = some opcode)
    (high_eq : opcode &&& 0xc0 = high2) (low_eq : opcode &&& 0x3f = BitVec.ofNat 8 low)
    (nonzero : high2 ≠ 0) :
    frameRunBody dbg caf daf pcReq initRt pe state =
      frameRunHigh dbg caf daf pcReq initRt high2 (BitVec.ofNat 8 low) state (state.p + 1) := by
  have bound := (Memory.lt_top mapped).trans dbg.mem.top_lt
  have opcode_nonzero : opcode ≠ 0 := by
    rintro rfl
    exact nonzero high_eq.symm
  rw [frameRunBody, if_pos inside, mapped, Exec.ofOption_some, Exec.done_bind]
  dsimp only
  rw [if_neg opcode_nonzero, high_eq, low_eq, if_pos nonzero, u64_of_lt (by omega)]

/-- An opcode in the lower six bits. -/
theorem frameRunBody_low {initRt : RegtablePtr} (opcode : Byte) (inside : state.p < pe)
    (mapped : dbg.mem.byte state.p = some opcode) (nonzero : opcode ≠ 0)
    (high_zero : opcode &&& 0xc0 = 0) :
    frameRunBody dbg caf daf pcReq initRt pe state =
      frameRunLow dbg caf daf pcReq initRt (opcode &&& 0x3f) state (state.p + 1) := by
  have bound := (Memory.lt_top mapped).trans dbg.mem.top_lt
  rw [frameRunBody, if_pos inside, mapped, Exec.ofOption_some, Exec.done_bind]
  dsimp only
  rw [if_neg nonzero, high_zero, if_neg (not_not.mpr rfl), u64_of_lt (by omega)]

theorem frameRegtableCopy_saved {tables : Regtables} {dest : Option RegtablePtr}
    (saved : dest.getD .globalRtTableShadow = .globalRtTableShadow) :
    frameRegtableCopy tables dest (some .globalRtTable) =
      some (.globalRtTableShadow,
        { tables with globalRtTableShadow := tables.globalRtTable }) := by
  rw [frameRegtableCopy, Option.map_some, saved]
  rfl

theorem advance_goes (state : RunState) (p delta : Nat) :
    Goes p state.tables (state.advance caf pcReq p delta)
      ((Op.advance delta).round dbg.dbgFrameCfaValue caf pcReq p state.toRunTables) := by
  unfold RunState.advance Op.round
  dsimp only
  split
  · exact ⟨state.rowPc, rfl⟩
  · exact ⟨state.rowPc, rfl⟩

theorem advanceLoc_byte (delta : Fin 64) :
    BitVec.ofNat 8 (0x40 + delta) &&& 0xc0 = 0x40 ∧
      BitVec.ofNat 8 (0x40 + delta) &&& 0x3f = BitVec.ofNat 8 delta := by
  revert delta
  decide

theorem offset_byte (reg : Fin 64) :
    BitVec.ofNat 8 (0x80 + reg) &&& 0xc0 = 0x80 ∧
      BitVec.ofNat 8 (0x80 + reg) &&& 0x3f = BitVec.ofNat 8 reg := by
  revert reg
  decide

theorem restore_byte (reg : Fin 64) :
    BitVec.ofNat 8 (0xc0 + reg) &&& 0xc0 = 0xc0 ∧
      BitVec.ofNat 8 (0xc0 + reg) &&& 0x3f = BitVec.ofNat 8 reg := by
  revert reg
  decide

theorem low_toNat (low : Fin 64) : (BitVec.ofNat 8 low.val).toNat = low := by
  rw [BitVec.toNat_ofNat]
  omega

theorem pointer_isWidth {size : Nat} (known : size = 4 ∨ size = 8) : IsWidth size := by
  rcases known with rfl | rfl
  · decide
  · decide

/-- The forms of `DW_CFA_advance_loc` with a delta behind the opcode. -/
theorem decodeAdvance_goes {width delta : Nat} (known : IsWidth width)
    (small : delta < 256 ^ width) (held : dbg.mem.Holds p (dbg.order.bytes width delta)) :
    Goes (p + (dbg.order.bytes width delta).length) state.tables
      ((dbgDecode dbg.order dbg.mem p width).bind fun (delta, p) =>
        state.advance caf pcReq p delta)
      ((Op.advance delta).round dbg.dbgFrameCfaValue caf pcReq
        (p + (dbg.order.bytes width delta).length) state.toRunTables) := by
  rw [Lineno.dbgDecode_eq known small held, Exec.done_bind, dbg.order.bytes_length]
  exact advance_goes state _ _

/-- The cursor behind the length of an expression, and behind the expression. -/
theorem decode_block {block : Block} (held : dbg.mem.Holds p block.encoded) :
    ∃ blockPtr, decodeUleb128 dbg.mem p = .done (block.content.length, blockPtr) ∧
      u64 (blockPtr + block.content.length) = p + block.encoded.length ∧
      blockPtr = p + block.encoded.length - block.content.length := by
  have content_length : block.content.length = block.bytes.length := List.length_map _
  have encoded_length : block.encoded.length = block.length.bytes.length + block.bytes.length :=
    List.length_append
  have positive := block.length.length_pos
  have bound := Lineno.end_lt held (List.ne_nil_of_length_pos (by omega))
  have read : decodeUleb128 dbg.mem p = _ := decode_operand (Memory.holds_append.mp held).1
  rw [block.length_eq] at read
  refine ⟨_, by rw [content_length, read], ?_, by omega⟩
  rw [u64_of_lt (by omega)]
  omega

/-! ### Rounds that store a rule

The rule is given by an operand behind the register, if it has one. -/

theorem registerRule_goes (row : RunState) {reg : Register}
    (entry : Fin dwFrameLastRegNum → RegEntry) (held : dbg.mem.Holds p reg.bytes) :
    Goes (p + reg.bytes.length) row.tables
      ((decodeUleb128 dbg.mem p).bind fun (reg, p) =>
        row.checkTableSize reg fun reg => row.setRule p reg (entry reg))
      (some (row.toRunTables.setRule reg.number (entry reg.number))) := by
  rw [decode_operand held, Exec.done_bind]
  dsimp only
  rw [checkTableSize_register]
  exact ⟨row.rowPc, rfl⟩

theorem unsignedRule_goes (row : RunState) {reg : Register} {n : Operand}
    (entry : Fin dwFrameLastRegNum → Nat → RegEntry)
    (held : dbg.mem.Holds p (reg.bytes ++ n.bytes)) :
    Goes (p + (reg.bytes ++ n.bytes).length) row.tables
      ((decodeUleb128 dbg.mem p).bind fun (reg, p) =>
        (decodeUleb128 dbg.mem p).bind fun (n, p) =>
          row.checkTableSize reg fun reg => row.setRule p reg (entry reg n))
      (some (row.toRunTables.setRule reg.number (entry reg.number n.value))) := by
  obtain ⟨reg_held, held⟩ := Memory.holds_append.mp held
  rw [decode_operand reg_held, Exec.done_bind]
  dsimp only
  rw [decode_operand held, Exec.done_bind, List.length_append, ← Nat.add_assoc]
  dsimp only
  rw [checkTableSize_register]
  exact ⟨row.rowPc, rfl⟩

theorem signedRule_goes (row : RunState) {reg : Register} {n : SignedOperand}
    (entry : Fin dwFrameLastRegNum → Nat → RegEntry)
    (held : dbg.mem.Holds p (reg.bytes ++ n.bytes)) :
    Goes (p + (reg.bytes ++ n.bytes).length) row.tables
      ((decodeUleb128 dbg.mem p).bind fun (reg, p) =>
        (decodeSleb128 dbg.mem p).bind fun (n, p) =>
          row.checkTableSize reg fun reg => row.setRule p reg (entry reg n))
      (some (row.toRunTables.setRule reg.number (entry reg.number n.decoded))) := by
  obtain ⟨reg_held, held⟩ := Memory.holds_append.mp held
  rw [decode_operand reg_held, Exec.done_bind]
  dsimp only
  rw [decode_signed held, Exec.done_bind, List.length_append, ← Nat.add_assoc]
  dsimp only
  rw [checkTableSize_register]
  exact ⟨row.rowPc, rfl⟩

theorem blockRule_goes (row : RunState) {reg : Register} {block : Block}
    (entry : Fin dwFrameLastRegNum → Nat → Nat → RegEntry)
    (held : dbg.mem.Holds p (reg.bytes ++ block.encoded)) :
    Goes (p + (reg.bytes ++ block.encoded).length) row.tables
      ((decodeUleb128 dbg.mem p).bind fun (reg, p) =>
        row.checkTableSize reg fun reg =>
          (decodeUleb128 dbg.mem p).bind fun (length, p) =>
            row.setRule (u64 (p + length)) reg (entry reg length p))
      (some (row.toRunTables.setRule reg.number (entry reg.number block.content.length
        (p + (reg.bytes ++ block.encoded).length - block.content.length)))) := by
  obtain ⟨reg_held, held⟩ := Memory.holds_append.mp held
  obtain ⟨blockPtr, read, next_eq, ptr_eq⟩ := decode_block held
  rw [decode_operand reg_held, Exec.done_bind]
  dsimp only
  rw [checkTableSize_register, read, Exec.done_bind]
  dsimp only
  rw [next_eq, ptr_eq, List.length_append, ← Nat.add_assoc]
  exact ⟨row.rowPc, rfl⟩

/-! ### Rounds that store the rule for the frame address -/

theorem unsignedCfa_goes (row : RunState) {n : Operand} (entry : Nat → RegEntry)
    (held : dbg.mem.Holds p n.bytes) :
    Goes (p + n.bytes.length) row.tables
      ((decodeUleb128 dbg.mem p).bind fun (n, p) => row.setCfa p (entry n))
      (some (row.toRunTables.setCfa (entry n.value))) := by
  rw [decode_operand held, Exec.done_bind]
  exact ⟨row.rowPc, rfl⟩

theorem signedCfa_goes (row : RunState) {n : SignedOperand} (entry : Nat → RegEntry)
    (held : dbg.mem.Holds p n.bytes) :
    Goes (p + n.bytes.length) row.tables
      ((decodeSleb128 dbg.mem p).bind fun (n, p) => row.setCfa p (entry n))
      (some (row.toRunTables.setCfa (entry n.decoded))) := by
  rw [decode_signed held, Exec.done_bind]
  exact ⟨row.rowPc, rfl⟩

theorem registerUnsignedCfa_goes (row : RunState) {reg : Register} {n : Operand}
    (entry : Nat → Nat → RegEntry) (held : dbg.mem.Holds p (reg.bytes ++ n.bytes)) :
    Goes (p + (reg.bytes ++ n.bytes).length) row.tables
      ((decodeUleb128 dbg.mem p).bind fun (reg, p) =>
        (decodeUleb128 dbg.mem p).bind fun (n, p) => row.setCfa p (entry reg n))
      (some (row.toRunTables.setCfa (entry reg.value n.value))) := by
  obtain ⟨reg_held, held⟩ := Memory.holds_append.mp held
  rw [decode_operand reg_held, Exec.done_bind, List.length_append, ← Nat.add_assoc]
  exact unsignedCfa_goes row (entry reg.value) held

theorem registerSignedCfa_goes (row : RunState) {reg : Register} {n : SignedOperand}
    (entry : Nat → Nat → RegEntry) (held : dbg.mem.Holds p (reg.bytes ++ n.bytes)) :
    Goes (p + (reg.bytes ++ n.bytes).length) row.tables
      ((decodeUleb128 dbg.mem p).bind fun (reg, p) =>
        (decodeSleb128 dbg.mem p).bind fun (n, p) => row.setCfa p (entry reg n))
      (some (row.toRunTables.setCfa (entry reg.value n.decoded))) := by
  obtain ⟨reg_held, held⟩ := Memory.holds_append.mp held
  rw [decode_operand reg_held, Exec.done_bind, List.length_append, ← Nat.add_assoc]
  exact signedCfa_goes row (entry reg.value) held

theorem blockCfa_goes (row : RunState) {block : Block} (entry : Nat → Nat → RegEntry)
    (held : dbg.mem.Holds p block.encoded) :
    Goes (p + block.encoded.length) row.tables
      ((decodeUleb128 dbg.mem p).bind fun (length, p) =>
        row.setCfa (u64 (p + length)) (entry length p))
      (some (row.toRunTables.setCfa (entry block.content.length
        (p + block.encoded.length - block.content.length)))) := by
  obtain ⟨blockPtr, read, next_eq, ptr_eq⟩ := decode_block held
  rw [read, Exec.done_bind]
  dsimp only
  rw [next_eq, ptr_eq]
  exact ⟨row.rowPc, rfl⟩

variable (caf daf pcReq) in
/-- A round at an instruction. -/
theorem frameRunBody_goes {i : Instr} (fits : i.Fits dbg.dbgPointerSize) (inside : state.p < pe)
    (held : dbg.mem.Holds state.p (i.bytes dbg.order dbg.dbgPointerSize))
    (saved : state.savedRt.getD .globalRtTableShadow = .globalRtTableShadow)
    (ready : i = .restoreState → state.savedRt = some .globalRtTableShadow) :
    Goes (state.p + (i.bytes dbg.order dbg.dbgPointerSize).length) state.tables
      (frameRunBody dbg caf daf pcReq .globalRtTableShadow pe state)
      ((i.op daf readSigned).round dbg.dbgFrameCfaValue caf pcReq
        (state.p + (i.bytes dbg.order dbg.dbgPointerSize).length) state.toRunTables) := by
  obtain ⟨mapped, held⟩ := Memory.holds_cons.mp held
  have position : state.p + (i.bytes dbg.order dbg.dbgPointerSize).length =
      state.p + 1 + (i.operands dbg.order dbg.dbgPointerSize).length := by
    rw [Instr.bytes, List.length_cons]
    omega
  rw [position]
  clear position
  cases i with
  | nop =>
      have bound := (Memory.lt_top mapped).trans dbg.mem.top_lt
      rw [frameRunBody, if_pos inside, mapped, Exec.ofOption_some, Exec.done_bind]
      dsimp only
      rw [if_pos (show Instr.nop.opcode = 0 from rfl), u64_of_lt (by omega)]
      exact ⟨state.rowPc, rfl⟩
  | advanceLoc delta =>
      obtain ⟨high_eq, low_eq⟩ := advanceLoc_byte delta
      rw [frameRunBody_high inside mapped high_eq low_eq (by decide)]
      change Goes _ _ (state.advance caf pcReq (state.p + 1) (BitVec.ofNat 8 delta.val).toNat) _
      rw [low_toNat]
      exact advance_goes state _ _
  | offset reg off =>
      obtain ⟨high_eq, low_eq⟩ := offset_byte reg
      rw [frameRunBody_high inside mapped high_eq low_eq (by decide)]
      simp only [frameRunHigh, BitVec.reduceToNat]
      rw [low_toNat, checkTableSize_low, decode_operand held, Exec.done_bind]
      exact ⟨state.pc, rfl⟩
  | restore reg =>
      obtain ⟨high_eq, low_eq⟩ := restore_byte reg
      rw [frameRunBody_high inside mapped high_eq low_eq (by decide)]
      simp only [frameRunHigh, BitVec.reduceToNat]
      rw [low_toNat, checkTableSize_low]
      exact ⟨state.pc, rfl⟩
  | setLoc location =>
      have read := Lineno.dbgDecode_eq (pointer_isWidth dbg.pointer_known) fits held
      rw [frameRunBody_low 0x01 inside mapped (by decide) (by decide)]
      change Goes _ _ ((dbgDecode _ _ (state.p + 1) _).bind _) _
      rw [read, Exec.done_bind]
      exact ⟨state.rowPc, rfl⟩
  | advanceLoc1 delta =>
      rw [frameRunBody_low 0x02 inside mapped (by decide) (by decide)]
      exact decodeAdvance_goes (by decide) delta.isLt held
  | advanceLoc2 delta =>
      rw [frameRunBody_low 0x03 inside mapped (by decide) (by decide)]
      exact decodeAdvance_goes (by decide) delta.isLt held
  | advanceLoc4 delta =>
      rw [frameRunBody_low 0x04 inside mapped (by decide) (by decide)]
      exact decodeAdvance_goes (by decide) delta.isLt held
  | offsetExtended reg off =>
      rw [frameRunBody_low 0x05 inside mapped (by decide) (by decide)]
      exact unsignedRule_goes { state with rowPc := state.pc }
        (fun reg n => (state.rule reg).storeOffset dwExprOffset dbg.dbgFrameCfaValue
          (factored n daf)) held
  | restoreExtended reg =>
      rw [frameRunBody_low 0x06 inside mapped (by decide) (by decide)]
      exact registerRule_goes { state with rowPc := state.pc }
        (fun reg => state.tables.globalRtTableShadow.rt3Rules reg) held
  | undefined reg =>
      rw [frameRunBody_low 0x07 inside mapped (by decide) (by decide)]
      exact registerRule_goes { state with rowPc := state.pc }
        (fun reg => (state.rule reg).storeRegnum dwFrameUndefinedVal) held
  | sameValue reg =>
      rw [frameRunBody_low 0x08 inside mapped (by decide) (by decide)]
      exact registerRule_goes state (fun reg => (state.rule reg).storeRegnum dwFrameSameVal) held
  | register reg source =>
      rw [frameRunBody_low 0x09 inside mapped (by decide) (by decide)]
      exact unsignedRule_goes { state with rowPc := state.pc }
        (fun reg n => (state.rule reg).storeRegnum (n % 2 ^ 16)) held
  | rememberState =>
      rw [frameRunBody_low 0x0a inside mapped (by decide) (by decide)]
      simp only [frameRunLow, BitVec.reduceAnd, BitVec.reduceToNat]
      rw [frameRegtableCopy_saved saved, Exec.ofOption_some, Exec.done_bind]
      exact ⟨state.rowPc, rfl⟩
  | restoreState =>
      rw [frameRunBody_low 0x0b inside mapped (by decide) (by decide)]
      obtain ⟨⟨pc, savedRt, tables⟩, p, rowPc⟩ := state
      obtain rfl : savedRt = some .globalRtTableShadow := ready rfl
      exact ⟨pc, rfl⟩
  | defCfa reg off =>
      rw [frameRunBody_low 0x0c inside mapped (by decide) (by decide)]
      exact registerUnsignedCfa_goes { state with rowPc := state.pc }
        (fun reg n => state.cfa.storeOffset dwExprOffset (reg % 2 ^ 16) n) held
  | defCfaRegister reg =>
      rw [frameRunBody_low 0x0d inside mapped (by decide) (by decide)]
      exact unsignedCfa_goes { state with rowPc := state.pc }
        (fun reg => { state.cfa with dwRegnum := reg % 2 ^ 16 }) held
  | defCfaOffset off =>
      rw [frameRunBody_low 0x0e inside mapped (by decide) (by decide)]
      exact unsignedCfa_goes { state with rowPc := state.pc }
        (fun n => state.cfa.storeOffset dwExprOffset state.cfa.dwRegnum n) held
  | defCfaExpression block =>
      rw [frameRunBody_low 0x0f inside mapped (by decide) (by decide)]
      exact blockCfa_goes { state with rowPc := state.pc }
        (state.cfa.storeBlock dwExprExpression) held
  | expression reg block =>
      rw [frameRunBody_low 0x10 inside mapped (by decide) (by decide)]
      exact blockRule_goes { state with rowPc := state.pc }
        (fun reg => (state.rule reg).storeBlock dwExprExpression) held
  | offsetExtendedSf reg off =>
      rw [frameRunBody_low 0x11 inside mapped (by decide) (by decide)]
      exact signedRule_goes { state with rowPc := state.pc }
        (fun reg n => (state.rule reg).storeOffset dwExprOffset dbg.dbgFrameCfaValue
          (factored n daf)) held
  | defCfaSf reg off =>
      rw [frameRunBody_low 0x12 inside mapped (by decide) (by decide)]
      exact registerSignedCfa_goes { state with rowPc := state.pc }
        (fun reg n => state.cfa.storeOffset dwExprOffset (reg % 2 ^ 16) (factored n daf)) held
  | defCfaOffsetSf off =>
      rw [frameRunBody_low 0x13 inside mapped (by decide) (by decide)]
      exact signedCfa_goes { state with rowPc := state.pc }
        (fun n => state.cfa.storeOffset dwExprOffset state.cfa.dwRegnum (factored n daf)) held
  | valOffset reg off =>
      rw [frameRunBody_low 0x14 inside mapped (by decide) (by decide)]
      exact unsignedRule_goes { state with rowPc := state.pc }
        (fun reg n => (state.rule reg).storeOffset dwExprValOffset dbg.dbgFrameCfaValue
          (factored n daf)) held
  | valOffsetSf reg off =>
      rw [frameRunBody_low 0x15 inside mapped (by decide) (by decide)]
      exact signedRule_goes { state with rowPc := state.pc }
        (fun reg n => (state.rule reg).storeOffset dwExprValOffset dbg.dbgFrameCfaValue
          (factored n daf)) held
  | valExpression reg block =>
      rw [frameRunBody_low 0x16 inside mapped (by decide) (by decide)]
      exact blockRule_goes { state with rowPc := state.pc }
        (fun reg => (state.rule reg).storeBlock dwExprValExpression) held

end

end Jos64.Frame
