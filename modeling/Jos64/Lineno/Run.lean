import Jos64.Lineno.Program
import Jos64.Scan.Core

/-!
# Running a line number program

The interpreter executes the instructions as the standard's machine does, until a
row is beyond the address.  What it leaves is the last row that a scan of the rows
reads.
-/

namespace Jos64.Lineno

open Loop Dwarf Leb

/-! ## Operands -/

section

variable {mem : Memory} {p : Nat} {bytes : List Byte}

theorem at_zero {q : Nat} (small : q < 2 ^ 64) : Section.at ⟨0, 0⟩ q = q := by
  rw [Section.at, Nat.zero_add, u64_of_lt small]

theorem end_lt (held : mem.Holds p bytes) (nonempty : bytes ≠ []) :
    p + bytes.length < 2 ^ 47 :=
  (held.le_top nonempty).trans_lt mem.top_lt

/-- What an unsigned operand is read as. -/
theorem decodeUleb128_bits (ended : Ended bytes) (held : mem.Holds p bytes) :
    decodeUleb128 mem p =
      .done (((lebBits 0 bytes).signExtend 64).toNat, p + bytes.length) := by
  have bound := end_lt held ended.ne_nil
  have at_eq : Section.at ⟨0, 0⟩ p = p := at_zero (by omega)
  rw [decodeUleb128, readUleb128_ended ended (at_eq.symm ▸ held), u64_of_lt (by omega),
    Exec.ofOption_some]

/-- An unsigned operand is read, whatever its value is. -/
theorem decodeUleb128_skips {value : Nat} (valid : Unsigned bytes value)
    (held : mem.Holds p bytes) :
    ∃ read, decodeUleb128 mem p = .done (read, p + bytes.length) ∧
      (value < 2 ^ 31 → read = value) := by
  refine ⟨_, decodeUleb128_bits valid.ended held, fun small => ?_⟩
  exact (unsigned_read_iff valid (by omega)).mpr (Or.inl small)

theorem decodeUleb128_eq {value : Nat} (valid : Unsigned bytes value) (small : value < 2 ^ 28)
    (held : mem.Holds p bytes) :
    decodeUleb128 mem p = .done (value, p + bytes.length) := by
  obtain ⟨read, read_eq, value_eq⟩ := decodeUleb128_skips valid held
  rw [read_eq, value_eq (by omega)]

/-- What a signed operand is read as. -/
theorem decodeSleb128_bits (ended : Ended bytes) (held : mem.Holds p bytes) :
    decodeSleb128 mem p =
      .done (((slebBits 0 bytes).signExtend 64).toNat, p + bytes.length) := by
  have bound := end_lt held ended.ne_nil
  have at_eq : Section.at ⟨0, 0⟩ p = p := at_zero (by omega)
  rw [decodeSleb128, readSleb128_eq ended (at_eq.symm ▸ held), u64_of_lt (by omega),
    Exec.ofOption_some]

theorem dbgDecode_eq {order : Endianness} {width value : Nat} (known : IsWidth width)
    (small : value < 256 ^ width) (held : mem.Holds p (order.bytes width value)) :
    dbgDecode order mem p width = .done (value, p + width) := by
  have length_eq := order.bytes_length width value
  have nonempty : order.bytes width value ≠ [] := by
    intro empty
    rw [empty, List.length_nil] at length_eq
    rw [← length_eq] at known
    exact absurd known (by decide)
  have bound := end_lt held nonempty
  rw [length_eq] at bound
  have at_eq : Section.at ⟨0, 0⟩ p = p := at_zero (by omega)
  rw [dbgDecode, dbgRead_eq known small (at_eq.symm ▸ held), u64_of_lt (by omega),
    Exec.ofOption_some]

theorem u64_add_ofInt (x : Nat) (delta : Int) :
    u64 (x + (BitVec.ofInt 64 delta).toNat) = addSigned x delta := by
  unfold u64 addSigned
  rw [BitVec.toNat_ofInt]
  omega

end

/-! ## Instructions -/

theorem Instr.bytes_ne_nil (order : Endianness) (li : LineInfo) (i : Instr) :
    i.bytes order li ≠ [] := by
  cases i with
  | _ => exact List.cons_ne_nil _ _

section

variable {order : Endianness} {mem : Memory} {li : LineInfo} {pe pc : Nat}

/-- How a round ends that gets to `p` with the registers, and with a row or
without. -/
def after (pc : Nat) (state : RunState) (p : Nat) : Registers × Option Line →
    Next RunState Result
  | (registers, none) => .again ⟨p, registers, state.liLine, state.liLnlen⟩
  | (registers, some row) =>
      if pc < row.lnAddr then .stop ⟨state.liLine, state.liLnlen⟩
      else .again ⟨p, registers, row, u64 (state.liLnlen + 1)⟩

theorem appendRow_eq (state : RunState) (p : Nat) (registers : Registers) :
    appendRow pc state p registers =
      .done (after pc state p ({ registers with basicBlock := 0 }, some registers.row)) := by
  unfold appendRow after Registers.row
  dsimp only
  split
  · rfl
  · rfl

/-- A round at a standard opcode. -/
theorem runBody_standard {state : RunState} {opcode : Byte} (inside : state.p < pe)
    (mapped : mem.byte state.p = some opcode) (nonzero : opcode ≠ 0)
    (below : opcode < li.liOpbase) :
    runBody order mem li pe pc state =
      standardOpcode order mem li pc opcode state (state.p + 1) := by
  have bound := (Memory.lt_top mapped).trans mem.top_lt
  rw [runBody, if_pos inside, mapped, Exec.ofOption_some, Exec.done_bind, if_neg nonzero,
    if_pos below, u64_of_lt (by omega)]

variable (order li pc) in
/-- A round at an extended opcode gets behind its length. -/
theorem runBody_extended {state : RunState} {length : Operand} {opcode : Byte}
    {operands : List Byte} (inside : state.p < pe)
    (held : mem.Holds state.p (0 :: length.bytes ++ opcode :: operands)) :
    ∃ opsize, (length.value < 2 ^ 31 → opsize = length.value) ∧
      runBody order mem li pe pc state =
        extendedSwitch order mem li state opsize (state.p + 1 + length.bytes.length) opcode := by
  have bound := end_lt held (List.cons_ne_nil _ _)
  rw [List.cons_append, List.length_cons, List.length_append, List.length_cons] at bound
  rw [List.cons_append] at held
  obtain ⟨mapped, held⟩ := Memory.holds_cons.mp held
  obtain ⟨length_held, held⟩ := Memory.holds_append.mp held
  obtain ⟨opcode_mapped, _⟩ := Memory.holds_cons.mp held
  obtain ⟨opsize, decoded, opsize_eq⟩ := decodeUleb128_skips length.valid length_held
  refine ⟨opsize, opsize_eq, ?_⟩
  rw [runBody, if_pos inside, mapped, Exec.ofOption_some, Exec.done_bind, if_pos rfl,
    extendedOpcode, u64_of_lt (by omega), decoded, Exec.done_bind]
  dsimp only
  rw [opcode_mapped, Exec.ofOption_some, Exec.done_bind]

/-- The numbers of a file are read where the length of its name leads to. -/
theorem linenoAddFile_name {p : Nat} {name : List Byte} (nonzero : ∀ c ∈ name, c ≠ 0)
    (held : mem.Holds p (name ++ [0])) :
    linenoAddFile mem p =
      (decodeUleb128 mem (addSigned p (wrap32 (name.length + 1)))).bind fun (_, src) =>
        (decodeUleb128 mem src).bind fun (_, src) =>
          (decodeUleb128 mem src).bind fun (_, src) => .done src := by
  have next_eq : wrap32 (wrap32 name.length + 1) = wrap32 (name.length + 1) :=
    Int.bmod_add_bmod
  rw [linenoAddFile, strlen_eq nonzero held, Exec.ofOption_some, Exec.done_bind, next_eq]

theorem addSigned_of_small {p count : Nat} (small : p + count < 2 ^ 64) (int : count < 2 ^ 31) :
    addSigned p (wrap32 count) = p + count := by
  rw [wrap32_of_range (by omega) (by omega), addSigned]
  omega

theorem linenoAddFile_eq {p : Nat} {name : CString} {dirIndex time size : Operand}
    (held : mem.Holds p
      ((name.bytes ++ [0]) ++ dirIndex.bytes ++ time.bytes ++ size.bytes))
    (short : name.bytes.length + 1 < 2 ^ 31) :
    linenoAddFile mem p =
      .done (p + (name.bytes.length + 1) + dirIndex.bytes.length + time.bytes.length +
        size.bytes.length) := by
  have bound := end_lt held (by simp)
  rw [List.length_append, List.length_append, List.length_append, List.length_append,
    List.length_singleton] at bound
  obtain ⟨held, size_held⟩ := Memory.holds_append.mp held
  obtain ⟨held, time_held⟩ := Memory.holds_append.mp held
  obtain ⟨name_held, dir_held⟩ := Memory.holds_append.mp held
  rw [List.length_append, List.length_append, List.length_append, List.length_singleton]
    at size_held
  rw [List.length_append, List.length_append, List.length_singleton] at time_held
  rw [List.length_append, List.length_singleton] at dir_held
  obtain ⟨_, dir_read, _⟩ := decodeUleb128_skips dirIndex.valid dir_held
  obtain ⟨_, time_read, _⟩ := decodeUleb128_skips time.valid (by rwa [← Nat.add_assoc] at time_held)
  obtain ⟨_, size_read, _⟩ := decodeUleb128_skips size.valid
    (by rwa [← Nat.add_assoc, ← Nat.add_assoc] at size_held)
  have behind_eq : addSigned p (wrap32 (name.bytes.length + 1)) =
      p + (name.bytes.length + 1) :=
    addSigned_of_small (show p + (name.bytes.length + 1) < 2 ^ 64 by omega) short
  rw [linenoAddFile_name name.nonzero name_held, behind_eq, dir_read, Exec.done_bind]
  dsimp only
  rw [time_read, Exec.done_bind]
  dsimp only
  rw [size_read, Exec.done_bind]

/-- An operand as the interpreter reads it. -/
def Operand.read (operand : Operand) : Nat :=
  ((lebBits 0 operand.bytes).signExtend 64).toNat

def SignedOperand.read (operand : SignedOperand) : Nat :=
  ((slebBits 0 operand.bytes).signExtend 64).toNat

section

variable (li : LineInfo) (registers : Registers)

/-- The opcode is the instruction's under the header, and the length of an extended
instruction is the one of its bytes, and fits in an `int`.  The operands are any
numbers. -/
def Instr.Encoded (i : Instr) : Prop :=
  (∀ opcode ∈ i.standardOpcode?, opcode < li.liOpbase) ∧
    match i with
    | fixedAdvancePc operand => operand < 2 ^ 16
    | special opcode => opcode ≠ 0 ∧ li.liOpbase ≤ opcode
    | setAddress length address =>
        length.value = 1 + li.addrSize ∧ IsWidth li.addrSize ∧ address < 256 ^ li.addrSize
    | defineFile length name dirIndex time size =>
        length.value = 1 + (name.bytes.length + 1) + dirIndex.bytes.length + time.bytes.length +
          size.bytes.length ∧ length.value < 2 ^ 31
    | unknown length opcode operands =>
        opcode ≠ 1 ∧ opcode ≠ 2 ∧ opcode ≠ 3 ∧ length.value = 1 + operands.length ∧
          length.value < 2 ^ 31
    | _ => True

/-- What the interpreter does at an instruction: as the standard's machine, but with
the operands as they are read, and with a fault where it divides by zero. -/
def Instr.effect (i : Instr) : Exec (Registers × Option Line) :=
  match i with
  | advancePc operand =>
      let address := u64 (registers.address + operand.read * li.liMinlen.toNat)
      .done ({ registers with address }, none)
  | advanceLine operand =>
      .done ({ registers with line := u64 (registers.line + operand.read) }, none)
  | setFile operand => .done ({ registers with file := operand.read }, none)
  | setColumn operand => .done ({ registers with column := operand.read }, none)
  | constAddPc | special _ => if li.liLrange = 0 then .fault else .done (i.exec li registers)
  | _ => .done (i.exec li registers)

end

theorem Instr.WellFormed.encoded {i : Instr} (wellFormed : i.WellFormed li) : i.Encoded li := by
  obtain ⟨standard, operands⟩ := wellFormed
  refine ⟨standard, ?_⟩
  cases i with
  | unknown length opcode operands' =>
      obtain ⟨ne_one, ne_two, ne_three, length_eq, small⟩ := operands
      exact ⟨ne_one, ne_two, ne_three, length_eq, by omega⟩
  | fixedAdvancePc operand => exact operands
  | special opcode => exact operands
  | setAddress length address => exact operands
  | defineFile length name dirIndex time size => exact ⟨operands.1, by omega⟩
  | _ => trivial

theorem Operand.read_eq {operand : Operand} (small : operand.value < 2 ^ 28) :
    operand.read = operand.value :=
  (unsigned_read_iff operand.valid (by omega)).mpr (Or.inl (by omega))

theorem SignedOperand.read_eq {operand : SignedOperand}
    (readsBack : ReadsSigned operand.bytes operand.value) :
    operand.read = (BitVec.ofInt 64 operand.value).toNat := by
  have low := readsBack.1
  exact congrArg BitVec.toNat
    ((signed_read_iff operand.valid (by omega) (by omega)).mpr readsBack)

/-- Operands that are read back are the only difference to the standard's machine. -/
theorem Instr.effect_eq {i : Instr} (wellFormed : i.WellFormed li) (readsBack : i.ReadsBack)
    (lrange : li.liLrange ≠ 0) (registers : Registers) :
    i.effect li registers = .done (i.exec li registers) := by
  have operands := wellFormed.2
  cases i with
  | advancePc operand =>
      unfold effect exec
      dsimp only
      rw [Operand.read_eq operands]
  | advanceLine operand =>
      unfold effect exec
      dsimp only
      rw [SignedOperand.read_eq readsBack, u64_add_ofInt]
  | setFile operand =>
      unfold effect exec
      dsimp only
      rw [Operand.read_eq operands]
  | setColumn operand =>
      unfold effect exec
      dsimp only
      rw [Operand.read_eq operands]
  | constAddPc => exact if_neg lrange
  | special opcode => exact if_neg lrange
  | _ => rfl

/-- A round at a standard opcode with an unsigned operand. -/
theorem runBody_unsigned {state : RunState} {opcode : Byte} {bytes : List Byte}
    {next : Nat × Nat → Exec (Next RunState Result)} (ended : Ended bytes) (inside : state.p < pe)
    (held : mem.Holds state.p (opcode :: bytes)) (nonzero : opcode ≠ 0)
    (below : opcode < li.liOpbase)
    (switch : standardOpcode order mem li pc opcode state (state.p + 1) =
      (decodeUleb128 mem (state.p + 1)).bind next) :
    runBody order mem li pe pc state =
      next (((lebBits 0 bytes).signExtend 64).toNat, state.p + (opcode :: bytes).length) := by
  obtain ⟨mapped, operand_held⟩ := Memory.holds_cons.mp held
  have read := decodeUleb128_bits ended operand_held
  rw [runBody_standard inside mapped nonzero below, switch, read, Exec.done_bind,
    List.length_cons, Nat.add_comm bytes.length, ← Nat.add_assoc]

variable (pe pc) in
/-- A round at an instruction, wherever it stands. -/
theorem runBody_effect {state : RunState} {i : Instr} (encoded : i.Encoded li)
    (inside : state.p < pe) (held : mem.Holds state.p (i.bytes order li)) :
    runBody order mem li pe pc state =
      (i.effect li state.registers).bind fun effect =>
        .done (after pc state (state.p + (i.bytes order li).length) effect) := by
  obtain ⟨standard, operands⟩ := encoded
  cases i with
  | copy =>
      have mapped := (Memory.holds_cons.mp held).1
      rw [runBody_standard inside mapped (by decide) (standard _ rfl)]
      exact appendRow_eq _ _ _
  | advancePc operand =>
      exact runBody_unsigned operand.valid.ended inside held (by decide) (standard _ rfl) rfl
  | advanceLine operand =>
      obtain ⟨mapped, operand_held⟩ := Memory.holds_cons.mp held
      have read := decodeSleb128_bits operand.valid.ended operand_held
      rw [runBody_standard inside mapped (by decide) (standard _ rfl), Instr.bytes,
        List.length_cons, Nat.add_comm operand.bytes.length, ← Nat.add_assoc]
      change (decodeSleb128 mem (state.p + 1)).bind _ = _
      rw [read, Exec.done_bind]
      rfl
  | setFile operand =>
      exact runBody_unsigned operand.valid.ended inside held (by decide) (standard _ rfl) rfl
  | setColumn operand =>
      exact runBody_unsigned operand.valid.ended inside held (by decide) (standard _ rfl) rfl
  | negateStmt =>
      have mapped := (Memory.holds_cons.mp held).1
      rw [runBody_standard inside mapped (by decide) (standard _ rfl)]
      rfl
  | setBasicBlock =>
      have mapped := (Memory.holds_cons.mp held).1
      rw [runBody_standard inside mapped (by decide) (standard _ rfl)]
      rfl
  | constAddPc =>
      have mapped := (Memory.holds_cons.mp held).1
      rw [runBody_standard inside mapped (by decide) (standard _ rfl)]
      change (if li.liLrange = 0 then _ else _) = Exec.bind (if li.liLrange = 0 then _ else _) _
      split
      · rfl
      · rfl
  | fixedAdvancePc operand =>
      obtain ⟨mapped, operand_held⟩ := Memory.holds_cons.mp held
      have read := dbgDecode_eq (by decide) operands operand_held
      rw [runBody_standard inside mapped (by decide) (standard _ rfl), Instr.bytes,
        List.length_cons, order.bytes_length]
      change (dbgDecode order mem (state.p + 1) 2).bind _ = _
      rw [read, Exec.done_bind]
      rfl
  | setPrologueEnd =>
      have mapped := (Memory.holds_cons.mp held).1
      rw [runBody_standard inside mapped (by decide) (standard _ rfl)]
      rfl
  | setEpilogueBegin =>
      have mapped := (Memory.holds_cons.mp held).1
      rw [runBody_standard inside mapped (by decide) (standard _ rfl)]
      rfl
  | setIsa operand =>
      exact runBody_unsigned operand.valid.ended inside held (by decide) (standard _ rfl) rfl
  | special opcode =>
      obtain ⟨nonzero, above⟩ := operands
      have mapped := (Memory.holds_cons.mp held).1
      have bound := (Memory.lt_top mapped).trans mem.top_lt
      have not_below : ¬ opcode < li.liOpbase := BitVec.not_lt.mpr above
      rw [runBody, if_pos inside, mapped, Exec.ofOption_some, Exec.done_bind, if_neg nonzero,
        if_neg not_below, specialOpcode, u64_of_lt (by omega)]
      change _ = Exec.bind (if li.liLrange = 0 then _ else _) _
      split
      · rfl
      · exact appendRow_eq _ _ _
  | setAddress length address =>
      obtain ⟨_, known, small⟩ := operands
      obtain ⟨_, _, run⟩ := runBody_extended order li pc inside held
      have address_held := (Memory.holds_cons.mp (Memory.holds_append.mp held).2).2
      rw [List.length_cons, Nat.add_comm length.bytes.length, ← Nat.add_assoc] at address_held
      have read := dbgDecode_eq known small address_held
      have bound := end_lt held (List.cons_ne_nil _ _)
      have position : state.p + 1 + length.bytes.length + 1 + li.addrSize =
          state.p + ((Instr.setAddress length address).bytes order li).length := by
        rw [Instr.bytes, List.length_append, List.length_cons, List.length_cons,
          order.bytes_length]
        omega
      rw [run]
      change (dbgDecode order mem (u64 _) _).bind _ = _
      rw [u64_of_lt (by omega), read, Exec.done_bind]
      dsimp only
      rw [position]
      rfl
  | defineFile length name dirIndex time size =>
      have bytes_eq : (Instr.defineFile length name dirIndex time size).bytes order li =
          0 :: length.bytes ++ 0x03 ::
            ((name.bytes ++ [0]) ++ dirIndex.bytes ++ time.bytes ++ size.bytes) := by
        simp only [Instr.bytes, List.append_assoc, List.cons_append]
      have bound := end_lt held (List.cons_ne_nil _ _)
      rw [bytes_eq] at held
      obtain ⟨_, _, run⟩ := runBody_extended order li pc inside held
      have file_held := (Memory.holds_cons.mp (Memory.holds_append.mp held).2).2
      rw [List.length_cons, Nat.add_comm length.bytes.length, ← Nat.add_assoc] at file_held
      have read := linenoAddFile_eq file_held (by omega)
      have position : state.p + 1 + length.bytes.length + 1 + (name.bytes.length + 1) +
            dirIndex.bytes.length + time.bytes.length + size.bytes.length =
          state.p +
            ((Instr.defineFile length name dirIndex time size).bytes order li).length := by
        simp only [Instr.bytes, List.length_append, List.length_cons, List.length_nil]
        omega
      rw [run]
      change (linenoAddFile mem (u64 _)).bind _ = _
      rw [u64_of_lt (by omega), read, Exec.done_bind, position]
      rfl
  | unknown length opcode operands' =>
      obtain ⟨ne_one, ne_two, ne_three, length_eq, small⟩ := operands
      obtain ⟨opsize, opsize_eq, run⟩ := runBody_extended order li pc inside held
      have bound := end_lt held (List.cons_ne_nil _ _)
      have position : state.p + 1 + length.bytes.length + opsize =
          state.p + ((Instr.unknown length opcode operands').bytes order li).length := by
        rw [opsize_eq (by omega), Instr.bytes, List.length_append, List.length_cons,
          List.length_cons]
        omega
      rw [run, extendedSwitch, position]
      split
      case h_1 one => exact absurd (BitVec.eq_of_toNat_eq one) ne_one
      case h_2 two => exact absurd (BitVec.eq_of_toNat_eq two) ne_two
      case h_3 three => exact absurd (BitVec.eq_of_toNat_eq three) ne_three
      case h_4 =>
        rw [u64_of_lt (by omega)]
        rfl

variable (pe pc) in
/-- A round executes an instruction. -/
theorem runBody_instr {state : RunState} {i : Instr} (wellFormed : i.WellFormed li)
    (readsBack : i.ReadsBack) (lrange : li.liLrange ≠ 0) (inside : state.p < pe)
    (held : mem.Holds state.p (i.bytes order li)) :
    runBody order mem li pe pc state =
      .done (after pc state (state.p + (i.bytes order li).length)
        (i.exec li state.registers)) := by
  rw [runBody_effect pe pc wellFormed.encoded inside held,
    Instr.effect_eq wellFormed readsBack lrange, Exec.done_bind]

/-! ## Runs -/

/-- The last of some more rows, and their number. -/
def RunState.keep (state : RunState) (rows : List Line) : Result :=
  ⟨rows.getLast?.getD state.liLine, state.liLnlen + rows.length⟩

/-- A state further on, with what has been kept. -/
def RunState.advance (state : RunState) (p : Nat) (registers : Registers) (rows : List Line) :
    RunState :=
  ⟨p, registers, (state.keep rows).liLine, (state.keep rows).liLnlen⟩

theorem keep_nil (state : RunState) : state.keep [] = ⟨state.liLine, state.liLnlen⟩ :=
  rfl

theorem keep_advance (state : RunState) (p : Nat) (registers : Registers) (rows more : List Line) :
    (state.advance p registers rows).keep more = state.keep (rows ++ more) := by
  unfold RunState.advance RunState.keep
  rw [List.getLast?_append, List.length_append, Nat.add_assoc]
  cases more.getLast? with
  | none => rfl
  | some row => rfl

theorem advance_advance (state : RunState) (p p' : Nat) (registers registers' : Registers)
    (rows more : List Line) :
    (state.advance p registers rows).advance p' registers' more =
      state.advance p' registers' (rows ++ more) := by
  have kept := keep_advance state p registers rows more
  unfold RunState.advance at *
  rw [kept]

/-- The state after a round whose row is not beyond the address. -/
theorem after_of_le {state : RunState} {p : Nat} {registers : Registers} {row : Option Line}
    (le : ∀ r ∈ row, r.lnAddr ≤ pc) (few : state.liLnlen + 1 < 2 ^ 64) :
    after pc state p (registers, row) = .again (state.advance p registers row.toList) := by
  cases row with
  | none => rfl
  | some row =>
      have row_le := le row rfl
      rw [after, if_neg (by omega), u64_of_lt few]
      rfl

/-- There are no more rows than bytes. -/
theorem advance_few {state : RunState} {count : Nat} (registers : Registers) (row : Option Line)
    (positive : 0 < count) (few : state.liLnlen ≤ state.p) :
    (state.advance (state.p + count) registers row.toList).liLnlen ≤ state.p + count := by
  dsimp only [RunState.advance, RunState.keep]
  cases row with
  | none =>
      rw [Option.toList_none, List.length_nil]
      omega
  | some row =>
      rw [Option.toList_some, List.length_singleton]
      omega

variable {body : List Instr}

/-- A run over the instructions of a sequence none of whose rows is beyond the
address. -/
theorem loop_body_of_le (wellFormed : ∀ i ∈ body, i.WellFormed li) {state : RunState}
    (readsBack : BodyReadsBack li pc state.registers body) (lrange : li.liLrange ≠ 0)
    (held : mem.Holds state.p (body.flatMap (Instr.bytes order li)))
    (inside : state.p + (body.flatMap (Instr.bytes order li)).length ≤ pe)
    (few : state.liLnlen ≤ state.p)
    (le : ∀ row ∈ execRows li state.registers body, row.lnAddr ≤ pc) (fuel : Nat) :
    loop (runBody order mem li pe pc) (body.length + fuel) state =
      loop (runBody order mem li pe pc) fuel
        (state.advance (state.p + (body.flatMap (Instr.bytes order li)).length)
          (execRegisters li state.registers body) (execRows li state.registers body)) := by
  induction body generalizing state with
  | nil =>
      rw [List.length_nil, Nat.zero_add]
      rfl
  | cons i body ih =>
      rw [List.flatMap_cons] at held inside ⊢
      rw [List.length_append] at inside
      obtain ⟨instr_held, rest_held⟩ := Memory.holds_append.mp held
      have nonempty := i.bytes_ne_nil order li
      have positive := List.length_pos_of_ne_nil nonempty
      have bound := end_lt instr_held nonempty
      have round := runBody_instr pe pc (wellFormed i List.mem_cons_self)
        readsBack.1 lrange (by omega) instr_held
      rw [execRows] at le
      have first_le : ∀ r ∈ (i.exec li state.registers).2, r.lnAddr ≤ pc := fun r member =>
        le r (List.mem_append_left _ (Option.mem_toList.mpr member))
      rw [after_of_le first_le (by omega)] at round
      have position : (body.length + 1 + fuel) = body.length + fuel + 1 := by omega
      rw [List.length_cons, position, loop_again round,
        ih (fun j member => wellFormed j (List.mem_cons_of_mem i member))
          (readsBack.2 first_le) rest_held
          (by dsimp only [RunState.advance]; omega) (advance_few _ _ positive few)
          (fun row member => le row (List.mem_append_right _ member)),
        advance_advance, List.length_append, ← Nat.add_assoc]
      rfl

/-- One over instructions of which a row is beyond the address. -/
theorem loop_body_of_lt (wellFormed : ∀ i ∈ body, i.WellFormed li) {state : RunState}
    (readsBack : BodyReadsBack li pc state.registers body) (lrange : li.liLrange ≠ 0)
    (held : mem.Holds state.p (body.flatMap (Instr.bytes order li)))
    (inside : state.p + (body.flatMap (Instr.bytes order li)).length ≤ pe)
    (few : state.liLnlen ≤ state.p)
    (lt : ∃ row ∈ execRows li state.registers body, pc < row.lnAddr) (fuel : Nat) :
    loop (runBody order mem li pe pc) (body.length + fuel) state =
      .done (state.keep (Scan.read Line.lnAddr pc (execRows li state.registers body))) := by
  induction body generalizing state with
  | nil =>
      obtain ⟨row, member, _⟩ := lt
      exact absurd member List.not_mem_nil
  | cons i body ih =>
      rw [List.flatMap_cons] at held inside
      rw [List.length_append] at inside
      obtain ⟨instr_held, rest_held⟩ := Memory.holds_append.mp held
      have nonempty := i.bytes_ne_nil order li
      have positive := List.length_pos_of_ne_nil nonempty
      have bound := end_lt instr_held nonempty
      have round := runBody_instr pe pc (wellFormed i List.mem_cons_self)
        readsBack.1 lrange (by omega) instr_held
      have position : (body.length + 1 + fuel) = body.length + fuel + 1 := by omega
      rw [execRows] at lt ⊢
      rw [List.length_cons, position]
      by_cases first_le : ∀ r ∈ (i.exec li state.registers).2, r.lnAddr ≤ pc
      · have all_le : ∀ r ∈ (i.exec li state.registers).2.toList, r.lnAddr ≤ pc := fun r member =>
          first_le r (Option.mem_toList.mp member)
        have later : ∃ row ∈ execRows li (i.exec li state.registers).1 body, pc < row.lnAddr := by
          obtain ⟨row, member, beyond⟩ := lt
          rcases List.mem_append.mp member with here | later
          · exact absurd (all_le row here) (not_le.mpr beyond)
          · exact ⟨row, later, beyond⟩
        rw [after_of_le first_le (by omega)] at round
        rw [loop_again round,
          ih (fun j member => wellFormed j (List.mem_cons_of_mem i member))
            (readsBack.2 first_le) rest_held
            (by dsimp only [RunState.advance]; omega) (advance_few _ _ positive few) later,
          Scan.read_append_of_le all_le, keep_advance]
        rfl
      · obtain ⟨row, row_eq, beyond⟩ : ∃ row, (i.exec li state.registers).2 = some row ∧
            pc < row.lnAddr := by
          push Not at first_le
          exact first_le
        have none_read : Scan.read Line.lnAddr pc [row] = [] := Scan.read_cons_of_lt beyond []
        have stops : after pc state (state.p + (i.bytes order li).length)
            (i.exec li state.registers) = .stop ⟨state.liLine, state.liLnlen⟩ := by
          rw [← Prod.mk.eta (p := i.exec li state.registers), row_eq, after, if_pos beyond]
        rw [stops] at round
        rw [loop_stop round, row_eq, Option.toList_some,
          Scan.read_append_of_lt ⟨row, List.mem_singleton_self row, beyond⟩, none_read, keep_nil]

theorem execRows_length_le (order : Endianness) (li : LineInfo) (registers : Registers)
    (body : List Instr) :
    (execRows li registers body).length ≤ (body.flatMap (Instr.bytes order li)).length := by
  induction body generalizing registers with
  | nil => exact Nat.le_refl 0
  | cons i body ih =>
      have nonempty := i.bytes_ne_nil order li
      have positive := List.length_pos_of_ne_nil nonempty
      have rest_le := ih (i.exec li registers).1
      rw [execRows, List.flatMap_cons, List.length_append, List.length_append]
      cases (i.exec li registers).2 with
      | none =>
          rw [Option.toList_none, List.length_nil]
          omega
      | some row =>
          rw [Option.toList_some, List.length_singleton]
          omega

variable (order li pe pc) in
/-- The round at the end of a sequence. -/
theorem runBody_end (state : RunState) {s : Sequence} (inside : state.p < pe)
    (held : mem.Holds state.p s.endBytes) :
    runBody order mem li pe pc state =
      .done (.again (state.advance (state.p + s.endBytes.length) (resetRegisters li) [])) := by
  obtain ⟨_, _, run⟩ := runBody_extended order li pc inside held
  have position : state.p + 1 + s.endLength.bytes.length + 1 = state.p + s.endBytes.length := by
    rw [Sequence.endBytes, List.length_append, List.length_cons, List.length_singleton]
    omega
  have bound := end_lt held (List.cons_ne_nil _ _)
  have next_eq : u64 (state.p + 1 + s.endLength.bytes.length + 1) =
      state.p + s.endBytes.length := by
    rw [u64_of_lt (by omega), position]
  rw [run, ← next_eq]
  rfl

/-- A run over a whole program keeps the last row that a scan of its rows
reads. -/
theorem loop_program {program : List Sequence} (wellFormed : ∀ s ∈ program, s.WellFormed li)
    (readsBack : ProgramReadsBack li pc program) (lrange : li.liLrange ≠ 0) (state : RunState)
    (reset : state.registers = resetRegisters li)
    (held : mem.Holds state.p (programBytes order li program))
    (ends : state.p + (programBytes order li program).length = pe)
    (few : state.liLnlen ≤ state.p) (fuel : Nat) :
    loop (runBody order mem li pe pc) (programSteps program + (fuel + 1)) state =
      .done (state.keep (Scan.read Line.lnAddr pc (programRows li program))) := by
  induction program generalizing state with
  | nil =>
      rw [programSteps, Nat.zero_add]
      apply loop_stop
      rw [programBytes, List.flatMap_nil, List.length_nil] at ends
      rw [runBody, if_neg (by omega)]
      rfl
  | cons s program ih =>
      have bytes_eq : programBytes order li (s :: program) =
          s.bodyBytes order li ++ (s.endBytes ++ programBytes order li program) := by
        rw [programBytes, List.flatMap_cons, Sequence.bytes, programBytes]
        exact List.append_assoc _ _ _
      have rows_eq : programRows li (s :: program) = s.rows li ++ programRows li program := rfl
      have steps_eq : programSteps (s :: program) + (fuel + 1) =
          s.body.length + (programSteps program + (fuel + 1) + 1) := by
        rw [programSteps]
        omega
      have nonempty : 0 < s.endBytes.length := by
        rw [Sequence.endBytes, List.length_append, List.length_singleton]
        omega
      rw [bytes_eq] at held ends
      rw [List.length_append, List.length_append] at ends
      obtain ⟨body_held, held⟩ := Memory.holds_append.mp held
      obtain ⟨end_held, rest_held⟩ := Memory.holds_append.mp held
      obtain ⟨body_readsBack, rest_readsBack⟩ := readsBack
      rw [Sequence.rows, ← reset] at rest_readsBack
      rw [← reset] at body_readsBack
      rw [steps_eq, rows_eq, Sequence.rows, ← reset]
      by_cases le : ∀ row ∈ execRows li state.registers s.body, row.lnAddr ≤ pc
      · rw [loop_body_of_le (wellFormed s List.mem_cons_self).1 body_readsBack lrange
          body_held (by unfold Sequence.bodyBytes at ends; omega) few le]
        have round := runBody_end order li pe pc
          (state.advance (state.p + (s.bodyBytes order li).length)
            (execRegisters li state.registers s.body) (execRows li state.registers s.body))
          (by dsimp only [RunState.advance]; omega) end_held
        rw [advance_advance, List.append_nil] at round
        have rows_le := execRows_length_le order li state.registers s.body
        have rest := ih (fun s' member => wellFormed s' (List.mem_cons_of_mem s member))
          (rest_readsBack le)
          (state.advance (state.p + (s.bodyBytes order li).length + s.endBytes.length)
            (resetRegisters li) (execRows li state.registers s.body)) rfl rest_held
          (by dsimp only [RunState.advance]; omega)
          (by
            dsimp only [RunState.advance, RunState.keep]
            unfold Sequence.bodyBytes
            omega)
        rw [keep_advance, ← Scan.read_append_of_le le] at rest
        exact (loop_again round _).trans rest
      · push Not at le
        rw [loop_body_of_lt (wellFormed s List.mem_cons_self).1 body_readsBack lrange
          body_held (by unfold Sequence.bodyBytes at ends; omega) few le,
          Scan.read_append_of_lt le]

end

end Jos64.Lineno
