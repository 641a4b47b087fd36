import Jos64.Lineno.Correctness
import Jos64.Lineno.Header

/-!
# Standard opcodes that are not known

A header says how many operands each standard opcode has, so that a reader can skip
one that it does not know.  The interpreter keeps these numbers in `li_oplen` and
never looks at them: it goes on with the byte behind the opcode.
-/

namespace Jos64.Lineno

open Loop Dwarf Leb

/-! ## Programs with opcodes that are not known -/

/-- The number of operands that the header gives a standard opcode. -/
def Header.oplen (header : Header) (opcode : Byte) : Nat :=
  (header.liOplen.getD (opcode.toNat - 1) 0).toNat

/-- An instruction, the end of a sequence, or a standard opcode that is not known with
its operands. -/
inductive Item where
  | instr (i : Instr)
  | endSequence (length : Operand)
  | unknownStandard (opcode : Byte) (operands : List Operand)

namespace Item

def IsKnown : Item → Prop
  | unknownStandard .. => False
  | _ => True

instance : DecidablePred IsKnown := fun item =>
  match item with
  | instr _ => .isTrue trivial
  | endSequence _ => .isTrue trivial
  | unknownStandard .. => .isFalse id

section

variable (order : Endianness) (li : LineInfo)

def bytes : Item → List Byte
  | instr i => i.bytes order li
  | endSequence length => 0 :: length.bytes ++ [0x01]
  | unknownStandard opcode operands => opcode :: operands.flatMap Operand.bytes

/-- What the interpreter does at an item that it knows. -/
def effect (registers : Registers) : Item → Exec (Registers × Option Line)
  | instr i => i.effect li registers
  | endSequence _ => .done (resetRegisters li, none)
  | unknownStandard .. => .done (registers, none)

end

section

variable (header : Header) (addrSize : Nat) (used : Byte → Prop)

/-- The item is one of a program under the header: an opcode that is not known is among
those that are used, and has as many operands as the header says. -/
def Fits : Item → Prop
  | instr i => i.Encoded (header.info addrSize)
  | endSequence length => length.value = 1
  | unknownStandard opcode operands =>
      used opcode ∧ 13 ≤ opcode ∧ opcode < header.liOpbase ∧
        operands.length = header.oplen opcode

end

end Item

/-- The opcodes that are not known and are used have no operands. -/
def Bare (header : Header) (used : Byte → Prop) : Prop :=
  ∀ opcode, used opcode → 13 ≤ opcode → opcode < header.liOpbase → header.oplen opcode = 0

/-- The bytes of the items. -/
def itemBytes (order : Endianness) (li : LineInfo) (items : List Item) : List Byte :=
  items.flatMap (Item.bytes order li)

/-- The program without the opcodes that are not known. -/
def knownItems (items : List Item) : List Item :=
  items.filter Item.IsKnown

section

variable (order : Endianness) (li : LineInfo)

/-- The run of a program and the run of the program without the opcodes that are not
known, wherever the two stand, come to an end in the same way and leave the same. -/
def LeavesSame (items : List Item) : Prop :=
  ∀ (mem mem' : Memory) (p p' pc : Nat), mem.Holds p (itemBytes order li items) →
    mem'.Holds p' (itemBytes order li (knownItems items)) →
    ∃ result, result ≠ .timeout ∧ ∃ bound, ∀ fuel, bound ≤ fuel →
      runProgram order mem li (p + (itemBytes order li items).length) pc fuel p = result ∧
      runProgram order mem' li (p' + (itemBytes order li (knownItems items)).length) pc fuel p' =
        result

end

/-! ## Opcodes without operands -/

section

variable {order : Endianness} {mem : Memory} {header : Header} {addrSize pe pc : Nat}
  {used : Byte → Prop}

theorem Item.bytes_ne_nil (order : Endianness) (li : LineInfo) (item : Item) :
    item.bytes order li ≠ [] := by
  cases item with
  | instr i => exact i.bytes_ne_nil order li
  | endSequence length => exact List.cons_ne_nil _ _
  | unknownStandard opcode operands => exact List.cons_ne_nil _ _

/-- A standard opcode that is not known is left behind, and nothing else. -/
theorem runBody_unknownStandard {state : RunState} {li : LineInfo} {opcode : Byte}
    (inside : state.p < pe) (mapped : mem.byte state.p = some opcode) (unknown : 13 ≤ opcode)
    (below : opcode < li.liOpbase) :
    runBody order mem li pe pc state = .done (.again { state with p := state.p + 1 }) := by
  have nonzero : opcode ≠ 0 := by
    rintro rfl
    exact absurd unknown (by decide)
  have large : 13 ≤ opcode.toNat := unknown
  rw [runBody_standard inside mapped nonzero below]
  unfold standardOpcode
  split
  case h_11 => rfl
  all_goals omega

variable (pe pc) in
/-- A round at an item, wherever it stands, where opcodes that are not known have no
operands. -/
theorem runBody_item {state : RunState} {item : Item} (fits : item.Fits header addrSize used)
    (bare : Bare header used) (inside : state.p < pe)
    (held : mem.Holds state.p (item.bytes order (header.info addrSize))) :
    runBody order mem (header.info addrSize) pe pc state =
      (item.effect (header.info addrSize) state.registers).bind fun effect =>
        .done (after pc state
          (state.p + (item.bytes order (header.info addrSize)).length) effect) := by
  cases item with
  | instr i => exact runBody_effect pe pc fits inside held
  | endSequence length => exact runBody_end order _ pe pc state (s := ⟨[], length⟩) inside held
  | unknownStandard opcode operands =>
      obtain ⟨is_used, unknown, below, length_eq⟩ := fits
      rw [bare opcode is_used unknown below] at length_eq
      obtain rfl := List.eq_nil_of_length_eq_zero length_eq
      have mapped := (Memory.holds_cons.mp held).1
      exact runBody_unknownStandard inside mapped unknown below

theorem Item.effect_ne_timeout (li : LineInfo) (registers : Registers) (item : Item) :
    item.effect li registers ≠ .timeout := by
  have guarded (result : Registers × Option Line) :
      (if li.liLrange = 0 then .fault else .done result : Exec _) ≠ .timeout := by
    split
    · exact nofun
    · exact Exec.done_ne_timeout _
  cases item with
  | instr i =>
      cases i with
      | constAddPc => exact guarded _
      | special opcode => exact guarded _
      | _ => exact Exec.done_ne_timeout _
  | endSequence length => exact Exec.done_ne_timeout _
  | unknownStandard opcode operands => exact Exec.done_ne_timeout _

/-- Two runs that begin with rounds of one effect end in the same way if they do so
behind these rounds. -/
theorem loop_effect {mem' : Memory} {li : LineInfo} {pe' next next' fuel fuel' : Nat}
    {state state' : RunState} {effect : Exec (Registers × Option Line)}
    (lines_eq : state.liLine = state'.liLine ∧ state.liLnlen = state'.liLnlen)
    (effect_ends : effect ≠ .timeout)
    (round : runBody order mem li pe pc state =
      effect.bind fun effect => .done (after pc state next effect))
    (round' : runBody order mem' li pe' pc state' =
      effect.bind fun effect => .done (after pc state' next' effect))
    (rest : ∀ registers liLine liLnlen,
      loop (runBody order mem li pe pc) fuel ⟨next, registers, liLine, liLnlen⟩ ≠ .timeout ∧
        loop (runBody order mem li pe pc) fuel ⟨next, registers, liLine, liLnlen⟩ =
          loop (runBody order mem' li pe' pc) fuel' ⟨next', registers, liLine, liLnlen⟩) :
    loop (runBody order mem li pe pc) (fuel + 1) state ≠ .timeout ∧
      loop (runBody order mem li pe pc) (fuel + 1) state =
        loop (runBody order mem' li pe' pc) (fuel' + 1) state' := by
  rw [loop, loop, round, round']
  cases effect with
  | done effect =>
      obtain ⟨registers, row⟩ := effect
      rw [Exec.done_bind, Exec.done_bind, Exec.done_bind, Exec.done_bind]
      unfold after
      rw [lines_eq.1, lines_eq.2]
      cases row with
      | none => exact rest registers _ _
      | some row =>
          dsimp only
          by_cases beyond : pc < row.lnAddr
          · rw [if_pos beyond, if_pos beyond]
            exact ⟨Exec.done_ne_timeout _, rfl⟩
          · rw [if_neg beyond, if_neg beyond]
            exact rest registers _ _
  | fault =>
      refine ⟨fun same => ?_, rfl⟩
      cases same
  | timeout => exact absurd rfl effect_ends

/-- Two runs from the same registers, the second over the items that are known, end in
the same way. -/
theorem loop_items {mem' : Memory} {pe' fuel fuel' : Nat} {items : List Item}
    (fits : ∀ item ∈ items, item.Fits header addrSize used)
    (bare : Bare header used) {p p' : Nat} {registers : Registers}
    {liLine : Line} {liLnlen : Nat}
    (held : mem.Holds p (itemBytes order (header.info addrSize) items))
    (held' : mem'.Holds p' (itemBytes order (header.info addrSize) (knownItems items)))
    (ends : p + (itemBytes order (header.info addrSize) items).length = pe)
    (ends' : p' + (itemBytes order (header.info addrSize) (knownItems items)).length = pe')
    (enough : items.length < fuel) (enough' : (knownItems items).length < fuel') :
    loop (runBody order mem (header.info addrSize) pe pc) fuel ⟨p, registers, liLine, liLnlen⟩ ≠
        .timeout ∧
      loop (runBody order mem (header.info addrSize) pe pc) fuel ⟨p, registers, liLine, liLnlen⟩ =
        loop (runBody order mem' (header.info addrSize) pe' pc) fuel'
          ⟨p', registers, liLine, liLnlen⟩ := by
  induction items generalizing p p' registers liLine liLnlen fuel fuel' with
  | nil =>
      obtain ⟨rounds, rfl⟩ : ∃ rounds, fuel = rounds + 1 := ⟨fuel - 1, by omega⟩
      obtain ⟨rounds', rfl⟩ : ∃ rounds, fuel' = rounds + 1 := ⟨fuel' - 1, by omega⟩
      have stops (mem : Memory) (p : Nat) :
          runBody order mem (header.info addrSize) p pc ⟨p, registers, liLine, liLnlen⟩ =
            .done (.stop ⟨liLine, liLnlen⟩) := if_neg (Nat.lt_irrefl p)
      obtain rfl : p = pe := ends
      obtain rfl : p' = pe' := ends'
      rw [loop_stop (stops mem p), loop_stop (stops mem' p')]
      exact ⟨Exec.done_ne_timeout _, rfl⟩
  | cons item items ih =>
      obtain ⟨rounds, rfl⟩ : ∃ rounds, fuel = rounds + 1 := ⟨fuel - 1, by omega⟩
      have item_fits := fits item List.mem_cons_self
      have rest_fits := fun other member => fits other (List.mem_cons_of_mem item member)
      have positive := List.length_pos_of_ne_nil (item.bytes_ne_nil order (header.info addrSize))
      rw [itemBytes, List.flatMap_cons] at held ends
      obtain ⟨item_held, rest_held⟩ := Memory.holds_append.mp held
      rw [List.length_append] at ends
      rw [List.length_cons] at enough
      have round := runBody_item pe pc item_fits bare
        (show (⟨p, registers, liLine, liLnlen⟩ : RunState).p < pe by dsimp only; omega) item_held
      dsimp only at round
      by_cases known : item.IsKnown
      · have items_eq : knownItems (item :: items) = item :: knownItems items :=
          List.filter_cons_of_pos (decide_eq_true known)
        obtain ⟨rounds', rfl⟩ : ∃ rounds, fuel' = rounds + 1 := ⟨fuel' - 1, by omega⟩
        rw [items_eq, itemBytes, List.flatMap_cons] at held' ends'
        obtain ⟨item_held', rest_held'⟩ := Memory.holds_append.mp held'
        rw [List.length_append] at ends'
        rw [items_eq, List.length_cons] at enough'
        have round' := runBody_item pe' pc item_fits bare
          (show (⟨p', registers, liLine, liLnlen⟩ : RunState).p < pe' by dsimp only; omega)
          item_held'
        dsimp only at round'
        have left_ends : p + (item.bytes order (header.info addrSize)).length +
            (itemBytes order (header.info addrSize) items).length = pe := by
          unfold itemBytes
          omega
        have right_ends : p' + (item.bytes order (header.info addrSize)).length +
            (itemBytes order (header.info addrSize) (knownItems items)).length = pe' := by
          unfold itemBytes
          omega
        refine loop_effect ⟨rfl, rfl⟩ (item.effect_ne_timeout (header.info addrSize) registers)
          round round' fun registers liLine liLnlen => ?_
        exact ih rest_fits rest_held rest_held' left_ends right_ends
          (Nat.lt_of_succ_lt_succ enough) (Nat.lt_of_succ_lt_succ enough')
      · have items_eq : knownItems (item :: items) = knownItems items :=
          List.filter_cons_of_neg (by rwa [decide_eq_true_eq])
        rw [items_eq] at held' ends' enough'
        cases item with
        | instr i => exact absurd trivial known
        | endSequence length => exact absurd trivial known
        | unknownStandard opcode operands =>
            rw [loop_again round]
            exact ih rest_fits rest_held held' (by unfold itemBytes; omega) ends'
              (Nat.lt_of_succ_lt_succ enough) enough'

/-- Opcodes that are not known and have no operands are skipped. -/
theorem leavesSame_of_bare {items : List Item}
    (fits : ∀ item ∈ items, item.Fits header addrSize used)
    (bare : Bare header used) :
    LeavesSame order (header.info addrSize) items := by
  intro mem mem' p p' pc held held'
  have shorter : (knownItems items).length ≤ items.length := List.length_filter_le _ _
  have runs {fuel fuel' : Nat} (enough : items.length < fuel) (enough' : items.length < fuel') :
      runProgram order mem (header.info addrSize)
          (p + (itemBytes order (header.info addrSize) items).length) pc fuel p ≠ .timeout ∧
        runProgram order mem (header.info addrSize)
            (p + (itemBytes order (header.info addrSize) items).length) pc fuel p =
          runProgram order mem' (header.info addrSize)
            (p' + (itemBytes order (header.info addrSize) (knownItems items)).length) pc fuel'
            p' :=
    loop_items fits bare held held' rfl rfl enough (shorter.trans_lt enough')
  have least := Nat.lt_succ_self items.length
  refine ⟨_, (runs least least).1, items.length + 1, fun fuel enough => ⟨?_, ?_⟩⟩
  · exact (runs enough least).2.trans (runs least least).2.symm
  · exact (runs least enough).2.symm

/-! ## Operands that are run as opcodes -/

variable (pe pc) in
/-- Operands of one byte 1 are run as `DW_LNS_copy`, and leave a row of line 1. -/
theorem loop_copies (li : LineInfo) (state : RunState) {count : Nat}
    (held : mem.Holds state.p (List.replicate count 0x01)) (ends : state.p + count = pe)
    (below : 1 < li.liOpbase) (reached : state.registers.address ≤ pc)
    (line_eq : state.registers.line = 1) (kept : 0 < count ∨ state.liLine.lnLineno = 1)
    (fuel : Nat) :
    ∃ result, loop (runBody order mem li pe pc) (count + 1 + fuel) state = .done result ∧
      result.liLine.lnLineno = 1 := by
  induction count generalizing state with
  | zero =>
      refine ⟨⟨state.liLine, state.liLnlen⟩, ?_, kept.resolve_left (Nat.lt_irrefl 0)⟩
      have finished : ¬ state.p < pe := by omega
      have stops : runBody order mem li pe pc state =
          .done (.stop ⟨state.liLine, state.liLnlen⟩) := if_neg finished
      rw [Nat.zero_add, Nat.add_comm]
      exact loop_stop stops fuel
  | succ count ih =>
      rw [List.replicate_succ] at held
      obtain ⟨mapped, held⟩ := Memory.holds_cons.mp held
      have round : runBody order mem li pe pc state =
          .done (.again ⟨state.p + 1, { state.registers with basicBlock := 0 },
            state.registers.row, u64 (state.liLnlen + 1)⟩) := by
        rw [runBody_standard (by omega) mapped (by decide) below]
        exact if_neg (not_lt.mpr reached)
      have position : count + 1 + 1 + fuel = count + 1 + fuel + 1 := by omega
      rw [position, loop_again round]
      exact ih _ held (by dsimp only; omega) reached line_eq (.inr line_eq)

/-- An opcode that is not known, with operands that are run as `DW_LNS_copy`. -/
def copying (header : Header) (opcode : Byte) : Item :=
  .unknownStandard opcode (List.replicate (header.oplen opcode) (smallOperand 1 one_ends))

theorem copying_bytes (li : LineInfo) (opcode : Byte) :
    itemBytes order li [copying header opcode] =
      opcode :: List.replicate (header.oplen opcode) 0x01 := by
  have operands (count : Nat) :
      (List.replicate count (smallOperand 1 one_ends)).flatMap Operand.bytes =
        List.replicate count 0x01 := by
    induction count with
    | zero => rfl
    | succ count ih =>
        rw [List.replicate_succ, List.flatMap_cons, ih, List.replicate_succ]
        rfl
  rw [itemBytes, List.flatMap_singleton, copying, Item.bytes, operands]

/-- Such an opcode leaves a row. -/
theorem not_leavesSame_copying {opcode : Byte} (unknown : 13 ≤ opcode)
    (below : opcode < header.liOpbase) (operands : 0 < header.oplen opcode) :
    ¬ LeavesSame order (header.info addrSize) [copying header opcode] := by
  intro same
  have count_lt : header.oplen opcode < 2 ^ 8 := BitVec.isLt _
  have large : 13 ≤ opcode.toNat := unknown
  have below_base : opcode.toNat < header.liOpbase.toNat := below
  have below_one : 1 < header.liOpbase := BitVec.lt_def.mpr (by change 1 < _; omega)
  have fits : 0x1000 + (opcode :: List.replicate (header.oplen opcode) 0x01).length < 2 ^ 47 := by
    rw [List.length_cons, List.length_replicate]
    omega
  have held : (Memory.image 0x1000 _ fits).Holds 0x1000
      (opcode :: List.replicate (header.oplen opcode) 0x01) :=
    Memory.image_holds fits [] [] (by rw [List.append_nil, List.nil_append])
  obtain ⟨mapped, copies_held⟩ := Memory.holds_cons.mp held
  obtain ⟨result, -, bound, runs⟩ := same (.image 0x1000 _ fits) (.image 0x1000 _ fits) 0x1000
    0x1000 0 (by rwa [copying_bytes]) (Store.Holds.nil _ _)
  obtain ⟨with_opcode, without⟩ := runs (header.oplen opcode + 1 + bound + 1) (by omega)
  have first : runBody order (.image 0x1000 _ fits) (header.info addrSize)
      (0x1000 + (header.oplen opcode + 1)) 0
      ⟨0x1000, resetRegisters (header.info addrSize), .zero, 0⟩ = _ :=
    runBody_unknownStandard (by dsimp only; omega) mapped unknown below
  have stops : runBody order (.image 0x1000 _ fits) (header.info addrSize) 0x1000 0
      ⟨0x1000, resetRegisters (header.info addrSize), .zero, 0⟩ = .done (.stop ⟨.zero, 0⟩) :=
    if_neg (Nat.lt_irrefl _)
  obtain ⟨copied, run_eq, line_eq⟩ := loop_copies
    (0x1000 + (header.oplen opcode + 1)) 0 (header.info addrSize)
    ⟨0x1001, resetRegisters (header.info addrSize), .zero, 0⟩ copies_held (by dsimp only; omega)
    below_one (Nat.le_refl 0) rfl (.inl operands) bound
  rw [copying_bytes, List.length_cons, List.length_replicate, runProgram, loop_again first,
    run_eq] at with_opcode
  rw [runProgram] at without
  have empty := (loop_stop stops _).symm.trans without
  rw [← with_opcode] at empty
  cases empty
  exact absurd line_eq (by decide)

/-- Every program leaves the same as without the opcodes that are not known, exactly if
those that it uses have no operands. -/
theorem leavesSame_iff (order : Endianness) (header : Header) (addrSize : Nat)
    (used : Byte → Prop) :
    (∀ items : List Item, (∀ item ∈ items, item.Fits header addrSize used) →
      LeavesSame order (header.info addrSize) items) ↔ Bare header used := by
  constructor
  · intro same opcode is_used unknown below
    by_contra operands
    refine not_leavesSame_copying unknown below (Nat.pos_of_ne_zero operands)
      (same _ fun item member => ?_)
    rw [List.mem_singleton.mp member]
    exact ⟨is_used, unknown, below, List.length_replicate⟩
  · intro bare items fits
    exact leavesSame_of_bare fits bare

end

/-! ## An operand that becomes a row -/

/-- A header with one opcode more than the known ones, which has one operand. -/
def oneMore : Header where
  liLength := 0
  liVersion := 3
  liHdrlen := 0
  liMinlen := 1
  liDefstmt := 1
  liLbase := 0
  liLrange := 1
  liOpbase := 14
  liOplen := [0, 1, 1, 1, 1, 0, 0, 0, 1, 0, 0, 1, 1]
  liInclen := 0

/-- The program `0D 01` leaves a row, and the program without its one instruction
leaves none. -/
theorem oneMore_leaves_row :
    runProgram .lsb (.image 0x1000 [0x0D, 0x01] (by decide)) (oneMore.info 8) 0x1002 0 4 0x1000 =
        .done ⟨⟨0, 0, 1, 1, 0, 0, 1, 0⟩, 1⟩ ∧
      runProgram .lsb (.image 0x1000 [] (by decide)) (oneMore.info 8) 0x1000 0 4 0x1000 =
        .done ⟨.zero, 0⟩ ∧
      ¬ ∀ (order : Endianness) (header : Header) (addrSize : Nat) (items : List Item),
        13 < header.liOpbase →
        (∀ item ∈ items, item.Fits header addrSize fun _ => True) →
        LeavesSame order (header.info addrSize) items := by
  refine ⟨by decide, by decide, fun claim => ?_⟩
  have unknown : (13 : Byte) ≤ 13 := by decide
  have below : 13 < oneMore.liOpbase := by decide
  refine not_leavesSame_copying unknown below (by decide)
    (claim .lsb oneMore 8 [copying oneMore 13] below fun item member => ?_)
  rw [List.mem_singleton.mp member]
  exact ⟨trivial, unknown, below, List.length_replicate⟩

end Jos64.Lineno
