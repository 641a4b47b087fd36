import Jos64.Lineno.Run
import Jos64.Loop.Relation

/-!
# The cursor of a line number program

Every operand is read forwards.  Only an extended opcode that is not known moves the
cursor by a number from the program, and the length that is read there can be the
pattern of a negative number.  Behind the name of a file it is moved by the length of
the name, which is negative too for a name that is long enough.
-/

namespace Jos64.Lineno

open Loop Dwarf Leb

/-! ## The values of the cursor -/

section

variable (order : Endianness) (mem : Memory) (li : LineInfo) (pe : Nat)

/-- Where the cursor is behind an operand that is read. -/
def behindOperand : Exec (Nat × Nat) → List Nat
  | .done (_, p) => [p]
  | _ => []

/-- Where the cursor is behind a file that is read. -/
def behindFile : Exec Nat → List Nat
  | .done p => [p]
  | _ => []

/-- The values of the cursor behind an extended opcode and its operands. -/
def extendedTrail (opsize p : Nat) (opcode : Byte) : List Nat :=
  match opcode.toNat with
  | 0x01 => [u64 (p + 1)]
  | 0x02 => u64 (p + 1) :: behindOperand (dbgDecode order mem (u64 (p + 1)) li.addrSize)
  | 0x03 => u64 (p + 1) :: behindFile (linenoAddFile mem (u64 (p + 1)))
  | _ => [u64 (p + opsize)]

/-- The values of the cursor behind the length of an extended opcode. -/
def lengthTrail : Exec (Nat × Nat) → List Nat
  | .done (opsize, p) =>
      p :: match mem.byte p with
        | some opcode => extendedTrail order mem li opsize p opcode
        | none => []
  | _ => []

/-- The values of the cursor behind the operands of a standard opcode. -/
def standardTrail (opcode : Byte) (p : Nat) : List Nat :=
  match opcode.toNat with
  | 0x02 | 0x04 | 0x05 | 0x0c => behindOperand (decodeUleb128 mem p)
  | 0x03 => behindOperand (decodeSleb128 mem p)
  | 0x09 => behindOperand (dbgDecode order mem p 2)
  | _ => []

/-- The values that the cursor takes one after the other in a round, as far as it
gets. -/
def trail (p : Nat) : List Nat :=
  if p < pe then
    p :: match mem.byte p with
      | some opcode =>
          u64 (p + 1) ::
            if opcode = 0 then lengthTrail order mem li (decodeUleb128 mem (u64 (p + 1)))
            else if opcode < li.liOpbase then standardTrail order mem opcode (u64 (p + 1))
            else []
      | none => []
  else [p]

end

section

variable {order : Endianness} {mem : Memory} {li : LineInfo} {pe pc : Nat}

/-! ## Operands are read forwards -/

/-- What is read as an unsigned operand are the bytes of a number. -/
theorem decodeUleb128_cases {p value next : Nat} (small : p < 2 ^ 64)
    (read : decodeUleb128 mem p = .done (value, next)) :
    ∃ bytes, Ended bytes ∧ mem.Holds p bytes ∧
      value = ((lebBits 0 bytes).signExtend 64).toNat ∧ next = p + bytes.length := by
  have found := Exec.ofOption_eq_done read
  obtain ⟨leb, loop_eq, -⟩ := Option.map_eq_some_iff.mp found
  obtain ⟨bytes, ended, held⟩ := held_of_lebLoop loop_eq
  rw [at_zero small] at held
  rw [decodeUleb128_bits ended held] at read
  cases read
  exact ⟨bytes, ended, held, rfl, rfl⟩

theorem decodeSleb128_cases {p value next : Nat} (small : p < 2 ^ 64)
    (read : decodeSleb128 mem p = .done (value, next)) :
    ∃ bytes, Ended bytes ∧ mem.Holds p bytes ∧
      value = ((slebBits 0 bytes).signExtend 64).toNat ∧ next = p + bytes.length := by
  have found := Exec.ofOption_eq_done read
  obtain ⟨leb, loop_eq, -⟩ := Option.map_eq_some_iff.mp found
  obtain ⟨bytes, ended, held⟩ := held_of_lebLoop loop_eq
  rw [at_zero small] at held
  rw [decodeSleb128_bits ended held] at read
  cases read
  exact ⟨bytes, ended, held, rfl, rfl⟩

/-- A chain of two values. -/
theorem chain_behindOperand {p : Nat} {read : Exec (Nat × Nat)}
    (forward : ∀ value next, read = .done (value, next) → p ≤ next) :
    (p :: behindOperand read).IsChain (· ≤ ·) := by
  cases read with
  | done result => exact List.isChain_pair.mpr (forward result.1 result.2 rfl)
  | fault => exact .singleton p
  | timeout => exact .singleton p

theorem decodeUleb128_forward {p value next : Nat} (small : p < 2 ^ 64)
    (read : decodeUleb128 mem p = .done (value, next)) : p ≤ next := by
  obtain ⟨bytes, -, -, -, rfl⟩ := decodeUleb128_cases small read
  exact Nat.le_add_right _ _

theorem decodeSleb128_forward {p value next : Nat} (small : p < 2 ^ 64)
    (read : decodeSleb128 mem p = .done (value, next)) : p ≤ next := by
  obtain ⟨bytes, -, -, -, rfl⟩ := decodeSleb128_cases small read
  exact Nat.le_add_right _ _

theorem dbgDecode_forward {p width value next : Nat} (small : p < 2 ^ 47)
    (read : dbgDecode order mem p width = .done (value, next)) : p ≤ next := by
  have found := Exec.ofOption_eq_done read
  rw [dbgRead] at found
  split at found
  · rename_i known
    have short : width ≤ 8 := by
      rcases known with rfl | rfl | rfl | rfl <;> decide
    obtain ⟨bytes, -, made⟩ := Option.map_eq_some_iff.mp found
    cases made
    rw [u64_of_lt (by omega)]
    exact Nat.le_add_right _ _
  · cases found
    exact Nat.le_refl _

theorem chain_decodeUleb128 {p : Nat} (small : p < 2 ^ 47) :
    (p :: behindOperand (decodeUleb128 mem p)).IsChain (· ≤ ·) :=
  chain_behindOperand fun _ _ read => decodeUleb128_forward (by omega) read

theorem chain_dbgDecode {p : Nat} (small : p < 2 ^ 47) (width : Nat) :
    (p :: behindOperand (dbgDecode order mem p width)).IsChain (· ≤ ·) :=
  chain_behindOperand fun _ _ read => dbgDecode_forward small read

theorem chain_standardTrail {opcode : Byte} {p : Nat} (small : p < 2 ^ 47) :
    (p :: standardTrail order mem opcode p).IsChain (· ≤ ·) := by
  unfold standardTrail
  split
  case h_5 =>
    exact chain_behindOperand fun _ _ read => decodeSleb128_forward (by omega) read
  case h_6 => exact chain_dbgDecode small 2
  case h_7 => exact .singleton p
  all_goals exact chain_decodeUleb128 small

/-! ## Files -/

variable (mem) in
/-- At the name of a file whose length and one have, as an `int`, the pattern of a
negative number.  The three numbers are read so many bytes in front of the name, and
end in front of it. -/
def FileJumpsBack (q : Nat) : Prop :=
  ∃ (name dir time size : List Byte) (start : Nat), (∀ c ∈ name, c ≠ 0) ∧
    mem.Holds q (name ++ [0]) ∧ (start : Int) = q + wrap32 (name.length + 1) ∧
    Ended dir ∧ Ended time ∧ Ended size ∧ mem.Holds start (dir ++ time ++ size) ∧
    start + (dir ++ time ++ size).length < q

theorem addSigned_eq {q start : Nat} (start_eq : (start : Int) = q + wrap32 x)
    (small : start < 2 ^ 64) : addSigned q (wrap32 x) = start := by
  rw [addSigned, ← start_eq]
  omega

/-- Where the numbers of a file are read from, if there is something to be read. -/
theorem eq_of_addSigned {q : Nat} (small : q < 2 ^ 47) {x : Int}
    (mapped : addSigned q (wrap32 x) < 2 ^ 47) :
    (addSigned q (wrap32 x) : Int) = q + wrap32 x := by
  have low := wrap32_low x
  have high := wrap32_high x
  unfold addSigned at mapped ⊢
  omega

theorem linenoAddFile_held {q start : Nat} {name dir time size : List Byte}
    (nonzero : ∀ c ∈ name, c ≠ 0) (held : mem.Holds q (name ++ [0]))
    (start_eq : addSigned q (wrap32 (name.length + 1)) = start) (dir_ended : Ended dir)
    (time_ended : Ended time) (size_ended : Ended size)
    (numbers : mem.Holds start (dir ++ time ++ size)) :
    linenoAddFile mem q = .done (start + (dir ++ time ++ size).length) := by
  obtain ⟨front, size_held⟩ := Memory.holds_append.mp numbers
  obtain ⟨dir_held, time_held⟩ := Memory.holds_append.mp front
  rw [List.length_append, ← Nat.add_assoc] at size_held
  rw [linenoAddFile_name nonzero held, start_eq, decodeUleb128_bits dir_ended dir_held,
    Exec.done_bind]
  dsimp only
  rw [decodeUleb128_bits time_ended time_held, Exec.done_bind]
  dsimp only
  rw [decodeUleb128_bits size_ended size_held, Exec.done_bind, List.length_append,
    List.length_append, ← Nat.add_assoc, ← Nat.add_assoc]

/-- What is read of a file is a name, and three numbers. -/
theorem linenoAddFile_cases {q next : Nat} (read : linenoAddFile mem q = .done next) :
    ∃ name dir time size, (∀ c ∈ name, c ≠ 0) ∧ mem.Holds q (name ++ [0]) ∧ Ended dir ∧
      Ended time ∧ Ended size ∧
      mem.Holds (addSigned q (wrap32 (name.length + 1))) (dir ++ time ++ size) ∧
      next = addSigned q (wrap32 (name.length + 1)) + (dir ++ time ++ size).length := by
  obtain ⟨slen, counted, -⟩ := Exec.bind_eq_done read
  obtain ⟨name, nonzero, held, -⟩ := strlen_cases (Exec.ofOption_eq_done counted)
  rw [linenoAddFile_name nonzero held] at read
  have start_lt : addSigned q (wrap32 (name.length + 1)) < 2 ^ 64 := by
    unfold addSigned
    omega
  obtain ⟨⟨_, _⟩, dir_read, read⟩ := Exec.bind_eq_done read
  obtain ⟨dir, dir_ended, dir_held, -, rfl⟩ := decodeUleb128_cases start_lt dir_read
  have dir_lt := end_lt dir_held dir_ended.ne_nil
  obtain ⟨⟨_, _⟩, time_read, read⟩ := Exec.bind_eq_done read
  obtain ⟨time, time_ended, time_held, -, rfl⟩ := decodeUleb128_cases (by omega) time_read
  have time_lt := end_lt time_held time_ended.ne_nil
  obtain ⟨⟨_, _⟩, size_read, read⟩ := Exec.bind_eq_done read
  obtain ⟨size, size_ended, size_held, -, rfl⟩ := decodeUleb128_cases (by omega) size_read
  cases read
  refine ⟨name, dir, time, size, nonzero, held, dir_ended, time_ended, size_ended, ?_, ?_⟩
  · rw [Memory.holds_append, Memory.holds_append, List.length_append, ← Nat.add_assoc]
    exact ⟨⟨dir_held, time_held⟩, size_held⟩
  · rw [List.length_append, List.length_append, ← Nat.add_assoc, ← Nat.add_assoc]

/-- Behind a file the cursor is led backwards by the length of its name only. -/
theorem chain_behindFile_iff {q : Nat} (small : q < 2 ^ 47) :
    (q :: behindFile (linenoAddFile mem q)).IsChain (· ≤ ·) ↔ ¬ FileJumpsBack mem q := by
  have back_iff : FileJumpsBack mem q ↔ ∃ next, linenoAddFile mem q = .done next ∧ next < q := by
    constructor
    · rintro ⟨name, dir, time, size, start, nonzero, held, start_eq, dir_ended, time_ended,
        size_ended, numbers, before⟩
      have start_eq := addSigned_eq start_eq (by omega)
      exact ⟨_, linenoAddFile_held nonzero held start_eq dir_ended time_ended size_ended numbers,
        before⟩
    · rintro ⟨next, read, before⟩
      obtain ⟨name, dir, time, size, nonzero, held, dir_ended, time_ended, size_ended, numbers,
        rfl⟩ := linenoAddFile_cases read
      exact ⟨name, dir, time, size, _, nonzero, held, eq_of_addSigned small (by omega), dir_ended,
        time_ended, size_ended, numbers, before⟩
  rw [back_iff]
  cases read : linenoAddFile mem q with
  | done next =>
      rw [behindFile, List.isChain_pair, ← not_lt]
      constructor
      · rintro forward ⟨_, ⟨⟩, before⟩
        exact forward before
      · intro never before
        exact never ⟨next, rfl, before⟩
  | fault =>
      refine iff_of_true (.singleton q) ?_
      rintro ⟨_, ⟨⟩, -⟩
  | timeout =>
      refine iff_of_true (.singleton q) ?_
      rintro ⟨_, ⟨⟩, -⟩

/-! ## Extended opcodes -/

/-- The extended opcode is a case of the switch. -/
def ExtendedKnown (opcode : Byte) : Prop :=
  opcode = 1 ∨ opcode = 2 ∨ opcode = 3

variable (mem) in
/-- An extended opcode that is not known, whose length has the pattern of a negative
`int`, and one that does not lead below the address zero; or a file whose name leads
back. -/
def OpcodeJumpsBack (q : Nat) (length : BitVec 32) (opcode : Byte) : Prop :=
  ¬ ExtendedKnown opcode ∧ length.toInt < 0 ∧ 0 ≤ q + length.toInt ∨
    opcode = 3 ∧ FileJumpsBack mem (q + 1)

variable (mem pe) in
/-- At an extended opcode that leads back. -/
def JumpsBack (p : Nat) : Prop :=
  p < pe ∧ mem.byte p = some 0 ∧
    ∃ bytes opcode, Ended bytes ∧ mem.Holds (p + 1) bytes ∧
      mem.byte (p + 1 + bytes.length) = some opcode ∧
      OpcodeJumpsBack mem (p + 1 + bytes.length) (lebBits 0 bytes) opcode

/-- A length leads backwards if it is negative and does not wrap around. -/
theorem behind_lt_iff {q : Nat} (small : q < 2 ^ 47) (length : BitVec 32) :
    u64 (q + (length.signExtend 64).toNat) < q ↔ length.toInt < 0 ∧ 0 ≤ q + length.toInt := by
  have low := BitVec.le_toInt length
  have high := BitVec.toInt_lt (x := length)
  rw [BitVec.signExtend, u64_add_ofInt, addSigned]
  omega

theorem chain_extendedTrail_iff {length : BitVec 32} {q : Nat} {opcode : Byte}
    (mapped : mem.byte q = some opcode) :
    (q :: extendedTrail order mem li (length.signExtend 64).toNat q opcode).IsChain (· ≤ ·) ↔
      ¬ OpcodeJumpsBack mem q length opcode := by
  have below := Memory.lt_top mapped
  have top := mem.top_lt
  have next_eq : u64 (q + 1) = q + 1 := u64_of_lt (by omega)
  have small : q + 1 < 2 ^ 47 := by omega
  unfold extendedTrail OpcodeJumpsBack
  rw [next_eq]
  split
  case h_1 endSequence =>
    obtain rfl : opcode = 1 := BitVec.eq_of_toNat_eq endSequence
    refine iff_of_true (List.isChain_pair.mpr (Nat.le_succ q)) ?_
    rintro (⟨unknown, -⟩ | ⟨file, -⟩)
    · exact unknown (.inl rfl)
    · exact absurd file (by decide)
  case h_2 setAddress =>
    obtain rfl : opcode = 2 := BitVec.eq_of_toNat_eq setAddress
    refine iff_of_true (.cons_cons (Nat.le_succ q) (chain_dbgDecode small _)) ?_
    rintro (⟨unknown, -⟩ | ⟨file, -⟩)
    · exact unknown (.inr (.inl rfl))
    · exact absurd file (by decide)
  case h_3 defineFile =>
    obtain rfl : opcode = 3 := BitVec.eq_of_toNat_eq defineFile
    have known : ¬ ¬ ExtendedKnown 3 := not_not.mpr (.inr (.inr rfl))
    rw [List.isChain_cons_cons, and_iff_right (Nat.le_succ q), chain_behindFile_iff small,
      and_iff_right rfl, or_iff_right fun unknown => known unknown.1]
  case h_4 not_end not_address not_file =>
    have unknown : ¬ ExtendedKnown opcode := by
      rintro (rfl | rfl | rfl)
      · exact not_end rfl
      · exact not_address rfl
      · exact not_file rfl
    have other : opcode ≠ 3 := fun same => unknown (.inr (.inr same))
    rw [List.isChain_pair, ← not_lt, behind_lt_iff (by omega), and_iff_right unknown,
      or_iff_left fun file => other file.1]

/-- Behind the byte 0 the cursor is led backwards by what the opcode adds only. -/
theorem chain_lengthTrail_iff {q : Nat} (small : q < 2 ^ 47) :
    (q :: lengthTrail order mem li (decodeUleb128 mem q)).IsChain (· ≤ ·) ↔
      ¬ ∃ bytes opcode, Ended bytes ∧ mem.Holds q bytes ∧
        mem.byte (q + bytes.length) = some opcode ∧
        OpcodeJumpsBack mem (q + bytes.length) (lebBits 0 bytes) opcode := by
  cases read : decodeUleb128 mem q with
  | done result =>
      obtain ⟨value, next⟩ := result
      obtain ⟨bytes, ended, held, value_eq, next_eq⟩ := decodeUleb128_cases (by omega) read
      rw [lengthTrail, value_eq, next_eq, List.isChain_cons_cons,
        and_iff_right (Nat.le_add_right q bytes.length)]
      cases mapped : mem.byte (q + bytes.length) with
      | none =>
          refine iff_of_true (.singleton _) ?_
          rintro ⟨others, opcode, others_ended, others_held, others_mapped, -⟩
          rw [← ended_unique ended others_ended held others_held, mapped] at others_mapped
          cases others_mapped
      | some opcode =>
          rw [chain_extendedTrail_iff mapped, not_iff_not]
          constructor
          · intro back
            exact ⟨bytes, opcode, ended, held, mapped, back⟩
          · rintro ⟨others, found, others_ended, others_held, found_mapped, back⟩
            obtain rfl := ended_unique ended others_ended held others_held
            obtain rfl := Option.some.inj (mapped.symm.trans found_mapped)
            exact back
  | fault =>
      refine iff_of_true (.singleton q) ?_
      rintro ⟨bytes, opcode, ended, held, -⟩
      rw [decodeUleb128_bits ended held] at read
      cases read
  | timeout =>
      refine iff_of_true (.singleton q) ?_
      rintro ⟨bytes, opcode, ended, held, -⟩
      rw [decodeUleb128_bits ended held] at read
      cases read

/-- Within a round the cursor moves backwards exactly where it is led back. -/
theorem chain_trail_iff {p : Nat} :
    (trail order mem li pe p).IsChain (· ≤ ·) ↔ ¬ JumpsBack mem pe p := by
  unfold trail JumpsBack
  by_cases inside : p < pe
  · rw [if_pos inside, and_iff_right inside]
    cases mapped : mem.byte p with
    | none => exact iff_of_true (.singleton p) nofun
    | some opcode =>
        have below := Memory.lt_top mapped
        have top := mem.top_lt
        have small : p + 1 < 2 ^ 47 := by omega
        rw [u64_of_lt (by omega), List.isChain_cons_cons, and_iff_right (Nat.le_succ p)]
        by_cases extended : opcode = 0
        · rw [if_pos extended, extended, and_iff_right rfl]
          exact chain_lengthTrail_iff small
        · have not_extended : ¬ some opcode = some 0 := fun same => extended (Option.some.inj same)
          rw [if_neg extended]
          refine iff_of_true ?_ fun back => not_extended back.1
          split
          · exact chain_standardTrail small
          · exact .singleton _
  · rw [if_neg inside]
    exact iff_of_true (.singleton p) fun back => inside back.1

/-! ## Rounds -/

theorem behindOperand_ends {p : Nat} {read : Exec (Nat × Nat)}
    {next : Nat × Nat → Exec (Next RunState Result)} {state' : RunState}
    (kept : ∀ value q state, next (value, q) = .done (.again state) → state.p = q)
    (round : read.bind next = .done (.again state')) :
    (p :: behindOperand read).getLast? = some state'.p := by
  obtain ⟨⟨value, q⟩, rfl, rest⟩ := Exec.bind_eq_done round
  rw [kept value q state' rest]
  rfl

theorem appendRow_kept {state state' : RunState} {p : Nat} {registers : Registers}
    (round : appendRow pc state p registers = .done (.again state')) : state'.p = p := by
  unfold appendRow at round
  split at round
  · cases round
  · cases round
    rfl

theorem standardTrail_ends {opcode : Byte} {state state' : RunState} {p : Nat}
    (round : standardOpcode order mem li pc opcode state p = .done (.again state')) :
    (p :: standardTrail order mem opcode p).getLast? = some state'.p := by
  have operand {read : Exec (Nat × Nat)} {next : Nat × Nat → Exec (Next RunState Result)}
      (trail_eq : standardTrail order mem opcode p = behindOperand read)
      (kept : ∀ value q state, next (value, q) = .done (.again state) → state.p = q)
      (round : read.bind next = .done (.again state')) :
      (p :: standardTrail order mem opcode p).getLast? = some state'.p := by
    rw [trail_eq]
    exact behindOperand_ends kept round
  have no_operand (trail_eq : standardTrail order mem opcode p = []) (p_eq : state'.p = p) :
      (p :: standardTrail order mem opcode p).getLast? = some state'.p := by
    rw [trail_eq, p_eq]
    rfl
  unfold standardOpcode at round
  split at round
  case h_1 found => exact no_operand (by rw [standardTrail, found]; rfl) (appendRow_kept round)
  case h_6 found | h_7 found =>
    cases round
    exact no_operand (by rw [standardTrail, found]; rfl) rfl
  case h_8 found =>
    split at round
    · cases round
    · cases round
      exact no_operand (by rw [standardTrail, found]; rfl) rfl
  case h_11 =>
    cases round
    refine no_operand ?_ rfl
    unfold standardTrail
    split
    case h_7 => rfl
    all_goals contradiction
  all_goals
    rename_i found
    refine operand (by rw [standardTrail, found]; rfl) (fun value q after same => ?_) round
    cases same
    rfl

theorem extendedTrail_ends {opsize p : Nat} {opcode : Byte} {state state' : RunState}
    (round : extendedSwitch order mem li state opsize p opcode = .done (.again state')) :
    (p :: extendedTrail order mem li opsize p opcode).getLast? = some state'.p := by
  unfold extendedSwitch at round
  split at round
  case h_1 found =>
    cases round
    rw [extendedTrail, found]
    rfl
  case h_2 found =>
    rw [extendedTrail, found]
    change (u64 (p + 1) :: behindOperand _).getLast? = _
    refine behindOperand_ends (fun value q after same => ?_) round
    cases same
    rfl
  case h_3 found =>
    obtain ⟨q, read, round⟩ := Exec.bind_eq_done round
    cases round
    rw [extendedTrail, found]
    dsimp only
    rw [read]
    rfl
  case h_4 =>
    cases round
    have trail_eq : extendedTrail order mem li opsize p opcode = [u64 (p + opsize)] := by
      unfold extendedTrail
      split
      case h_4 => rfl
      all_goals contradiction
    rw [trail_eq]
    rfl

theorem linenoAddFile_ne_timeout (p : Nat) : linenoAddFile mem p ≠ .timeout := by
  refine Exec.bind_ne_timeout (Exec.ofOption_ne_timeout _) fun slen _ => ?_
  refine Exec.bind_ne_timeout (Exec.ofOption_ne_timeout _) fun dir _ => ?_
  refine Exec.bind_ne_timeout (Exec.ofOption_ne_timeout _) fun time _ => ?_
  exact Exec.bind_ne_timeout (Exec.ofOption_ne_timeout _) fun size _ => Exec.done_ne_timeout _

theorem appendRow_ne_timeout {state : RunState} {p : Nat} {registers : Registers} :
    appendRow pc state p registers ≠ .timeout := by
  rw [appendRow_eq]
  exact Exec.done_ne_timeout _

theorem standardOpcode_ne_timeout {opcode : Byte} {state : RunState} {p : Nat} :
    standardOpcode order mem li pc opcode state p ≠ .timeout := by
  unfold standardOpcode
  split
  case h_1 => exact appendRow_ne_timeout
  case h_8 =>
    split
    · exact nofun
    · exact Exec.done_ne_timeout _
  case h_6 | h_7 | h_11 => exact Exec.done_ne_timeout _
  all_goals
    exact Exec.bind_ne_timeout (Exec.ofOption_ne_timeout _) fun _ _ => Exec.done_ne_timeout _

theorem extendedSwitch_ne_timeout {opsize p : Nat} {opcode : Byte} {state : RunState} :
    extendedSwitch order mem li state opsize p opcode ≠ .timeout := by
  unfold extendedSwitch
  split
  case h_1 => exact Exec.done_ne_timeout _
  case h_2 =>
    exact Exec.bind_ne_timeout (Exec.ofOption_ne_timeout _) fun _ _ => Exec.done_ne_timeout _
  case h_3 =>
    exact Exec.bind_ne_timeout (linenoAddFile_ne_timeout _) fun _ _ => Exec.done_ne_timeout _
  case h_4 => exact Exec.done_ne_timeout _

/-- A round has no loop of its own that might not end. -/
theorem runBody_ne_timeout (state : RunState) : runBody order mem li pe pc state ≠ .timeout := by
  unfold runBody
  split
  · refine Exec.bind_ne_timeout (Exec.ofOption_ne_timeout _) fun opcode _ => ?_
    split
    · refine Exec.bind_ne_timeout (Exec.ofOption_ne_timeout _) fun length _ => ?_
      exact Exec.bind_ne_timeout (Exec.ofOption_ne_timeout _) fun opcode _ =>
        extendedSwitch_ne_timeout
    · split
      · exact standardOpcode_ne_timeout
      · unfold specialOpcode
        split
        · exact nofun
        · exact appendRow_ne_timeout
  · exact Exec.done_ne_timeout _

/-- The last value of the trail of a round is where the next one begins. -/
theorem trail_ends {state state' : RunState}
    (round : runBody order mem li pe pc state = .done (.again state')) :
    state.p < pe ∧ ∃ values, trail order mem li pe state.p = state.p :: (state.p + 1) :: values ∧
      ((state.p + 1) :: values).getLast? = some state'.p := by
  unfold runBody at round
  unfold trail
  split at round
  · rename_i inside
    obtain ⟨opcode, found, round⟩ := Exec.bind_eq_done round
    have mapped := Exec.ofOption_eq_done found
    have below := Memory.lt_top mapped
    have top := mem.top_lt
    have next_eq : u64 (state.p + 1) = state.p + 1 := u64_of_lt (by omega)
    rw [if_pos inside, mapped]
    rw [next_eq] at round ⊢
    refine ⟨inside, _, rfl, ?_⟩
    split at round
    · rename_i extended
      rw [if_pos extended]
      obtain ⟨⟨opsize, q⟩, read, round⟩ := Exec.bind_eq_done round
      obtain ⟨next, found, round⟩ := Exec.bind_eq_done round
      rw [read, lengthTrail, Exec.ofOption_eq_done found, List.getLast?_cons_cons]
      exact extendedTrail_ends round
    · rename_i not_extended
      rw [if_neg not_extended]
      split at round
      · rename_i below
        rw [if_pos below]
        exact standardTrail_ends round
      · rename_i special
        rw [if_neg special]
        unfold specialOpcode at round
        split at round
        · cases round
        · rw [next_eq] at round
          exact congrArg some (appendRow_kept round).symm
  · cases round

/-- A round that is not led backwards moves the cursor on. -/
theorem runBody_lt {state state' : RunState} (forward : ¬ JumpsBack mem pe state.p)
    (round : runBody order mem li pe pc state = .done (.again state')) :
    state.p < pe ∧ state.p < state'.p := by
  obtain ⟨inside, values, trail_eq, last⟩ := trail_ends round
  have chain : (trail order mem li pe state.p).IsChain (· ≤ ·) := chain_trail_iff.mpr forward
  rw [trail_eq, List.isChain_cons_cons, List.isChain_iff_pairwise, List.pairwise_cons] at chain
  refine ⟨inside, ?_⟩
  rcases List.mem_cons.mp (List.mem_of_getLast? last) with next | later
  · omega
  · exact chain.2.1 state'.p later

end

/-! ## The whole run -/

section

variable (order : Endianness) (mem : Memory) (li : LineInfo) (pe pc : Nat)

/-- The state in which a program from `p` on begins. -/
def startAt (p : Nat) : RunState :=
  ⟨p, resetRegisters li, .zero, 0⟩

/-- The run comes to an end, and its cursor never moves backwards. -/
def RunsForward (p : Nat) : Prop :=
  (∃ fuel, runProgram order mem li pe pc fuel p ≠ .timeout) ∧
    ∀ state, Reached (runBody order mem li pe pc) (startAt li p) state →
      (trail order mem li pe state.p).IsChain (· ≤ ·)

/-- The run comes to an end and only moves forwards exactly if it comes to no extended
opcode that leads backwards. -/
theorem runsForward_iff (p : Nat) :
    RunsForward order mem li pe pc p ↔
      ∀ state, Reached (runBody order mem li pe pc) (startAt li p) state →
        ¬ JumpsBack mem pe state.p := by
  constructor
  · intro forward state reached
    exact chain_trail_iff.mp (forward.2 state reached)
  · intro never
    refine ⟨⟨pe - p + 1, ?_⟩, fun state reached => chain_trail_iff.mpr (never state reached)⟩
    refine loop_ne_timeout_of_reached (fun state => pe - state.p)
      (fun state _ => runBody_ne_timeout state) ?_ (Nat.lt_succ_self _)
    intro state state' reached round
    have further := runBody_lt (never state reached) round
    omega

end

/-! ## A length that is read as a negative number -/

/-- An extended opcode that is not known, the length of which is read as -6. -/
def returning : List Byte :=
  [0x00, 0xFA, 0xFF, 0xFF, 0xFF, 0x0F, 0x80]

def returningMemory : Memory :=
  .image 0x1000 returning (by decide)

theorem returning_round {order : Endianness} {li : LineInfo} {pc : Nat} {state : RunState}
    (here : state.p = 0x1000) :
    runBody order returningMemory li 0x1007 pc state = .done (.again state) := by
  obtain ⟨p, registers, liLine, liLnlen⟩ := state
  obtain rfl : p = 0x1000 := here
  have length : decodeUleb128 returningMemory 0x1001 = .done (2 ^ 64 - 6, 0x1006) := by
    decide
  have byte_eq : returningMemory.byte 0x1000 = some 0 := by decide
  have opcode_eq : returningMemory.byte 0x1006 = some 0x80 := by decide
  rw [runBody, if_pos (show 0x1000 < 0x1007 by decide), byte_eq, Exec.ofOption_some,
    Exec.done_bind, if_pos rfl,
    extendedOpcode, show u64 (0x1000 + 1) = 0x1001 from rfl, length, Exec.done_bind]
  dsimp only
  rw [opcode_eq, Exec.ofOption_some, Exec.done_bind]
  rfl

/-- The cursor comes back to the opcode, for ever. -/
theorem returning_timeout :
    (∀ (order : Endianness) (li : LineInfo) (pc fuel : Nat),
      runProgram order returningMemory li 0x1007 pc fuel 0x1000 = .timeout) ∧
    ¬ ∀ (order : Endianness) (mem : Memory) (li : LineInfo) (pe pc p : Nat),
      li.liLrange ≠ 0 → RunsForward order mem li pe pc p := by
  have runs (order : Endianness) (li : LineInfo) (pc fuel : Nat) :
      runProgram order returningMemory li 0x1007 pc fuel 0x1000 = .timeout :=
    loop_timeout (.inr (returning_round rfl)) fuel
  refine ⟨runs, fun claim => ?_⟩
  obtain ⟨⟨fuel, ends⟩, -⟩ :=
    claim .lsb returningMemory ⟨1, 1, 0, 1, 10, 8⟩ 0x1007 0 0x1000 (by decide)
  exact ends (runs _ _ _ fuel)

end Jos64.Lineno
