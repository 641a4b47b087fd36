import Jos64.Lineno.Run

/-!
# The row of an address

The interpreter keeps one row for the whole program and is done at the first row
beyond the address.  It finds the row of the sequence that the address is in when
the sequences stand in the right order around it, and otherwise leaves a row of
another sequence or none.
-/

namespace Jos64.Lineno

open Loop Dwarf Leb

/-! ## Sequences and addresses -/

section

variable {li : LineInfo} {s : Sequence} {pc : Nat}

theorem Sequence.Ordered.rows_sorted (ordered : s.Ordered li) :
    (s.rows li).Pairwise fun row row' => row.lnAddr ≤ row'.lnAddr :=
  List.pairwise_map.mp (List.pairwise_append.mp ordered).1

/-- The first row has the least address. -/
theorem Sequence.Ordered.head_le (ordered : s.Ordered li) {first row : Line}
    (first_eq : (s.rows li).head? = some first) (member : row ∈ s.rows li) :
    first.lnAddr ≤ row.lnAddr := by
  obtain ⟨rest, rows_eq⟩ := List.head?_eq_some_iff.mp first_eq
  have sorted := ordered.rows_sorted
  rw [rows_eq] at sorted member
  rcases List.mem_cons.mp member with rfl | later
  · exact Nat.le_refl _
  · exact (List.pairwise_cons.mp sorted).1 row later

/-- The sequence of an address has a row for it. -/
theorem Sequence.Covers.latest (covered : s.Covers li pc) :
    ∃ row, Scan.latest Line.lnAddr pc (s.rows li) = some row := by
  obtain ⟨⟨first, first_eq, first_le⟩, _⟩ := covered
  have member : first ∈ (s.rows li).filter fun row => row.lnAddr ≤ pc :=
    List.mem_filter.mpr ⟨List.mem_of_head? first_eq, decide_eq_true first_le⟩
  exact ⟨_, List.getLast?_eq_some_getLast (List.ne_nil_of_mem member)⟩

/-- That row is one that the sequence covers the address of. -/
theorem Sequence.Covers.covers_latest (ordered : s.Ordered li) (covered : s.Covers li pc)
    {row : Line} (found : Scan.latest Line.lnAddr pc (s.rows li) = some row) :
    s.Covers li row.lnAddr := by
  obtain ⟨member, le⟩ := List.mem_filter.mp (List.mem_of_getLast? found)
  obtain ⟨⟨first, first_eq, _⟩, before_end⟩ := covered
  exact ⟨⟨first, first_eq, ordered.head_le first_eq member⟩,
    (of_decide_eq_true le).trans_lt before_end⟩

end

/-! ## Lookup -/

section

variable (li : LineInfo)

/-- The sequences of a program: their operands are in range, their addresses do
not decrease, and no two cover one address. -/
structure Valid (program : List Sequence) : Prop where
  wellFormed : ∀ s ∈ program, s.WellFormed li
  ordered : ∀ s ∈ program, s.Ordered li
  disjoint : program.Pairwise fun s s' => ∀ pc, ¬ (s.Covers li pc ∧ s'.Covers li pc)

/-- Nothing before the sequence `own` in the program is beyond the address, and
what follows its row for the address is. -/
def InPlace (pc : Nat) (front : List Sequence) (own : Sequence) (back : List Sequence) : Prop :=
  Scan.Fair Line.lnAddr pc (programRows li front) (own.rows li) (programRows li back)

end

/-- The result is a row, and it is this one. -/
def Result.Finds (result : Result) (row : Line) : Prop :=
  0 < result.liLnlen ∧ result.liLine = row

instance (result : Result) (row : Line) : Decidable (result.Finds row) :=
  inferInstanceAs (Decidable (_ ∧ _))

/-- A result that is the last one of some rows. -/
theorem keep_finds_iff {state : RunState} (empty : state.liLnlen = 0) {rows : List Line}
    {row : Line} : (state.keep rows).Finds row ↔ rows.getLast? = some row := by
  unfold RunState.keep Result.Finds
  dsimp only
  rw [empty, Nat.zero_add]
  cases last : rows.getLast? with
  | none =>
      have rows_eq := List.getLast?_eq_none_iff.mp last
      rw [rows_eq]
      exact ⟨fun both => absurd both.1 (Nat.lt_irrefl 0), nofun⟩
  | some row' =>
      have positive : 0 < rows.length :=
        List.length_pos_of_mem (List.mem_of_getLast? last)
      rw [Option.getD_some]
      exact ⟨fun both => congrArg some both.2, fun same => ⟨positive, Option.some.inj same⟩⟩

section

variable {order : Endianness} {mem : Memory} {li : LineInfo} {p pc : Nat}

/-- What the interpreter leaves of a program. -/
theorem runProgram_eq {program : List Sequence} (wellFormed : ∀ s ∈ program, s.WellFormed li)
    (readsBack : ProgramReadsBack li pc program) (lrange : li.liLrange ≠ 0)
    (held : mem.Holds p (programBytes order li program)) {fuel : Nat}
    (enough : programSteps program < fuel) :
    runProgram order mem li (p + (programBytes order li program).length) pc fuel p =
      .done (RunState.keep ⟨p, resetRegisters li, .zero, 0⟩
        (Scan.read Line.lnAddr pc (programRows li program))) := by
  obtain ⟨more, rfl⟩ := Nat.exists_eq_add_of_lt enough
  exact loop_program wellFormed readsBack lrange ⟨p, resetRegisters li, .zero, 0⟩ rfl held rfl
    (Nat.zero_le p) more

/-- The rows of other sequences have other addresses than the row of this one,
if each row is before the end of its sequence. -/
theorem Valid.apart {front back : List Sequence} {own : Sequence}
    (valid : Valid li (front ++ own :: back)) (covered : own.Covers li pc)
    (before_end : ∀ s ∈ front ++ back, ∀ row ∈ s.rows li, row.lnAddr < s.endAddress li)
    {row : Line} (found : Scan.latest Line.lnAddr pc (own.rows li) = some row) :
    ∀ row' ∈ programRows li front ++ programRows li back, row'.lnAddr ≠ row.lnAddr := by
  intro row' member same
  have own_ordered := valid.ordered own (List.mem_append_right front List.mem_cons_self)
  have own_covers := covered.covers_latest own_ordered found
  have member' : row' ∈ (front ++ back).flatMap (Sequence.rows li) := by
    rw [List.flatMap_append]
    exact member
  obtain ⟨s, s_mem, row_mem⟩ := List.mem_flatMap.mp member'
  have s_ordered : s.Ordered li := by
    apply valid.ordered
    rcases List.mem_append.mp s_mem with inFront | inBack
    · exact List.mem_append_left _ inFront
    · exact List.mem_append_right _ (List.mem_cons_of_mem own inBack)
  obtain ⟨first, rest, rows_eq⟩ := List.exists_cons_of_ne_nil (List.ne_nil_of_mem row_mem)
  have first_eq : (s.rows li).head? = some first := by
    rw [rows_eq]
    rfl
  have s_covers : s.Covers li row.lnAddr := by
    rw [← same]
    exact ⟨⟨first, first_eq, s_ordered.head_le first_eq row_mem⟩,
      before_end s s_mem row' row_mem⟩
  obtain ⟨_, own_back, apart⟩ := List.pairwise_append.mp valid.disjoint
  rcases List.mem_append.mp s_mem with inFront | inBack
  · exact apart s inFront own List.mem_cons_self row.lnAddr ⟨s_covers, own_covers⟩
  · exact (List.pairwise_cons.mp own_back).1 s inBack row.lnAddr ⟨own_covers, s_covers⟩

/-- The interpreter finds the row of the address when the sequence of the address
is in place, and otherwise not, unless a row stands at the end of its sequence. -/
theorem runProgram_finds_iff (front : List Sequence) (own : Sequence) (back : List Sequence)
    (valid : Valid li (front ++ own :: back))
    (readsBack : ProgramReadsBack li pc (front ++ own :: back)) (lrange : li.liLrange ≠ 0)
    (held : mem.Holds p (programBytes order li (front ++ own :: back)))
    (covered : own.Covers li pc) :
    ∃ row result, Scan.latest Line.lnAddr pc (own.rows li) = some row ∧
      (∀ fuel, programSteps (front ++ own :: back) < fuel →
        runProgram order mem li
            (p + (programBytes order li (front ++ own :: back)).length) pc fuel p =
          .done result) ∧
      (InPlace li pc front own back → result.Finds row) ∧
      ((∀ s ∈ front ++ back, ∀ r ∈ s.rows li, r.lnAddr < s.endAddress li) →
        result.Finds row → InPlace li pc front own back) := by
  obtain ⟨row, found⟩ := covered.latest
  have own_ordered := valid.ordered own (List.mem_append_right front List.mem_cons_self)
  have rows_eq : programRows li (front ++ own :: back) =
      programRows li front ++ own.rows li ++ programRows li back := by
    rw [programRows, List.flatMap_append, List.flatMap_cons, List.append_assoc]
    rfl
  refine ⟨row, _, found,
    fun fuel enough => runProgram_eq valid.wellFormed readsBack lrange held enough, ?_, ?_⟩
  · intro inPlace
    rw [rows_eq]
    exact (keep_finds_iff rfl).mpr (Scan.getLast_read_of_fair own_ordered.rows_sorted inPlace found)
  · intro before_end finds
    rw [rows_eq] at finds
    apply Scan.fair_of_getLast_read _ ((keep_finds_iff rfl).mp finds)
    intro row' member _
    exact valid.apart covered before_end found row' member

end

/-! ## Two sequences -/

/-- A header as the compiler writes it. -/
def sampleInfo : LineInfo :=
  ⟨1, 1, 251, 14, 13, 8⟩

/-- An operand of one byte. -/
def smallOperand (b : Byte) (ends : ¬ Continues b) : Operand :=
  ⟨[b], group b, .last ends⟩

theorem one_ends : ¬ Continues 1 := by
  decide

theorem nine_ends : ¬ Continues 9 := by
  decide

/-- A sequence of one row: where it is, how far it goes, and its line. -/
def sampleSequence (address : Nat) (size : Byte) (line : Byte) (size_ends : ¬ Continues size)
    (line_ends : ¬ Continues line) : Sequence where
  body := [.setAddress (smallOperand 9 nine_ends) address,
    .advanceLine ⟨[line], _, .last line_ends⟩, .copy, .advancePc (smallOperand size size_ends)]
  endLength := smallOperand 1 one_ends

/-- Line 3 from 0x20 up to 0x30. -/
def upperSequence : Sequence :=
  sampleSequence 0x20 0x10 2 (by decide) (by decide)

/-- Line 7 from 0x10 up to 0x18. -/
def lowerSequence : Sequence :=
  sampleSequence 0x10 8 6 (by decide) (by decide)

theorem upperSequence_rows :
    upperSequence.rows sampleInfo = [⟨0x20, 0, 1, 3, 0, 0, 1, 0⟩] := by
  decide

theorem lowerSequence_rows :
    lowerSequence.rows sampleInfo = [⟨0x10, 0, 1, 7, 0, 0, 1, 0⟩] := by
  decide

theorem upperSequence_covers {pc : Nat} :
    upperSequence.Covers sampleInfo pc ↔ 0x20 ≤ pc ∧ pc < 0x30 := by
  have end_eq : upperSequence.endAddress sampleInfo = 0x30 := by decide
  rw [Sequence.Covers, upperSequence_rows, end_eq]
  simp

theorem lowerSequence_covers {pc : Nat} :
    lowerSequence.Covers sampleInfo pc ↔ 0x10 ≤ pc ∧ pc < 0x18 := by
  have end_eq : lowerSequence.endAddress sampleInfo = 0x18 := by decide
  rw [Sequence.Covers, lowerSequence_rows, end_eq]
  simp

theorem sampleSequence_wellFormed {address : Nat} {size line : Byte}
    {size_ends : ¬ Continues size} {line_ends : ¬ Continues line} (small : address < 256 ^ 8)
    (advances : line = 2 ∨ line = 6) (size_small : group size < 2 ^ 28) :
    (sampleSequence address size line size_ends line_ends).WellFormed sampleInfo ∧
      (sampleSequence address size line size_ends line_ends).ReadsBack := by
  have standard (opcode : Byte) (below : opcode < sampleInfo.liOpbase) :
      ∀ o ∈ some opcode, o < sampleInfo.liOpbase := by
    rintro _ ⟨⟩
    exact below
  have one_byte : ∀ i ∈ (sampleSequence address size line size_ends line_ends).body,
      i.WellFormed sampleInfo ∧ i.ReadsBack := by
    intro i member
    rcases List.mem_cons.mp member with rfl | member
    · exact ⟨⟨nofun, by decide, by decide, small⟩, trivial⟩
    rcases List.mem_cons.mp member with rfl | member
    · rcases advances with rfl | rfl
      · refine ⟨⟨standard 3 (by decide), ?_⟩, ?_⟩
        · dsimp only
          decide
        · change ReadsSigned [2] (if group 2 < 64 then (group 2 : Int) else group 2 - 128)
          decide
      · refine ⟨⟨standard 3 (by decide), ?_⟩, ?_⟩
        · dsimp only
          decide
        · change ReadsSigned [6] (if group 6 < 64 then (group 6 : Int) else group 6 - 128)
          decide
    rcases List.mem_cons.mp member with rfl | member
    · exact ⟨⟨standard 1 (by decide), trivial⟩, trivial⟩
    obtain rfl := List.mem_singleton.mp member
    exact ⟨⟨standard 2 (by decide), size_small⟩, trivial⟩
  have end_eq : group 1 = 1 := by decide
  exact ⟨⟨fun i member => (one_byte i member).1, end_eq⟩, fun i member => (one_byte i member).2⟩

theorem upperSequence_wellFormed :
    upperSequence.WellFormed sampleInfo ∧ upperSequence.ReadsBack :=
  sampleSequence_wellFormed (by decide) (Or.inl rfl) (by decide)

theorem lowerSequence_wellFormed :
    lowerSequence.WellFormed sampleInfo ∧ lowerSequence.ReadsBack :=
  sampleSequence_wellFormed (by decide) (Or.inr rfl) (by decide)

/-- The two in either order are a program. -/
theorem sample_valid {program : List Sequence}
    (either : program = [lowerSequence, upperSequence] ∨
      program = [upperSequence, lowerSequence]) :
    Valid sampleInfo program ∧ ∀ s ∈ program, s.ReadsBack := by
  have sample : ∀ s ∈ program, s = lowerSequence ∨ s = upperSequence := by
    rcases either with rfl | rfl
    · simp
    · simp [or_comm]
  have apart : ∀ pc, ¬ (lowerSequence.Covers sampleInfo pc ∧
      upperSequence.Covers sampleInfo pc) := by
    intro pc
    rw [lowerSequence_covers, upperSequence_covers]
    omega
  refine ⟨⟨?_, ?_, ?_⟩, ?_⟩
  · intro s member
    rcases sample s member with rfl | rfl
    · exact lowerSequence_wellFormed.1
    · exact upperSequence_wellFormed.1
  · intro s member
    rcases sample s member with rfl | rfl
    · rw [Sequence.Ordered, lowerSequence_rows]
      decide
    · rw [Sequence.Ordered, upperSequence_rows]
      decide
  · rcases either with rfl | rfl
    · exact List.pairwise_pair.mpr apart
    · exact List.pairwise_pair.mpr fun pc both => apart pc both.symm
  · intro s member
    rcases sample s member with rfl | rfl
    · exact lowerSequence_wellFormed.2
    · exact upperSequence_wellFormed.2

/-- The program alone in memory. -/
def sampleMemory (program : List Sequence)
    (fits : 0x1000 + (programBytes .lsb sampleInfo program).length < 2 ^ 47) : Memory :=
  Memory.image 0x1000 (programBytes .lsb sampleInfo program) fits

theorem sampleMemory_holds (program : List Sequence)
    (fits : 0x1000 + (programBytes .lsb sampleInfo program).length < 2 ^ 47) :
    (sampleMemory program fits).Holds 0x1000 (programBytes .lsb sampleInfo program) :=
  Memory.image_holds fits [] [] (by simp)

/-- With the lower sequence first, line 3 is found at 0x25. -/
theorem runProgram_finds_iff_ascending :
    ∃ result,
      (∀ fuel, 10 < fuel →
        runProgram .lsb (sampleMemory [lowerSequence, upperSequence] (by decide)) sampleInfo
            (0x1000 + (programBytes .lsb sampleInfo [lowerSequence, upperSequence]).length) 0x25
            fuel 0x1000 =
          .done result) ∧
        result.Finds ⟨0x20, 0, 1, 3, 0, 0, 1, 0⟩ := by
  obtain ⟨valid, readsBack⟩ := sample_valid (Or.inl rfl)
  obtain ⟨row, result, found, run, finds, _⟩ := runProgram_finds_iff [lowerSequence]
    upperSequence [] valid (programReadsBack_of_forall readsBack) (by decide)
    (sampleMemory_holds [lowerSequence, upperSequence] (by decide))
    (upperSequence_covers.mpr (by decide : 0x20 ≤ 0x25 ∧ 0x25 < 0x30))
  rw [upperSequence_rows] at found
  obtain rfl : (⟨0x20, 0, 1, 3, 0, 0, 1, 0⟩ : Line) = row := Option.some.inj found
  refine ⟨result, run, finds ?_⟩
  rw [InPlace, Scan.Fair, upperSequence_rows, programRows, List.flatMap_singleton,
    lowerSequence_rows]
  decide

/-- With the upper one first, the line at 0x25 is the 7 of the lower one. -/
theorem lower_row_overwrites :
    Valid sampleInfo [upperSequence, lowerSequence] ∧
      (∀ s ∈ [upperSequence, lowerSequence], s.ReadsBack) ∧
      upperSequence.Covers sampleInfo 0x25 ∧
      Scan.latest Line.lnAddr 0x25 (upperSequence.rows sampleInfo) =
        some ⟨0x20, 0, 1, 3, 0, 0, 1, 0⟩ ∧
      ∀ fuel, 10 < fuel →
        runProgram .lsb (sampleMemory [upperSequence, lowerSequence] (by decide)) sampleInfo
            (0x1000 + (programBytes .lsb sampleInfo [upperSequence, lowerSequence]).length) 0x25
            fuel 0x1000 =
          .done ⟨⟨0x10, 0, 1, 7, 0, 0, 1, 0⟩, 2⟩ := by
  obtain ⟨valid, readsBack⟩ := sample_valid (Or.inr rfl)
  refine ⟨valid, readsBack, upperSequence_covers.mpr (by decide), ?_, ?_⟩
  · rw [upperSequence_rows]
    decide
  · intro fuel enough
    rw [runProgram_eq valid.wellFormed (programReadsBack_of_forall readsBack) (by decide)
      (sampleMemory_holds _ (by decide)) enough]
    decide

end Jos64.Lineno
