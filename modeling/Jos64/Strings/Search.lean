import Jos64.Strings.Core

/-!
# Searching a string

`strstr` looks for the first character of the pattern, and compares what stands
behind it with `strncmp`, which never leaves either string.  The number of
characters to compare is the length of the pattern as an `int`, so a pattern of
more than two gigabytes is cut short, or compared with its NUL.
-/

namespace Jos64.Strings

/-! ## Lengths and comparisons -/

/-- The length is counted up to the first NUL, whatever stands behind it. -/
theorem strlenLoop_terminated {s : List Byte} (nonzero : ∀ byte ∈ s, byte ≠ 0) {n : Int}
    (int : wrap32 n = n) (behind : List Byte) :
    strlenLoop n (s ++ 0 :: behind) = some (wrap32 (n + s.length)) := by
  induction s generalizing n with
  | nil =>
      rw [List.nil_append, strlenLoop, if_neg (by decide), List.length_nil, Nat.cast_zero, add_zero,
        int]
  | cons c s ih =>
      have wrapped : wrap32 (wrap32 (n + 1)) = wrap32 (n + 1) := Int.bmod_bmod
      have sum : wrap32 (wrap32 (n + 1) + s.length) = wrap32 (n + (c :: s).length) := by
        rw [List.length_cons]
        push_cast
        rw [add_comm (s.length : Int) 1, ← add_assoc]
        exact Int.bmod_add_bmod
      rw [List.cons_append, strlenLoop, if_pos (nonzero c List.mem_cons_self),
        ih (fun later later_mem => nonzero later (List.mem_cons_of_mem c later_mem)) wrapped, sum]

/-- The length that `strstr` compares by. -/
def comparedLength (length : Nat) : Nat :=
  (BitVec.ofInt 64 (wrap32 length)).toNat

/-- An `int` holds the lengths up to its greatest value, and as a `size_t` the
ones that are no farther from the greatest of those. -/
theorem comparedLength_eq_iff (length : Nat) :
    comparedLength length = length ↔
      length < 2 ^ 31 ∨ 2 ^ 64 - 2 ^ 31 ≤ length ∧ length < 2 ^ 64 := by
  have low : -(2 ^ 31) ≤ wrap32 length := wrap32_low length
  have high : wrap32 length < 2 ^ 31 := wrap32_high length
  have value : wrap32 length = length - 2 ^ 32 * ((length + 2 ^ 31) / 2 ^ 32 : Int) := by
    rw [wrap32, Int.bmod_def]
    split
    · omega
    · omega
  rw [comparedLength, BitVec.toNat_ofInt]
  generalize wrap32 length = count at low high value
  omega

/-- `strncmp` compares what stands before the terminators, or the terminators
too. -/
theorem strncmp_terminated (n : Nat) {p q : List Byte} (p_nonzero : ∀ byte ∈ p, byte ≠ 0)
    (q_nonzero : ∀ byte ∈ q, byte ≠ 0) :
    ∃ order, strncmp n (p ++ [0]) (q ++ [0]) = some order ∧
      (order = 0 ↔ (p ++ [0]).take n = (q ++ [0]).take n) := by
  have differ {a b : Byte} (ne : a ≠ b) : ((a.toNat : Int) - b.toNat) ≠ 0 := by
    intro zero
    exact ne (BitVec.eq_of_toNat_eq (by omega))
  induction n generalizing p q with
  | zero => exact ⟨0, by rw [strncmp], by simp⟩
  | succ n ih =>
      cases p with
      | nil =>
          cases q with
          | nil => exact ⟨0, rfl, by simp⟩
          | cons b q =>
              have b_ne := q_nonzero b List.mem_cons_self
              refine ⟨(0 : Byte).toNat - b.toNat, rfl, iff_of_false (differ b_ne.symm) ?_⟩
              exact fun same => b_ne (List.cons.inj same).1.symm
      | cons a p =>
          have a_ne := p_nonzero a List.mem_cons_self
          cases q with
          | nil =>
              refine ⟨a.toNat - (0 : Byte).toNat, ?_, iff_of_false (differ a_ne) ?_⟩
              · rw [List.cons_append, List.nil_append, strncmp, if_neg fun both => a_ne both.2]
              · exact fun same => a_ne (List.cons.inj same).1
          | cons b q =>
              rw [List.cons_append, List.cons_append, strncmp]
              by_cases same : a = b
              · obtain ⟨order, compared, zero_iff⟩ := ih
                  (fun later later_mem => p_nonzero later (List.mem_cons_of_mem a later_mem))
                  (fun later later_mem => q_nonzero later (List.mem_cons_of_mem b later_mem))
                refine ⟨order, by rw [if_pos ⟨a_ne, same⟩, compared], ?_⟩
                rw [zero_iff, List.take_succ_cons, List.take_succ_cons, same,
                  List.cons_inj_right]
              · refine ⟨_, if_neg fun both => same both.2, iff_of_false (differ same) ?_⟩
                exact fun taken => same (List.cons.inj taken).1

/-! ## The first place -/

/-- The pointer to the first place of the string where the rest is as wanted, or
none if there is no such place. -/
def First (wanted : List Byte → Prop) (text : List Byte) : Option (List Byte) → Prop
  | some p => ∃ place ≤ text.length, wanted (text.drop place) ∧
      (∀ earlier < place, ¬ wanted (text.drop earlier)) ∧ p = text.drop place ++ [0]
  | none => ∀ place ≤ text.length, ¬ wanted (text.drop place)

section

variable {wanted other : List Byte → Prop}

theorem First.skip {c : Byte} {text : List Byte} {result : Option (List Byte)}
    (unwanted : ¬ wanted (c :: text)) (first : First wanted text result) :
    First wanted (c :: text) result := by
  cases result with
  | none =>
      intro place place_le
      cases place with
      | zero => exact unwanted
      | succ place => exact first place (Nat.le_of_succ_le_succ place_le)
  | some p =>
      obtain ⟨place, place_le, found, none_earlier, p_eq⟩ := first
      refine ⟨place + 1, Nat.succ_le_succ place_le, found, ?_, p_eq⟩
      intro earlier earlier_lt
      cases earlier with
      | zero => exact unwanted
      | succ earlier => exact none_earlier earlier (Nat.lt_of_succ_lt_succ earlier_lt)

theorem First.congr (same : ∀ rest, wanted rest ↔ other rest) {text : List Byte}
    {result : Option (List Byte)} (first : First wanted text result) :
    First other text result := by
  have equal : wanted = other := funext fun rest => propext (same rest)
  rwa [equal] at first

/-- What is wanted at the beginning is found there. -/
theorem First.eq_of_here {text : List Byte} {result : Option (List Byte)}
    (here : wanted text) (first : First wanted text result) : result = some (text ++ [0]) := by
  cases result with
  | none => exact absurd here (first 0 (Nat.zero_le _))
  | some p =>
      obtain ⟨place, -, -, none_earlier, p_eq⟩ := first
      cases place with
      | zero => rw [p_eq, List.drop_zero]
      | succ place => exact absurd here (none_earlier 0 (Nat.succ_pos place))

/-- What is found at the beginning is wanted there. -/
theorem First.here_of_eq {text : List Byte} (first : First wanted text (some (text ++ [0]))) :
    wanted text := by
  obtain ⟨place, place_le, found, -, p_eq⟩ := first
  have lengths := congrArg List.length (List.append_cancel_right p_eq)
  rw [List.length_drop] at lengths
  have at_start : text.drop place = text := by
    by_cases zero : place = 0
    · rw [zero, List.drop_zero]
    · have empty : text = [] := List.length_eq_zero_iff.mp (by omega)
      rw [empty, List.drop_nil]
  rwa [at_start] at found

end

/-! ## The search -/

/-- The first character stands here, and the characters behind it compare equal. -/
def Compared (c : Byte) (pattern : List Byte) (len : Nat) (rest : List Byte) : Prop :=
  ∃ behind, rest = c :: behind ∧ (behind ++ [0]).take len = (pattern ++ [0]).take len

theorem strstrLoop_terminated {c : Byte} {pattern : List Byte}
    (pattern_nonzero : ∀ byte ∈ pattern, byte ≠ 0) (len : Nat) {text : List Byte}
    (text_nonzero : ∀ byte ∈ text, byte ≠ 0) :
    ∃ result, strstrLoop c (pattern ++ [0]) len (text ++ [0]) = some result ∧
      First (Compared c pattern len) text result := by
  induction text with
  | nil =>
      refine ⟨none, by rw [List.nil_append, strstrLoop, if_pos rfl], ?_⟩
      rintro place - ⟨behind, empty, -⟩
      rw [List.drop_nil] at empty
      exact absurd empty nofun
  | cons sc text ih =>
      have later_nonzero : ∀ later ∈ text, later ≠ 0 := fun later later_mem =>
        text_nonzero later (List.mem_cons_of_mem sc later_mem)
      obtain ⟨result, rest_searched, first⟩ := ih later_nonzero
      rw [List.cons_append, strstrLoop, if_neg (text_nonzero sc List.mem_cons_self)]
      by_cases other : sc ≠ c
      · refine ⟨result, by rw [if_pos other, rest_searched], first.skip ?_⟩
        rintro ⟨behind, same, -⟩
        exact other (List.cons.inj same).1
      · obtain rfl : sc = c := not_not.mp other
        obtain ⟨order, compared, zero_iff⟩ :=
          strncmp_terminated len later_nonzero pattern_nonzero
        rw [if_neg other, compared, Option.bind_some]
        by_cases differ : order ≠ 0
        · refine ⟨result, by rw [if_pos differ, rest_searched], first.skip ?_⟩
          rintro ⟨behind, same, taken⟩
          rw [← (List.cons.inj same).2] at taken
          exact differ (zero_iff.mpr taken)
        · refine ⟨_, if_neg differ, 0, Nat.zero_le _, ?_, ?_, rfl⟩
          · exact ⟨text, rfl, zero_iff.mp (not_not.mp differ)⟩
          · exact fun earlier earlier_lt => absurd earlier_lt (Nat.not_lt_zero _)

/-- The pointer to the first occurrence of the pattern, or none if it occurs
nowhere. -/
def Finds (text pattern : List Byte) (result : Option (List Byte)) : Prop :=
  First (fun rest => pattern <+: rest) text result

/-- Comparing as many characters as the pattern has finds the pattern. -/
theorem compared_iff {c : Byte} {pattern : List Byte}
    (pattern_nonzero : ∀ byte ∈ pattern, byte ≠ 0) (rest : List Byte) :
    Compared c pattern pattern.length rest ↔ c :: pattern <+: rest := by
  have pattern_taken : (pattern ++ [0]).take pattern.length = pattern := List.take_left
  rw [Compared, pattern_taken]
  constructor
  · rintro ⟨behind, rfl, taken⟩
    rw [List.cons_prefix_cons]
    refine ⟨rfl, ?_⟩
    have length_le : pattern.length ≤ behind.length := by
      by_contra short
      rw [List.take_of_length_le (by rw [List.length_append, List.length_singleton]; omega)]
        at taken
      have nul : (0 : Byte) ∈ pattern := taken ▸ List.mem_append_right _ List.mem_cons_self
      exact pattern_nonzero 0 nul rfl
    rw [List.take_append_of_le_length length_le] at taken
    rw [← taken]
    exact List.take_prefix _ _
  · rintro ⟨behind, rfl⟩
    refine ⟨pattern ++ behind, rfl, ?_⟩
    rw [List.append_assoc]
    exact List.take_left

/-- `strstr` stays inside both strings, and looks for a pattern of the length it
compares by. -/
theorem strstr_terminated {c : Byte} {pattern : List Byte}
    (pattern_nonzero : ∀ byte ∈ c :: pattern, byte ≠ 0) {text : List Byte}
    (text_nonzero : ∀ byte ∈ text, byte ≠ 0) :
    ∃ result, strstr (text ++ [0]) (c :: pattern ++ [0]) = some result ∧
      First (Compared c pattern (comparedLength pattern.length)) text result := by
  have later_nonzero : ∀ later ∈ pattern, later ≠ 0 := fun later later_mem =>
    pattern_nonzero later (List.mem_cons_of_mem c later_mem)
  have counted : strlen (pattern ++ [0]) = some (wrap32 pattern.length) := by
    rw [strlen, strlenLoop_terminated later_nonzero (by decide), zero_add]
  obtain ⟨result, searched, first⟩ :=
    strstrLoop_terminated later_nonzero (comparedLength pattern.length) text_nonzero
  refine ⟨result, ?_, first⟩
  rw [List.cons_append, strstr, if_neg (pattern_nonzero c List.mem_cons_self), counted,
    Option.bind_some]
  exact searched

section

variable {c : Byte} {pattern : List Byte} {len : Nat} {result : Option (List Byte)}

/-- A proper prefix of the pattern passes for it. -/
theorem not_finds_of_shorter (shorter : len < pattern.length)
    (first : First (Compared c pattern len) (c :: pattern.take len) result) :
    ¬ Finds (c :: pattern.take len) (c :: pattern) result := by
  intro finds
  have here : Compared c pattern len (c :: pattern.take len) := by
    refine ⟨pattern.take len, rfl, ?_⟩
    rw [List.take_append_of_le_length (by rw [List.length_take]; omega), List.take_take,
      Nat.min_self, List.take_append_of_le_length shorter.le]
  rw [first.eq_of_here here] at finds
  have lengths := List.IsPrefix.length_le finds.here_of_eq
  rw [List.length_cons, List.length_cons, List.length_take] at lengths
  omega

/-- The pattern is missed where one more character follows. -/
theorem not_finds_of_longer (longer : pattern.length < len)
    (first : First (Compared c pattern len) (c :: pattern ++ [1]) result) :
    ¬ Finds (c :: pattern ++ [1]) (c :: pattern) result := by
  intro finds
  have occurs : c :: pattern <+: c :: pattern ++ [1] := List.prefix_append _ _
  rw [finds.eq_of_here occurs] at first
  obtain ⟨behind, rest_eq, taken⟩ := first.here_of_eq
  have behind_eq : pattern ++ [1] = behind := (List.cons.inj rest_eq).2
  rw [← behind_eq] at taken
  have at_end := congrArg (fun list => list[pattern.length]?) taken
  rw [List.getElem?_take_of_lt longer, List.getElem?_take_of_lt longer, List.append_assoc,
    List.getElem?_append_right le_rfl, List.getElem?_append_right le_rfl, Nat.sub_self]
    at at_end
  exact absurd (Option.some.inj at_end) (by decide)

end

/-- A string in which a pattern of another length than it is compared by is not
found, or one that is found in its place. -/
theorem exists_not_finds {c : Byte} {pattern : List Byte}
    (pattern_nonzero : ∀ byte ∈ c :: pattern, byte ≠ 0) {len : Nat}
    (other : len ≠ pattern.length) :
    ∃ text : List Byte, (∀ byte ∈ text, byte ≠ 0) ∧ ∀ result,
      First (Compared c pattern len) text result → ¬ Finds text (c :: pattern) result := by
  rcases lt_or_gt_of_ne other with shorter | longer
  · refine ⟨c :: pattern.take len, ?_, fun result first => not_finds_of_shorter shorter first⟩
    intro byte byte_mem
    rcases List.mem_cons.mp byte_mem with rfl | taken
    · exact pattern_nonzero byte List.mem_cons_self
    · exact pattern_nonzero byte (List.mem_cons_of_mem c (List.mem_of_mem_take taken))
  · refine ⟨c :: pattern ++ [1], ?_, fun result first => not_finds_of_longer longer first⟩
    intro byte byte_mem
    rcases List.mem_append.mp byte_mem with in_pattern | last
    · exact pattern_nonzero byte in_pattern
    · rw [List.mem_singleton.mp last]
      decide

/-- `strstr` finds the first occurrence of the pattern in every string exactly if
the pattern's length behind its first character is the same as an `int` and
back. -/
theorem strstr_finds_iff (pattern : CString) :
    (∀ text : CString, ∃ result,
        strstr text.terminated pattern.terminated = some result ∧
          Finds text.bytes pattern.bytes result) ↔
      pattern.bytes.length ≤ 2 ^ 31 ∨
        2 ^ 64 - 2 ^ 31 < pattern.bytes.length ∧ pattern.bytes.length ≤ 2 ^ 64 := by
  obtain ⟨bytes, nonzero⟩ := pattern
  cases bytes with
  | nil =>
      refine iff_of_true (fun text => ⟨some text.terminated, ?_, 0, Nat.zero_le _, ?_, ?_, rfl⟩)
        (.inl (Nat.zero_le _))
      · rfl
      · exact List.nil_prefix
      · exact fun earlier earlier_lt => absurd earlier_lt (Nat.not_lt_zero _)
  | cons c bytes =>
      have length_iff : comparedLength bytes.length = bytes.length ↔
          (c :: bytes).length ≤ 2 ^ 31 ∨
            2 ^ 64 - 2 ^ 31 < (c :: bytes).length ∧ (c :: bytes).length ≤ 2 ^ 64 := by
        rw [comparedLength_eq_iff, List.length_cons]
        omega
      rw [← length_iff]
      constructor
      · intro all_found
        by_contra other
        obtain ⟨text, text_nonzero, missed⟩ := exists_not_finds nonzero other
        obtain ⟨result, searched, finds⟩ := all_found ⟨text, text_nonzero⟩
        obtain ⟨result', searched', first⟩ := strstr_terminated nonzero text_nonzero
        obtain rfl : result = result' := Option.some.inj (searched.symm.trans searched')
        exact missed result first finds
      · intro same text
        obtain ⟨result, searched, first⟩ := strstr_terminated nonzero text.nonzero
        refine ⟨result, searched, first.congr fun rest => ?_⟩
        rw [same]
        exact compared_iff
          (fun later later_mem => nonzero later (List.mem_cons_of_mem c later_mem)) rest

/-- A pattern whose length is no `int`, at the beginning of a string. -/
theorem long_pattern_missed :
    let pattern := List.replicate (2 ^ 31 + 1) (chr 'a')
    ¬ ∃ result, strstr (pattern ++ [1] ++ [0]) (pattern ++ [0]) = some result ∧
      Finds (pattern ++ [1]) pattern result := by
  intro pattern
  have pattern_eq : pattern = chr 'a' :: List.replicate (2 ^ 31) (chr 'a') := List.replicate_succ
  have nonzero : ∀ byte ∈ pattern, byte ≠ 0 := by
    intro byte byte_mem
    rw [(List.mem_replicate.mp byte_mem).2]
    decide
  rw [pattern_eq] at nonzero ⊢
  have text_nonzero :
      ∀ byte ∈ chr 'a' :: List.replicate (2 ^ 31) (chr 'a') ++ [1], byte ≠ 0 := by
    intro byte byte_mem
    rcases List.mem_append.mp byte_mem with in_pattern | last
    · exact nonzero byte in_pattern
    · rw [List.mem_singleton.mp last]
      decide
  rintro ⟨result, searched, finds⟩
  obtain ⟨result', searched', first⟩ := strstr_terminated nonzero text_nonzero
  obtain rfl : result = result' := Option.some.inj (searched.symm.trans searched')
  rw [List.length_replicate] at first
  have longer : (List.replicate (2 ^ 31) (chr 'a')).length < comparedLength (2 ^ 31) := by
    rw [List.length_replicate]
    decide
  exact not_finds_of_longer longer first finds

end Jos64.Strings
