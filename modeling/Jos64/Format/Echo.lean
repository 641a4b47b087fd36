import Jos64.Format.Returns

/-!
# Directives that are given up

A directive whose flags are followed by a byte without a case is given up: the
`%` is printed, and the main loop goes on with the first flag.  No byte of the
format is lost or printed twice.  Only the arguments that were taken for a `*`
are not given back.
-/

namespace Jos64.Format

/-- The bytes that the flags, the width and the precision of a directive are
made of. -/
def isFlag (ch : Byte) : Bool :=
  [chr '-', chr '*', chr '.', chr '#', chr 'l'].contains ch ∨ 0x30 ≤ ch ∧ ch ≤ 0x39

theorem passable_of_isFlag : ∀ ch : Byte, isFlag ch → Passable ch := by
  decide

/-- A digit of a width or precision is a flag byte, and no star. -/
theorem isFlag_of_digit : ∀ ch : Byte,
    ¬ ((signedChar ch).slt 0x30 ∨ (0x39 : BitVec 32).slt (signedChar ch)) →
      isFlag ch ∧ ch ≠ chr '*' := by
  decide

theorem not_star_of_range : ∀ ch : Byte, 0x31 ≤ ch ∧ ch ≤ 0x39 → isFlag ch ∧ ch ≠ chr '*' := by
  decide

/-- The rest of a format does not go on with a flag or a conversion. -/
def Unrecognised (rest : List Byte) : Prop :=
  ∀ ch ∈ rest.head?, ¬ isFlag ch ∧ ¬ isConversion ch

instance (rest : List Byte) : Decidable (Unrecognised rest) :=
  inferInstanceAs (Decidable (∀ ch ∈ rest.head?, _))

section

variable {rest : List Byte} (unrecognised : Unrecognised rest)

include unrecognised

/-- The digits of a number all stand before the rest. -/
theorem digits_flags (precision : Int) (ch : Byte) (seen flags : List Byte) :
    ∃ taken left, flags = taken ++ left ∧ chr '*' ∉ taken ∧
      (digits precision ch seen (flags ++ rest)).2 = (taken.reverse ++ seen, left ++ rest) := by
  induction flags generalizing precision ch seen with
  | nil =>
      refine ⟨[], [], rfl, List.not_mem_nil, ?_⟩
      cases rest with
      | nil => rfl
      | cons stop rest =>
          have no_digit : (signedChar stop).slt 0x30 ∨
              (0x39 : BitVec 32).slt (signedChar stop) := by
            by_contra digit
            exact (unrecognised stop rfl).1 (isFlag_of_digit stop digit).1
          rw [List.nil_append, digits, if_pos no_digit]
          rfl
  | cons next flags ih =>
      rw [List.cons_append, digits]
      by_cases no_digit : (signedChar next).slt 0x30 ∨ (0x39 : BitVec 32).slt (signedChar next)
      · exact ⟨[], next :: flags, rfl, List.not_mem_nil, by rw [if_pos no_digit]; rfl⟩
      · rw [if_neg no_digit]
        obtain ⟨taken, left, flags_eq, no_star, read⟩ :=
          ih (wrap32 (wrap32 (precision * 10) + ch.toNat - 0x30)) next (next :: seen)
        refine ⟨next :: taken, left, by rw [flags_eq, List.cons_append], ?_, ?_⟩
        · rw [List.mem_cons, not_or]
          exact ⟨(isFlag_of_digit next no_digit).2.symm, no_star⟩
        · rw [read, List.reverse_cons, List.append_assoc]
          rfl

omit unrecognised in
/-- A flag byte that starts no number goes back to `reswitch`. -/
theorem flagCase_of_isFlag (args : Args) (d : Directive) (ap : Nat) {ch : Byte}
    (flag : isFlag ch) (not_range : ¬ (0x31 ≤ ch ∧ ch ≤ 0x39)) :
    ∃ d', flagCase args d ap ch = some (d', ap + [ch].count (chr '*')) := by
  have known : ∀ ch : Byte, isFlag ch → ¬ (0x31 ≤ ch ∧ ch ≤ 0x39) →
      ch = chr '-' ∨ ch = chr '0' ∨ ch = chr '*' ∨ ch = chr '.' ∨ ch = chr '#' ∨ ch = chr 'l' := by
    decide
  rcases known ch flag not_range with rfl | rfl | rfl | rfl | rfl | rfl
  all_goals exact ⟨_, rfl⟩

omit unrecognised in
theorem flagCase_eq_none (args : Args) (d : Directive) (ap : Nat) {ch : Byte}
    (no_flag : ¬ isFlag ch) : flagCase args d ap ch = none := by
  have other (c : Char) (flag : isFlag (chr c)) : ch ≠ chr c := by
    rintro rfl
    exact no_flag flag
  simp [flagCase, other '-' (by decide), other '0' (by decide), other '*' (by decide),
    other '.' (by decide), other '#' (by decide), other 'l' (by decide)]

/-- The flags are passed over to the rest, with an argument for each star. -/
theorem reswitch_flags (args : Args) (d : Directive) (seen : List Byte) (ap : Nat)
    (flags : List Byte) (all_flags : ∀ ch ∈ flags, isFlag ch) :
    ∃ d', reswitch args d seen ap (flags ++ rest) =
      ⟨d', flags.reverse ++ seen, ap + flags.count (chr '*'), rest⟩ := by
  induction length_eq : flags.length using Nat.strong_induction_on generalizing d seen ap flags with
  | _ length ih =>
      cases flags with
      | nil =>
          refine ⟨d, ?_⟩
          cases rest with
          | nil =>
              rw [List.append_nil, reswitch]
              rfl
          | cons stop rest =>
              have stops := unrecognised stop rfl
              have no_range : ¬ (0x31 ≤ stop ∧ stop ≤ 0x39) := fun range =>
                stops.1 (not_star_of_range stop range).1
              rw [List.nil_append, reswitch, if_neg no_range, flagCase_eq_none args d ap stops.1]
              rfl
      | cons ch flags =>
          rw [List.length_cons] at length_eq
          have later_flags : ∀ later ∈ flags, isFlag later := fun later later_mem =>
            all_flags later (List.mem_cons_of_mem ch later_mem)
          rw [List.cons_append, reswitch]
          by_cases range : 0x31 ≤ ch ∧ ch ≤ 0x39
          · obtain ⟨taken, left, flags_eq, no_star, read⟩ :=
              digits_flags unrecognised 0 ch (ch :: seen) flags
            have left_length : left.length < length := by
              rw [flags_eq, List.length_append] at length_eq
              omega
            obtain ⟨d', scan⟩ := ih left.length left_length
              (d.processPrecision (digits 0 ch (ch :: seen) (flags ++ rest)).1)
              (taken.reverse ++ ch :: seen) ap left
              (fun later later_mem => later_flags later
                (flags_eq ▸ List.mem_append_right taken later_mem)) rfl
            refine ⟨d', ?_⟩
            rw [if_pos range]
            dsimp only
            rw [read, scan, flags_eq, List.count_cons_of_ne (not_star_of_range ch range).2,
              List.count_append, List.count_eq_zero_of_not_mem no_star, Nat.zero_add,
              List.reverse_cons, List.reverse_append, List.append_assoc, List.append_assoc]
            rfl
          · obtain ⟨d', flag⟩ :=
              flagCase_of_isFlag args d ap (all_flags ch List.mem_cons_self) range
            obtain ⟨d'', scan⟩ := ih flags.length (by omega) d' (ch :: seen)
              (ap + [ch].count (chr '*')) flags later_flags rfl
            refine ⟨d'', ?_⟩
            rw [if_neg range, flag]
            dsimp only
            rw [scan, List.reverse_cons, List.append_assoc, Nat.add_assoc, ← List.count_append]
            rfl

/-- The directive is given up at its own `%`. -/
theorem directive_unrecognised (printfmt : Printfmt) (mem : Mem) (args : Args) (ap : Nat)
    (st : State) (flags : List Byte) (all_flags : ∀ ch ∈ flags, isFlag ch) :
    directive printfmt mem args ap st (flags ++ rest) =
      some (st.putch (unsignedChar (chr '%')), ap + flags.count (chr '*'), flags ++ rest) := by
  obtain ⟨d', scan⟩ := reswitch_flags unrecognised args .init [chr '%'] ap flags all_flags
  have rewound (left : List Byte) :
      rewind (flags.reverse ++ [chr '%']) left = flags ++ left := by
    rw [rewind_append _ _ fun ch ch_mem =>
      passable_of_isFlag ch (all_flags ch (List.mem_reverse.mp ch_mem)), List.reverse_reverse]
  rw [directive, scan]
  cases rest with
  | nil => rw [rewound]
  | cons stop rest =>
      dsimp only
      rw [if_neg (unrecognised stop rfl).2, rewound]

end

/-- An unrecognised directive prints its `%` and goes on behind it, as after a
byte of text; and so its flags are printed as they stand. -/
theorem unrecognised_echoed (mem : Mem) (args : Args) (ap : Nat) (st : State)
    (flags rest : List Byte) (all_flags : ∀ ch ∈ flags, isFlag ch)
    (unrecognised : Unrecognised rest) :
    let behind := vprintfmtWith (printfmt mem) mem args (ap + flags.count (chr '*'))
    vprintfmtWith (printfmt mem) mem args ap st (chr '%' :: (flags ++ rest)) =
        behind (st.putch (unsignedChar (chr '%'))) (flags ++ rest) ∧
      vprintfmtWith (printfmt mem) mem args ap st (chr '%' :: (flags ++ rest)) =
        behind (st.putchs ((chr '%' :: flags).map unsignedChar)) rest := by
  intro behind
  have given_up : vprintfmtWith (printfmt mem) mem args ap st (chr '%' :: (flags ++ rest)) =
      behind (st.putch (unsignedChar (chr '%'))) (flags ++ rest) :=
    vprintfmtWith_directive
      (directive_unrecognised unrecognised (printfmt mem) mem args ap st flags all_flags)
  refine ⟨given_up, given_up.trans ?_⟩
  exact vprintfmtWith_append (fun ch ch_mem => passable_of_isFlag ch (all_flags ch ch_mem)) _ rest

/-- A truncated directive with a star and a number. -/
theorem unrecognised_echoed_truncated :
    vprintfmt .bare (fun _ => 7) ⟨[], .init⟩ (str "%-*30l") =
      some ((⟨[], .init⟩ : State).putchs ((str "%-*30l").map unsignedChar)) :=
  (unrecognised_echoed .bare (fun _ => 7) 0 ⟨[], .init⟩ (str "-*30l") [] (by decide)
    (by decide)).2.trans (vprintfmtWith_nil _)

end Jos64.Format
