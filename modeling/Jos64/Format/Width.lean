import Jos64.Format.Number

/-!
# Field widths

A number is to be padded to the width of its field: with spaces before it, with
zeros behind its sign or prefix, or with spaces after it.  The padding is counted
from the digits alone, and for the flag `-` it is made of minus signs.
-/

namespace Jos64.Format

/-- The field that a number is to be printed in. -/
def Flag.field (flag : Flag) (w : Nat) (lead body : List Byte) : List Byte :=
  let missing := w - (lead ++ body).length
  match flag with
  | none => List.replicate missing (chr ' ') ++ (lead ++ body)
  | zero => lead ++ (List.replicate missing (chr '0') ++ body)
  | minus => lead ++ body ++ List.replicate missing (chr ' ')

theorem Flag.length_field (flag : Flag) (w : Nat) (lead body : List Byte) :
    (flag.field w lead body).length = max w (lead ++ body).length := by
  cases flag with
  | none | zero | minus =>
      simp only [field, List.length_append, List.length_replicate]
      omega

/-- The formatter prints the text, and nothing else happens. -/
def Prints (mem : Mem) (fmt : List Byte) (args : Args) (text : List Byte) : Prop :=
  ∀ st, vprintfmt mem args st fmt = some (st.text text)

theorem prints_iff_of {mem : Mem} {fmt : List Byte} {args : Args} {printed : List Byte}
    (prints : Prints mem fmt args printed) (text : List Byte) :
    Prints mem fmt args text ↔ printed = text := by
  constructor
  · intro same
    have twice := (prints ⟨[], .init⟩).symm.trans (same ⟨[], .init⟩)
    exact State.text_inj.mp (Option.some.inj twice)
  · rintro rfl
    exact prints

/-- A format that is a number directive. -/
theorem prints_number (mem : Mem) (args : Args) (flag : Flag) (spelling : Spelling) {w : Nat}
    (given : spelling.Given w args 0) (small : w < 2 ^ 31) (longs : Nat) (conv : Conversion) :
    Prints mem (chr '%' :: directiveBytes flag spelling w longs conv) args
      (padded ⟨flag.padc, spelling.width w, -1, longs, false⟩ conv (args spelling.slots)) := by
  intro st
  have read := directive_number (printfmt mem) mem flag spelling given small longs conv st []
  rw [List.append_nil, Nat.zero_add] at read
  rw [vprintfmt, vprintfmtWith_directive read, vprintfmtWith_nil]

/-- What stands before the digits of a number without a width. -/
theorem padded_absent (conv : Conversion) (value : BitVec 64) (longs : Nat) :
    padded ⟨chr ' ', -1, -1, longs, false⟩ conv value = conv.plain value := by
  have none_left : ((-1 : Int) - (conv.body value).length).toNat = 0 := by omega
  rw [padded, none_left, Conversion.plain]
  rfl

/-! ## The padding -/

section

variable {w : Nat} {lead body : List Byte}

/-- A field that its digits fill has no padding. -/
theorem field_of_full (flag : Flag) (full : w ≤ body.length) :
    flag.field w lead body = lead ++ body := by
  have none_missing : w - (lead ++ body).length = 0 := by
    rw [List.length_append]
    omega
  cases flag with
  | none | zero | minus =>
      rw [Flag.field, none_missing]
      simp

/-- The padding that is printed is the one of the field exactly where there is
none, or where nothing stands before it and it stands before the digits. -/
theorem padding_eq_field_iff (flag : Flag)
    (no_minus : ∀ byte ∈ body, byte ≠ chr '-') (body_pos : 0 < body.length) :
    lead ++ (List.replicate (w - body.length) flag.padc ++ body) = flag.field w lead body ↔
      w ≤ body.length ∨ (lead = [] ∧ flag ≠ .minus) := by
  by_cases full : w ≤ body.length
  · rw [field_of_full flag full, Nat.sub_eq_zero_of_le full]
    exact iff_of_true rfl (.inl full)
  rw [not_le] at full
  by_cases led : lead = []
  · subst led
    cases flag with
    | none | zero => exact iff_of_true rfl (.inr ⟨rfl, nofun⟩)
    | minus =>
        refine iff_of_false ?_ fun either => ?_
        · -- the first byte is a minus sign, not a digit
          intro same
          obtain ⟨missing, missing_eq⟩ : ∃ missing, w - body.length = missing + 1 :=
            ⟨w - body.length - 1, by omega⟩
          obtain ⟨first, more, rfl⟩ := List.exists_cons_of_length_pos body_pos
          rw [missing_eq, List.replicate_succ] at same
          exact no_minus first List.mem_cons_self (List.cons.inj same).1.symm
        · rcases either with short | ⟨-, other⟩
          · omega
          · exact other rfl
  · -- the field is too long by its sign or prefix
    have lead_pos := List.length_pos_of_ne_nil led
    refine iff_of_false ?_ fun either => ?_
    · intro same
      have lengths := congrArg List.length same
      rw [Flag.length_field] at lengths
      simp only [List.length_append, List.length_replicate] at lengths
      omega
    · rcases either with short | ⟨empty, -⟩
      · omega
      · exact led empty

end

theorem numeral_no_minus {base : Nat} (two_le : 2 ≤ base) (small : base ≤ 16) (n : Nat) :
    ∀ byte ∈ numeral base n, byte ≠ chr '-' := by
  have known : ∀ digit < 16, digitChar digit ≠ chr '-' := by decide
  intro byte byte_mem
  obtain ⟨digit, digit_mem, rfl⟩ := List.mem_map.mp byte_mem
  exact known digit ((Numeral.digits_lt two_le n digit digit_mem).trans_le small)

/-- Without a width a number is printed as its sign or prefix and its digits.
With one it is padded to its field exactly if the digits fill the width, or if
there is no sign or prefix and the flag is not `-`. -/
theorem number_field_iff (mem : Mem) (args : Args) (conv : Conversion) (flag : Flag)
    (spelling : Spelling) (present : spelling ≠ .absent) {w : Nat} (small : w < 2 ^ 31)
    (given : spelling.Given w args 0) (longs : Nat) :
    let value := args spelling.slots
    Prints mem (chr '%' :: directiveBytes .none .absent 0 longs conv) (fun _ => value)
        (conv.plain value) ∧
      (Prints mem (chr '%' :: directiveBytes flag spelling w longs conv) args
          (flag.field w (conv.lead value) (conv.body value)) ↔
        w ≤ (conv.body value).length ∨ (conv.lead value = [] ∧ flag ≠ .minus)) := by
  intro value
  constructor
  · rw [← padded_absent conv value longs]
    exact prints_number mem _ .none .absent trivial (by decide) longs conv
  · have width_eq : spelling.width w = w := by
      cases spelling with
      | absent => exact absurd rfl present
      | decimal | star => rfl
    have missing : ((w : Int) - (conv.body value).length).toNat = w - (conv.body value).length := by
      omega
    have base_le : conv.base ≤ 16 := by
      cases conv with
      | _ => decide
    rw [prints_iff_of (prints_number mem args flag spelling given small longs conv), padded,
      width_eq, missing]
    exact padding_eq_field_iff flag (numeral_no_minus conv.two_le_base base_le _)
      (conv.length_body_pos value)

/-- A number without a sign is padded with spaces. -/
theorem number_field_iff_five :
    Prints .bare (chr '%' :: directiveBytes .none .decimal 3 0 .u) (fun _ => 5)
      (Flag.none.field 3 [] (Conversion.u.body 5)) :=
  (number_field_iff .bare (fun _ => 5) .u .none .decimal nofun (by decide)
    ⟨by decide, by decide⟩ 0).2.mpr (.inr ⟨rfl, nofun⟩)

/-- The zeros behind a minus sign fill the width without it. -/
theorem minus_one_too_long :
    ¬ Prints .bare (str "%05d") (fun _ => -1) (Flag.zero.field 5 (str "-") (str "1")) := by
  have format_eq : str "%05d" = chr '%' :: directiveBytes .zero .decimal 5 0 .d := by
    rw [directiveBytes, Spelling.bytes, numeral_of_lt (by decide)]
    decide
  have body_eq : Conversion.d.body (-1) = str "1" := by
    change numeral 10 1 = _
    rw [numeral_of_lt (by decide)]
    decide
  have printed :
      Prints .bare (chr '%' :: directiveBytes .zero .decimal 5 0 .d) (fun _ => -1) _ :=
    prints_number .bare _ .zero .decimal ⟨by decide, by decide⟩ (by decide) 0 .d
  rw [format_eq, prints_iff_of printed, padded, body_eq]
  decide

end Jos64.Format
