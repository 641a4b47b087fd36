import Jos64.Format.Field

/-!
# Error codes

`%e` looks up the magnitude of its argument in a table of messages, so that a code
and its negative are the same.  The magnitude is one of an `int`: the least number
has none there, stays negative, and passes for an index of the table.
-/

namespace Jos64.Format

open Jos64.Console

/-- The index that `%e` looks up. -/
def errorIndex (slot : BitVec 64) : Int :=
  if intArg slot < 0 then wrap32 (-intArg slot) else intArg slot

/-- The element of `error_string` that `%e` reads, if it reads one: it is the second
operand of `||`. -/
def errorRead (slot : BitVec 64) : Option Int :=
  if errorIndex slot ≥ maxError then none else some (errorIndex slot)

/-- The message that `%e` finds: of the table it looks at the element that it reads, and at
nothing else. -/
def errorMessage (mem : Mem) (slot : BitVec 64) : Option (BitVec 64) :=
  (errorRead slot).bind fun index =>
    if mem.errorString index = 0 then none else some (mem.errorString index)

theorem convertError_message (printfmt : Printfmt) (mem : Mem) (slot : BitVec 64) (st : State) :
    convertError printfmt mem slot st = match errorMessage mem slot with
      | none =>
          printfmt (str "error %d") (fun _ => (BitVec.ofInt 32 (errorIndex slot)).setWidth 64) st
      | some message => printfmt (str "%s") (fun _ => message) st := by
  rw [convertError, ← errorIndex, errorMessage, errorRead]
  by_cases outside : errorIndex slot ≥ maxError
  · rw [if_pos (.inl outside), if_pos outside, Option.bind_none]
  · rw [if_neg outside, Option.bind_some]
    by_cases null : mem.errorString (errorIndex slot) = 0
    · rw [if_pos (.inr null), if_pos null]
    · rw [if_neg (not_or.mpr ⟨outside, null⟩), if_neg null]

/-! ## What is printed -/

/-- The message for a magnitude. -/
def errorShown (magnitude : Nat) : List Byte :=
  (errorText magnitude).getD (str "error " ++ numeral 10 magnitude)

theorem errorText_length_le {err : Int} {text : List Byte} (found : errorText err = some text) :
    text.length ≤ 20 := by
  unfold errorText at found
  repeat'
    split at found
    · cases found
      decide
  contradiction

theorem errorText_of_maxError_le {err : Int} (outside : maxError ≤ err) : errorText err = none := by
  unfold maxError at outside
  unfold errorText
  rw [if_neg (by omega), if_neg (by omega), if_neg (by omega), if_neg (by omega),
    if_neg (by omega), if_neg (by omega)]

section

variable {mem : Mem} {args : Args} {ap : Nat}

/-- A string conversion without flags and width. -/
theorem convertString_init (mem : Mem) {slot : BitVec 64}
    (length_lt : (pointed mem slot).length < 2 ^ 31) (st : State) :
    convertString mem .init slot st = st.text (pointed mem slot) := by
  have string_eq : (if slot = 0 then str "(null)" else (mem.cstr slot).bytes) = pointed mem slot :=
    rfl
  have not_padded : ¬ (0 < Directive.init.width ∧ Directive.init.padc ≠ chr '-') := by decide
  have whole : (cut (-1) (pointed mem slot)).map (shown false) = pointed mem slot := by
    have same : shown false = id := by
      funext byte
      rw [shown, if_neg (by simp)]
      rfl
    rw [cut, if_pos (by decide), same, List.map_id]
  have uncut : cut (-1) (pointed mem slot) = pointed mem slot := if_pos (by decide)
  unfold convertString
  dsimp only
  rw [string_eq, if_neg not_padded, if_neg not_padded, if_neg not_padded]
  change (st.putchs (stringLoop false (-1) (-1) _).1).putchs
    (List.replicate (stringLoop false (-1) (-1) _).2.toNat _) = _
  rw [stringLoop_eq _ _ _ (by decide) (by decide), whole, uncut,
    wrap32_of_range (by omega) (by omega), Int.toNat_of_nonpos (by omega)]
  rfl

/-- A signed number without flags and width. -/
theorem signedNumber_init (st : State) (value : BitVec 64) :
    st.signedNumber value 10 .init = st.text (signedNumeral 10 value.toInt) := by
  have counted : Directive.init.Counted := ⟨by decide, by decide⟩
  have converted := convert_number counted (fun _ _ _ => none) .bare (fun _ => value) .d 0 st
  have plain_eq := (padded_absent .d value 0).trans (plain_signed (.inl rfl) value)
  change some (st.signedNumber value 10 .init, 1) = some (st.text (padded _ .d value), 1) at converted
  change padded .init .d value = signedNumeral 10 value.toInt at plain_eq
  rw [← plain_eq]
  exact congrArg Prod.fst (Option.some.inj converted)

/-- A code whose magnitude is an `int`. -/
theorem convertError_eq {slot : BitVec 64} {magnitude : Nat}
    (index_eq : errorIndex slot = magnitude) (small : magnitude < 2 ^ 31) (st : State) :
    convertError (printfmt mem) mem slot st = some (st.text (errorShown magnitude)) := by
  have without (missing : errorText magnitude = none) :
      printfmt mem (str "error %d") (fun _ => (BitVec.ofInt 32 magnitude).setWidth 64) st =
        some (st.text (errorShown magnitude)) := by
    have ascii : (str "error ").map unsignedChar = (str "error ").map signedChar := by decide
    have value_eq : ((BitVec.ofInt 32 (magnitude : Int)).setWidth 64).toInt = magnitude := by
      rw [BitVec.ofInt_natCast, BitVec.toInt_eq_toNat_of_lt, BitVec.toNat_setWidth,
        BitVec.toNat_ofNat]
      · omega
      · rw [BitVec.toNat_setWidth, BitVec.toNat_ofNat]
        omega
    rw [printfmt_error, ascii, signedNumber_init, value_eq, signedNumeral_natCast, errorShown,
      missing, Option.getD_none, State.text_append]
    rfl
  rw [convertError_message, errorMessage, errorRead, index_eq]
  by_cases outside : (magnitude : Int) ≥ maxError
  · rw [if_pos outside, Option.bind_none]
    exact without (errorText_of_maxError_le outside)
  · rw [if_neg outside, Option.bind_some]
    cases found : errorText magnitude with
    | none =>
        have null := mem.errorString_null magnitude (Int.natCast_nonneg _) (not_le.mp outside) found
        rw [if_pos null]
        exact without found
    | some text =>
        obtain ⟨message, bytes_eq⟩ := mem.errorString_text magnitude text found
        have pointed_eq : pointed mem (mem.errorString magnitude) = text := by
          rw [pointed, if_neg message, bytes_eq]
        have short := errorText_length_le found
        rw [if_neg message]
        dsimp only
        rw [printfmt_string, convertString_init mem (by rw [pointed_eq]; omega), pointed_eq,
          errorShown, found, Option.getD_some]

theorem printsHere_e {magnitude : Nat} (index_eq : errorIndex (args ap) = magnitude)
    (small : magnitude < 2 ^ 31) :
    PrintsHere mem args ap (ap + 1) (str "%e") (errorShown magnitude) := by
  have bytes_eq : str "%e" = chr '%' :: [chr 'e'] := by decide
  rw [bytes_eq]
  apply printsHere_of_directive
  intro st rest
  rw [List.singleton_append, directive_conversion (by decide)]
  change ((convertError (printfmt mem) mem (args ap) st).map (·, ap + 1)).map _ = _
  rw [convertError_eq index_eq small]
  rfl

end

/-! ## Codes and their negatives -/

/-- Wherever `%e` stands in a format and takes the code, it prints the text. -/
def PrintsError (mem : Mem) (err : BitVec 32) (text : List Byte) : Prop :=
  ∀ (args : Args) (ap : Nat), (args ap).setWidth 32 = err →
    PrintsHere mem args ap (ap + 1) (str "%e") text

/-- What is promised for a code: only the table is indexed, the negative code prints
the same, and a code without a message prints the numeral of its magnitude. -/
structure ErrorPrinted (mem : Mem) (err : BitVec 32) : Prop where
  in_table : ∀ slot : BitVec 64, slot.setWidth 32 = err → ∀ index, errorRead slot = some index →
    0 ≤ index ∧ index < maxError
  same_text : ∃ text, PrintsError mem err text ∧ PrintsError mem (-err) text
  numeral_shown : errorText err.toInt.natAbs = none →
    ∃ text, IsNumeral 10 err.toInt.natAbs text ∧ PrintsError mem err (str "error " ++ text)

theorem toInt_intMin : (BitVec.intMin 32).toInt = -(2 ^ 31) := by decide

theorem errorRead_intMin : errorRead ((BitVec.intMin 32).setWidth 64) = some (-(2 ^ 31)) := by
  decide

section

variable {err : BitVec 32} (not_least : err ≠ .intMin 32)

include not_least

theorem natAbs_lt : err.toInt.natAbs < 2 ^ 31 := by
  have low := BitVec.le_toInt err
  have high := BitVec.toInt_lt (x := err)
  have least : err.toInt ≠ -(2 ^ 31) := by
    rw [← toInt_intMin]
    exact fun same => not_least (BitVec.eq_of_toInt_eq same)
  omega

theorem errorIndex_eq {slot : BitVec 64} (code : slot.setWidth 32 = err) :
    errorIndex slot = err.toInt.natAbs := by
  have small := natAbs_lt not_least
  rw [errorIndex, intArg, code]
  split
  · rw [wrap32_of_range (by omega) (by omega)]
    omega
  · omega

theorem natAbs_neg_code : (-err).toInt.natAbs = err.toInt.natAbs := by
  rw [BitVec.toInt_neg_of_ne_intMin not_least, Int.natAbs_neg]

theorem neg_ne_intMin : -err ≠ .intMin 32 := by
  intro least
  have magnitudes := natAbs_neg_code not_least
  have small := natAbs_lt not_least
  rw [least, toInt_intMin] at magnitudes
  omega

theorem printsError_of_ne (mem : Mem) : PrintsError mem err (errorShown err.toInt.natAbs) :=
  fun _ _ code => printsHere_e (errorIndex_eq not_least code) (natAbs_lt not_least)

end

/-- `%e` keeps its promise for every code but the least `int`, for which it reads
the word `2 ^ 31` places in front of the table. -/
theorem errorPrinted_iff (mem : Mem) (err : BitVec 32) :
    ErrorPrinted mem err ↔ err ≠ .intMin 32 := by
  constructor
  · rintro printed rfl
    have inside := printed.in_table _ (by decide) _ errorRead_intMin
    exact absurd inside.1 (by decide)
  · intro not_least
    have printed := printsError_of_ne not_least mem
    refine ⟨?_, ⟨_, printed, ?_⟩, ?_⟩
    · intro slot code index read
      rw [errorRead, errorIndex_eq not_least code] at read
      split at read
      · contradiction
      · cases read
        omega
    · rw [← natAbs_neg_code not_least]
      exact printsError_of_ne (neg_ne_intMin not_least) mem
    · intro missing
      refine ⟨numeral 10 err.toInt.natAbs, ?_, ?_⟩
      · rw [isNumeral_iff (by decide), signedNumeral_natCast]
      · rw [errorShown, missing, Option.getD_none] at printed
        exact printed

/-- The least `int` is not looked up in the table. -/
theorem least_code_not_printed :
    errorRead ((BitVec.intMin 32).setWidth 64) = some (-(2 ^ 31)) ∧
      ¬ ErrorPrinted .bare (BitVec.intMin 32) := by
  refine ⟨errorRead_intMin, fun printed => ?_⟩
  have inside := printed.in_table _ (by decide) _ errorRead_intMin
  exact absurd inside.1 (by decide)

end Jos64.Format
