import Jos64.Format.Value

/-!
# String directives

A string is printed in a field: cut to the precision, shown with `?` for what is
not printable if the directive says so, and padded with spaces.  The scanner
takes every `0` that no digit precedes for the padding flag, the ones behind the
point of a precision as well.  So a precision of zero is no precision, and zeros
in front of another one pad the field.
-/

namespace Jos64.Format

open Jos64.Console

/-! ## The character loop -/

/-- The characters that a precision leaves. -/
def cut (precision : Int) (p : List Byte) : List Byte :=
  if precision < 0 then p else p.take precision.toNat

/-- What is printed for a character. -/
def shown (altflag : Bool) (byte : Byte) : Byte :=
  if altflag ∧ ¬ (chr ' ' ≤ byte ∧ byte ≤ chr '~') then chr '?' else byte

theorem strnlen_eq (p : List Byte) (precision : Int) :
    strnlen p precision = (cut precision p).length := by
  rw [strnlen, cut]
  split
  · rfl
  · rw [List.length_take, Nat.min_comm]

theorem signedChar_shown (altflag : Bool) (byte : Byte) :
    (if altflag ∧ ((signedChar byte).slt 0x20 ∨ (0x7E : BitVec 32).slt (signedChar byte)) then 0x3F
      else signedChar byte) = signedChar (shown altflag byte) := by
  have printable : ∀ byte : Byte,
      ((signedChar byte).slt 0x20 ∨ (0x7E : BitVec 32).slt (signedChar byte)) ↔
        ¬ (chr ' ' ≤ byte ∧ byte ≤ chr '~') := by
    decide
  simp only [shown, printable]
  split
  · rfl
  · rfl

/-- The loop prints the characters that the precision leaves, and counts the
width down by them. -/
theorem stringLoop_eq (altflag : Bool) (precision : Int) {width : Int} (p : List Byte)
    (low : -(2 ^ 31) ≤ width) (high : width < 2 ^ 31) :
    stringLoop altflag precision width p =
      (((cut precision p).map (shown altflag)).map signedChar,
        wrap32 (width - (cut precision p).length)) := by
  induction p generalizing precision width with
  | nil =>
      have empty : cut precision [] = [] := by simp [cut]
      rw [stringLoop, empty, List.length_nil, Nat.cast_zero, sub_zero, wrap32_of_range low high]
      rfl
  | cons byte p ih =>
      rw [stringLoop]
      by_cases more : precision < 0 ∨ precision - 1 ≥ 0
      · have cut_eq : cut precision (byte :: p) =
            byte :: cut (if precision < 0 then precision else precision - 1) p := by
          by_cases unbounded : precision < 0
          · rw [if_pos unbounded, cut, cut, if_pos unbounded, if_pos unbounded]
          · have count : precision.toNat = (precision - 1).toNat + 1 := by omega
            rw [if_neg unbounded, cut, cut, if_neg unbounded, if_neg (by omega), count,
              List.take_succ_cons]
        have step := ih (if precision < 0 then precision else precision - 1)
          (wrap32_low (width - 1)) (wrap32_high (width - 1))
        rw [if_pos more]
        dsimp only
        rw [step, signedChar_shown, cut_eq, wrap32_wrap32_sub, List.length_cons, List.map_cons,
          List.map_cons]
        push_cast
        rw [sub_sub, add_comm (1 : Int)]
      · have empty : cut precision (byte :: p) = [] := by
          have none_left : precision.toNat = 0 := by omega
          rw [cut, if_neg (by omega), none_left, List.take_zero]
        rw [if_neg more, empty, List.length_nil, Nat.cast_zero, sub_zero,
          wrap32_of_range low high]
        rfl

/-! ## The conversion -/

/-- The string that the argument points to. -/
def pointed (mem : Mem) (slot : BitVec 64) : List Byte :=
  if slot = 0 then str "(null)" else (mem.cstr slot).bytes

/-- The spaces that are printed behind a string padded before it.  The width is
counted down past zero, and a long string wraps it to a positive number. -/
def overflow (w : Nat) (length : Nat) : Nat :=
  (wrap32 (min ((w : Int) - length) 0 - length)).toNat

theorem overflow_eq_zero_iff {w length : Nat} (w_lt : w < 2 ^ 31) (length_lt : length < 2 ^ 31) :
    overflow w length = 0 ↔ 2 * length ≤ w + 2 ^ 31 := by
  rw [overflow]
  by_cases inside : 2 * length ≤ w + 2 ^ 31
  · rw [wrap32_of_range (by omega) (by omega)]
    omega
  · have wrapped : wrap32 (min ((w : Int) - length) 0 - length) = w - 2 * length + 2 ^ 32 := by
      rw [min_eq_left (by omega), wrap32, Int.bmod_def]
      split
      · omega
      · omega
    rw [wrapped]
    omega

/-- The text of a string conversion with a width. -/
def stringText (d : Directive) (w : Nat) (p : List Byte) : List Byte :=
  let body := (cut d.precision p).map (shown d.altflag)
  if d.padc = chr '-' then body ++ List.replicate (w - body.length) (chr ' ')
  else List.replicate (w - body.length) d.padc ++
    (body ++ List.replicate (overflow w body.length) (chr ' '))

theorem convertString_eq (mem : Mem) {d : Directive} {w : Nat} (width_eq : d.width = w)
    (positive : 1 ≤ w) (small : w < 2 ^ 31) {slot : BitVec 64}
    (length_lt : (pointed mem slot).length < 2 ^ 31) (st : State) :
    convertString mem d slot st = st.text (stringText d w (pointed mem slot)) := by
  have cut_length : (cut d.precision (pointed mem slot)).length < 2 ^ 31 := by
    rw [← strnlen_eq, strnlen]
    split
    · exact length_lt
    · exact (Nat.min_le_left _ _).trans_lt length_lt
  have space : signedChar (chr ' ') = 0x20 := by decide
  have string_eq : (if slot = 0 then str "(null)" else (mem.cstr slot).bytes) = pointed mem slot :=
    rfl
  unfold convertString
  dsimp only
  rw [string_eq, stringText, State.text, List.length_map, width_eq, strnlen_eq]
  by_cases minus : d.padc = chr '-'
  · have not_padded : ¬ (0 < (w : Int) ∧ d.padc ≠ chr '-') := fun padded => padded.2 minus
    have missing : ((w : Int) - (cut d.precision (pointed mem slot)).length).toNat =
        w - (cut d.precision (pointed mem slot)).length := by omega
    rw [if_neg not_padded, if_neg not_padded, if_neg not_padded, if_pos minus,
      stringLoop_eq _ _ _ (by omega) (by omega), List.map_append, State.putchs_append,
      wrap32_of_range (by omega) (by omega), missing, List.map_replicate, space]
  · have padded : 0 < (w : Int) ∧ d.padc ≠ chr '-' := ⟨by omega, minus⟩
    have missing : ((w : Int) - (cut d.precision (pointed mem slot)).length).toNat =
        w - (cut d.precision (pointed mem slot)).length := by omega
    rw [if_pos padded, if_pos padded, if_pos padded, if_neg minus,
      stringLoop_eq _ _ _ (by omega) (by omega), List.map_append, List.map_append,
      State.putchs_append, State.putchs_append, missing, List.map_replicate, List.map_replicate,
      space, overflow]

/-! ## Reading a string directive -/

/-- The marks in front of a width. -/
inductive Mark where
  | minus
  | alt
  deriving DecidableEq

def Mark.byte : Mark → Byte
  | minus => chr '-'
  | alt => chr '#'

/-- A width, and perhaps a precision: the number of zeros in front of its numeral,
and its value.  Both are numbers that an `int` holds. -/
structure Field where
  marks : List Mark
  width : Nat
  precision : Option (Nat × Nat)
  width_pos : 1 ≤ width
  width_lt : width < 2 ^ 31
  precision_lt : ∀ zeros value, precision = some (zeros, value) → value < 2 ^ 31

namespace Field

/-- The numeral of a precision. -/
def precisionBytes : Option (Nat × Nat) → List Byte
  | none => []
  | some (zeros, value) => chr '.' :: (List.replicate zeros (chr '0') ++ numeral 10 value)

/-- The bytes of the directive behind its `%`. -/
def bytes (field : Field) : List Byte :=
  field.marks.map Mark.byte ++
    (numeral 10 field.width ++ (precisionBytes field.precision ++ [chr 's']))

/-- The padding is to stand behind the string. -/
def Behind (field : Field) : Prop :=
  .minus ∈ field.marks

instance (field : Field) : Decidable field.Behind :=
  inferInstanceAs (Decidable (_ ∈ _))

/-- The characters that the precision is to leave. -/
def clip (field : Field) (p : List Byte) : List Byte :=
  match field.precision with
  | none => p
  | some (_, value) => p.take value

/-- What the directive is to print. -/
def text (field : Field) (p : List Byte) : List Byte :=
  let body := (field.clip p).map (shown (decide (.alt ∈ field.marks)))
  let spaces := List.replicate (field.width - body.length) (chr ' ')
  if field.Behind then body ++ spaces else spaces ++ body

/-- The flags behind the marks. -/
def marked (d : Directive) (marks : List Mark) : Directive :=
  { d with
    padc := if .minus ∈ marks then chr '-' else d.padc
    altflag := d.altflag || decide (.alt ∈ marks) }

/-- The padding flag and the precision that the scanner makes of a precision. -/
def scanned (d : Directive) : Option (Nat × Nat) → Directive
  | none => d
  | some (zeros, value) =>
      { d with
        padc := if zeros = 0 ∧ value ≠ 0 then d.padc else chr '0'
        precision := if value = 0 then -1 else value }

section

variable {args : Args} {ap : Nat}

theorem reswitch_marks (d : Directive) (seen : List Byte) (marks : List Mark) (fmt : List Byte) :
    ∃ seen', reswitch args d seen ap (marks.map Mark.byte ++ fmt) =
      reswitch args (marked d marks) seen' ap fmt := by
  induction marks generalizing d seen with
  | nil =>
      have same : marked d [] = d := by simp [marked]
      exact ⟨seen, by rw [same]; rfl⟩
  | cons mark marks ih =>
      cases mark with
      | minus =>
          have flag : flagCase args d ap (chr '-') = some ({ d with padc := chr '-' }, ap) := by
            rfl
          obtain ⟨seen', scan⟩ := ih { d with padc := chr '-' } (chr '-' :: seen)
          refine ⟨seen', ?_⟩
          rw [List.map_cons, List.cons_append, Mark.byte, reswitch_flag (by decide) flag, scan]
          simp [marked]
      | alt =>
          have flag : flagCase args d ap (chr '#') = some ({ d with altflag := true }, ap) := by
            rfl
          obtain ⟨seen', scan⟩ := ih { d with altflag := true } (chr '#' :: seen)
          refine ⟨seen', ?_⟩
          rw [List.map_cons, List.cons_append, Mark.byte, reswitch_flag (by decide) flag, scan]
          simp [marked]

theorem reswitch_zeros (d : Directive) (seen : List Byte) (zeros : Nat) (fmt : List Byte) :
    ∃ seen', reswitch args d seen ap (List.replicate zeros (chr '0') ++ fmt) =
      reswitch args { d with padc := if zeros = 0 then d.padc else chr '0' } seen' ap fmt := by
  induction zeros generalizing d seen with
  | zero => exact ⟨seen, rfl⟩
  | succ zeros ih =>
      have flag : flagCase args d ap (chr '0') = some ({ d with padc := chr '0' }, ap) := by
        rfl
      obtain ⟨seen', scan⟩ := ih { d with padc := chr '0' } (chr '0' :: seen)
      refine ⟨seen', ?_⟩
      rw [List.replicate_succ, List.cons_append, reswitch_flag (by decide) flag, scan]
      simp

theorem reswitch_letter (d : Directive) (seen rest : List Byte) :
    reswitch args d seen ap (chr 's' :: rest) = ⟨d, seen, ap, chr 's' :: rest⟩ := by
  obtain ⟨range, stop⟩ := flagCase_of_isConversion args ap d (by decide : isConversion (chr 's'))
  rw [reswitch, if_neg range, stop]

theorem reswitch_precision (d : Directive) (seen : List Byte) (width_nonneg : 0 ≤ d.width)
    (no_precision : d.precision = -1) {precision : Option (Nat × Nat)}
    (fits : ∀ zeros value, precision = some (zeros, value) → value < 2 ^ 31) (rest : List Byte) :
    ∃ seen', reswitch args d seen ap (precisionBytes precision ++ chr 's' :: rest) =
      ⟨scanned d precision, seen', ap, chr 's' :: rest⟩ := by
  cases precision with
  | none => exact ⟨seen, reswitch_letter d seen rest⟩
  | some spelled =>
      obtain ⟨zeros, value⟩ := spelled
      have point : flagCase args d ap (chr '.') = some (d, ap) := by
        change some (if d.width < 0 then { d with width := 0 } else d, ap) = _
        rw [if_neg (not_lt.mpr width_nonneg)]
      rw [precisionBytes, List.cons_append, reswitch_flag (by decide) point, List.append_assoc]
      obtain ⟨seen', zeros_read⟩ := reswitch_zeros d (chr '.' :: seen) zeros
        (numeral 10 value ++ chr 's' :: rest)
      rw [zeros_read]
      by_cases zero : value = 0
      · -- the numeral of zero is one more padding flag
        subst zero
        have numeral_eq : numeral 10 0 = [chr '0'] := numeral_of_lt (by decide)
        have flag (d : Directive) :
            flagCase args d ap (chr '0') = some ({ d with padc := chr '0' }, ap) := by
          rfl
        refine ⟨chr '0' :: seen', ?_⟩
        rw [numeral_eq, List.singleton_append, reswitch_flag (by decide) (flag _),
          reswitch_letter]
        simp [scanned, no_precision]
      · obtain ⟨number_seen, number_read⟩ := reswitch_numeral args ap
          { d with padc := if zeros = 0 then d.padc else chr '0' } seen'
          (Nat.one_le_iff_ne_zero.mpr zero) (fits zeros value rfl)
          (by decide : (signedChar (chr 's')).slt 0x30 ∨
            (0x39 : BitVec 32).slt (signedChar (chr 's')))
          rest
        refine ⟨number_seen, ?_⟩
        rw [number_read, Directive.processPrecision, if_neg (not_lt.mpr width_nonneg),
          reswitch_letter]
        simp [scanned, zero]

/-- The flags that a string directive is read as. -/
def directive (field : Field) : Directive :=
  scanned { marked .init field.marks with width := field.width } field.precision

theorem reswitch_bytes (field : Field) (seen rest : List Byte) :
    ∃ seen', reswitch args .init seen ap (field.bytes ++ rest) =
      ⟨field.directive, seen', ap, chr 's' :: rest⟩ := by
  have order : field.bytes ++ rest = field.marks.map Mark.byte ++
      (numeral 10 field.width ++ (precisionBytes field.precision ++ chr 's' :: rest)) := by
    rw [bytes, List.append_assoc, List.append_assoc, List.append_assoc, List.singleton_append]
  obtain ⟨stop, more, behind, stops⟩ : ∃ stop more,
      precisionBytes field.precision ++ chr 's' :: rest = stop :: more ∧
        ((signedChar stop).slt 0x30 ∨ (0x39 : BitVec 32).slt (signedChar stop)) := by
    cases field.precision with
    | none => exact ⟨chr 's', rest, rfl, by decide⟩
    | some spelled => exact ⟨chr '.', _, rfl, by decide⟩
  obtain ⟨seen', marks_read⟩ := reswitch_marks .init seen field.marks
    (numeral 10 field.width ++ (precisionBytes field.precision ++ chr 's' :: rest))
  obtain ⟨width_seen, width_read⟩ := reswitch_numeral args ap (marked .init field.marks) seen'
    field.width_pos field.width_lt stops more
  obtain ⟨all_seen, precision_read⟩ := reswitch_precision
    { marked .init field.marks with width := field.width } width_seen (Int.natCast_nonneg _) rfl
    field.precision_lt rest
  refine ⟨all_seen, ?_⟩
  rw [order, marks_read, behind, width_read, ← behind]
  exact precision_read

end

/-- A string directive prints the text of the flags it is read as. -/
theorem printsHere_bytes (field : Field) (mem : Mem) (args : Args) (ap : Nat)
    (length_lt : (pointed mem (args ap)).length < 2 ^ 31) :
    PrintsHere mem args ap (ap + 1) (chr '%' :: field.bytes)
      (stringText field.directive field.width (pointed mem (args ap))) := by
  apply printsHere_of_directive
  intro st rest
  obtain ⟨seen', scan⟩ := reswitch_bytes field [chr '%'] rest
  have width_eq : field.directive.width = field.width := by
    unfold directive scanned
    split
    · rfl
    · rfl
  rw [Format.directive, scan]
  dsimp only
  rw [if_pos (by decide)]
  change some (convertString mem field.directive (args ap) st, ap + 1, rest) = _
  rw [convertString_eq mem width_eq field.width_pos field.width_lt length_lt]

/-! ## When the field is right -/

/-- The zeros of the precision are read for what they are, and the width is not
counted down below the least `int`. -/
def Kept (field : Field) (p : List Byte) : Prop :=
  match field.precision with
  | none => field.Behind ∨ 2 * p.length ≤ field.width + 2 ^ 31
  | some (zeros, value) =>
      if value = 0 then p = List.replicate field.width (chr ' ')
      else (zeros = 0 ∧ field.Behind ∨ 2 * (p.take value).length ≤ field.width + 2 ^ 31) ∧
        (zeros = 0 ∨ field.width ≤ (p.take value).length)

theorem shown_eq_space_iff : ∀ altflag byte, shown altflag byte = chr ' ' ↔ byte = chr ' ' := by
  decide

section Padding

variable {w : Nat} {body : List Byte} (w_lt : w < 2 ^ 31) (length_lt : body.length < 2 ^ 31)

include w_lt length_lt

/-- Spaces before a string are right unless the width overflows. -/
theorem spaces_iff :
    List.replicate (w - body.length) (chr ' ') ++
        (body ++ List.replicate (overflow w body.length) (chr ' ')) =
      List.replicate (w - body.length) (chr ' ') ++ body ↔ 2 * body.length ≤ w + 2 ^ 31 := by
  rw [← overflow_eq_zero_iff w_lt length_lt, List.append_cancel_left_eq, List.append_right_eq_self,
    List.replicate_eq_nil_iff]

/-- Zeros before a string are never right. -/
theorem zeros_iff (behind : Prop) [Decidable behind] :
    List.replicate (w - body.length) (chr '0') ++
        (body ++ List.replicate (overflow w body.length) (chr ' ')) =
      (if behind then body ++ List.replicate (w - body.length) (chr ' ')
        else List.replicate (w - body.length) (chr ' ') ++ body) ↔
      2 * body.length ≤ w + 2 ^ 31 ∧ w ≤ body.length := by
  have no_zero : chr ' ' ≠ chr '0' := by decide
  by_cases full : w ≤ body.length
  · rw [Nat.sub_eq_zero_of_le full, List.replicate_zero, List.replicate_zero, List.nil_append,
      List.append_nil, List.nil_append, ite_self, List.append_right_eq_self,
      List.replicate_eq_nil_iff, overflow_eq_zero_iff w_lt length_lt]
    exact (and_iff_left full).symm
  · refine iff_of_false ?_ fun both => full both.2
    intro same
    have zeros := congrArg (List.count (chr '0')) same
    rw [apply_ite (List.count (chr '0'))] at zeros
    simp only [List.count_append, List.count_replicate_self, List.count_replicate,
      beq_eq_false_iff_ne.mpr no_zero, Bool.false_eq_true, if_false, Nat.zero_add, Nat.add_zero,
      ite_self] at zeros
    omega

omit length_lt in
/-- A string printed for a precision of zero is right if it looks like the
padding. -/
theorem whole_iff (altflag : Bool) {p : List Byte} (p_lt : p.length < 2 ^ 31) :
    List.replicate (w - p.length) (chr '0') ++
        (p.map (shown altflag) ++ List.replicate (overflow w p.length) (chr ' ')) =
      List.replicate w (chr ' ') ↔ p = List.replicate w (chr ' ') := by
  constructor
  · intro same
    obtain ⟨lengths, zeros, rest⟩ := List.append_eq_replicate_iff.mp same
    obtain ⟨-, all_spaces, -⟩ := List.append_eq_replicate_iff.mp rest
    have full : w ≤ p.length := by
      by_contra longer
      have first : chr '0' ∈ List.replicate (w - p.length) (chr '0') :=
        List.mem_replicate.mpr ⟨by omega, rfl⟩
      rw [zeros] at first
      exact absurd (List.mem_replicate.mp first).2 (by decide)
    rw [List.length_map] at all_spaces
    rw [List.length_append, List.length_map, List.length_replicate] at lengths
    have length_eq : p.length = w := by omega
    rw [← length_eq, List.eq_replicate_iff]
    exact ⟨rfl, fun byte byte_mem => (shown_eq_space_iff altflag byte).mp
      (List.map_eq_replicate_iff.mp all_spaces byte byte_mem)⟩
  · rintro rfl
    have no_overflow : overflow w w = 0 := (overflow_eq_zero_iff w_lt w_lt).mpr (by omega)
    rw [List.length_replicate, List.map_replicate, no_overflow, Nat.sub_self,
      (shown_eq_space_iff altflag _).mpr rfl, List.replicate_zero, List.replicate_zero,
      List.nil_append, List.append_nil]

end Padding

/-- The text of a directive that cuts the string as it should and pads it with
zeros, behind it or before it. -/
theorem stringText_of_cut {d : Directive} {w : Nat} (w_lt : w < 2 ^ 31) {p body : List Byte}
    (body_lt : body.length < 2 ^ 31) (cut_eq : cut d.precision p = body) (zeros behind : Prop)
    [Decidable zeros] [Decidable behind]
    (padc_eq : d.padc = if zeros then chr '0' else if behind then chr '-' else chr ' ') :
    (stringText d w p =
        if behind then
          body.map (shown d.altflag) ++ List.replicate (w - body.length) (chr ' ')
        else List.replicate (w - body.length) (chr ' ') ++ body.map (shown d.altflag)) ↔
      (¬ zeros ∧ behind ∨ 2 * body.length ≤ w + 2 ^ 31) ∧ (¬ zeros ∨ w ≤ body.length) := by
  rw [stringText, cut_eq, padc_eq]
  generalize printed_eq : body.map (shown d.altflag) = printed
  have length_eq : body.length = printed.length := by
    rw [← printed_eq, List.length_map]
  rw [length_eq] at body_lt ⊢
  by_cases zero : zeros
  · rw [if_pos zero, if_neg (by decide), zeros_iff w_lt body_lt]
    simp [zero]
  · by_cases before : behind
    · rw [if_neg zero, if_pos before, if_pos rfl, if_pos before]
      simp [zero, before]
    · rw [if_neg zero, if_neg before, if_neg (by decide), if_neg before,
        spaces_iff w_lt body_lt]
      simp [zero, before]

/-- What is printed is right exactly under the condition. -/
theorem stringText_eq_text_iff (field : Field) {p : List Byte} (length_lt : p.length < 2 ^ 31) :
    stringText field.directive field.width p = field.text p ↔ field.Kept p := by
  have w_lt := field.width_lt
  have altflag_eq : field.directive.altflag = decide (.alt ∈ field.marks) := by
    unfold directive scanned
    split
    · exact Bool.false_or _
    · exact Bool.false_or _
  rw [text, List.length_map, ← altflag_eq, Kept]
  cases spelled : field.precision with
  | none =>
      have directive_eq :
          field.directive = { marked .init field.marks with width := field.width } := by
        rw [directive, spelled]
        rfl
      have clip_eq : field.clip p = p := by
        rw [clip, spelled]
      have cut_eq : cut field.directive.precision p = p := by
        rw [directive_eq]
        rfl
      have padc_eq : field.directive.padc =
          if False then chr '0' else if field.Behind then chr '-' else chr ' ' := by
        rw [directive_eq]
        rfl
      rw [clip_eq, stringText_of_cut w_lt length_lt cut_eq False field.Behind padc_eq]
      simp
  | some numeral =>
      obtain ⟨zeros, value⟩ := numeral
      have directive_eq : field.directive =
          scanned { marked .init field.marks with width := field.width }
            (some (zeros, value)) := by
        rw [directive, spelled]
      have clip_eq : field.clip p = p.take value := by
        rw [clip, spelled]
      dsimp only
      rw [clip_eq]
      by_cases zero : value = 0
      · subst zero
        have padc_eq : field.directive.padc = chr '0' := by
          rw [directive_eq]
          simp [scanned]
        have cut_eq : cut field.directive.precision p = p := by
          rw [directive_eq]
          rfl
        rw [if_pos rfl, stringText, cut_eq, padc_eq, if_neg (by decide), List.length_map,
          List.take_zero, List.map_nil, List.nil_append, List.append_nil, List.length_nil,
          Nat.sub_zero, ite_self, whole_iff w_lt _ length_lt]
      · have padc_eq : field.directive.padc =
            if zeros ≠ 0 then chr '0' else if field.Behind then chr '-' else chr ' ' := by
          rw [directive_eq]
          simp [scanned, zero]
          rfl
        have cut_eq : cut field.directive.precision p = p.take value := by
          rw [directive_eq]
          simp [scanned, zero, cut]
        have take_lt : (p.take value).length < 2 ^ 31 :=
          (List.length_take_le' value p).trans_lt length_lt
        rw [if_neg zero, stringText_of_cut w_lt take_lt cut_eq (zeros ≠ 0) field.Behind padc_eq,
          not_not]

end Field

/-- A string directive prints the field exactly if its precision is not zero,
and has no zeros in front unless the string fills the width anyway; and if the
counting of the width stays an `int`. -/
theorem string_field_iff (field : Field) (mem : Mem) (args : Args) (ap : Nat)
    (length_lt : (pointed mem (args ap)).length < 2 ^ 31) :
    PrintsHere mem args ap (ap + 1) (chr '%' :: field.bytes)
        (field.text (pointed mem (args ap))) ↔
      field.Kept (pointed mem (args ap)) := by
  rw [printsHere_iff_of (field.printsHere_bytes mem args ap length_lt),
    field.stringText_eq_text_iff length_lt]

/-- A message of the formatter's own table. -/
theorem pointed_message : pointed .bare 0x1004 = str "out of memory" := by
  decide

/-- The beginning of a message, padded behind it. -/
theorem string_field_iff_message :
    PrintsHere .bare (fun _ => 0x1004) 0 1 (str "%-8.3s") (str "out     ") := by
  let field : Field := ⟨[.minus], 8, some (0, 3), by decide, by decide, by simp⟩
  have bytes_eq : str "%-8.3s" = chr '%' :: field.bytes := by
    change _ = chr '%' :: (_ ++ (numeral 10 8 ++ (chr '.' :: ([] ++ numeral 10 3) ++ [chr 's'])))
    rw [numeral_of_lt (by decide), numeral_of_lt (by decide)]
    decide
  have text_eq : str "out     " = field.text (pointed .bare 0x1004) := by
    rw [pointed_message]
    decide
  rw [bytes_eq, text_eq]
  refine (string_field_iff field .bare (fun _ => 0x1004) 0 ?_).mpr ?_
  · rw [pointed_message]
    decide
  · rw [pointed_message]
    exact ⟨.inl ⟨rfl, by decide⟩, .inl rfl⟩

/-- A precision of zero does not keep the message out. -/
theorem zero_precision_ignored :
    ¬ PrintsHere .bare (fun _ => 0x1004) 0 1 (str "%5.0s") (str "     ") := by
  let field : Field := ⟨[], 5, some (0, 0), by decide, by decide, by simp⟩
  have bytes_eq : str "%5.0s" = chr '%' :: field.bytes := by
    change _ = chr '%' :: (_ ++ (numeral 10 5 ++ (chr '.' :: ([] ++ numeral 10 0) ++ [chr 's'])))
    rw [numeral_of_lt (by decide), numeral_of_lt (by decide)]
    decide
  have length_lt : (pointed .bare 0x1004).length < 2 ^ 31 := by
    rw [pointed_message]
    decide
  rw [bytes_eq, printsHere_iff_of (field.printsHere_bytes .bare (fun _ => 0x1004) 0 length_lt),
    pointed_message]
  intro same
  have lengths := congrArg List.length same
  rw [stringText] at lengths
  revert lengths
  decide

end Jos64.Format
