import Jos64.Format.Returns

/-!
# Colour escapes

A well-formed escape sequence is a list of decimal parameters.  The formatter
folds `interpretColor` over the parameters of a format, whatever text and
directives stand between the sequences.
-/

namespace Jos64.Format

open Jos64.Console

/-! ## Well-formed sequences -/

/-- The character of a decimal digit. -/
def digitByte (digit : Fin 10) : Byte :=
  0x30 + BitVec.ofNat 8 digit

/-- A parameter: a possibly empty run of decimal digits. -/
structure Param where
  digits : List (Fin 10)

namespace Param

/-- The value of a run of digits read after the value `start`. -/
def valueFrom (start : Nat) (digits : List (Fin 10)) : Nat :=
  digits.foldl (fun value digit => value * 10 + digit) start

def value (param : Param) : Nat :=
  valueFrom 0 param.digits

def bytes (param : Param) : List Byte :=
  param.digits.map digitByte

theorem le_valueFrom (start : Nat) (digits : List (Fin 10)) : start ≤ valueFrom start digits := by
  induction digits generalizing start with
  | nil => exact le_rfl
  | cons digit digits ih =>
      calc
        start ≤ start * 10 + digit := by omega
        _ ≤ valueFrom (start * 10 + digit) digits := ih _

end Param

/-- A piece of a format: a byte of text, or a sequence of at least one
parameter.  The text may contain directives. -/
inductive Piece where
  | text (ch : Byte) (plain : ch ≠ 0 ∧ ch ≠ 0x1B)
  | sequence (first : Param) (more : List Param)
      (small : ∀ param ∈ first :: more, param.value < 2 ^ 31)

namespace Piece

/-- The bytes of a sequence after its first parameter. -/
def tailBytes : List Param → List Byte
  | [] => [chr 'm']
  | param :: more => chr ';' :: (param.bytes ++ tailBytes more)

def bytes : Piece → List Byte
  | .text ch _ => [ch]
  | .sequence first more _ => 0x1B :: chr '[' :: (first.bytes ++ tailBytes more)

/-- The parameter values of a piece. -/
def params : Piece → List Nat
  | .text _ _ => []
  | .sequence first more _ => (first :: more).map Param.value

end Piece

/-- The format that some pieces make up. -/
def formatOf (pieces : List Piece) : List Byte :=
  pieces.flatMap Piece.bytes

/-- The parameter values of some pieces, in order. -/
def paramsOf (pieces : List Piece) : List Nat :=
  pieces.flatMap Piece.params

/-! ## The formatter folds `interpretColor` -/

/-- The effect of several parameters on `color_flag`, as the code has it. -/
def interpretParams (flag : BitVec 32) (params : List Nat) : BitVec 32 :=
  params.foldl (fun flag (p : Nat) => interpretColor flag p) flag

theorem interpretParams_append (flag : BitVec 32) (params more : List Nat) :
    interpretParams flag (params ++ more) = interpretParams (interpretParams flag params) more :=
  List.foldl_append

@[simp]
theorem State.putch_color (st : State) (ch : BitVec 32) : (st.putch ch).color = st.color :=
  rfl

@[simp]
theorem State.putchs_color (st : State) (chs : List (BitVec 32)) :
    (st.putchs chs).color = st.color := by
  induction chs generalizing st with
  | nil => rfl
  | cons ch chs ih => exact ih (st.putch ch)

@[simp]
theorem State.number_color (st : State) (num : BitVec 64) (base : Nat) (d : Directive) :
    (st.number num base d).color = st.color :=
  st.putchs_color _

@[simp]
theorem State.signedNumber_color (st : State) (num : BitVec 64) (base : Nat) (d : Directive) :
    (st.signedNumber num base d).color = st.color := by
  unfold State.signedNumber
  split
  · simp
  · simp

theorem convertString_color (mem : Mem) (d : Directive) (slot : BitVec 64) (st : State) :
    (convertString mem d slot st).color = st.color := by
  dsimp only [convertString]
  rw [State.putchs_color, State.putchs_color]
  split
  · exact st.putchs_color _
  · rfl

theorem convertError_color {mem : Mem} {slot : BitVec 64} {st st' : State}
    (done : convertError (printfmt mem) mem slot st = some st') : st'.color = st.color := by
  dsimp only [convertError] at done
  rw [printfmt_error, printfmt_string] at done
  generalize (if intArg slot < 0 then wrap32 (-intArg slot) else intArg slot) = err at done
  split at done
  · cases done
    simp
  · cases done
    exact convertString_color mem .init _ st

/-- Conversions leave the colour globals alone. -/
theorem convert_color {mem : Mem} {args : Args} {d : Directive} {ch : Byte} {ap ap' : Nat}
    {st st' : State} (done : convert (printfmt mem) mem args d ch ap st = some (st', ap')) :
    st'.color = st.color := by
  unfold convert at done
  split at done
  · cases done
    rfl
  split at done
  · obtain ⟨converted, error, result⟩ := Option.map_eq_some_iff.mp done
    cases result
    exact convertError_color error
  split at done
  · cases done
    exact convertString_color mem d _ st
  repeat'
    split at done
    · cases done
      simp
  cases done
  rfl

/-- Directives leave the colour globals alone. -/
theorem directive_color {mem : Mem} {args : Args} {ap ap' : Nat} {st st' : State}
    {fmt fmt' : List Byte}
    (done : directive (printfmt mem) mem args ap st fmt = some (st', ap', fmt')) :
    st'.color = st.color := by
  dsimp only [directive] at done
  split at done
  · cases done
    rfl
  · split at done
    · obtain ⟨converted, conversion, result⟩ := Option.map_eq_some_iff.mp done
      cases result
      exact convert_color conversion
    · cases done
      rfl

/-- The inner loop of an escape sequence reads the value of a parameter. -/
theorem escapeLoop_digits (st : State) (start : Nat) (digits : List (Fin 10)) (fmt : List Byte)
    (small : Param.valueFrom start digits < 2 ^ 31) :
    ∃ st' : State, st'.color = st.color ∧
      escapeLoop st start (Param.bytes ⟨digits⟩ ++ fmt) =
        escapeLoop st' (Param.valueFrom start digits) fmt := by
  induction digits generalizing st start with
  | nil => exact ⟨st, rfl, rfl⟩
  | cons digit digits ih =>
      have step_small : start * 10 + digit < 2 ^ 31 :=
        (Param.le_valueFrom _ digits).trans_lt small
      have ordinary : ∀ digit : Fin 10, digitByte digit ≠ chr ';' ∧
          digitByte digit ≠ chr 'm' ∧
          (digitByte digit).toNat = 0x30 + digit := by
        decide
      obtain ⟨not_separator, not_last, digit_eq⟩ := ordinary digit
      have value_eq : wrap32 (wrap32 ((start : Int) * 10) +
          ((digitByte digit).toNat - 0x30)) =
          ((start * 10 + digit : Nat) : Int) := by
        rw [wrap32_of_range (x := (start : Int) * 10) (by omega) (by omega), digit_eq,
          wrap32_of_range (by omega) (by omega)]
        push_cast
        ring
      obtain ⟨st', color_eq, read⟩ := ih
        (st.putch (unsignedChar (digitByte digit))) (start * 10 + digit) small
      refine ⟨st', color_eq, ?_⟩
      rw [Param.bytes, List.map_cons, List.cons_append, escapeLoop,
        if_pos ⟨not_separator, not_last⟩, value_eq]
      exact read

/-- The outer loop interprets the parameters one after the other. -/
theorem escapeLoop_params (st : State) (first : Param) (more : List Param) (fmt : List Byte)
    (small : ∀ param ∈ first :: more, param.value < 2 ^ 31) :
    ∃ st' : State,
      st'.color.flag =
        interpretParams st.color.flag ((first :: more).map Param.value) ∧
      escapeLoop st 0 (first.bytes ++ Piece.tailBytes more ++ fmt) = some (st', fmt) := by
  induction more generalizing st first with
  | nil =>
      obtain ⟨read_st, color_eq, read⟩ := escapeLoop_digits st 0 first.digits
        (Piece.tailBytes [] ++ fmt) (small first List.mem_cons_self)
      refine ⟨_, ?_, by rw [List.append_assoc]; exact read⟩
      rw [← color_eq]
      rfl
  | cons next more ih =>
      obtain ⟨read_st, color_eq, read⟩ := escapeLoop_digits st 0 first.digits
        (Piece.tailBytes (next :: more) ++ fmt) (small first List.mem_cons_self)
      let flag := interpretColor read_st.color.flag first.value
      obtain ⟨st', flag_eq, rest⟩ := ih
        (({ read_st with color.flag := flag } : State).putch (unsignedChar (chr ';'))) next
        fun param param_mem => small param (List.mem_cons_of_mem first param_mem)
      refine ⟨st', ?_, ?_⟩
      · rw [flag_eq, List.map_cons (l := next :: more), interpretParams, interpretParams,
          List.foldl_cons, ← color_eq]
        rfl
      · rw [List.append_assoc]
        exact read.trans rest

/-- A well-formed sequence. -/
theorem escape_sequence (st : State) (first : Param) (more : List Param) (fmt : List Byte)
    (small : ∀ param ∈ first :: more, param.value < 2 ^ 31) :
    ∃ st' : State,
      st'.color.flag =
        interpretParams st.color.flag ((first :: more).map Param.value) ∧
      escape st (chr '[' :: (first.bytes ++ Piece.tailBytes more) ++ fmt) = some (st', fmt) := by
  obtain ⟨st', flag_eq, read⟩ := escapeLoop_params
    (({ st with color.parsing := true }.putch 0x1B).putch (unsignedChar (chr '['))) first more fmt
    small
  refine ⟨{ st' with color.parsing := false }, flag_eq, ?_⟩
  rw [List.cons_append, escape]
  dsimp only
  rw [read, Option.map_some]

/-- Text that is skipped belongs to text pieces. -/
theorem formatOf_of_append (skipped : List Byte) {fmt : List Byte} {pieces : List Piece}
    (plain : ∀ ch ∈ skipped, ch ≠ 0x1B) (whole : formatOf pieces = skipped ++ fmt) :
    ∃ rest, fmt = formatOf rest ∧ paramsOf rest = paramsOf pieces := by
  induction skipped generalizing pieces with
  | nil => exact ⟨pieces, whole.symm, rfl⟩
  | cons ch skipped ih =>
      cases pieces with
      | nil => cases whole
      | cons piece pieces =>
          cases piece with
          | text ch' text =>
              have rest_eq : formatOf pieces = skipped ++ fmt := (List.cons.inj whole).2
              obtain ⟨rest, fmt_eq, params_eq⟩ := ih
                (fun later later_mem => plain later (List.mem_cons_of_mem ch later_mem)) rest_eq
              exact ⟨rest, fmt_eq, params_eq⟩
          | sequence first more small =>
              exact absurd (List.cons.inj whole).1.symm (plain ch List.mem_cons_self)

/-- What begins with an ESC is a sequence and the pieces behind it. -/
theorem escape_of_formatOf (st : State) {pieces : List Piece} {fmt : List Byte}
    (whole : formatOf pieces = 0x1B :: fmt) :
    ∃ rest, ∃ st' : State, escape st fmt = some (st', formatOf rest) ∧
      interpretParams st'.color.flag (paramsOf rest) =
        interpretParams st.color.flag (paramsOf pieces) := by
  cases pieces with
  | nil => cases whole
  | cons piece pieces =>
      cases piece with
      | text ch plain => exact absurd (List.cons.inj whole).1 plain.2
      | sequence first more small =>
          obtain ⟨st', flag_eq, read⟩ := escape_sequence st first more (formatOf pieces) small
          refine ⟨pieces, st', ?_, ?_⟩
          · rw [← (List.cons.inj whole).2]
            exact read
          · rw [flag_eq, ← interpretParams_append]
            rfl

/-- The formatter folds the parameters of a format into `color_flag`. -/
theorem vprintfmtWith_color_flag (mem : Mem) (args : Args) (ap : Nat) (st : State)
    (pieces : List Piece) :
    ∃ last, vprintfmtWith (printfmt mem) mem args ap st (formatOf pieces) = some last ∧
      last.color.flag = interpretParams st.color.flag (paramsOf pieces) := by
  generalize whole : formatOf pieces = fmt
  induction ap, st, fmt using vprintfmtWith.induct (printfmt mem) mem args
    generalizing pieces with
  | case1 ap st =>
      cases pieces with
      | nil => exact ⟨st, vprintfmtWith_nil st, rfl⟩
      | cons piece pieces => cases piece <;> cases whole
  | case2 ap st fmt failed =>
      obtain ⟨rest, st', read, -⟩ := escape_of_formatOf st whole
      cases failed.symm.trans read
  | case3 ap st fmt st' fmt' step ih =>
      obtain ⟨rest, read_st, read, flag_eq⟩ := escape_of_formatOf st whole
      cases step.symm.trans read
      obtain ⟨last, run, last_eq⟩ := ih rest rfl
      exact ⟨last, (vprintfmtWith_escape step).trans run, last_eq.trans flag_eq⟩
  | case4 ap st fmt failed =>
      have carried := directive_isSome mem args ap st fmt
      rw [failed] at carried
      contradiction
  | case5 ap st fmt st' ap' fmt' step _ ih =>
      obtain ⟨skipped, plain, rfl⟩ := directive_skips step
      obtain ⟨rest, rfl, params_eq⟩ := formatOf_of_append (chr '%' :: skipped)
        (by simpa using ⟨by decide, plain⟩) whole
      obtain ⟨last, run, last_eq⟩ := ih rest rfl
      refine ⟨last, (vprintfmtWith_directive step).trans run, ?_⟩
      rw [last_eq, params_eq, directive_color step]
  | case6 ap st ch fmt not_esc not_percent ih =>
      obtain ⟨rest, rfl, params_eq⟩ := formatOf_of_append [ch] (by simpa using not_esc) whole
      obtain ⟨last, run, last_eq⟩ := ih rest rfl
      refine ⟨last, (vprintfmtWith_text ⟨not_percent, not_esc⟩ _).trans run, ?_⟩
      rw [last_eq, params_eq]
      rfl

end Jos64.Format
