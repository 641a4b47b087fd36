import Jos64.Format.Core

/-!
# When the formatter returns

Directives never leave the format, whatever cuts them short: the flag loop and
the backward scan stay between the `%` and the NUL.  Escape sequences are read
without looking at the NUL, so the formatter returns exactly when each of them
is closed.
-/

namespace Jos64.Format

open Jos64.Console

/-! ## A memory -/

/-- A memory that holds the messages of the table at consecutive addresses and
no other string. -/
def Mem.bare : Mem where
  cstr address :=
    ⟨((errorText (address.toNat - 0x1000)).getD []).filter (· ≠ 0), by simp⟩
  errorString err :=
    if (errorText err).isSome then 0x1000#64 + BitVec.ofInt 64 err else 0
  errorString_null err _ _ missing := by simp [missing]
  errorString_text err text found := by
    have known : err = 1 ∨ err = 2 ∨ err = 3 ∨ err = 4 ∨ err = 5 ∨ err = 6 := by
      by_contra unknown
      simp only [not_or] at unknown
      simp [errorText, unknown] at found
    have text_eq : (errorText err).getD [] = text := by rw [found, Option.getD_some]
    subst text_eq
    rcases known with rfl | rfl | rfl | rfl | rfl | rfl
    all_goals decide

/-! ## Text and directives always get through -/

section Steps

variable {printfmt : Printfmt} {mem : Mem} {args : Args} {ap : Nat}

@[simp]
theorem vprintfmtWith_nil (st : State) : vprintfmtWith printfmt mem args ap st [] = some st := by
  rw [vprintfmtWith]

/-- A byte of ordinary text. -/
theorem vprintfmtWith_text {st : State} {ch : Byte} (passable : Passable ch) (fmt : List Byte) :
    vprintfmtWith printfmt mem args ap st (ch :: fmt) =
      vprintfmtWith printfmt mem args ap (st.putch (unsignedChar ch)) fmt := by
  rw [vprintfmtWith, if_neg passable.2, if_neg passable.1]

/-- A run of ordinary text. -/
theorem vprintfmtWith_append {text : List Byte} (passable : ∀ ch ∈ text, Passable ch)
    (st : State) (fmt : List Byte) :
    vprintfmtWith printfmt mem args ap st (text ++ fmt) =
      vprintfmtWith printfmt mem args ap (st.putchs (text.map unsignedChar)) fmt := by
  induction text generalizing st with
  | nil => rfl
  | cons ch text ih =>
      rw [List.cons_append, vprintfmtWith_text (passable ch List.mem_cons_self),
        ih fun later later_mem => passable later (List.mem_cons_of_mem ch later_mem)]
      rfl

theorem vprintfmtWith_directive {st st' : State} {ap' : Nat} {fmt fmt' : List Byte}
    (step : directive printfmt mem args ap st fmt = some (st', ap', fmt')) :
    vprintfmtWith printfmt mem args ap st (chr '%' :: fmt) =
      vprintfmtWith printfmt mem args ap' st' fmt' := by
  rw [vprintfmtWith, if_neg (by decide), if_pos rfl]
  split
  · rename_i failed
    rw [step] at failed
    contradiction
  · rename_i taken
    rw [step] at taken
    cases taken
    rfl

theorem vprintfmtWith_escape {st st' : State} {fmt fmt' : List Byte}
    (step : escape st fmt = some (st', fmt')) :
    vprintfmtWith printfmt mem args ap st (0x1B :: fmt) =
      vprintfmtWith printfmt mem args ap st' fmt' := by
  rw [vprintfmtWith, if_pos rfl]
  split
  · rename_i failed
    rw [step] at failed
    contradiction
  · rename_i taken
    rw [step] at taken
    cases taken
    rfl

theorem vprintfmtWith_escape_none {st : State} {fmt : List Byte} (step : escape st fmt = none) :
    vprintfmtWith printfmt mem args ap st (0x1B :: fmt) = none := by
  rw [vprintfmtWith, if_pos rfl]
  split
  · rfl
  · rename_i taken
    rw [step] at taken
    contradiction

variable (args ap) in
theorem flagCase_of_isConversion (d : Directive) {ch : Byte} (conversion : isConversion ch) :
    ¬ (0x31 ≤ ch ∧ ch ≤ 0x39) ∧ flagCase args d ap ch = none := by
  have other : ∀ ch : Byte, isConversion ch → ¬ (0x31 ≤ ch ∧ ch ≤ 0x39) ∧ ch ≠ chr '-' ∧
      ch ≠ chr '0' ∧ ch ≠ chr '*' ∧ ch ≠ chr '.' ∧ ch ≠ chr '#' ∧ ch ≠ chr 'l' := by
    decide
  obtain ⟨range, minus, zero, star, dot, hash, long⟩ := other ch conversion
  exact ⟨range, by simp [flagCase, minus, zero, star, dot, hash, long]⟩

/-- A conversion letter right after the `%`. -/
theorem directive_conversion {ch : Byte} (conversion : isConversion ch) (st : State)
    (fmt : List Byte) :
    directive printfmt mem args ap st (ch :: fmt) =
      (convert printfmt mem args .init ch ap st).map fun (st, ap) => (st, ap, fmt) := by
  obtain ⟨range, stop⟩ := flagCase_of_isConversion args ap .init conversion
  have scan : reswitch args .init [chr '%'] ap (ch :: fmt) =
      ⟨.init, [chr '%'], ap, ch :: fmt⟩ := by
    rw [reswitch, if_neg range, stop]
  simp only [directive, scan, conversion, if_true]

/-- The nested call for a code without a message. -/
theorem printfmt_error (args : Args) (st : State) :
    Format.printfmt mem (str "error %d") args st =
      some ((st.putchs ((str "error ").map unsignedChar)).signedNumber (args 0) 10 .init) := by
  rw [show str "error %d" = str "error " ++ [chr '%', chr 'd'] by decide, Format.printfmt,
    vprintfmtWith_append (by decide)]
  rw [vprintfmtWith_directive (directive_conversion (by decide) _ _)]
  · exact vprintfmtWith_nil _

/-- The nested call for a message. -/
theorem printfmt_string (args : Args) (st : State) :
    Format.printfmt mem (str "%s") args st = some (convertString mem .init (args 0) st) := by
  rw [show str "%s" = [chr '%', chr 's'] by decide, Format.printfmt]
  rw [vprintfmtWith_directive (directive_conversion (by decide) _ _)]
  · exact vprintfmtWith_nil _

/-- With the nested calls as they are, every conversion is carried out. -/
theorem convert_isSome (d : Directive) (ch : Byte) (st : State) :
    (convert (Format.printfmt mem) mem args d ch ap st).isSome := by
  have error (slot : BitVec 64) : (convertError (Format.printfmt mem) mem slot st).isSome := by
    dsimp only [convertError]
    rw [printfmt_error, printfmt_string]
    generalize (if intArg slot < 0 then wrap32 (-intArg slot) else intArg slot) = err
    split
    · rfl
    · rfl
  unfold convert
  repeat' split
  all_goals simp [error]

variable (mem args ap) in
/-- A directive is always carried out or given up. -/
theorem directive_isSome (st : State) (fmt : List Byte) :
    (directive (Format.printfmt mem) mem args ap st fmt).isSome := by
  dsimp only [directive]
  split
  · rfl
  · split
    · rw [Option.isSome_map]
      exact convert_isSome _ _ _
    · rfl

end Steps

/-! ## Escape sequences get through when they are closed -/

theorem escapeLoop_isSome_iff (st : State) (escColor : Int) (fmt : List Byte) :
    (escapeLoop st escColor fmt).isSome ↔ chr 'm' ∈ fmt := by
  induction fmt generalizing st escColor with
  | nil => simp [escapeLoop]
  | cons ch fmt ih =>
      rw [escapeLoop, List.mem_cons]
      by_cases last : ch = chr 'm'
      · subst last
        simp
      · rw [or_iff_right fun first => last first.symm]
        by_cases separator : ch = chr ';'
        · simp [separator, ih, show chr ';' ≠ chr 'm' by decide]
        · rw [if_pos ⟨separator, last⟩, ih]

/-- The first `m` closes the sequence. -/
theorem escapeLoop_fmt {st st' : State} {escColor : Int} {fmt fmt' : List Byte}
    (done : escapeLoop st escColor fmt = some (st', fmt')) :
    ∃ params, chr 'm' ∉ params ∧ fmt = params ++ chr 'm' :: fmt' := by
  induction fmt generalizing st escColor with
  | nil => simp [escapeLoop] at done
  | cons ch fmt ih =>
      rw [escapeLoop] at done
      split at done
      · rename_i param
        obtain ⟨params, open_params, fmt_eq⟩ := ih done
        exact ⟨ch :: params, by simp [open_params, param.2.symm], by rw [fmt_eq]; rfl⟩
      · dsimp only at done
        split at done
        · rename_i last
          cases done
          exact ⟨[], by simp, by rw [last]; rfl⟩
        · rename_i separator last
          obtain ⟨params, open_params, fmt_eq⟩ := ih done
          exact ⟨ch :: params, by simp [open_params, Ne.symm last], by rw [fmt_eq]; rfl⟩

/-- The formats in which every escape sequence, that is an ESC, the byte after
it and the bytes up to an `m`, ends before the format does. -/
inductive EscapesClosed : List Byte → Prop where
  | nil : EscapesClosed []
  | text {ch : Byte} {fmt : List Byte} : ch ≠ 0x1B → EscapesClosed fmt → EscapesClosed (ch :: fmt)
  | escape {bracket : Byte} {params fmt : List Byte} :
      chr 'm' ∉ params → EscapesClosed fmt →
      EscapesClosed (0x1B :: bracket :: (params ++ chr 'm' :: fmt))

theorem escapesClosed_cons {ch : Byte} {fmt : List Byte} (plain : ch ≠ 0x1B) :
    EscapesClosed (ch :: fmt) ↔ EscapesClosed fmt := by
  constructor
  · intro closed
    cases closed with
    | text _ closed => exact closed
    | escape => exact absurd rfl plain
  · exact .text plain

theorem escapesClosed_append {skipped fmt : List Byte} (plain : ∀ ch ∈ skipped, ch ≠ 0x1B) :
    EscapesClosed (skipped ++ fmt) ↔ EscapesClosed fmt := by
  induction skipped with
  | nil => rfl
  | cons ch skipped ih =>
      rw [List.cons_append, escapesClosed_cons (plain ch List.mem_cons_self)]
      exact ih fun later later_mem => plain later (List.mem_cons_of_mem ch later_mem)

/-- The first `m` of a list splits it in one way only. -/
theorem append_m_inj {params params' rest rest' : List Byte} (open_params : chr 'm' ∉ params)
    (open_params' : chr 'm' ∉ params')
    (whole : params ++ chr 'm' :: rest = params' ++ chr 'm' :: rest') : rest = rest' := by
  induction params generalizing params' with
  | nil =>
      cases params' with
      | nil => exact (List.cons.inj whole).2
      | cons ch params' =>
          exact absurd (List.cons.inj whole).1 (List.ne_of_not_mem_cons open_params')
  | cons ch params ih =>
      cases params' with
      | nil => exact absurd (List.cons.inj whole).1.symm (List.ne_of_not_mem_cons open_params)
      | cons ch' params' =>
          exact ih (List.not_mem_of_not_mem_cons open_params)
            (List.not_mem_of_not_mem_cons open_params') (List.cons.inj whole).2

/-- One ESC: the escape is read exactly when it is closed, and then what is
left is closed exactly when the whole is. -/
theorem escapesClosed_escape {st st' : State} {fmt fmt' : List Byte}
    (done : escape st fmt = some (st', fmt')) :
    EscapesClosed (0x1B :: fmt) ↔ EscapesClosed fmt' := by
  cases fmt with
  | nil => simp [escape] at done
  | cons bracket fmt =>
      simp only [escape, Option.map_eq_some_iff] at done
      obtain ⟨⟨st, rest⟩, read, result⟩ := done
      cases result
      obtain ⟨params, open_params, rfl⟩ := escapeLoop_fmt read
      constructor
      · intro closed
        generalize whole : params ++ chr 'm' :: rest = tail at closed
        cases closed with
        | text plain _ => exact absurd rfl plain
        | escape open_params' closed =>
            rw [append_m_inj open_params open_params' whole]
            exact closed
      · intro closed
        exact .escape open_params closed

theorem not_escapesClosed_of_escape_none {st : State} {fmt : List Byte}
    (failed : escape st fmt = none) : ¬ EscapesClosed (0x1B :: fmt) := by
  intro closed
  cases closed with
  | text plain _ => exact plain rfl
  | @escape bracket params rest _ _ =>
      have read := (escapeLoop_isSome_iff
        (({ st with color.parsing := true }.putch 0x1B).putch (unsignedChar (chr '['))) 0
        (params ++ chr 'm' :: rest)).mpr (by simp)
      simp only [Format.escape, Option.map_eq_none_iff] at failed
      rw [failed] at read
      contradiction

/-! ## The whole format -/

theorem vprintfmtWith_isSome_iff (mem : Mem) (args : Args) (ap : Nat) (st : State)
    (fmt : List Byte) :
    (vprintfmtWith (printfmt mem) mem args ap st fmt).isSome ↔ EscapesClosed fmt := by
  induction ap, st, fmt using vprintfmtWith.induct (printfmt mem) mem args with
  | case1 ap st => simp [EscapesClosed.nil]
  | case2 ap st fmt failed =>
      rw [vprintfmtWith_escape_none failed]
      exact iff_of_false (by simp) (not_escapesClosed_of_escape_none failed)
  | case3 ap st fmt st' fmt' step ih =>
      exact (iff_of_eq (by rw [vprintfmtWith_escape step])).trans
        (ih.trans (escapesClosed_escape step).symm)
  | case4 ap st fmt failed =>
      have carried := directive_isSome mem args ap st fmt
      rw [failed] at carried
      contradiction
  | case5 ap st fmt st' ap' fmt' step _ ih =>
      obtain ⟨skipped, plain, rfl⟩ := directive_skips step
      rw [vprintfmtWith_directive step, ih, escapesClosed_cons (by decide),
        escapesClosed_append plain]
  | case6 ap st ch fmt not_esc not_percent ih =>
      rw [vprintfmtWith_text ⟨not_percent, not_esc⟩, ih, escapesClosed_cons not_esc]

/-- `vprintfmt` returns, without a read past the NUL, exactly on the formats
whose escape sequences are closed.  The directives do not matter. -/
theorem vprintfmt_returns_iff (mem : Mem) (args : Args) (st : State) (fmt : CString) :
    (∃ last, vprintfmt mem args st fmt.bytes = some last) ↔ EscapesClosed fmt.bytes := by
  rw [← Option.isSome_iff_exists]
  exact vprintfmtWith_isSome_iff mem args 0 st fmt.bytes

/-- A format that is a lone ESC is read past its NUL. -/
theorem lone_esc_overruns :
    ¬ ∀ (mem : Mem) (args : Args) (st : State) (fmt : CString),
      ∃ last, vprintfmt mem args st fmt.bytes = some last := by
  intro returns
  obtain ⟨last, done⟩ := returns .bare (fun _ => 0) ⟨[], .init⟩ ⟨[0x1B], by decide⟩
  rw [vprintfmt, vprintfmtWith_escape_none rfl] at done
  contradiction

end Jos64.Format
