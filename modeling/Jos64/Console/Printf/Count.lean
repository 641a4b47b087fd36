import Jos64.Console.Printf
import Jos64.Format.ErrorCode
import Jos64.Format.Snprintf

/-!
# The count of `vcprintf`

The callback of `vsnprintf` counts every character.  The one of `vcprintf` does
not, so its count is right for the formats that print nothing: those made of
string directives without a character and without a width.
-/

namespace Jos64.Format

open Jos64.Console

/-! ## Directives that print nothing -/

/-- The string that `%s` prints. -/
def stringArg (mem : Mem) (slot : BitVec 64) : List Byte :=
  if slot = 0 then str "(null)" else (mem.cstr slot).bytes

/-- Nothing is printed for the letter `ch` with these flags and this argument. -/
def Directive.Quiet (mem : Mem) (d : Directive) (ch : Byte) (slot : BitVec 64) : Prop :=
  ch = chr 's' ∧ d.width ≤ 0 ∧ strnlen (stringArg mem slot) d.precision = 0 ∨
  ch = chr 'e' ∧ errorIndex slot < maxError ∧ mem.errorString (errorIndex slot) ≠ 0 ∧
    (mem.cstr (mem.errorString (errorIndex slot))).bytes = []

/-- A format that is made of such directives, from the argument `ap` on. -/
inductive Silent (mem : Mem) (args : Args) : Nat → List Byte → Prop where
  | nil {ap : Nat} : Silent mem args ap []
  | directive {ap ap' : Nat} {fmt rest seen : List Byte} {d : Directive} {ch : Byte} :
      reswitch args .init [chr '%'] ap fmt = ⟨d, seen, ap', ch :: rest⟩ →
      d.Quiet mem ch (args ap') → Silent mem args (ap' + 1) rest →
      Silent mem args ap (chr '%' :: fmt)

/-! ## What each step prints -/

theorem State.putchs_count (st : State) (chs : List (BitVec 32)) :
    (st.putchs chs).calls.length = st.calls.length + chs.length := by
  rw [State.putchs_calls, List.length_append, List.length_map]

theorem State.putch_count (st : State) (ch : BitVec 32) :
    (st.putch ch).calls.length = st.calls.length + 1 :=
  List.length_append

theorem State.number_count (st : State) (num : BitVec 64) (base : Nat) (d : Directive) :
    st.calls.length < (st.number num base d).calls.length := by
  have digit : 0 < (printnum num.toNat base d.width d.padc).length := by
    rw [printnum, List.length_append, List.length_singleton]
    exact Nat.succ_pos _
  rw [State.number, State.putchs_count]
  exact Nat.lt_add_of_pos_right digit

theorem State.signedNumber_count (st : State) (num : BitVec 64) (base : Nat) (d : Directive) :
    st.calls.length < (st.signedNumber num base d).calls.length := by
  rw [State.signedNumber]
  split
  · calc
      st.calls.length < (st.putch (unsignedChar (chr '-'))).calls.length := by
        rw [State.putch_count]
        exact Nat.lt_succ_self _
      _ < _ := State.number_count _ _ _ _
  · exact State.number_count _ _ _ _

theorem stringLoop_length (altflag : Bool) (precision width : Int) (p : List Byte) :
    (stringLoop altflag precision width p).1.length = strnlen p precision := by
  induction p generalizing precision width with
  | nil =>
      rw [stringLoop, strnlen]
      split
      · rfl
      · exact (Nat.zero_min _).symm
  | cons byte p ih =>
      rw [stringLoop]
      by_cases more : precision < 0 ∨ precision - 1 ≥ 0
      · rw [if_pos more]
        dsimp only
        rw [List.length_cons, ih]
        by_cases unbounded : precision < 0
        · rw [if_pos unbounded, strnlen, strnlen, if_pos unbounded, if_pos unbounded]
          rfl
        · rw [if_neg unbounded, strnlen, strnlen, if_neg unbounded, if_neg (by omega),
            List.length_cons]
          omega
      · rw [if_neg more, strnlen, if_neg (by omega), List.length_nil]
        omega

/-- The width is left as it is where no character is printed. -/
theorem stringLoop_width {altflag : Bool} {precision width : Int} {p : List Byte}
    (empty : strnlen p precision = 0) : (stringLoop altflag precision width p).2 = width := by
  cases p with
  | nil => rfl
  | cons byte p =>
      rw [strnlen, List.length_cons] at empty
      rw [stringLoop, if_neg]
      split at empty
      · exact absurd empty (Nat.succ_ne_zero _)
      · omega

theorem convertString_count (mem : Mem) (d : Directive) (slot : BitVec 64) (st : State) :
    st.calls.length ≤ (convertString mem d slot st).calls.length ∧
      ((convertString mem d slot st).calls.length = st.calls.length ↔
        d.width ≤ 0 ∧ strnlen (stringArg mem slot) d.precision = 0) := by
  rw [convertString, stringArg]
  by_cases padded : 0 < d.width ∧ d.padc ≠ chr '-'
  · simp only [if_pos padded, State.putchs_count, List.length_replicate, stringLoop_length]
    omega
  · simp only [if_neg padded, State.putchs_count, List.length_replicate, stringLoop_length]
    by_cases empty : strnlen (if slot = 0 then str "(null)" else (mem.cstr slot).bytes)
        d.precision = 0
    · rw [stringLoop_width empty]
      omega
    · omega

variable {mem : Mem} {args : Args} {ap ap' : Nat} {st st' : State}

theorem convertError_count {slot : BitVec 64}
    (done : convertError (printfmt mem) mem slot st = some st') :
    st.calls.length ≤ st'.calls.length ∧
      (st'.calls.length = st.calls.length ↔ errorIndex slot < maxError ∧
        mem.errorString (errorIndex slot) ≠ 0 ∧
        (mem.cstr (mem.errorString (errorIndex slot))).bytes = []) := by
  rw [convertError, ← errorIndex, printfmt_error, printfmt_string] at done
  split at done
  · rename_i unknown
    cases done
    have more := State.signedNumber_count (st.putchs ((str "error ").map unsignedChar))
      ((BitVec.ofInt 32 (errorIndex slot)).setWidth 64) 10 .init
    rw [State.putchs_count] at more
    refine ⟨by omega, iff_of_false (by omega) ?_⟩
    rintro ⟨inside, message, -⟩
    rcases unknown with outside | null
    · omega
    · exact message null
  · rename_i known
    obtain ⟨inside, message⟩ := not_or.mp known
    cases done
    obtain ⟨grows, same⟩ := convertString_count mem .init (mem.errorString (errorIndex slot)) st
    have unbounded : strnlen (stringArg mem (mem.errorString (errorIndex slot))) (-1) =
        (mem.cstr (mem.errorString (errorIndex slot))).bytes.length := by
      rw [stringArg, if_neg message]
      rfl
    refine ⟨grows, same.trans ?_⟩
    change (-1 : Int) ≤ 0 ∧ strnlen _ (-1) = 0 ↔ _
    rw [unbounded, List.length_eq_zero_iff]
    constructor
    · rintro ⟨-, empty⟩
      exact ⟨not_le.mp inside, message, empty⟩
    · rintro ⟨-, -, empty⟩
      exact ⟨by decide, empty⟩

/-- The other conversions print a character. -/
theorem convert_prints {d : Directive} {ch : Byte} (not_s : ch ≠ chr 's') (not_e : ch ≠ chr 'e')
    (done : convert (printfmt mem) mem args d ch ap st = some (st', ap')) :
    st.calls.length < st'.calls.length := by
  rw [convert, if_neg not_e, if_neg not_s] at done
  have one (ch : BitVec 32) : st.calls.length < (st.putch ch).calls.length := by
    rw [State.putch_count]
    exact Nat.lt_succ_self _
  split at done
  · cases done
    exact one _
  split at done
  · cases done
    exact State.signedNumber_count _ _ _ _
  split at done
  · cases done
    exact State.number_count _ _ _ _
  split at done
  · cases done
    exact State.signedNumber_count _ _ _ _
  split at done
  · cases done
    refine lt_trans ?_ (State.number_count _ _ _ _)
    rw [State.putch_count, State.putch_count]
    omega
  split at done
  · cases done
    exact State.number_count _ _ _ _
  · cases done
    exact one _

/-- A conversion prints nothing exactly if it is a quiet one. -/
theorem convert_count {d : Directive} {ch : Byte}
    (done : convert (printfmt mem) mem args d ch ap st = some (st', ap')) :
    st.calls.length ≤ st'.calls.length ∧
      (st'.calls.length = st.calls.length ↔ d.Quiet mem ch (args ap)) ∧
      (d.Quiet mem ch (args ap) → ap' = ap + 1) := by
  have letters : chr 's' ≠ chr 'e' := by decide
  by_cases is_s : ch = chr 's'
  · subst is_s
    change some (convertString mem d (args ap) st, ap + 1) = some (st', ap') at done
    cases done
    obtain ⟨grows, same⟩ := convertString_count mem d (args ap) st
    refine ⟨grows, same.trans ⟨fun empty => .inl ⟨rfl, empty⟩, ?_⟩, fun _ => rfl⟩
    rintro (⟨-, empty⟩ | ⟨is_e, -⟩)
    · exact empty
    · exact absurd is_e letters
  by_cases is_e : ch = chr 'e'
  · subst is_e
    change (convertError (printfmt mem) mem (args ap) st).map (·, ap + 1) = some (st', ap') at done
    obtain ⟨printed, found, same⟩ := Option.map_eq_some_iff.mp done
    cases same
    obtain ⟨grows, same⟩ := convertError_count found
    refine ⟨grows, same.trans ⟨fun empty => .inr ⟨rfl, empty⟩, ?_⟩, fun _ => rfl⟩
    rintro (⟨is_s, -⟩ | ⟨-, empty⟩)
    · exact absurd is_s.symm letters
    · exact empty
  have more := convert_prints is_s is_e done
  have not_quiet : ¬ d.Quiet mem ch (args ap) := by
    rintro (⟨quiet, -⟩ | ⟨quiet, -⟩)
    · exact is_s quiet
    · exact is_e quiet
  exact ⟨more.le, iff_of_false more.ne' not_quiet, fun quiet => absurd quiet not_quiet⟩

/-! ## Whole formats -/

theorem escapeLoop_count {escColor : Int} {fmt fmt' : List Byte}
    (done : escapeLoop st escColor fmt = some (st', fmt')) :
    st.calls.length ≤ st'.calls.length := by
  induction fmt generalizing st escColor with
  | nil => exact absurd done nofun
  | cons ch fmt ih =>
      rw [escapeLoop] at done
      split at done
      · have rest := ih done
        rw [State.putch_count] at rest
        exact (Nat.le_succ _).trans rest
      · dsimp only at done
        split at done
        · cases done
          rw [State.putch_count]
          exact Nat.le_succ _
        · have rest := ih done
          rw [State.putch_count] at rest
          exact (Nat.le_succ _).trans rest

theorem escape_count {fmt fmt' : List Byte} (done : escape st fmt = some (st', fmt')) :
    st.calls.length < st'.calls.length := by
  cases fmt with
  | nil => exact absurd done nofun
  | cons bracket fmt =>
      obtain ⟨⟨last, rest⟩, read, same⟩ := Option.map_eq_some_iff.mp done
      cases same
      have more := escapeLoop_count read
      rw [State.putch_count, State.putch_count] at more
      exact lt_of_lt_of_le (by dsimp only; omega) more

theorem Directive.Quiet.isConversion {d : Directive} {ch : Byte} {slot : BitVec 64}
    (quiet : d.Quiet mem ch slot) : Format.isConversion ch := by
  rcases quiet with ⟨rfl, -⟩ | ⟨rfl, -⟩
  · decide
  · decide

/-- Where a quiet directive leaves the format and its arguments. -/
theorem directive_of_quiet {fmt fmt' rest seen : List Byte} {d : Directive} {ap'' : Nat} {ch : Byte}
    (done : directive (printfmt mem) mem args ap st fmt = some (st', ap', fmt'))
    (scan : reswitch args .init [chr '%'] ap fmt = ⟨d, seen, ap'', ch :: rest⟩)
    (quiet : d.Quiet mem ch (args ap'')) : ap' = ap'' + 1 ∧ fmt' = rest := by
  rw [directive, scan] at done
  dsimp only at done
  rw [if_pos quiet.isConversion] at done
  obtain ⟨⟨printed, next⟩, found, same⟩ := Option.map_eq_some_iff.mp done
  cases same
  exact ⟨(convert_count found).2.2 quiet, rfl⟩

/-- A directive prints nothing exactly if it is a quiet one. -/
theorem directive_count {fmt fmt' : List Byte}
    (done : directive (printfmt mem) mem args ap st fmt = some (st', ap', fmt')) :
    st.calls.length ≤ st'.calls.length ∧
      (st'.calls.length = st.calls.length ↔
        ∃ d seen ap'' ch, reswitch args .init [chr '%'] ap fmt = ⟨d, seen, ap'', ch :: fmt'⟩ ∧
          d.Quiet mem ch (args ap'') ∧ ap' = ap'' + 1) := by
  rw [directive] at done
  cases scan : reswitch args .init [chr '%'] ap fmt with
  | mk d seen ap'' left =>
      rw [scan] at done
      dsimp only at done
      cases left with
      | nil =>
          cases done
          rw [State.putch_count]
          refine ⟨Nat.le_succ _, iff_of_false (Nat.succ_ne_self _) ?_⟩
          rintro ⟨d', seen', ap', ch, same, -⟩
          exact absurd (congrArg Scan.fmt same).symm (List.cons_ne_nil _ _)
      | cons ch rest =>
          dsimp only at done
          split at done
          · obtain ⟨⟨printed, next⟩, found, same⟩ := Option.map_eq_some_iff.mp done
            cases same
            obtain ⟨grows, same, next_eq⟩ := convert_count found
            refine ⟨grows, same.trans ⟨fun quiet => ⟨d, seen, ap'', ch, rfl, quiet,
              next_eq quiet⟩, ?_⟩⟩
            rintro ⟨d', seen', ap', ch', same, quiet, -⟩
            cases same
            exact quiet
          · rename_i given_up
            cases done
            rw [State.putch_count]
            refine ⟨Nat.le_succ _, iff_of_false (Nat.succ_ne_self _) ?_⟩
            rintro ⟨d', seen', ap', ch', same, quiet, -⟩
            obtain ⟨rfl, -⟩ := List.cons.inj (congrArg Scan.fmt same)
            exact given_up quiet.isConversion

/-- The formatter prints nothing exactly for a silent format. -/
theorem vprintfmt_count {fmt : List Byte} {last : State}
    (done : vprintfmtWith (printfmt mem) mem args ap st fmt = some last) :
    st.calls.length ≤ last.calls.length ∧
      (last.calls.length = st.calls.length ↔ Silent mem args ap fmt) := by
  induction ap, st, fmt using vprintfmtWith.induct (printfmt mem) mem args with
  | case1 ap st =>
      rw [vprintfmtWith_nil] at done
      cases done
      exact ⟨le_refl _, iff_of_true rfl .nil⟩
  | case2 ap st fmt failed =>
      rw [vprintfmtWith_escape_none failed] at done
      contradiction
  | case3 ap st fmt st' fmt' step ih =>
      rw [vprintfmtWith_escape step] at done
      have more := escape_count step
      obtain ⟨grows, -⟩ := ih done
      refine ⟨by omega, iff_of_false (by omega) ?_⟩
      intro silent
      generalize whole : 0x1B :: fmt = format at silent
      cases silent with
      | nil => contradiction
      | directive => exact absurd (List.cons.inj whole).1 (by decide)
  | case4 ap st fmt failed =>
      have carried := directive_isSome mem args ap st fmt
      rw [failed] at carried
      contradiction
  | case5 ap st fmt st' ap' fmt' step _ ih =>
      rw [vprintfmtWith_directive step] at done
      obtain ⟨grows, same⟩ := directive_count step
      obtain ⟨rest_grows, rest_same⟩ := ih done
      refine ⟨grows.trans rest_grows, ?_⟩
      constructor
      · intro nothing
        obtain ⟨d, seen, ap'', ch, scan, quiet, rfl⟩ := same.mp (by omega)
        exact .directive scan quiet (rest_same.mp (by omega))
      · intro silent
        cases silent with
        | directive scan quiet rest_silent =>
            obtain ⟨rfl, rfl⟩ := directive_of_quiet step scan quiet
            have nothing := same.mpr ⟨_, _, _, _, scan, quiet, rfl⟩
            exact (rest_same.mpr rest_silent).trans nothing
  | case6 ap st ch fmt not_esc not_percent ih =>
      rw [vprintfmtWith_text ⟨not_percent, not_esc⟩] at done
      obtain ⟨grows, -⟩ := ih done
      rw [State.putch_count] at grows
      refine ⟨by omega, iff_of_false (by omega) ?_⟩
      intro silent
      cases silent with
      | directive => exact not_percent rfl

end Jos64.Format

namespace Jos64.Console

open Jos64.Format

/-! ## The count -/

/-- The number of characters passed to `cputchar` from `log` to `last`. -/
def passed (log last : Log) : Nat :=
  (last.calls.drop log.calls.length).length

/-- `vcprintf` and `cprintf` return the number of characters passed to
`cputchar`, which `vsnprintf` returns too, exactly if they print nothing. -/
theorem vcprintf_counts_iff {mem : Mem} {log last : Log} (fmt : CString) {ap : Args} {cnt : Int}
    (print : Mem → Log → List Byte → Args → Option (Int × Log))
    (either : print = vcprintf ∨ print = cprintf)
    (returned : print mem log fmt.bytes ap = some (cnt, last)) :
    (cnt = passed log last ∧ ∀ color store buf n printed, buf ≠ 0 → 1 ≤ n →
        passed log last < 2 ^ 31 →
        vsnprintf mem color store buf n fmt.bytes ap = some printed → printed.value = cnt) ↔
      Silent mem ap 0 fmt.bytes := by
  have run : (vprintfmt mem ap log fmt.bytes).map (fun last =>
      ((last.calls.drop log.calls.length).foldl putch 0, last)) = some (cnt, last) := by
    rcases either with rfl | rfl
    · exact returned
    · exact returned
  obtain ⟨reached, formatted, same⟩ := Option.map_eq_some_iff.mp run
  cases same
  rw [foldl_putch, passed, List.length_drop]
  obtain ⟨grows, nothing⟩ := vprintfmt_count formatted
  constructor
  · rintro ⟨count, -⟩
    exact nothing.mp (by omega)
  · intro silent
    refine ⟨by rw [nothing.mpr silent]; simp, ?_⟩
    intro color store buf n printed buf_pos n_pos _ stored
    have closed : EscapesClosed fmt.bytes :=
      (vprintfmt_returns_iff mem ap log fmt).mp ⟨_, formatted⟩
    obtain ⟨last', formatted'⟩ := (vprintfmt_returns_iff mem ap ⟨[], color⟩ fmt).mpr closed
    have empty : last'.calls.length = 0 := (vprintfmt_count formatted').2.mpr silent
    rw [vsnprintf_of_valid formatted' (by omega) store buf_pos n_pos, empty] at stored
    cases stored
    rfl

/-- A string directive with an empty string. -/
theorem vcprintf_counts_iff_empty_string :
    (0 : Int) = passed ⟨[], .init⟩ ⟨[], .init⟩ ∧ ∀ color store buf n printed, buf ≠ 0 → 1 ≤ n →
      passed ⟨[], .init⟩ ⟨[], .init⟩ < 2 ^ 31 →
      vsnprintf .bare color store buf n (str "%s") (fun _ => 1) = some printed →
        printed.value = 0 := by
  have formatted : vprintfmt .bare (fun _ => 1) ⟨[], .init⟩ (str "%s") = some ⟨[], .init⟩ := by
    rw [show str "%s" = [chr '%', chr 's'] by decide, vprintfmt]
    rw [vprintfmtWith_directive (directive_conversion (by decide) _ _)]
    · rw [vprintfmtWith_nil]
      rfl
  have returned : vcprintf .bare ⟨[], .init⟩ (str "%s") (fun _ => 1) =
      some (0, ⟨[], .init⟩) := by
    rw [vcprintf, formatted]
    rfl
  exact (vcprintf_counts_iff ⟨str "%s", by decide⟩ vcprintf (.inl rfl) returned).mpr
    ((vprintfmt_count formatted).2.mp rfl)

/-- One character is printed and none is counted. -/
theorem one_character_not_counted :
    ¬ ∀ cnt last, vcprintf .bare ⟨[], .init⟩ (str "a") (fun _ => 0) = some (cnt, last) →
      cnt = passed ⟨[], .init⟩ last := by
  intro counted
  have formatted : vprintfmt .bare (fun _ => 0) ⟨[], .init⟩ (str "a") =
      some ⟨[⟨0x61, .init⟩], .init⟩ := by
    rw [show str "a" = [chr 'a'] by decide, vprintfmt, vprintfmtWith_text (by decide),
      vprintfmtWith_nil]
    rfl
  have one := counted 0 ⟨[⟨0x61, .init⟩], .init⟩ (by rw [vcprintf, formatted]; rfl)
  exact absurd one (by decide)

end Jos64.Console
