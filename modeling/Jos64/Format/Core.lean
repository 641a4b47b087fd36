import Jos64.Byte
import Jos64.Console.Color

/-!
# The formatter

`vprintfmt` hands characters to a callback one at a time.  Nothing it reads is
written by the callback, so what it does is the list of its `putch` calls, each
with the colour globals at that moment, and the colour globals it leaves; the
callbacks of `snprintf` and `cprintf` are folded over that list.

A pointer into the format is the list of the bytes that are left before the
NUL.  Reading at the empty list yields the NUL; moving past it and reading
again is outside the string, and a run that does so has no result: `none`.
-/

namespace Jos64.Format

open Jos64.Console

/-! ## The world around a call -/

/-- `MAXERROR` -/
def maxError : Int := 8

/-- The initialisers of the table `error_string`; the other elements are null
pointers. -/
def errorText (err : Int) : Option (List Byte) :=
  if err = 1 then some (str "unspecified error")
  else if err = 2 then some (str "bad environment")
  else if err = 3 then some (str "invalid parameter")
  else if err = 4 then some (str "out of memory")
  else if err = 5 then some (str "out of environments")
  else if err = 6 then some (str "segmentation fault")
  else none

/-- The memory that the formatter only reads: the strings that pointers point
to, and the words at `error_string[err]`, which inside the table are its
elements and outside it whatever is stored there. -/
structure Mem where
  cstr : BitVec 64 → CString
  errorString : Int → BitVec 64
  errorString_null : ∀ err, 0 ≤ err → err < maxError → errorText err = none → errorString err = 0
  errorString_text : ∀ err text, errorText err = some text →
    errorString err ≠ 0 ∧ (cstr (errorString err)).bytes = text

/-- The 8-byte slots that `va_arg` takes one after the other. -/
abbrev Args := Nat → BitVec 64

/-- One call of `putch`, with the colour globals at that moment. -/
structure Call where
  ch : BitVec 32
  color : Color
  deriving DecidableEq

/-- The calls so far and the colour globals. -/
structure State where
  calls : List Call
  color : Color

def State.putch (st : State) (ch : BitVec 32) : State :=
  { st with calls := st.calls ++ [⟨ch, st.color⟩] }

/-- Several calls of `putch` in order. -/
def State.putchs (st : State) (chs : List (BitVec 32)) : State :=
  chs.foldl State.putch st

/-- A byte of a `const char *`, promoted to `int`. -/
def signedChar (byte : Byte) : BitVec 32 :=
  byte.signExtend 32

/-- A byte read as `unsigned char`, promoted to `int`. -/
def unsignedChar (byte : Byte) : BitVec 32 :=
  byte.setWidth 32

/-! ## Numbers -/

/-- The character `"0123456789abcdef"[digit]`. -/
def digitChar (digit : Nat) : Byte :=
  (str "0123456789abcdef").getD digit 0

/-- The characters of `printnum`.  The recursion stops in the source as well
only for a base of at least 2, the only ones it is called with. -/
def printnum (num base : Nat) (width : Int) (padc : Byte) : List (BitVec 32) :=
  (if _more : 2 ≤ base ∧ base ≤ num then printnum (num / base) base (wrap32 (width - 1)) padc
    -- `while (--width > 0) putch(padc, putdat)`
    else List.replicate (wrap32 (width - 1)).toNat (signedChar padc)) ++
  [signedChar (digitChar (num % base))]
termination_by num
decreasing_by exact Nat.div_lt_self (by omega) (by omega)

def getuint (slot : BitVec 64) (lflag : Nat) : BitVec 64 :=
  if 2 ≤ lflag then slot
  else if lflag ≠ 0 then slot
  else (slot.setWidth 32).setWidth 64

def getint (slot : BitVec 64) (lflag : Nat) : BitVec 64 :=
  if 2 ≤ lflag then slot
  else if lflag ≠ 0 then slot
  else (slot.setWidth 32).signExtend 64

/-- `va_arg(aq, int)` as a number. -/
def intArg (slot : BitVec 64) : Int :=
  (slot.setWidth 32).toInt

/-! ## Strings -/

/-- `strnlen`, whose `size_t` bound is a negative `int` for "no bound". -/
def strnlen (p : List Byte) (precision : Int) : Nat :=
  if precision < 0 then p.length else min p.length precision.toNat

/-- The character loop of `%s`, with the width that is left after it. -/
def stringLoop (altflag : Bool) (precision width : Int) : List Byte → List (BitVec 32) × Int
  | [] => ([], width)
  | byte :: p =>
      if precision < 0 ∨ precision - 1 ≥ 0 then
        let ch := signedChar byte
        let shown := if altflag ∧ (ch.slt 0x20 ∨ (0x7E : BitVec 32).slt ch) then 0x3F else ch
        let precision := if precision < 0 then precision else precision - 1
        let rest := stringLoop altflag precision (wrap32 (width - 1)) p
        (shown :: rest.1, rest.2)
      else ([], width)

/-! ## Colour escapes -/

/-- The value of the macro `color_fun(color)`. -/
def colorFun (color : BitVec 32) : BitVec 32 :=
  (color &&& 0x04) >>> 2 ||| (color &&& 0x02) ||| (color &&& 0x01) <<< 2

/-- The expression `color_fun(color) << 4`.  The expansion of the macro has no
outer parentheses, so the shift applies to its last operand only. -/
def colorFunShl4 (color : BitVec 32) : BitVec 32 :=
  (color &&& 0x04) >>> 2 ||| (color &&& 0x02) ||| (color &&& 0x01) <<< 2 <<< 4

/-- The effect of one escape parameter on `color_flag`. -/
def interpretColor (flag : BitVec 32) (escColor : Int) : BitVec 32 :=
  if escColor = 0 then 0x07
  else if escColor ≥ 30 ∧ escColor ≤ 37 then
    flag &&& 0xF8 ||| colorFun (BitVec.ofInt 32 (escColor - 30))
  else if escColor ≥ 40 ∧ escColor ≤ 47 then
    flag &&& 0x8F ||| colorFunShl4 (BitVec.ofInt 32 (escColor - 40))
  else flag

/-- The two nested loops that read an escape sequence from its first parameter
on.  The inner one stops at `;` and at `m`, not at the NUL. -/
def escapeLoop (st : State) (escColor : Int) : List Byte → Option (State × List Byte)
  | [] => none
  | ch :: fmt =>
      if ch ≠ chr ';' ∧ ch ≠ chr 'm' then
        escapeLoop (st.putch (unsignedChar ch))
          (wrap32 (wrap32 (escColor * 10) + (ch.toNat - 0x30))) fmt
      else
        let st := { st with color.flag := interpretColor st.color.flag escColor }
        let st := st.putch (unsignedChar ch)
        if ch = chr 'm' then some (st, fmt) else escapeLoop st 0 fmt

/-- An escape sequence whose ESC has been read.  The byte after it is skipped
unread: `++fmt` comes before the first read. -/
def escape (st : State) (fmt : List Byte) : Option (State × List Byte) :=
  let st := { st with color.parsing := true }
  let st := (st.putch 0x1B).putch (unsignedChar (chr '['))
  match fmt with
  | [] => none
  | _ :: fmt =>
      (escapeLoop st 0 fmt).map fun (st, fmt) => ({ st with color.parsing := false }, fmt)

/-! ## Directives -/

/-- The flags of a directive. -/
structure Directive where
  padc : Byte
  width : Int
  precision : Int
  lflag : Nat
  altflag : Bool

def Directive.init : Directive :=
  ⟨chr ' ', -1, -1, 0, false⟩

/-- The label `process_precision`. -/
def Directive.processPrecision (d : Directive) (precision : Int) : Directive :=
  if d.width < 0 then { d with width := precision, precision := -1 }
  else { d with precision }

/-- The loop that reads a decimal width or precision, after the digit `ch`.
It returns the number with the bytes it has passed and those that are left. -/
def digits (precision : Int) (ch : Byte) (seen : List Byte) :
    List Byte → Int × List Byte × List Byte
  | [] => (wrap32 (wrap32 (precision * 10) + ch.toNat - 0x30), seen, [])
  | next :: fmt =>
      let precision := wrap32 (wrap32 (precision * 10) + ch.toNat - 0x30)
      if (signedChar next).slt 0x30 ∨ (0x39 : BitVec 32).slt (signedChar next) then
        (precision, seen, next :: fmt)
      else digits precision next (next :: seen) fmt

/-- The scan `for (fmt--; fmt[-1] != '%'; fmt--)` after its first decrement.
`seen` are the bytes before `fmt`, nearest first. -/
def rewind : List Byte → List Byte → List Byte
  | [], fmt => fmt
  | ch :: seen, fmt => if ch = chr '%' then fmt else rewind seen (ch :: fmt)

/-- A nested call `printfmt(putch, putdat, fmt, ...)`. -/
abbrev Printfmt := List Byte → Args → State → Option State

section Conversions

variable (printfmt : Printfmt) (mem : Mem)

/-- The label `number`. -/
def State.number (st : State) (num : BitVec 64) (base : Nat) (d : Directive) : State :=
  st.putchs (printnum num.toNat base d.width d.padc)

/-- The cases `d` and `o` before the label `number`. -/
def State.signedNumber (st : State) (num : BitVec 64) (base : Nat) (d : Directive) : State :=
  if num.slt 0 then (st.putch (unsignedChar (chr '-'))).number (-num) base d
  else st.number num base d

/-- The case `s`. -/
def convertString (d : Directive) (slot : BitVec 64) (st : State) : State :=
  let p := if slot = 0 then str "(null)" else (mem.cstr slot).bytes
  let padded := 0 < d.width ∧ d.padc ≠ chr '-'
  let width := if padded then d.width - strnlen p d.precision else d.width
  let st := if padded then st.putchs (List.replicate width.toNat (signedChar d.padc)) else st
  let width := if padded then min width 0 else width
  let body := stringLoop d.altflag d.precision width p
  (st.putchs body.1).putchs (List.replicate body.2.toNat 0x20)

/-- The case `e`: the nested calls pass `err`, whose register is zero-extended
to its slot, or the pointer to the message. -/
def convertError (slot : BitVec 64) (st : State) : Option State :=
  let err := intArg slot
  let err := if err < 0 then wrap32 (-err) else err
  if err ≥ maxError ∨ mem.errorString err = 0 then
    printfmt (str "error %d") (fun _ => (BitVec.ofInt 32 err).setWidth 64) st
  else printfmt (str "%s") (fun _ => mem.errorString err) st

/-- The conversion letters, and what they do with the arguments from index
`ap` on. -/
def convert (args : Args) (d : Directive) (ch : Byte) (ap : Nat) (st : State) :
    Option (State × Nat) :=
  if ch = chr 'c' then some (st.putch ((args ap).setWidth 32), ap + 1)
  else if ch = chr 'e' then (convertError printfmt mem (args ap) st).map (·, ap + 1)
  else if ch = chr 's' then some (convertString mem d (args ap) st, ap + 1)
  else if ch = chr 'd' then some (st.signedNumber (getint (args ap) 3) 10 d, ap + 1)
  else if ch = chr 'u' then some (st.number (getuint (args ap) 3) 10 d, ap + 1)
  else if ch = chr 'o' then some (st.signedNumber (getint (args ap) 3) 8 d, ap + 1)
  else if ch = chr 'p' then
    some (((st.putch 0x30).putch (unsignedChar (chr 'x'))).number (args ap) 16 d, ap + 1)
  else if ch = chr 'x' then some (st.number (getuint (args ap) 3) 16 d, ap + 1)
  else some (st.putch (unsignedChar (chr '%')), ap)

/-- The bytes with a `case` of their own that ends the directive. -/
def isConversion (ch : Byte) : Bool :=
  ch ∈ [chr 'c', chr 'e', chr 's', chr 'd', chr 'u', chr 'o', chr 'p', chr 'x', chr '%']

end Conversions

/-- The cases of one byte that end in `goto reswitch`, with the argument index
after them. -/
def flagCase (args : Args) (d : Directive) (ap : Nat) (ch : Byte) : Option (Directive × Nat) :=
  if ch = chr '-' then some ({ d with padc := chr '-' }, ap)
  else if ch = chr '0' then some ({ d with padc := chr '0' }, ap)
  else if ch = chr '*' then some (d.processPrecision (intArg (args ap)), ap + 1)
  else if ch = chr '.' then some (if d.width < 0 then { d with width := 0 } else d, ap)
  else if ch = chr '#' then some ({ d with altflag := true }, ap)
  else if ch = chr 'l' then some ({ d with lflag := d.lflag + 1 }, ap)
  else none

/-- A directive whose flags have been read: the flags, the bytes before `fmt`
back to the `%` (nearest first), the next argument, and what is left. -/
structure Scan where
  directive : Directive
  seen : List Byte
  ap : Nat
  fmt : List Byte

theorem digits_length_le (precision : Int) (ch : Byte) (seen fmt : List Byte) :
    (digits precision ch seen fmt).2.2.length ≤ fmt.length := by
  induction fmt generalizing precision ch seen with
  | nil => exact le_refl _
  | cons next fmt ih =>
      simp only [digits]
      split
      · exact le_refl _
      · exact (ih _ _ _).trans (Nat.le_succ _)

/-- The loop of the label `reswitch`, up to a byte that does not go back to
it. -/
def reswitch (args : Args) (d : Directive) (seen : List Byte) (ap : Nat) : List Byte → Scan
  | [] => ⟨d, seen, ap, []⟩
  | ch :: fmt =>
      if 0x31 ≤ ch ∧ ch ≤ 0x39 then
        let read := digits 0 ch (ch :: seen) fmt
        reswitch args (d.processPrecision read.1) read.2.1 ap read.2.2
      else
        match flagCase args d ap ch with
        | some (d, ap) => reswitch args d (ch :: seen) ap fmt
        | none => ⟨d, seen, ap, ch :: fmt⟩
termination_by fmt => fmt.length
decreasing_by
  · exact Nat.lt_succ_of_le (digits_length_le _ _ _ _)
  · exact Nat.lt_succ_self _

/-- A directive whose `%` has been read.  At the NUL and at every byte without
a case it is given up: the `%` is printed and `fmt` scanned back to it. -/
def directive (printfmt : Printfmt) (mem : Mem) (args : Args) (ap : Nat) (st : State)
    (fmt : List Byte) : Option (State × Nat × List Byte) :=
  let scan := reswitch args .init [chr '%'] ap fmt
  match scan.fmt with
  | [] => some (st.putch (unsignedChar (chr '%')), scan.ap, rewind scan.seen [])
  | ch :: fmt =>
      if isConversion ch then
        (convert printfmt mem args scan.directive ch scan.ap st).map fun (st, ap) => (st, ap, fmt)
      else some (st.putch (unsignedChar (chr '%')), scan.ap, rewind scan.seen (ch :: fmt))

/-! ## Progress -/

theorem escapeLoop_length {st st' : State} {escColor : Int} {fmt fmt' : List Byte}
    (done : escapeLoop st escColor fmt = some (st', fmt')) : fmt'.length < fmt.length := by
  induction fmt generalizing st escColor with
  | nil => simp [escapeLoop] at done
  | cons ch fmt ih =>
      rw [escapeLoop] at done
      split at done
      · exact (ih done).trans (Nat.lt_succ_self _)
      · dsimp only at done
        split at done
        · cases done
          exact Nat.lt_succ_self _
        · exact (ih done).trans (Nat.lt_succ_self _)

theorem escape_length {st st' : State} {fmt fmt' : List Byte}
    (done : escape st fmt = some (st', fmt')) : fmt'.length < fmt.length := by
  cases fmt with
  | nil => simp [escape] at done
  | cons skipped fmt =>
      simp only [escape, Option.map_eq_some_iff] at done
      obtain ⟨⟨st, rest⟩, read, result⟩ := done
      cases result
      exact (escapeLoop_length read).trans (Nat.lt_succ_self _)

/-- A byte that a directive can pass over before it ends or is given up. -/
def Passable (ch : Byte) : Prop :=
  ch ≠ chr '%' ∧ ch ≠ 0x1B

instance (ch : Byte) : Decidable (Passable ch) :=
  inferInstanceAs (Decidable (_ ∧ _))

theorem passable_of_digit : ∀ ch : Byte,
    ¬ ((signedChar ch).slt 0x30 ∨ (0x39 : BitVec 32).slt (signedChar ch)) → Passable ch := by
  decide

theorem passable_of_range : ∀ ch : Byte, 0x31 ≤ ch ∧ ch ≤ 0x39 → Passable ch := by
  decide

theorem passable_of_flagCase {args : Args} {d : Directive} {ap : Nat} {ch : Byte}
    {result : Directive × Nat} (flag : flagCase args d ap ch = some result) : Passable ch := by
  unfold flagCase at flag
  by_contra odd
  have other (c : Char) (plain : Passable (chr c)) : ch ≠ chr c := by
    rintro rfl
    exact odd plain
  simp [other '-' (by decide), other '0' (by decide), other '*' (by decide),
    other '.' (by decide), other '#' (by decide), other 'l' (by decide)] at flag

theorem digits_spec (precision : Int) (ch : Byte) (seen fmt : List Byte) :
    ∃ taken, (∀ byte ∈ taken, Passable byte) ∧
      (digits precision ch seen fmt).2.1 = taken.reverse ++ seen ∧
      fmt = taken ++ (digits precision ch seen fmt).2.2 := by
  induction fmt generalizing precision ch seen with
  | nil => exact ⟨[], by simp, rfl, rfl⟩
  | cons next fmt ih =>
      simp only [digits]
      split
      · exact ⟨[], by simp, rfl, rfl⟩
      · rename_i digit
        obtain ⟨taken, passable, seen_eq, fmt_eq⟩ := ih
          (wrap32 (wrap32 (precision * 10) + ch.toNat - 0x30)) next (next :: seen)
        refine ⟨next :: taken, ?_, by simp [seen_eq], by rw [List.cons_append, ← fmt_eq]⟩
        intro byte byte_mem
        rcases List.mem_cons.mp byte_mem with rfl | byte_mem
        · exact passable_of_digit _ digit
        · exact passable byte byte_mem

/-- The flags of a directive are bytes it passes over. -/
theorem reswitch_spec (args : Args) (d : Directive) (seen : List Byte) (ap : Nat)
    (fmt : List Byte) :
    ∃ passed, (∀ ch ∈ passed, Passable ch) ∧
      (reswitch args d seen ap fmt).seen = passed.reverse ++ seen ∧
      fmt = passed ++ (reswitch args d seen ap fmt).fmt := by
  induction d, seen, ap, fmt using reswitch.induct args with
  | case1 d seen ap => exact ⟨[], by simp, by simp [reswitch], by simp [reswitch]⟩
  | case2 d seen ap ch fmt range read ih =>
      obtain ⟨taken, taken_passable, seen_eq, fmt_eq⟩ := digits_spec 0 ch (ch :: seen) fmt
      obtain ⟨passed, passed_passable, scan_seen, scan_fmt⟩ := ih
      rw [reswitch, if_pos range]
      refine ⟨ch :: (taken ++ passed), ?_, ?_, ?_⟩
      · intro byte byte_mem
        rcases List.mem_cons.mp byte_mem with rfl | byte_mem
        · exact passable_of_range _ range
        · rcases List.mem_append.mp byte_mem with byte_mem | byte_mem
          · exact taken_passable byte byte_mem
          · exact passed_passable byte byte_mem
      · rw [scan_seen, seen_eq]
        simp
      · rw [List.cons_append, List.append_assoc, ← scan_fmt, ← fmt_eq]
  | case3 d seen ap ch fmt not_range d' ap' flag ih =>
      obtain ⟨passed, passed_passable, scan_seen, scan_fmt⟩ := ih
      rw [reswitch, if_neg not_range, flag]
      refine ⟨ch :: passed, ?_, by simp [scan_seen], by rw [List.cons_append, ← scan_fmt]⟩
      intro byte byte_mem
      rcases List.mem_cons.mp byte_mem with rfl | byte_mem
      · exact passable_of_flagCase flag
      · exact passed_passable byte byte_mem
  | case4 d seen ap ch fmt not_range stop =>
      rw [reswitch, if_neg not_range, stop]
      exact ⟨[], by simp, rfl, rfl⟩

theorem rewind_append (passed fmt : List Byte) (passable : ∀ ch ∈ passed, Passable ch) :
    rewind (passed ++ [chr '%']) fmt = passed.reverse ++ fmt := by
  induction passed generalizing fmt with
  | nil => simp [rewind]
  | cons ch passed ih =>
      rw [List.cons_append, rewind, if_neg (passable ch List.mem_cons_self).1,
        ih _ fun later later_mem => passable later (List.mem_cons_of_mem ch later_mem)]
      simp

theorem ne_esc_of_isConversion : ∀ ch : Byte, isConversion ch → ch ≠ 0x1B := by
  decide

/-- Where a directive leaves the format: some bytes after the `%` have been
skipped, none of them an ESC.  The backward scan stops at this `%`. -/
theorem directive_skips {printfmt : Printfmt} {mem : Mem} {args : Args} {ap ap' : Nat}
    {st st' : State} {fmt fmt' : List Byte}
    (done : directive printfmt mem args ap st fmt = some (st', ap', fmt')) :
    ∃ skipped, (∀ ch ∈ skipped, ch ≠ 0x1B) ∧ fmt = skipped ++ fmt' := by
  obtain ⟨passed, passable, seen_eq, fmt_eq⟩ := reswitch_spec args .init [chr '%'] ap fmt
  have rewound (rest : List Byte) :
      rewind (reswitch args .init [chr '%'] ap fmt).seen rest = passed ++ rest := by
    rw [seen_eq, rewind_append _ _ (by simpa using passable), List.reverse_reverse]
  unfold directive at done
  cases left : (reswitch args .init [chr '%'] ap fmt).fmt with
  | nil =>
      simp only [left, rewound, Option.some.injEq, Prod.mk.injEq] at done
      rw [left] at fmt_eq
      exact ⟨[], by simp, by rw [← done.2.2]; exact fmt_eq⟩
  | cons ch rest =>
      simp only [left, rewound] at done
      rw [left] at fmt_eq
      split at done
      · rename_i conversion
        obtain ⟨converted, -, result⟩ := Option.map_eq_some_iff.mp done
        cases result
        refine ⟨passed ++ [ch], ?_, by rw [fmt_eq]; simp⟩
        intro byte byte_mem
        rcases List.mem_append.mp byte_mem with byte_mem | byte_mem
        · exact (passable byte byte_mem).2
        · rw [List.mem_singleton.mp byte_mem]
          exact ne_esc_of_isConversion ch conversion
      · simp only [Option.some.injEq, Prod.mk.injEq] at done
        exact ⟨[], by simp, by rw [← done.2.2]; exact fmt_eq⟩

theorem directive_length {printfmt : Printfmt} {mem : Mem} {args : Args} {ap ap' : Nat}
    {st st' : State} {fmt fmt' : List Byte}
    (done : directive printfmt mem args ap st fmt = some (st', ap', fmt')) :
    fmt'.length ≤ fmt.length := by
  obtain ⟨skipped, -, fmt_eq⟩ := directive_skips done
  rw [fmt_eq, List.length_append]
  exact Nat.le_add_left _ _

/-! ## The main loop -/

/-- `vprintfmt` over a given meaning of its nested calls of `printfmt`. -/
def vprintfmtWith (printfmt : Printfmt) (mem : Mem) (args : Args) (ap : Nat) (st : State) :
    List Byte → Option State
  | [] => some st
  | ch :: fmt =>
      if ch = 0x1B then
        match _step : escape st fmt with
        | none => none
        | some (st, fmt) => vprintfmtWith printfmt mem args ap st fmt
      else if ch = chr '%' then
        match _step : directive printfmt mem args ap st fmt with
        | none => none
        | some (st, ap, fmt) => vprintfmtWith printfmt mem args ap st fmt
      else vprintfmtWith printfmt mem args ap (st.putch (unsignedChar ch)) fmt
termination_by fmt => fmt.length
decreasing_by
  · exact (escape_length _step).trans (Nat.lt_succ_self _)
  · exact Nat.lt_succ_of_le (directive_length _step)
  · exact Nat.lt_succ_self _

/-- `printfmt` as `vprintfmt` calls it, with one of two fixed formats.  Neither
of them contains a `%e`, so there is no deeper nesting. -/
def printfmt (mem : Mem) : Printfmt := fun fmt args st =>
  vprintfmtWith (fun _ _ _ => none) mem args 0 st fmt

/-- Main function to format and print a string. -/
def vprintfmt (mem : Mem) (args : Args) (st : State) (fmt : List Byte) : Option State :=
  vprintfmtWith (printfmt mem) mem args 0 st fmt

end Jos64.Format
