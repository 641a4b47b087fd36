import Jos64.Console.Message
import Jos64.Debuginfo.Filled
import Jos64.Dwarf.Length
import Jos64.Format.Escape

/-!
# The backtrace

`mon_backtrace` follows the saved frame pointers up the stack until one is zero, and
prints a line and a function for each frame.
-/

namespace Jos64.Monitor

open Loop Dwarf Format Console Debuginfo

/-! ## The command -/

/-- What the command finds: the strings for the formatter, the stack and the debug sections
in the memory of the kernel, what the variables of each call of `debuginfo_rip` hold before,
and the address of the literal `"<unknown>"`. -/
structure Stack where
  mem : Mem
  kernel : Kernel
  locals : Nat → Locals
  unknown : BitVec 64

/-- A load of `width` bytes. -/
def load (mem : Memory) (address width : Nat) : Option Nat :=
  (mem.read address width).map fun bytes => (lsbValue bytes).toNat

/-- The characters of `"<unknown>"`. -/
def unknownText : List Byte := str "<unknown>"

namespace Stack

variable (stack : Stack)

/-- The pointer to a string. -/
def pointer : Text → BitVec 64
  | .unknown => stack.unknown
  | .mem address => BitVec.ofNat 64 address

/-- `name[i]`, with the NUL behind the literal. -/
def nameByte (name : Text) (i : Nat) : Option Byte :=
  match name with
  | .unknown => (unknownText ++ [0])[i]?
  | .mem address => stack.kernel.mem.byte (u64 (address + i))

/-- `for (i = 0; i < info.rip_fn_namelen; i++)`, from some index on. -/
def printName (name : Text) : (count i : Nat) → Log → Exec Log
  | 0, _, log => .done log
  | count + 1, i, log =>
      (Exec.ofOption (stack.nameByte name i)).bind fun c =>
        (print stack.mem log (str "%c") [slot32 (signedChar c)]).bind fun log =>
          printName name count (i + 1) log

/-- `for (i = 0; i < info.rip_fn_narg; i++)`, from some index on. -/
def printArgs (rbp : Nat) : (count i : Nat) → Log → Exec Log
  | 0, _, log => .done log
  | count + 1, i, log =>
      (Exec.ofOption (load stack.kernel.mem (sub64 rbp ((i + 1) * 4)) 4)).bind fun arg =>
        (print stack.mem log (str " %016x") [slot32 (BitVec.ofNat 32 arg)]).bind fun log =>
          printArgs rbp count (i + 1) log

/-- What is printed for a frame. -/
def printFrame (rbp rip : Nat) (info : Ripdebuginfo) (log : Log) : Exec Log :=
  (print stack.mem log (str "  rbp %016x  rip %016x\n")
      [BitVec.ofNat 64 rbp, BitVec.ofNat 64 rip]).bind fun log =>
  (print stack.mem log (str "       %s:%d: ")
      [stack.pointer info.ripFile, slot32 (BitVec.ofInt 32 info.ripLine)]).bind fun log =>
  (stack.printName info.ripFnName info.ripFnNamelen.toNat 0 log).bind fun log =>
  (print stack.mem log (str "+%016x") [BitVec.ofNat 64 (sub64 rip info.ripFnAddr)]).bind fun log =>
  (print stack.mem log (str "  args:%d ")
      [slot32 (BitVec.ofNat 32 info.sizeFnArg.length)]).bind fun log =>
  (stack.printArgs rbp info.sizeFnArg.length 0 log).bind fun log =>
  print stack.mem log (str "\n") []

end Stack

/-- The variables of the loop, and the number of calls of `debuginfo_rip`. -/
structure BacktraceState where
  rbp : Nat
  rip : Nat
  info : Ripdebuginfo
  calls : Nat
  log : Log

/-- A round of the loop. -/
def monBacktraceBody (stack : Stack) (fuel : Nat) (state : BacktraceState) :
    Exec (Next BacktraceState Log) :=
  if state.rbp ≠ 0 then
    (stack.printFrame state.rbp state.rip state.info state.log).bind fun log =>
    (Exec.ofOption (load stack.kernel.mem (u64 (state.rbp + 8)) 8)).bind fun rip =>
    (Exec.ofOption (load stack.kernel.mem state.rbp 8)).bind fun rbp =>
    (debuginfoRip fuel stack.kernel (stack.locals state.calls) rip).bind fun (_, info) =>
    .done (.again ⟨rbp, rip, info, state.calls + 1, log⟩)
  else .done (.stop state.log)

/-- The first line. -/
def bannerFormat : List Byte := str "\x1b[41;36mStack backtrace:\x1b[0m\n"

/-- `mon_backtrace`, with what the registers hold: the code and what has been printed. -/
def monBacktrace (stack : Stack) (fuel rbp rip : Nat) (log : Log) : Exec (Int × Log) :=
  (print stack.mem log bannerFormat []).bind fun log =>
  (debuginfoRip fuel stack.kernel (stack.locals 0) rip).bind fun (_, info) =>
  (loop (monBacktraceBody stack fuel) fuel ⟨rbp, rip, info, 1, log⟩).bind fun log =>
  .done (0, log)

/-! ## What is printed -/

/-- A frame: where it is, where its function is to go on, and what is found out about that. -/
structure Frame where
  rbp : Nat
  rip : Nat
  info : Ripdebuginfo
  name : List Byte
  args : List (BitVec 32)

namespace Frame

variable (stack : Stack)

/-- The lines of a frame. -/
def text (f : Frame) : List Byte :=
  str "  rbp " ++ hexDigits 16 (BitVec.ofNat 64 f.rbp) ++ str "  rip " ++
    hexDigits 16 (BitVec.ofNat 64 f.rip) ++ str "\n" ++
  (str "       " ++ pointed stack.mem (stack.pointer f.info.ripFile) ++ str ":" ++
    numeral 10 f.info.ripLine.toNat ++ str ": ") ++ f.name ++
  (str "+" ++ hexDigits 16 (BitVec.ofNat 64 (sub64 f.rip f.info.ripFnAddr))) ++
  (str "  args:" ++ numeral 10 f.args.length ++ str " ") ++
  f.args.flatMap (fun arg => str " " ++ hexDigits 16 (slot32 arg)) ++ str "\n"

/-- The name of the function and the arguments are in memory, and the numbers are `int`s. -/
structure Readable (f : Frame) : Prop where
  file_short : (pointed stack.mem (stack.pointer f.info.ripFile)).length < 2 ^ 31
  line_nonneg : 0 ≤ f.info.ripLine
  line_lt : f.info.ripLine < 2 ^ 31
  namelen_eq : f.info.ripFnNamelen = f.name.length
  name_held : ∀ (i : Nat) (inside : i < f.name.length),
    stack.nameByte f.info.ripFnName i = some f.name[i]
  narg_eq : f.info.sizeFnArg.length = f.args.length
  narg_lt : f.args.length < 2 ^ 31
  args_held : ∀ (i : Nat) (inside : i < f.args.length),
    stack.kernel.mem.Holds (sub64 f.rbp ((i + 1) * 4)) (littleEndian 4 f.args[i].toNat)

end Frame

section

variable {stack : Stack} {log : Log}

theorem load_eq {mem : Memory} {address width value : Nat} (known : IsWidth width)
    (small : value < 256 ^ width) (held : mem.Holds address (littleEndian width value)) :
    load mem address width = some value := by
  have in_word : value < 2 ^ 64 := small.trans_le (by
    rcases known with rfl | rfl | rfl | rfl <;> decide)
  have read_eq := Memory.read_of_holds held
  rw [littleEndian_length] at read_eq
  rw [load, read_eq, Option.map_some, lsbValue_eq_joined known,
    joined_littleEndian width value 0 small, BitVec.toNat_ofNat, Nat.pow_zero, Nat.mul_one,
    Nat.mod_eq_of_lt in_word]

theorem signedChar_slot32 (c : Byte) :
    (slot32 (signedChar c)).setWidth 32 = signedChar c := by
  rw [slot32, BitVec.setWidth_setWidth_of_le _ (by decide), BitVec.setWidth_eq]

/-- The characters of the name. -/
theorem printName_eq {name : Text} {chars : List Byte} {start : Nat}
    (held : ∀ (i : Nat) (inside : i < chars.length),
      stack.nameByte name (start + i) = some chars[i]) :
    stack.printName name chars.length start log = .done (log.text chars) := by
  induction chars generalizing start log with
  | nil => rfl
  | cons c chars ih =>
      have first : stack.nameByte name start = some c := held 0 (Nat.succ_pos _)
      have printed : print stack.mem log (str "%c") [slot32 (signedChar c)] = .done (log.text [c]) :=
        print_eq (printsHere_c (signedChar_slot32 c))
      have rest : ∀ (i : Nat) (inside : i < chars.length),
          stack.nameByte name (start + 1 + i) = some chars[i] := by
        intro i inside
        rw [Nat.add_assoc, Nat.add_comm 1]
        exact held (i + 1) (Nat.succ_lt_succ inside)
      rw [List.length_cons, Stack.printName, first, Exec.ofOption_some, Exec.done_bind, printed,
        Exec.done_bind, ih rest, ← State.text_append]
      rfl

/-- The arguments, at falling addresses. -/
theorem printArgs_eq {rbp : Nat} {args : List (BitVec 32)} {start : Nat}
    (held : ∀ (i : Nat) (inside : i < args.length),
      stack.kernel.mem.Holds (sub64 rbp ((start + i + 1) * 4)) (littleEndian 4 args[i].toNat)) :
    stack.printArgs rbp args.length start log =
      .done (log.text (args.flatMap fun arg => str " " ++ hexDigits 16 (slot32 arg))) := by
  induction args generalizing start log with
  | nil => rfl
  | cons arg args ih =>
      have first : stack.kernel.mem.Holds (sub64 rbp ((start + 1) * 4))
          (littleEndian 4 arg.toNat) := held 0 (Nat.succ_pos _)
      have loaded := load_eq (by decide) (arg.isLt.trans_le (by decide)) first
      have printed : print stack.mem log (str " %016x") [slot32 (BitVec.ofNat 32 arg.toNat)] =
          .done (log.text (str " " ++ hexDigits 16 (slot32 arg))) := by
        have spelled : str " %016x" = str " " ++ str "%016x" := by
          simp only [← str_append, String.reduceAppend]
        rw [BitVec.ofNat_toNat, BitVec.setWidth_eq, spelled]
        exact print_eq ((printsHere_str (by decide)).append printsHere_hex16)
      have rest : ∀ (i : Nat) (inside : i < args.length),
          stack.kernel.mem.Holds (sub64 rbp ((start + 1 + i + 1) * 4))
            (littleEndian 4 args[i].toNat) := by
        intro i inside
        rw [Nat.add_right_comm start 1 i]
        exact held (i + 1) (Nat.succ_lt_succ inside)
      rw [List.length_cons, Stack.printArgs, loaded, Exec.ofOption_some, Exec.done_bind, printed,
        Exec.done_bind, ih rest, ← State.text_append]
      rfl

/-- The lines of a frame. -/
theorem printFrame_eq {f : Frame} (readable : f.Readable stack) :
    stack.printFrame f.rbp f.rip f.info log = .done (log.text (f.text stack)) := by
  have place (log : Log) : print stack.mem log (str "  rbp %016x  rip %016x\n")
      [BitVec.ofNat 64 f.rbp, BitVec.ofNat 64 f.rip] =
        .done (log.text (str "  rbp " ++ hexDigits 16 (BitVec.ofNat 64 f.rbp) ++ str "  rip " ++
          hexDigits 16 (BitVec.ofNat 64 f.rip) ++ str "\n")) := by
    have spelled : str "  rbp %016x  rip %016x\n" =
      str "  rbp " ++ str "%016x" ++ str "  rip " ++ str "%016x" ++ str "\n" := by
      simp only [← str_append, String.reduceAppend]
    rw [spelled]
    exact print_eq (((((printsHere_str (by decide)).append printsHere_hex16).append
      (printsHere_str (by decide))).append printsHere_hex16).append (printsHere_str (by decide)))
  have source (log : Log) : print stack.mem log (str "       %s:%d: ")
      [stack.pointer f.info.ripFile, slot32 (BitVec.ofInt 32 f.info.ripLine)] =
        .done (log.text (str "       " ++ pointed stack.mem (stack.pointer f.info.ripFile) ++
          str ":" ++ numeral 10 f.info.ripLine.toNat ++ str ": ")) := by
    obtain ⟨line, line_eq⟩ := Int.eq_ofNat_of_zero_le readable.line_nonneg
    have line_lt := readable.line_lt
    rw [line_eq] at line_lt ⊢
    have spelled : str "       %s:%d: " =
      str "       " ++ str "%s" ++ str ":" ++ str "%d" ++ str ": " := by
      simp only [← str_append, String.reduceAppend]
    rw [spelled]
    exact print_eq (((((printsHere_str (by decide)).append
      (printsHere_s readable.file_short)).append (printsHere_str (by decide))).append
        (printsHere_int (by omega) rfl)).append (printsHere_str (by decide)))
  have offset (log : Log) : print stack.mem log (str "+%016x")
      [BitVec.ofNat 64 (sub64 f.rip f.info.ripFnAddr)] =
        .done (log.text (str "+" ++ hexDigits 16 (BitVec.ofNat 64 (sub64 f.rip f.info.ripFnAddr)))) := by
    have spelled : str "+%016x" = str "+" ++ str "%016x" := by
      simp only [← str_append, String.reduceAppend]
    rw [spelled]
    exact print_eq ((printsHere_str (by decide)).append printsHere_hex16)
  have count (log : Log) : print stack.mem log (str "  args:%d ")
      [slot32 (BitVec.ofNat 32 f.args.length)] =
        .done (log.text (str "  args:" ++ numeral 10 f.args.length ++ str " ")) := by
    have spelled : str "  args:%d " = str "  args:" ++ str "%d" ++ str " " := by
      simp only [← str_append, String.reduceAppend]
    rw [spelled]
    exact print_eq (((printsHere_str (by decide)).append
      (printsHere_int readable.narg_lt rfl)).append (printsHere_str (by decide)))
  have newline (log : Log) : print stack.mem log (str "\n") [] = .done (log.text (str "\n")) :=
    print_str (by decide)
  have name (log : Log) : stack.printName f.info.ripFnName f.name.length 0 log =
      .done (log.text f.name) := by
    refine printName_eq fun i inside => ?_
    rw [Nat.zero_add]
    exact readable.name_held i inside
  have args (log : Log) : stack.printArgs f.rbp f.args.length 0 log =
      .done (log.text (f.args.flatMap fun arg => str " " ++ hexDigits 16 (slot32 arg))) := by
    refine printArgs_eq fun i inside => ?_
    rw [Nat.zero_add]
    exact readable.args_held i inside
  rw [Stack.printFrame, place, Exec.done_bind, source, Exec.done_bind, readable.namelen_eq,
    Int.toNat_natCast, name, Exec.done_bind, offset, Exec.done_bind, readable.narg_eq, count, Exec.done_bind, args,
    Exec.done_bind, newline]
  simp only [Frame.text, State.text_append]

end

/-! ## The first line -/

/-- Characters that are put while the colours are the same. -/
def shown (color : Color) (bytes : List Byte) : List Call :=
  bytes.map fun ch => ⟨unsignedChar ch, color⟩

/-- The colours of the first line. -/
def bannerFlag (flag : BitVec 32) : BitVec 32 :=
  interpretColor (interpretColor flag 41) 36

/-- The first line, where the parameters of the sequences are put as well. -/
def banner (flag : BitVec 32) : List Call :=
  shown ⟨flag, true⟩ (str "\x1b[41") ++ shown ⟨interpretColor flag 41, true⟩ (str ";36") ++
    shown ⟨bannerFlag flag, true⟩ (str "m") ++
    shown ⟨bannerFlag flag, false⟩ (str "Stack backtrace:") ++
    shown ⟨bannerFlag flag, true⟩ (str "\x1b[0") ++ shown ⟨Color.init.flag, true⟩ (str "m") ++
    shown .init (str "\n")

theorem append_shown (calls : List Call) (color : Color) (bytes : List Byte) :
    calls ++ shown color bytes = (State.putchs ⟨calls, color⟩ (bytes.map unsignedChar)).calls := by
  rw [State.putchs_calls, List.map_map]
  rfl

theorem putchs_shown (calls : List Call) (color : Color) (bytes : List Byte) :
    State.putchs ⟨calls, color⟩ (bytes.map unsignedChar) = ⟨calls ++ shown color bytes, color⟩ := by
  have color_eq := State.putchs_color ⟨calls, color⟩ (bytes.map unsignedChar)
  calc
    _ = (⟨calls ++ shown color bytes, (State.putchs ⟨calls, color⟩
        (bytes.map unsignedChar)).color⟩ : State) := by
      rw [append_shown]
    _ = _ := by rw [color_eq]

theorem escape_on (calls : List Call) (color : Color) (rest : List Byte) :
    escape ⟨calls, color⟩ (str "[41;36m" ++ rest) =
      some (⟨calls ++ shown ⟨color.flag, true⟩ (str "\x1b[41") ++
        shown ⟨interpretColor color.flag 41, true⟩ (str ";36") ++
        shown ⟨bannerFlag color.flag, true⟩ (str "m"), ⟨bannerFlag color.flag, false⟩⟩, rest) := by
  rw [append_shown, append_shown, append_shown]
  rfl

theorem escape_off (calls : List Call) (color : Color) (rest : List Byte) :
    escape ⟨calls, color⟩ (str "[0m" ++ rest) =
      some (⟨calls ++ shown ⟨color.flag, true⟩ (str "\x1b[0") ++
        shown ⟨Color.init.flag, true⟩ (str "m"), .init⟩, rest) := by
  rw [append_shown, append_shown]
  rfl

/-- The colours are as at the start behind it. -/
theorem print_banner (stack : Stack) (log : Log) :
    print stack.mem log bannerFormat [] = .done ⟨log.calls ++ banner log.color.flag, .init⟩ := by
  obtain ⟨calls, color⟩ := log
  have title_plain : ∀ ch ∈ str "Stack backtrace:", Passable ch := by decide
  have newline_plain : ∀ ch ∈ str "\n", Passable ch := by decide
  have run : vprintfmt stack.mem (slots []) ⟨calls, color⟩ bannerFormat =
      some ⟨calls ++ banner color.flag, .init⟩ := by
    rw [show bannerFormat = 0x1B :: (str "[41;36m" ++ (str "Stack backtrace:" ++
      0x1B :: (str "[0m" ++ (str "\n" ++ [])))) by decide, vprintfmt,
      vprintfmtWith_escape (escape_on calls color _), vprintfmtWith_append title_plain,
      putchs_shown, vprintfmtWith_escape (escape_off _ _ _), vprintfmtWith_append newline_plain,
      putchs_shown, vprintfmtWith_nil]
    simp only [banner, List.append_assoc]
  rw [print, cprintf, vcprintf, run, Option.map_some, foldl_putch]
  rfl

/-! ## The walk -/

/-- The frames from a frame pointer on, up to the one whose saved frame pointer is zero.
`debuginfo_rip` answers for each, and for the return address of the last one. -/
def Stack.Chain (stack : Stack) (fuel : Nat) : (call rbp rip : Nat) → List Frame → Prop
  | call, rbp, rip, [] =>
      rbp = 0 ∧ ∃ code info,
        debuginfoRip fuel stack.kernel (stack.locals call) rip = .done (code, info)
  | call, rbp, rip, f :: frames =>
      rbp ≠ 0 ∧ f.rbp = rbp ∧ f.rip = rip ∧ f.Readable stack ∧
      (∃ code, debuginfoRip fuel stack.kernel (stack.locals call) rip = .done (code, f.info)) ∧
      ∃ saved back, saved < 256 ^ 8 ∧ back < 256 ^ 8 ∧
        stack.kernel.mem.Holds rbp (littleEndian 8 saved) ∧
        stack.kernel.mem.Holds (u64 (rbp + 8)) (littleEndian 8 back) ∧
        Chain stack fuel (call + 1) saved back frames

section

variable {stack : Stack} {fuel : Nat}

/-- A round prints the frame and goes on with the one that called it. -/
theorem monBacktraceBody_again {f : Frame} {log : Log} {call saved back : Nat} {code : Int}
    {info : Ripdebuginfo} (nonzero : f.rbp ≠ 0) (readable : f.Readable stack)
    (saved_lt : saved < 256 ^ 8) (back_lt : back < 256 ^ 8)
    (saved_held : stack.kernel.mem.Holds f.rbp (littleEndian 8 saved))
    (back_held : stack.kernel.mem.Holds (u64 (f.rbp + 8)) (littleEndian 8 back))
    (answers : debuginfoRip fuel stack.kernel (stack.locals call) back = .done (code, info)) :
    monBacktraceBody stack fuel ⟨f.rbp, f.rip, f.info, call, log⟩ =
      .done (.again ⟨saved, back, info, call + 1, log.text (f.text stack)⟩) := by
  rw [monBacktraceBody, if_pos nonzero, printFrame_eq readable, Exec.done_bind,
    load_eq (by decide) back_lt back_held, Exec.ofOption_some, Exec.done_bind,
    load_eq (by decide) saved_lt saved_held, Exec.ofOption_some, Exec.done_bind, answers,
    Exec.done_bind]

theorem Stack.Chain.answers {call rbp rip : Nat} {frames : List Frame}
    (chain : stack.Chain fuel call rbp rip frames) :
    ∃ code info, debuginfoRip fuel stack.kernel (stack.locals call) rip = .done (code, info) := by
  cases frames with
  | nil => exact chain.2
  | cons f frames =>
      obtain ⟨-, -, -, -, ⟨code, answers⟩, -⟩ := chain
      exact ⟨code, f.info, answers⟩

/-- The loop prints the frames that are left. -/
theorem monBacktrace_loop {call rbp rip : Nat} {frames : List Frame} {code : Int}
    {info : Ripdebuginfo} {log : Log} {rounds : Nat}
    (chain : stack.Chain fuel call rbp rip frames)
    (answers : debuginfoRip fuel stack.kernel (stack.locals call) rip = .done (code, info))
    (enough : frames.length < rounds) :
    loop (monBacktraceBody stack fuel) rounds ⟨rbp, rip, info, call + 1, log⟩ =
      .done (log.text (frames.flatMap (Frame.text stack))) := by
  obtain ⟨rounds, rfl⟩ : ∃ rest, rounds = rest + 1 := ⟨rounds - 1, by omega⟩
  induction frames generalizing call rbp rip code info log rounds with
  | nil =>
      have ends : monBacktraceBody stack fuel ⟨rbp, rip, info, call + 1, log⟩ =
          .done (.stop log) := if_neg fun nonzero => nonzero chain.1
      exact loop_stop ends rounds
  | cons f frames ih =>
      obtain ⟨nonzero, rfl, rfl, readable, ⟨code', answers'⟩, saved, back, saved_lt, back_lt,
        saved_held, back_held, rest⟩ := chain
      cases answers.symm.trans answers'
      obtain ⟨code'', info', next⟩ := rest.answers
      rw [List.length_cons] at enough
      obtain ⟨rounds, rfl⟩ : ∃ left, rounds = left + 1 := ⟨rounds - 1, by omega⟩
      rw [loop_again (monBacktraceBody_again nonzero readable saved_lt back_lt saved_held
        back_held next), ih rest next rounds (by omega), ← State.text_append, List.flatMap_cons]

/-- The backtrace is the first line and the frames of the stack in their order, from the
innermost one, and then the command is left with 0. -/
theorem monBacktrace_eq {rbp rip : Nat} {frames : List Frame}
    (chain : stack.Chain fuel 0 rbp rip frames) (enough : frames.length < fuel) (log : Log) :
    monBacktrace stack fuel rbp rip log =
      .done (0, State.text ⟨log.calls ++ banner log.color.flag, .init⟩
        (frames.flatMap (Frame.text stack))) := by
  obtain ⟨code, info, answers⟩ := chain.answers
  rw [monBacktrace, print_banner, Exec.done_bind, answers, Exec.done_bind]
  change (loop (monBacktraceBody stack fuel) fuel ⟨rbp, rip, info, 0 + 1, _⟩).bind _ = _
  rw [monBacktrace_loop chain answers enough, Exec.done_bind]

end

/-! ### One frame -/

/-- A function, and the frame of a call of it from where no function is known. -/
def frameBytes : List Byte :=
  functionBytes ++ (littleEndian 8 0 ++ littleEndian 8 0x8004300000)

def frameKernel : Kernel :=
  { functionKernel with
    mem := .image 0x8004010000 frameBytes (show 0x8004010000 + 75 < 2 ^ 47 by decide) }

theorem errorText_ne_nil (err : Int) : errorText err ≠ some [] := by
  unfold errorText
  split_ifs
  all_goals decide

theorem bare_cstr_far {address : BitVec 64} (far : 0x1007 ≤ address.toNat) :
    (Mem.bare.cstr address).bytes = [] := by
  have no_message : errorText (address.toNat - 0x1000) = none := by
    unfold errorText
    split_ifs
    all_goals first | rfl | omega
  change ((errorText (address.toNat - 0x1000)).getD []).filter (· ≠ 0) = []
  rw [no_message]
  rfl

/-- The messages are in front of everything else. -/
theorem bare_errorString_near {err : Int} {message : List Byte}
    (found : errorText err = some message) : (Mem.bare.errorString err).toNat < 0x1007 := by
  by_contra far
  have bytes_eq := (Mem.bare.errorString_text err message found).2
  rw [bare_cstr_far (Nat.not_lt.mp far)] at bytes_eq
  exact errorText_ne_nil err (bytes_eq ▸ found)

theorem str_nonzero {s : String} (nonzero : s.toList.all fun c => c.toNat % 256 != 0) :
    ∀ c ∈ str s, c ≠ 0 := by
  intro ch member zero
  obtain ⟨c, c_mem, rfl⟩ := List.mem_map.mp member
  have value_eq := congrArg BitVec.toNat zero
  rw [chr, BitVec.toNat_ofNat] at value_eq
  exact bne_iff_ne.mp (List.all_eq_true.mp nonzero c c_mem) value_eq

/-- Strings at addresses where no message is. -/
def literals : List (BitVec 64 × CString) :=
  [(0x8004010025, ⟨str "k", str_nonzero rfl⟩), (0x8004002000, ⟨str "K> ", str_nonzero rfl⟩),
    (0x8004002010, ⟨str "help", str_nonzero rfl⟩),
    (0x8004002020, ⟨str "kerninfo", str_nonzero rfl⟩),
    (0x8004002030, ⟨str "backtrace", str_nonzero rfl⟩),
    (0x8004002040, ⟨str "Display this list of commands", str_nonzero rfl⟩),
    (0x8004002060, ⟨str "Display information about the kernel", str_nonzero rfl⟩),
    (0x8004002090, ⟨str "Backtrace", str_nonzero rfl⟩)]

theorem literals_far : ∀ entry ∈ literals, 0x1007 ≤ entry.1.toNat := by
  decide

def frameMem : Mem where
  cstr address := (literals.lookup address).getD (Mem.bare.cstr address)
  errorString := Mem.bare.errorString
  errorString_null := Mem.bare.errorString_null
  errorString_text err text found := by
    obtain ⟨nonzero, bytes_eq⟩ := Mem.bare.errorString_text err text found
    have elsewhere : literals.lookup (Mem.bare.errorString err) = none := by
      rw [List.lookup_eq_none_iff]
      intro entry member
      rw [bne_iff_ne]
      rintro same
      have near := bare_errorString_near found
      rw [same] at near
      exact absurd near (Nat.not_lt.mpr (literals_far entry member))
    rw [elsewhere, Option.getD_none]
    exact ⟨nonzero, bytes_eq⟩

def frameStack : Stack where
  mem := frameMem
  kernel := frameKernel
  locals _ := zeroLocals
  unknown := 0

def frame : Frame where
  rbp := 0x800401003b
  rip := 0x8004200000
  info := ⟨.mem 0x8004010025, 0, .mem 0x8004010028, 1, 0x80041FFFFF, []⟩
  name := str "f"
  args := []

/-- What is read of the sections of the kernel. -/
def frameDebug : Debug :=
  { functionDebug with mem := frameKernel.mem }

theorem frame_initialised : dwarfInit frameKernel = some frameDebug := by
  have version : frameKernel.mem.byte (0x10000 + kernbase + 4) = some 2 := by
    decide
  have order : frameKernel.mem.byte (0x10000 + kernbase + eiData) = some 1 := by
    decide
  rw [dwarfInit]
  rw [version, Option.bind_some, order, Option.map_some, if_neg (by decide)]
  rfl

theorem frame_answers : debuginfoRip 1024 frameKernel zeroLocals 0x8004200000 =
    .done (0, frame.info) := by
  have entered : enterUnit frameDebug 1024 zeroLocals.start =
      .done (.inside ⟨34, functionUnit, functionRoot, functionDie, zeroDie⟩) := by
    decide
  have stored : childBody frameDebug 1024 frameKernel.debugLine functionUnit functionRoot zeroDie
      0x8004200000 ⟨functionDie, zeroDie⟩ = .done (.stop (.found frame.info)) := by
    decide
  have found : search frameDebug 1024 frameKernel.debugLine zeroLocals 0x8004200000 =
      .done (some frame.info) :=
    loop_stop (unitBody_of_found entered (loop_stop stored 1023)) 1023
  exact debuginfoRip_of_found (by decide) frame_initialised (by decide) found

theorem frame_caller_unknown : debuginfoRip 1024 frameKernel zeroLocals 0x8004300000 =
    .done (-1, .init 0x8004300000) := by
  decide

theorem frame_saved : frameKernel.mem.Holds 0x800401003b (littleEndian 8 0) :=
  Memory.image_holds _ functionBytes (littleEndian 8 0x8004300000) rfl

theorem frame_back : frameKernel.mem.Holds 0x8004010043 (littleEndian 8 0x8004300000) :=
  Memory.image_holds _ (functionBytes ++ littleEndian 8 0) [] (by decide)

theorem frame_readable : frame.Readable frameStack where
  file_short := by decide
  line_nonneg := by decide
  line_lt := by decide
  namelen_eq := rfl
  name_held i inside := by
    have first : frameStack.nameByte frame.info.ripFnName 0 = some (chr 'f') := by
      decide
    have length_eq : frame.name.length = 1 := by decide
    obtain rfl : i = 0 := by omega
    exact first
  narg_eq := rfl
  narg_lt := by decide
  args_held i inside := absurd inside (Nat.not_lt_zero i)

theorem frame_chain : frameStack.Chain 1024 0 0x800401003b 0x8004200000 [frame] :=
  ⟨by decide, rfl, rfl, frame_readable, ⟨0, frame_answers⟩, 0, 0x8004300000, by decide,
    by decide, frame_saved, frame_back, rfl, -1, _, frame_caller_unknown⟩

end Jos64.Monitor
