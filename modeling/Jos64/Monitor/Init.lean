import Jos64.Monitor.Session

/-!
# The kernel around the monitor

`test_backtrace` calls itself before it calls `mon_backtrace`, and says so on the way down
and on the way up.  `_panic` prints a message the first time only, and ends in the monitor.
-/

namespace Jos64.Monitor

open Loop Format Console

/-! ## `test_backtrace` -/

/-- `test_backtrace`, with what the registers hold in the innermost call. -/
def testBacktrace (stack : Stack) (fuel rbp rip : Nat) (x : Int) (log : Log) : Exec Log :=
  (print stack.mem log (str "entering test_backtrace %d\n") [slot32 (BitVec.ofInt 32 x)]).bind
    fun log =>
  (if 0 < x then testBacktrace stack fuel rbp rip (x - 1) log
    else (monBacktrace stack fuel rbp rip log).bind fun (_, log) => .done log).bind fun log =>
  print stack.mem log (str "leaving test_backtrace %d\n") [slot32 (BitVec.ofInt 32 x)]
termination_by x.toNat
decreasing_by omega

/-- The line of one call. -/
def callText (title : List Byte) (x : Nat) : List Byte :=
  title ++ numeral 10 x ++ str "\n"

/-- The lines on the way down, and those on the way up. -/
def enteringText (x : Nat) : List Byte :=
  (List.range (x + 1)).reverse.flatMap (callText (str "entering test_backtrace "))

def leavingText (x : Nat) : List Byte :=
  (List.range (x + 1)).flatMap (callText (str "leaving test_backtrace "))

theorem print_call {mem : Mem} {log : Log} {fmt : String} (title : String) {x : Nat}
    (plain : title.toList.all isPlain) (spelled : fmt = title ++ "%d" ++ "\n")
    (small : x < 2 ^ 31) :
    print mem log (str fmt) [slot32 (BitVec.ofInt 32 x)] =
      .done (log.text (callText (str title) x)) := by
  rw [spelled]
  simp only [str_append]
  exact print_eq (((printsHere_str plain).append
    (printsHere_int small (by rw [← BitVec.ofInt_natCast]; rfl))).append
      (printsHere_str (by decide)))

theorem State.text_color (st : State) (bytes : List Byte) : (st.text bytes).color = st.color :=
  State.putchs_color st _

section

variable {stack : Stack} {fuel rbp rip : Nat} {frames : List Frame}

/-- The calls are entered from the outermost one on and left in the opposite order, with
the backtrace between them. -/
theorem testBacktrace_nests (chain : stack.Chain fuel 0 rbp rip frames)
    (enough : frames.length < fuel) {x : Nat} (small : x < 2 ^ 31) (log : Log) :
    testBacktrace stack fuel rbp rip x log =
      .done ((State.text ⟨(log.text (enteringText x)).calls ++ banner log.color.flag, .init⟩
        (frames.flatMap (Frame.text stack))).text (leavingText x)) := by
  induction x generalizing log with
  | zero =>
      have down : enteringText 0 = callText (str "entering test_backtrace ") 0 :=
        List.flatMap_singleton _ _
      have up : leavingText 0 = callText (str "leaving test_backtrace ") 0 :=
        List.flatMap_singleton _ _
      rw [testBacktrace, print_call "entering test_backtrace " (by decide) (by decide) small,
        Exec.done_bind, if_neg (by decide), monBacktrace_eq chain enough, Exec.done_bind,
        Exec.done_bind, print_call "leaving test_backtrace " (by decide) (by decide) small,
        State.text_color, down, up]
  | succ x ih =>
      have inner : ((x + 1 : Nat) : Int) - 1 = (x : Nat) := by omega
      have down : enteringText (x + 1) =
          callText (str "entering test_backtrace ") (x + 1) ++ enteringText x := by
        rw [enteringText, List.range_succ, List.reverse_append, List.flatMap_append,
          List.reverse_singleton, List.flatMap_singleton]
        rfl
      have up : leavingText (x + 1) =
          leavingText x ++ callText (str "leaving test_backtrace ") (x + 1) := by
        rw [leavingText, List.range_succ, List.flatMap_append, List.flatMap_singleton]
        rfl
      rw [testBacktrace, print_call "entering test_backtrace " (by decide) (by decide) small,
        Exec.done_bind, if_pos (by omega), inner, ih (Nat.lt_of_succ_lt small), Exec.done_bind,
        print_call "leaving test_backtrace " (by decide) (by decide) small, State.text_color, down,
        up, State.text_append, State.text_append]

end

/-- Three calls with a backtrace of one frame. -/
theorem testBacktrace_nests_frame :
    testBacktrace frameStack 1024 0x800401003b 0x8004200000 (2 : Nat) ⟨[], .init⟩ =
      .done ((State.text
        ⟨(State.text ⟨[], .init⟩ (enteringText 2)).calls ++ banner 0x07, .init⟩
        ([frame].flatMap (Frame.text frameStack))).text (leavingText 2)) :=
  testBacktrace_nests frame_chain (by decide) (by decide) ⟨[], .init⟩

/-! ## `_panic` and `_warn` -/

section

variable (mem : Mem)

/-- The message of a call at a line of a file, under a title with the two. -/
def report (title : List Byte) (file : BitVec 64) (line : BitVec 32) (fmt : List Byte) (ap : Args)
    (log : Log) : Exec Log :=
  (print mem log title [file, slot32 line]).bind fun log =>
  (Exec.ofOption (vcprintf mem log fmt ap)).bind fun (_, log) =>
  print mem log (str "\n") []

def warn (file : BitVec 64) (line : BitVec 32) (fmt : List Byte) (ap : Args) (log : Log) :
    Exec Log :=
  report mem (str "kernel warning at %s:%d: ") file line fmt ap log

end

section

variable (image : Image) (context : Context) (fuel : Nat)

/-- `while (1) monitor(NULL)` -/
def monitorForever : Session → Exec Ended :=
  loop (fun session => (monitor image context fuel session).bind fun
    | .waiting session => .done (.stop (.waiting session))
    | .left session => .done (.again session)) fuel

/-- `_panic`: the pointer in `panicstr` afterwards, and how the monitor ends. -/
def panic (panicstr file : BitVec 64) (line : BitVec 32) (fmt : BitVec 64) (ap : Args)
    (session : Session) : Exec (BitVec 64 × Ended) :=
  if panicstr ≠ 0 then
    (monitorForever image context fuel session).bind fun ended => .done (panicstr, ended)
  else
    (report image.mem (str "kernel panic at %s:%d: ") file line (image.mem.cstr fmt).bytes ap
      session.log).bind fun log =>
    (monitorForever image context fuel { session with log }).bind fun ended => .done (fmt, ended)

end

section

variable {mem : Mem} {file : BitVec 64} {line : Nat} {args : Args} {items : List Item}

/-- The text of a message. -/
def reportText (mem : Mem) (title : List Byte) (file : BitVec 64) (line : Nat)
    (message : List Byte) : List Byte :=
  title ++ pointed mem file ++ str ":" ++ numeral 10 line ++ str ": " ++ message ++ str "\n"

theorem report_eq {fmt : String} (title : String) (plain : title.toList.all isPlain)
    (spelled : fmt = title ++ "%s" ++ ":" ++ "%d" ++ ": ")
    (file_short : (pointed mem file).length < 2 ^ 31) (line_lt : line < 2 ^ 31)
    (fit : ItemsFit mem args 0 items) (log : Log) :
    report mem (str fmt) file (BitVec.ofNat 32 line) (itemBytes items) args log =
      .done (log.text (reportText mem (str title) file line (itemsPrinted mem args 0 items))) := by
  have place : print mem log (str fmt) [file, slot32 (BitVec.ofNat 32 line)] =
      .done (log.text (str title ++ pointed mem file ++ str ":" ++ numeral 10 line ++
        str ": ")) := by
    rw [spelled]
    simp only [str_append]
    exact print_eq (((((printsHere_str plain).append (printsHere_s file_short)).append
      (printsHere_str (by decide))).append (printsHere_int line_lt rfl)).append
        (printsHere_str (by decide)))
  have message (log : Log) : vcprintf mem log (itemBytes items) args =
      some (0, log.text (itemsPrinted mem args 0 items)) :=
    cprintf_of_printsHere (printsHere_items fit)
  rw [report, place, Exec.done_bind, message, Exec.ofOption_some, Exec.done_bind]
  dsimp only
  rw [print_str (by decide), reportText]
  simp only [State.text_append]

end

section

variable {image : Image} {context : Context} {fuel : Nat} {frames : List Frame}

theorem monitorForever_waits (walks : Walks image context fuel frames)
    (enough : frames.length < fuel) (long : bufLen ≤ fuel) (lines : List Typed)
    (enough_lines : lines.length < fuel) {keys : List Byte} (inside : ∀ c ∈ keys, ¬ IsEnd c)
    (store : Nat → Byte) (log : Log) (round : Nat) :
    ∃ store', monitorForever image context fuel
        ⟨store, log, lines.flatMap Typed.input ++ keys.map keyCode, round⟩ =
      .done (.waiting ⟨store', transcript image context frames log lines keys, [],
        round + lines.length⟩) := by
  obtain ⟨store', run, -⟩ := monitor_loop walks enough long lines inside enough_lines store
    (log.text greeting) round
  obtain ⟨more, rfl⟩ : ∃ more, fuel = more + 1 := ⟨fuel - 1, by omega⟩
  refine ⟨store', loop_stop ?_ more⟩
  rw [monitor_greets]
  dsimp only
  rw [run]
  rfl

/-- The first panic prints its message, and a later one prints none; both end in the monitor,
which does not return. -/
theorem panic_once (walks : Walks image context fuel frames) (enough : frames.length < fuel)
    (long : bufLen ≤ fuel) (lines : List Typed) (enough_lines : lines.length < fuel)
    {keys : List Byte} (inside : ∀ c ∈ keys, ¬ IsEnd c) {file : BitVec 64} {line : Nat}
    (file_short : (pointed image.mem file).length < 2 ^ 31) (line_lt : line < 2 ^ 31)
    {fmt : BitVec 64} {args : Args} {items : List Item}
    (format_eq : (image.mem.cstr fmt).bytes = itemBytes items)
    (fit : ItemsFit image.mem args 0 items) (store : Nat → Byte) (log : Log) (round : Nat) :
    let session : Session := ⟨store, log, lines.flatMap Typed.input ++ keys.map keyCode, round⟩
    let waiting (log : Log) (store : Nat → Byte) : Ended :=
      .waiting ⟨store, transcript image context frames log lines keys, [], round + lines.length⟩
    (∃ store', panic image context fuel 0 file (BitVec.ofNat 32 line) fmt args session =
      .done (fmt, waiting (log.text (reportText image.mem (str "kernel panic at ") file line
        (itemsPrinted image.mem args 0 items))) store')) ∧
    ∀ panicstr ≠ 0, ∃ store',
      panic image context fuel panicstr file (BitVec.ofNat 32 line) fmt args session =
        .done (panicstr, waiting log store') := by
  intro session waiting
  constructor
  · obtain ⟨store', run⟩ := monitorForever_waits walks enough long lines enough_lines inside store
      (log.text (reportText image.mem (str "kernel panic at ") file line
        (itemsPrinted image.mem args 0 items))) round
    refine ⟨store', ?_⟩
    rw [panic, if_neg (by decide), format_eq,
      report_eq "kernel panic at " (by decide) (by decide) file_short line_lt fit, Exec.done_bind,
      run, Exec.done_bind]
  · intro panicstr set
    obtain ⟨store', run⟩ := monitorForever_waits walks enough long lines enough_lines inside store
      log round
    refine ⟨store', ?_⟩
    rw [panic, if_pos set, run, Exec.done_bind]

end

/-- A first panic whose message is one word, with a line typed behind it. -/
theorem panic_once_word :
    ∃ store', panic sessionImage sessionContext 1024 0 0x8004010025 7 0x8004002090 (fun _ => 0)
        ⟨fun _ => 0xCC, ⟨[], .init⟩, [backtraceTyped].flatMap Typed.input ++ [].map keyCode, 0⟩ =
      .done (0x8004002090, .waiting ⟨store', transcript sessionImage sessionContext [frame]
        (State.text ⟨[], .init⟩ (reportText frameMem (str "kernel panic at ") 0x8004010025 7
          (str "Backtrace" ++ []))) [backtraceTyped] [], [], 1⟩) := by
  have walks : Walks sessionImage sessionContext 1024 [frame] := fun _ => frame_chain
  have fit : ItemsFit frameMem (fun _ => 0) 0 [.text (str "Backtrace")] :=
    ⟨plain_str (by decide), trivial⟩
  exact (panic_once walks (by decide) le_rfl [backtraceTyped] (by decide)
    (fun c member => absurd member List.not_mem_nil) (by decide) (by decide) (by decide) fit
    (fun _ => 0xCC) ⟨[], .init⟩ 0).1

end Jos64.Monitor
