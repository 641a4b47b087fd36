import Jos64.Console.Readline.Correctness
import Jos64.Monitor.Commands
import Jos64.Monitor.Lines

/-!
# The session

The monitor reads a line, carries it out and starts again.  Nothing that is typed makes it
leave this loop, and what it has printed is determined line by line.
-/

namespace Jos64.Monitor

open Loop Store Words Strings Format Console

/-! ## The buffer as strings -/

/-- The bytes at an address in front of a NUL, or of the end of the room. -/
def textAt (store : Nat → Byte) : (address room : Nat) → List Byte
  | _, 0 => []
  | address, room + 1 =>
      if store address = 0 then [] else store address :: textAt store (address + 1) room

theorem textAt_nonzero (store : Nat → Byte) (address room : Nat) :
    ∀ c ∈ textAt store address room, c ≠ 0 := by
  induction room generalizing address with
  | zero => exact fun c member => absurd member List.not_mem_nil
  | succ room ih =>
      intro c member
      rw [textAt] at member
      split at member
      · exact absurd member List.not_mem_nil
      · rename_i nonzero
        rcases List.mem_cons.mp member with rfl | member
        · exact nonzero
        · exact ih (address + 1) c member

theorem textAt_eq {store : Nat → Byte} {address room : Nat} {text : List Byte}
    (nonzero : ∀ c ∈ text, c ≠ 0) (held : Holds store address (text ++ [0]))
    (fits : text.length < room) : textAt store address room = text := by
  obtain ⟨room, rfl⟩ : ∃ rest, room = rest + 1 := ⟨room - 1, by omega⟩
  induction text generalizing address room with
  | nil => exact if_pos (holds_cons.mp held).1
  | cons c text ih =>
      obtain ⟨here, behind⟩ := holds_cons.mp held
      rw [List.length_cons] at fits
      obtain ⟨room, rfl⟩ : ∃ rest, room = rest + 1 := ⟨room - 1, by omega⟩
      rw [textAt, here, if_neg (nonzero c List.mem_cons_self),
        ih (fun later member => nonzero later (List.mem_cons_of_mem c member)) behind room
          (by omega)]

section

variable (image : Image)

/-- The strings, those in the buffer among them. -/
def Image.memory (store : Nat → Byte) : Mem where
  cstr address :=
    if InBuffer image.buf address.toNat then
      ⟨textAt store address.toNat (image.buf + bufLen - address.toNat), textAt_nonzero _ _ _⟩
    else image.mem.cstr address
  errorString := image.mem.errorString
  errorString_null := image.mem.errorString_null
  errorString_text err text found := by
    rw [if_neg (image.apart err text found)]
    exact image.mem.errorString_text err text found

/-- A string in the buffer. -/
theorem pointed_memory {store : Nat → Byte} {address : Nat} {text : List Byte}
    (nonzero : ∀ c ∈ text, c ≠ 0) (held : Holds store address (text ++ [0]))
    (base_le : image.buf ≤ address) (fits : address + text.length < image.buf + bufLen) :
    pointed (image.memory store) (BitVec.ofNat 64 address) = text := by
  have buf_pos := image.buf_pos
  have buf_le := image.buf_le
  have value_eq : (BitVec.ofNat 64 address).toNat = address := by
    rw [BitVec.toNat_ofNat]
    omega
  have not_null : BitVec.ofNat 64 address ≠ 0 := by
    intro same
    have zero := congrArg BitVec.toNat same
    rw [value_eq] at zero
    change address = 0 at zero
    omega
  have inside : InBuffer image.buf address := ⟨base_le, by omega⟩
  rw [pointed, if_neg not_null, Image.memory]
  dsimp only
  rw [if_pos (by rw [value_eq]; exact inside)]
  dsimp only
  rw [value_eq]
  exact textAt_eq nonzero held (by omega)

/-- Memory after `readline` has written to its buffer. -/
def Image.written (store buf : Nat → Byte) : Nat → Byte := fun address =>
  if InBuffer image.buf address then buf (address - image.buf) else store address

theorem Image.holds_written (store : Nat → Byte) {buf : Nat → Byte} {text : List Byte}
    (held : Holds buf 0 (text ++ [0])) (length_lt : text.length < bufLen) :
    Holds (image.written store buf) image.buf (text ++ [0]) := by
  intro index bound
  have inside : InBuffer image.buf (image.buf + index) := by
    rw [List.length_append, List.length_singleton] at bound
    exact ⟨Nat.le_add_right _ _, by omega⟩
  have here := held index bound
  rw [Nat.zero_add] at here
  rw [Image.written, if_pos inside, Nat.add_sub_cancel_left]
  exact here

end

/-! ## The loop -/

/-- What `mon_backtrace` finds when the monitor calls it, and what the array `argv` and the
variables of `debuginfo_rip` hold before, for each round. -/
structure Context where
  kernel : Debuginfo.Kernel
  unknown : BitVec 64
  rbp : Nat
  rip : Nat
  locals : Nat → Nat → Debuginfo.Locals
  argv : Nat → Nat → Nat

/-- Memory, what has been printed, the characters to come, and the number of the round. -/
structure Session where
  store : Nat → Byte
  log : Log
  input : List Int
  round : Nat

/-- How the monitor ends: it waits for a character, or it has left its loop. -/
inductive Ended where
  | waiting (session : Session)
  | left (session : Session)

section

variable (image : Image) (context : Context) (fuel : Nat)

def Context.stack (round : Nat) : Stack where
  mem := image.mem
  kernel := context.kernel
  locals := context.locals round
  unknown := context.unknown

/-- How a call of `runcmd` goes on: the message it prints, or the function it calls. -/
def answer (round : Nat) (line : Line) (log : Log) : Outcome → Exec (Int × Log)
  | .returned none => .done (0, log)
  | .returned (some message) =>
      (print (image.memory line.store) log message.format
        [BitVec.ofNat 64 message.argument]).bind fun log => .done (0, log)
  | .invoked .monHelp => monHelp image log
  | .invoked .monKerninfo => monKerninfo image log
  | .invoked .monBacktrace =>
      monBacktrace (context.stack image round) fuel context.rbp context.rip log

/-- A round of the loop. -/
def monitorBody (session : Session) : Exec (Next Session Ended) :=
  (Exec.ofOption (readline image.mem (fun index => session.store (image.buf + index)) session.log
    image.prompt session.input)).bind fun
    | .waiting line =>
        .done (.stop (.waiting
          ⟨image.written session.store line.buf, line.log, [], session.round⟩))
    | .null line input =>
        .done (.again
          ⟨image.written session.store line.buf, line.log, input, session.round + 1⟩)
    | .string line input =>
        (runcmd fuel (image.written session.store line.buf) image.buf
          (context.argv session.round)).bind fun (outcome, cut) =>
        (answer image context fuel session.round cut line.log outcome).bind fun (code, log) =>
          if code < 0 then .done (.stop (.left ⟨cut.store, log, input, session.round + 1⟩))
          else .done (.again ⟨cut.store, log, input, session.round + 1⟩)

def monitor (session : Session) : Exec Ended :=
  (print image.mem session.log (str "Welcome to the JOS kernel monitor!\n") []).bind fun log =>
  (print image.mem log (str "Type 'help' for a list of commands.\n") []).bind fun log =>
  loop (monitorBody image context fuel) fuel { session with log }

end

/-! ## What is printed -/

/-- The characters typed up to one that ends the line. -/
structure Typed where
  keys : List Byte
  last : Byte
  inside : ∀ c ∈ keys, ¬ IsEnd c
  ends : IsEnd last

/-- What is echoed for some characters, on a line with a text. -/
def echoes : (text keys : List Byte) → List (BitVec 32)
  | _, [] => []
  | text, c :: keys => codeEcho text c ++ echoes (codeEdit text c) keys

namespace Typed

variable (typed : Typed)

/-- The characters as `getchar` returns them. -/
def input : List Int :=
  typed.keys.map keyCode ++ [keyCode typed.last]

/-- The line that `readline` returns. -/
def text : List Byte :=
  typed.keys.foldl codeEdit []

def echo : List (BitVec 32) :=
  echoes [] typed.keys ++ [0x0A]

end Typed

section

variable (image : Image) (context : Context) (frames : List Frame)

/-- The output of a command. -/
def output (log : Log) : Func → Log
  | .monHelp => log.text helpText
  | .monKerninfo => log.text (kerninfoText image)
  | .monBacktrace => State.text ⟨log.calls ++ banner log.color.flag, .init⟩
      (frames.flatMap (Frame.text (context.stack image 0)))

/-- The output for the words of a line. -/
def replied (log : Log) : List (List Byte) → Log
  | [] => log
  | word :: more =>
      if maxArgs ≤ (word :: more).length then
        log.text (str "Too many arguments (max " ++ numeral 10 maxArgs ++ str ")\n")
      else
        match called commands word with
        | some func => output image context frames log func
        | none => log.text (str "Unknown command '" ++ word ++ str "'\n")

/-- The prompt, the echo of a line and the output for its words. -/
def exchange (log : Log) (typed : Typed) : Log :=
  replied image context frames ((log.text (str "K> ")).putchs typed.echo)
    (words isSpace typed.text)

/-- The greeting. -/
def greeting : List Byte :=
  str "Welcome to the JOS kernel monitor!\n" ++ str "Type 'help' for a list of commands.\n"

/-- The log of a session that waits behind some lines and the keys of one that has not ended. -/
def transcript (log : Log) (lines : List Typed) (keys : List Byte) : Log :=
  ((lines.foldl (exchange image context frames) (log.text greeting)).text (str "K> ")).putchs
    (echoes [] keys)

end

/-! ## A line is read -/

section

variable (mem : Mem)

/-- The characters of a line are echoed as they are taken up. -/
theorem readlineLoop_echoes {line : Console.Line} {text keys : List Byte}
    (line_eq : line.Represents text) (inside : ∀ c ∈ keys, ¬ IsEnd c) (input : List Int) :
    ∃ next : Console.Line, next.Represents (keys.foldl codeEdit text) ∧
      next.log = line.log.putchs (echoes text keys) ∧
      readlineLoop mem line (keys.map keyCode ++ input) = readlineLoop mem next input := by
  induction keys generalizing line text with
  | nil => exact ⟨line, line_eq, rfl, rfl⟩
  | cons c keys ih =>
      obtain ⟨middle, middle_eq, log_eq, step⟩ := readlineLoop_cons mem line_eq
        (inside c List.mem_cons_self) (keys.map keyCode ++ input)
      obtain ⟨next, next_eq, next_log, run⟩ := ih middle_eq
        fun later member => inside later (List.mem_cons_of_mem c member)
      refine ⟨next, next_eq, ?_, step.trans run⟩
      rw [next_log, log_eq, echoes, State.putchs_append]

variable (image : Image) (buf : Nat → Byte) (log : Log)

theorem readline_prompt (input : List Int) :
    readline image.mem buf log image.prompt input =
      readlineLoop image.mem ⟨buf, 0, log.text (str "K> ")⟩ input := by
  have not_null : image.prompt ≠ 0 := by
    intro null
    have text_eq := image.prompt_text
    rw [null] at text_eq
    exact absurd text_eq (show str "(null)" ≠ str "K> " by decide)
  have short : (pointed image.mem image.prompt).length < 2 ^ 31 := by
    rw [image.prompt_text]
    decide
  have prompts : PrintsHere image.mem (fun _ => image.prompt) 0 1 (str "%s") (str "K> ") := by
    rw [← image.prompt_text]
    exact printsHere_s short
  have printed : cprintf image.mem log (str "%s") (fun _ => image.prompt) =
      some (0, log.text (str "K> ")) := cprintf_of_printsHere prompts
  rw [readline, if_pos not_null, printed]
  rfl

/-- The call of `readline` for a line. -/
theorem readline_typed (typed : Typed) (input : List Int) :
    ∃ line : Console.Line, line.IsString typed.text ∧
      line.log = (log.text (str "K> ")).putchs typed.echo ∧
      readline image.mem buf log image.prompt (typed.input ++ input) =
        some (.string line input) := by
  obtain ⟨middle, middle_eq, middle_log, run⟩ := readlineLoop_echoes image.mem
    (.nil buf (log.text (str "K> "))) typed.inside (keyCode typed.last :: input)
  obtain ⟨last, stored, held⟩ := (middle_eq.echo 0x0A).store 0
  have stored' : (middle.echo 0x0A).store middle.i 0 = _ := stored
  refine ⟨{ middle.echo 0x0A with buf := last },
    ⟨held, middle_eq.length_lt, middle_eq.nonzero⟩, ?_, ?_⟩
  · change (middle.log.putch 0x0A) = _
    rw [middle_log, Typed.echo, State.putchs_append]
    rfl
  · have ends := typed.ends
    rw [readline_prompt, Typed.input, List.append_assoc, List.singleton_append, run, readlineLoop,
      if_neg (keyCode_nonneg typed.last)]
    simp only [keyCode_isDelete, keyCode_isEnd, keyCode_printable]
    rw [if_neg fun delete => ends.not_delete delete.1,
      if_neg fun printable => ends.not_printable printable.1, if_pos ends, stored',
      Option.map_some]

/-- The call of `readline` where the characters end in front of the end of a line. -/
theorem readline_waiting {keys : List Byte} (inside : ∀ c ∈ keys, ¬ IsEnd c) :
    ∃ line : Console.Line, line.log = (log.text (str "K> ")).putchs (echoes [] keys) ∧
      readline image.mem buf log image.prompt (keys.map keyCode) = some (.waiting line) := by
  obtain ⟨line, -, log_eq, run⟩ := readlineLoop_echoes image.mem
    (.nil buf (log.text (str "K> "))) inside []
  refine ⟨line, log_eq, ?_⟩
  rw [readline_prompt, ← List.append_nil (keys.map keyCode), run]
  rfl

end

/-! ## A line is answered -/

section

variable {image : Image} {context : Context} {fuel : Nat} {frames : List Frame}

variable (image context fuel frames) in
/-- The stack of each round holds the frames. -/
def Walks : Prop :=
  ∀ round, (context.stack image round).Chain fuel 0 context.rbp context.rip frames

theorem print_tooMany (mem : Mem) (log : Log) :
    print mem log tooMany.format [BitVec.ofNat 64 tooMany.argument] =
      .done (log.text (str "Too many arguments (max " ++ numeral 10 maxArgs ++ str ")\n")) := by
  have spelled : tooMany.format = str "Too many arguments (max " ++ str "%d" ++ str ")\n" := by
    simp only [tooMany, ← str_append, String.reduceAppend]
  rw [spelled]
  exact print_eq (((printsHere_str (by decide)).append
    (printsHere_int (by decide) (by decide))).append (printsHere_str (by decide)))

theorem print_unknownCommand {mem : Mem} {pointer : Nat} {word : List Byte}
    (pointed_eq : pointed mem (BitVec.ofNat 64 pointer) = word) (short : word.length < 2 ^ 31)
    (log : Log) :
    print mem log (unknownCommand pointer).format
        [BitVec.ofNat 64 (unknownCommand pointer).argument] =
      .done (log.text (str "Unknown command '" ++ word ++ str "'\n")) := by
  have spelled : (unknownCommand pointer).format =
      str "Unknown command '" ++ str "%s" ++ str "'\n" := by
    simp only [unknownCommand, ← str_append, String.reduceAppend]
  subst pointed_eq
  have argument : PrintsHere mem (slots [BitVec.ofNat 64 pointer]) 0 1 (str "%s")
      (pointed mem (BitVec.ofNat 64 pointer)) := printsHere_s short
  rw [spelled]
  exact print_eq (((printsHere_str (by decide)).append argument).append
    (printsHere_str (by decide)))

theorem answer_eq (walks : Walks image context fuel frames) (enough : frames.length < fuel)
    {s : List Byte} (short : s.length < bufLen) (nonzero : ∀ c ∈ s, c ≠ 0) {line : Line}
    {outcome : Outcome} (answers : Answers image.buf s line (words isSpace s) outcome)
    (round : Nat) (log : Log) :
    answer image context fuel round line log outcome =
      .done (0, replied image context frames log (words isSpace s)) := by
  have word_nonzero : ∀ word ∈ words isSpace s, ∀ c ∈ word, c ≠ 0 :=
    fun word word_mem c c_mem => nonzero c (mem_of_mem_words word_mem c c_mem)
  generalize words isSpace s = taken at answers word_nonzero ⊢
  cases answers with
  | empty => rfl
  | many many =>
      rw [answer, print_tooMany, Exec.done_bind]
      cases taken with
      | nil => exact absurd many (by decide)
      | cons word more => rw [replied, if_pos many]
  | @command word more func few named =>
      rw [replied, if_neg (Nat.not_le.mpr few), named]
      cases func with
      | monHelp => exact monHelp_eq image log
      | monKerninfo => exact monKerninfo_eq log
      | monBacktrace => exact monBacktrace_eq (walks round) enough log
  | @unknown word more few unnamed held base_le limit_ge =>
      have word_short : word.length < 2 ^ 31 := by
        unfold bufLen at short
        omega
      have shown_eq := pointed_memory image (word_nonzero word List.mem_cons_self) held base_le
        (by omega)
      rw [replied, if_neg (Nat.not_le.mpr few), unnamed, answer,
        print_unknownCommand shown_eq word_short, Exec.done_bind]

/-- A round for a line. -/
theorem monitorBody_typed (walks : Walks image context fuel frames)
    (enough : frames.length < fuel) (long : bufLen ≤ fuel) (typed : Typed) (input : List Int)
    (store : Nat → Byte) (log : Log) (round : Nat) :
    ∃ store', monitorBody image context fuel ⟨store, log, typed.input ++ input, round⟩ =
        .done (.again ⟨store', exchange image context frames log typed, input, round + 1⟩) ∧
      ∀ address, ¬ InBuffer image.buf address → store' address = store address := by
  obtain ⟨line, string, log_eq, read⟩ := readline_typed image
    (fun index => store (image.buf + index)) log typed input
  have nonzero : ∀ c ∈ typed.text, c ≠ 0 := fun c member zero => string.nonzero (zero ▸ member)
  have held := image.holds_written store string.held string.length_lt
  obtain ⟨outcome, cut, run, kept, answers⟩ := runcmd_answers ⟨typed.text, nonzero⟩ held
    (context.argv round) (string.length_lt.trans_le long)
  refine ⟨cut.store, ?_, fun address outside => ?_⟩
  · rw [monitorBody, read, Exec.ofOption_some, Exec.done_bind]
    dsimp only
    rw [run, Exec.done_bind]
    dsimp only
    rw [answer_eq walks enough string.length_lt nonzero answers, Exec.done_bind]
    dsimp only
    rw [if_neg (by decide), log_eq]
    rfl
  · have out_of_string : address < image.buf ∨ image.buf + typed.text.length ≤ address := by
      have length_lt := string.length_lt
      by_contra inside
      exact outside ⟨by omega, by omega⟩
    rw [kept address out_of_string, Image.written, if_neg outside]

/-- The loop takes the lines one after the other, and waits behind the last one. -/
theorem monitor_loop (walks : Walks image context fuel frames) (enough : frames.length < fuel)
    (long : bufLen ≤ fuel) (lines : List Typed) {keys : List Byte}
    (inside : ∀ c ∈ keys, ¬ IsEnd c) {rounds : Nat} (enough_rounds : lines.length < rounds)
    (store : Nat → Byte) (log : Log) (round : Nat) :
    ∃ store', loop (monitorBody image context fuel) rounds
        ⟨store, log, lines.flatMap Typed.input ++ keys.map keyCode, round⟩ =
        .done (.waiting ⟨store',
          ((lines.foldl (exchange image context frames) log).text (str "K> ")).putchs
            (echoes [] keys), [], round + lines.length⟩) ∧
      ∀ address, ¬ InBuffer image.buf address → store' address = store address := by
  obtain ⟨rounds, rfl⟩ : ∃ rest, rounds = rest + 1 := ⟨rounds - 1, by omega⟩
  induction lines generalizing rounds store log round with
  | nil =>
      obtain ⟨line, log_eq, read⟩ := readline_waiting image
        (fun index => store (image.buf + index)) log inside
      have stops : monitorBody image context fuel ⟨store, log, keys.map keyCode, round⟩ =
          .done (.stop (.waiting ⟨image.written store line.buf, line.log, [], round⟩)) := by
        rw [monitorBody, read, Exec.ofOption_some, Exec.done_bind]
      refine ⟨image.written store line.buf, ?_, fun address outside => if_neg outside⟩
      rw [List.flatMap_nil, List.nil_append, loop_stop stops, log_eq]
      rfl
  | cons typed lines ih =>
      rw [List.length_cons] at enough_rounds
      obtain ⟨rounds, rfl⟩ : ∃ rest, rounds = rest + 1 := ⟨rounds - 1, by omega⟩
      obtain ⟨middle, again, middle_kept⟩ := monitorBody_typed walks enough long typed
        (lines.flatMap Typed.input ++ keys.map keyCode) store log round
      obtain ⟨last, run, last_kept⟩ := ih middle (exchange image context frames log typed)
        (round + 1) rounds (by omega)
      refine ⟨last, ?_, fun address outside =>
        (last_kept address outside).trans (middle_kept address outside)⟩
      rw [List.flatMap_cons, List.append_assoc, loop_again again, run, List.foldl_cons,
        List.length_cons, Nat.add_right_comm, Nat.add_assoc]

/-- The monitor is its loop, behind the greeting. -/
theorem monitor_greets (session : Session) :
    monitor image context fuel session =
      loop (monitorBody image context fuel) fuel
        { session with log := session.log.text greeting } := by
  rw [monitor, print_str (by decide), Exec.done_bind, print_str (by decide), Exec.done_bind,
    ← State.text_append, greeting]

/-- Whatever is typed, the monitor does not leave its loop: it waits for more, behind the
transcript of the lines that have ended, and memory is as before except for the buffer. -/
theorem monitor_transcript (walks : Walks image context fuel frames)
    (enough : frames.length < fuel) (long : bufLen ≤ fuel) (lines : List Typed)
    (enough_lines : lines.length < fuel) {keys : List Byte} (inside : ∀ c ∈ keys, ¬ IsEnd c)
    (store : Nat → Byte) (log : Log) (round : Nat) :
    ∃ store', monitor image context fuel
        ⟨store, log, lines.flatMap Typed.input ++ keys.map keyCode, round⟩ =
        .done (.waiting ⟨store', transcript image context frames log lines keys, [],
          round + lines.length⟩) ∧
      ∀ address, ¬ InBuffer image.buf address → store' address = store address := by
  rw [monitor_greets]
  exact monitor_loop walks enough long lines inside enough_lines store (log.text greeting) round

end

/-! ### A session -/

def sessionImage : Image where
  mem := frameMem
  buf := 0x8004003000
  buf_pos := by decide
  buf_le := by decide
  apart err message found inside := by
    have near := bare_errorString_near found
    exact absurd inside.1 (by change ¬ _ ≤ (Mem.bare.errorString err).toNat; omega)
  prompt := 0x8004002000
  prompt_text := by decide
  name
    | .monHelp => 0x8004002010
    | .monKerninfo => 0x8004002020
    | .monBacktrace => 0x8004002030
  name_text func := by
    cases func with
    | _ => decide
  desc
    | .monHelp => 0x8004002040
    | .monKerninfo => 0x8004002060
    | .monBacktrace => 0x8004002090
  desc_text func := by
    cases func with
    | _ => decide
  start := 0x100000
  entry := 0x8004100000
  etext := 0x8004104000
  edata := 0x8004110000
  limit := 0x8004112001
  size_small := by decide

def sessionContext : Context where
  kernel := frameKernel
  unknown := 0
  rbp := 0x800401003b
  rip := 0x8004200000
  locals _ _ := Debuginfo.zeroLocals
  argv _ _ := 7

/-- `backtrace`, typed with a mistake that is deleted. -/
def backtraceTyped : Typed where
  keys := str "backx\x08trace"
  last := chr '\r'
  inside := by decide
  ends := by decide

/-- A backtrace, and the beginning of another line. -/
theorem monitor_transcript_backtrace :
    ∃ store', monitor sessionImage sessionContext 1024
        ⟨fun _ => 0xCC, ⟨[], .init⟩, [backtraceTyped].flatMap Typed.input ++
          (str "he").map keyCode, 0⟩ =
        .done (.waiting ⟨store', transcript sessionImage sessionContext [frame] ⟨[], .init⟩
          [backtraceTyped] (str "he"), [], 1⟩) ∧
      ∀ address, ¬ InBuffer 0x8004003000 address → store' address = 0xCC := by
  have walks : Walks sessionImage sessionContext 1024 [frame] := fun _ => frame_chain
  exact monitor_transcript walks (by decide) le_rfl [backtraceTyped] (by decide) (by decide)
    (fun _ => 0xCC) ⟨[], .init⟩ 0

end Jos64.Monitor
