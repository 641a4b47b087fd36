import Jos64.Monitor.Correctness

/-!
# Command lines

What `runcmd` answers to a command line, and where the first argument is that an answer
may show: the arguments do not leave the string.
-/

namespace Jos64.Monitor

open Loop Store Strings Words

/-! ## The arguments stay in the string -/

/-- What has been read of the string between two addresses, and the arguments in it. -/
structure Inside (base limit : Nat) (line : Line) : Prop where
  base_le : base ≤ line.buf
  buf_le : line.buf ≤ limit
  nul : line.store limit = 0
  args : ∀ index < line.argc, base ≤ line.argv index ∧ line.argv index ≤ line.buf

section

variable {base limit : Nat} {line line' : Line}

theorem gobbleBody_eq (line : Line) : gobbleBody line = .done
    (if isSpace (line.store line.buf) then
      .again { line with store := Function.update line.store line.buf 0, buf := line.buf + 1 }
    else .stop line) := by
  by_cases space : isSpace (line.store line.buf)
  · rw [gobbleBody_again space, if_pos space]
  · rw [gobbleBody_stop space, if_neg space]

theorem argBody_eq (line : Line) : argBody line = .done
    (if line.store line.buf = 0 ∨ isSpace (line.store line.buf) then .stop line
    else .again { line with buf := line.buf + 1 }) := by
  by_cases stops : line.store line.buf = 0 ∨ isSpace (line.store line.buf)
  · rw [argBody_stop stops, if_pos stops]
  · have stays := not_or.mp stops
    rw [argBody_again stays.1 stays.2, if_neg stops]

/-- The NUL behind the string is not passed. -/
theorem Inside.lt_limit (inside : Inside base limit line) (nonzero : line.store line.buf ≠ 0) :
    line.buf < limit := by
  refine inside.buf_le.lt_of_ne fun here => ?_
  rw [here] at nonzero
  exact nonzero inside.nul

theorem Inside.gobbles (inside : Inside base limit line) {fuel : Nat}
    (ended : loop gobbleBody fuel line = .done line') : Inside base limit line' := by
  refine loop_result (Inside base limit) (Inside base limit) ?_ ?_ inside ended
  · intro line next inside round
    rw [gobbleBody_eq] at round
    split at round
    · rename_i space
      cases round
      have nonzero : line.store line.buf ≠ 0 := by
        intro zero
        rw [zero] at space
        exact absurd space (by decide)
      have lt := inside.lt_limit nonzero
      refine ⟨inside.base_le.trans (Nat.le_succ _), lt, ?_, fun index bound => ?_⟩
      · dsimp only
        rw [Function.update_of_ne lt.ne']
        exact inside.nul
      · have arg := inside.args index bound
        exact ⟨arg.1, arg.2.trans (Nat.le_succ _)⟩
    · cases round
  · intro line last inside round
    rw [gobbleBody_eq] at round
    split at round
    · cases round
    · cases round
      exact inside

theorem Inside.passes (inside : Inside base limit line) {fuel : Nat}
    (ended : loop argBody fuel line = .done line') : Inside base limit line' := by
  refine loop_result (Inside base limit) (Inside base limit) ?_ ?_ inside ended
  · intro line next inside round
    rw [argBody_eq] at round
    split at round
    · cases round
    · rename_i stays
      cases round
      have lt := inside.lt_limit (not_or.mp stays).1
      refine ⟨inside.base_le.trans (Nat.le_succ _), lt, inside.nul, fun index bound => ?_⟩
      have arg := inside.args index bound
      exact ⟨arg.1, arg.2.trans (Nat.le_succ _)⟩
  · intro line last inside round
    rw [argBody_eq] at round
    split at round
    · cases round
      exact inside
    · cases round

/-- The argument that is found is where the scan stands. -/
theorem Inside.argument (inside : Inside base limit line)
    (set : line.setArg line.argc line.buf = some line') :
    Inside base limit { line' with argc := line'.argc + 1 } := by
  unfold Line.setArg at set
  split at set
  · cases set
    refine ⟨inside.base_le, inside.buf_le, inside.nul, fun index bound => ?_⟩
    dsimp only at bound ⊢
    rcases Nat.lt_succ_iff_lt_or_eq.mp bound with before | rfl
    · rw [Function.update_of_ne before.ne]
      exact inside.args index before
    · rw [Function.update_self]
      exact ⟨inside.base_le, le_rfl⟩
  · cases set

/-- The arguments of a scan that has ended with some. -/
def Parsed.Inside (base limit : Nat) : Parsed → Prop
  | .args line => Monitor.Inside base limit line
  | .tooMany _ => True

theorem Inside.parses (inside : Inside base limit line) {fuel rounds : Nat} {parsed : Parsed}
    (ended : loop (parseBody fuel) rounds line = .done parsed) : parsed.Inside base limit := by
  refine loop_result (Inside base limit) (Parsed.Inside base limit) ?_ ?_ inside ended
  · intro line next inside round
    obtain ⟨gobbled, gobble, round⟩ := Exec.bind_eq_done round
    have inside := inside.gobbles gobble
    split at round
    · cases round
    split at round
    · cases round
    obtain ⟨set, stored, round⟩ := Exec.bind_eq_done round
    obtain ⟨passed, pass, round⟩ := Exec.bind_eq_done round
    cases round
    cases placed : gobbled.setArg gobbled.argc gobbled.buf with
    | none =>
        rw [placed] at stored
        cases stored
    | some line' =>
        rw [placed] at stored
        cases stored
        exact (inside.argument placed).passes pass
  · intro line parsed inside round
    obtain ⟨gobbled, gobble, round⟩ := Exec.bind_eq_done round
    have inside := inside.gobbles gobble
    split at round
    · cases round
      exact inside
    split at round
    · cases round
      trivial
    obtain ⟨set, stored, round⟩ := Exec.bind_eq_done round
    obtain ⟨passed, pass, round⟩ := Exec.bind_eq_done round
    cases round

/-- A word among the arguments ends in front of the NUL behind the string. -/
theorem Inside.word_le (inside : Inside base limit line) {word : List Byte}
    (nonzero : ∀ c ∈ word, c ≠ 0) (some_arg : 0 < line.argc)
    (held : Holds line.store (line.argv 0) (word ++ [0])) :
    line.argv 0 + word.length ≤ limit := by
  have bounds := inside.args 0 some_arg
  have buf_le := inside.buf_le
  by_contra beyond
  have index_lt : limit - line.argv 0 < word.length := by omega
  have here := held.of_append (limit - line.argv 0) index_lt
  rw [show line.argv 0 + (limit - line.argv 0) = limit by omega, inside.nul] at here
  exact nonzero _ (List.getElem_mem index_lt) here.symm

end

/-! ## The answers -/

/-- `"Too many arguments (max %d)\n"` with its argument. -/
def tooMany : Message :=
  ⟨str "Too many arguments (max %d)\n", maxArgs⟩

/-- `"Unknown command '%s'\n"` with its argument. -/
def unknownCommand (pointer : Nat) : Message :=
  ⟨str "Unknown command '%s'\n", pointer⟩

theorem lookup_eq {line : Line} {word : List Byte} (word_nonzero : ∀ c ∈ word, c ≠ 0)
    (held : Holds line.store (line.argv 0) (word ++ [0])) {table : List Command}
    (names_nonzero : ∀ command ∈ table, ∀ c ∈ command.name, c ≠ 0) :
    lookup line table = some (match called table word with
      | some func => .invoked func
      | none => .returned (some (unknownCommand (line.argv 0)))) := by
  induction table with
  | nil => rfl
  | cons command table ih =>
      obtain ⟨order, order_eq, order_iff⟩ := strcmp_eq_zero_iff word_nonzero
        (names_nonzero command List.mem_cons_self) held
      rw [lookup, order_eq, Option.bind_some, called, List.find?_cons]
      by_cases same : word = command.name
      · rw [if_pos (order_iff.mpr same), same, decide_eq_true rfl]
        rfl
      · rw [if_neg (mt order_iff.mp same), decide_eq_false (Ne.symm same)]
        exact ih fun later later_mem => names_nonzero later (List.mem_cons_of_mem command later_mem)

/-- How `runcmd` ends on a string of some words. -/
inductive Answers (base : Nat) (s : List Byte) (line : Line) : List (List Byte) → Outcome → Prop
  where
  | empty : Answers base s line [] (.returned none)
  | many {taken : List (List Byte)} (many : maxArgs ≤ taken.length) :
      Answers base s line taken (.returned (some tooMany))
  | command {word : List Byte} {more : List (List Byte)} {func : Func}
      (few : (word :: more).length < maxArgs) (named : called commands word = some func) :
      Answers base s line (word :: more) (.invoked func)
  | unknown {word : List Byte} {more : List (List Byte)} (few : (word :: more).length < maxArgs)
      (unnamed : called commands word = none)
      (held : Holds line.store (line.argv 0) (word ++ [0])) (base_le : base ≤ line.argv 0)
      (limit_ge : line.argv 0 + word.length ≤ base + s.length) :
      Answers base s line (word :: more) (.returned (some (unknownCommand (line.argv 0))))

theorem runcmd_answers (s : CString) {store : Nat → Byte} {base : Nat}
    (held : Holds store base s.terminated) (argv : Nat → Nat) {fuel : Nat}
    (enough : s.bytes.length < fuel) :
    ∃ outcome line, runcmd fuel store base argv = .done (outcome, line) ∧
      Kept store line.store base s.bytes ∧
      Answers base s.bytes line (words isSpace s.bytes) outcome := by
  have initial : Cut store base s.bytes ⟨store, base, 0, Function.update argv 0 0⟩ [] s.bytes :=
    ⟨rfl, by decide, Nat.le_refl base, rfl, held, s.nonzero, fun _ _ => rfl,
      fun index bound => absurd bound (Nat.not_lt_zero index), rfl⟩
  have nul : store (base + s.bytes.length) = 0 := (holds_cons.mp (holds_append.mp held).2).1
  have start : Inside base (base + s.bytes.length) ⟨store, base, 0, Function.update argv 0 0⟩ :=
    ⟨le_rfl, Nat.le_add_right _ _, nul, fun index bound => absurd bound (Nat.not_lt_zero index)⟩
  have set : Line.setArg ⟨store, base, 0, argv⟩ 0 0 =
      some ⟨store, base, 0, Function.update argv 0 0⟩ := if_pos (by decide)
  obtain ⟨parsed, run, scanned⟩ :=
    parse_run initial (fun nonempty => absurd rfl nonempty) enough enough
  have inside := start.parses run
  rw [runcmd, set, Exec.ofOption_some, Exec.done_bind, run, Exec.done_bind]
  cases scanned with
  | @tooMany line many kept => exact ⟨_, _, rfl, kept, .many many⟩
  | @args line argued kept =>
      have argc_lt := argued.argc_lt
      have set : line.setArg line.argc 0 =
          some { line with argv := Function.update line.argv line.argc 0 } :=
        if_pos (by rw [argued.argc_eq]; exact argc_lt)
      dsimp only
      rw [set, Exec.ofOption_some, Exec.done_bind]
      have word_nonzero : ∀ word ∈ words isSpace s.bytes, ∀ c ∈ word, c ≠ 0 :=
        fun word word_mem c c_mem => s.nonzero c (mem_of_mem_words word_mem c c_mem)
      generalize words isSpace s.bytes = taken at *
      cases taken with
      | nil => exact ⟨_, _, if_pos argued.argc_eq, kept, .empty⟩
      | cons word more =>
          have nonzero := word_nonzero word List.mem_cons_self
          have first_held := argued.closed.argument 0 (Nat.zero_lt_succ more.length)
          have nonempty : line.argc ≠ 0 := by
            rw [argued.argc_eq]
            exact Nat.succ_ne_zero more.length
          have first_kept : Function.update line.argv line.argc 0 0 = line.argv 0 :=
            Function.update_of_ne (Ne.symm nonempty) _ _
          have first_le := inside.word_le nonzero (Nat.pos_of_ne_zero nonempty) (by
            have unmoved := first_held
            dsimp only at unmoved
            rw [first_kept] at unmoved
            exact unmoved)
          rw [if_neg nonempty, lookup_eq nonzero first_held commands_nonzero, Exec.ofOption_some,
            Exec.done_bind]
          refine ⟨_, _, rfl, kept, ?_⟩
          cases named : called commands word with
          | some func => exact .command argc_lt named
          | none =>
              refine .unknown argc_lt named first_held ?_ ?_
              · dsimp only
                rw [first_kept]
                exact (inside.args 0 (Nat.pos_of_ne_zero nonempty)).1
              · dsimp only
                rw [first_kept]
                exact first_le

end Jos64.Monitor
