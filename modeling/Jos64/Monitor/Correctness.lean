import Jos64.Monitor.Core
import Jos64.Words.Core
import Mathlib.Data.List.TakeWhile

/-!
# What the command interpreter makes of a line

The words of the line become the arguments.  A word is terminated only when the
separator behind it is gobbled, in the round after the one that has passed over
it; the last word of the line may have its NUL already.
-/

namespace Jos64.Monitor

open Jos64.Loop Jos64.Store Jos64.Strings Jos64.Words

/-! ## Separators -/

/-- The characters of `WHITESPACE`. -/
def isSpace (c : Byte) : Bool :=
  [chr '\t', chr '\r', chr '\n', chr ' '].contains c

theorem separates_eq (c : Byte) : separates c = .done (isSpace c) := by
  have text : whitespace = [chr '\t', chr '\r', chr '\n', chr ' ', 0] := by decide
  have known : ∀ c, (strchr c [chr '\t', chr '\r', chr '\n', chr ' ', 0]).map Option.isSome =
      some (isSpace c) := by decide
  obtain ⟨found, found_eq, is_some⟩ := Option.map_eq_some_iff.mp (known c)
  rw [separates, text, found_eq, Exec.ofOption_some, Exec.done_bind, is_some]

/-! ## The inner loops -/

theorem held_head {store : Nat → Byte} {base : Nat} {rest : List Byte}
    (held : Holds store base (rest ++ [0])) : store base = rest.head?.getD 0 := by
  cases rest with
  | nil => exact (holds_cons.mp held).1
  | cons c rest => exact (holds_cons.mp held).1

theorem held_tail {store : Nat → Byte} {base : Nat} {front rest : List Byte}
    (held : Holds store base (front ++ rest ++ [0])) :
    Holds store (base + front.length) (rest ++ [0]) := by
  rw [List.append_assoc] at held
  exact (holds_append.mp held).2

section

variable {line : Line}

theorem gobbleBody_again (space : isSpace (line.store line.buf)) :
    gobbleBody line = .done (.again
      { line with store := Function.update line.store line.buf 0, buf := line.buf + 1 }) := by
  have nonzero : line.store line.buf ≠ 0 := by
    intro zero
    rw [zero] at space
    exact absurd space (by decide)
  rw [gobbleBody, if_neg nonzero, separates_eq, Exec.done_bind, if_pos space]

theorem gobbleBody_stop (stops : ¬ isSpace (line.store line.buf)) :
    gobbleBody line = .done (.stop line) := by
  rw [gobbleBody]
  split
  · rfl
  · rw [separates_eq, Exec.done_bind, if_neg stops]

theorem argBody_again (nonzero : line.store line.buf ≠ 0)
    (plain : ¬ isSpace (line.store line.buf)) :
    argBody line = .done (.again { line with buf := line.buf + 1 }) := by
  rw [argBody, if_neg nonzero, separates_eq, Exec.done_bind, if_pos (by simpa using plain)]

theorem argBody_stop (stops : line.store line.buf = 0 ∨ isSpace (line.store line.buf)) :
    argBody line = .done (.stop line) := by
  rw [argBody]
  split
  · rfl
  · rename_i nonzero
    rw [separates_eq, Exec.done_bind, if_neg (by simpa using stops.resolve_left nonzero)]

end

/-- Separators are overwritten up to what is none. -/
theorem gobble_run {front rest : List Byte} (spaces : ∀ c ∈ front, isSpace c)
    (stops : ∀ c ∈ rest.head?, ¬ isSpace c) {line : Line}
    (held : Holds line.store line.buf (front ++ rest ++ [0])) {fuel : Nat}
    (enough : front.length < fuel) :
    loop gobbleBody fuel line = .done
      { line with
        store := write line.store line.buf (List.replicate front.length 0)
        buf := line.buf + front.length } := by
  induction front generalizing line fuel with
  | nil =>
      obtain ⟨fuel, rfl⟩ : ∃ more, fuel = more + 1 := ⟨fuel - 1, by omega⟩
      rw [List.length_nil, List.replicate_zero, write_nil, Nat.add_zero]
      apply loop_stop (gobbleBody_stop _)
      rw [held_head held]
      cases rest with
      | nil => decide
      | cons c rest => exact stops c rfl
  | cons c front ih =>
      obtain ⟨fuel, rfl⟩ : ∃ more, fuel = more + 1 := ⟨fuel - 1, by omega⟩
      rw [List.cons_append, List.cons_append, holds_cons] at held
      have space : isSpace (line.store line.buf) := by
        rw [held.1]
        exact spaces c List.mem_cons_self
      have rest_held : Holds (Function.update line.store line.buf 0) (line.buf + 1)
          (front ++ rest ++ [0]) := by
        apply holds_congr held.2
        exact fun index _ => Function.update_of_ne (by omega) _ _
      rw [loop_again (gobbleBody_again space),
        ih (fun later later_mem => spaces later (List.mem_cons_of_mem c later_mem)) rest_held
          (Nat.lt_of_succ_lt_succ enough)]
      have first : Function.update line.store line.buf 0 = write line.store line.buf [0] :=
        (write_singleton _ _ _).symm
      have whole : write (write line.store line.buf [0]) (line.buf + 1)
            (List.replicate front.length 0) =
          write line.store line.buf (List.replicate (front.length + 1) 0) := by
        rw [List.replicate_succ]
        exact write_append line.store line.buf [0] (List.replicate front.length 0)
      rw [first, whole, List.length_cons, Nat.add_assoc, Nat.add_comm 1]

/-- A word is passed over up to the separator or the NUL behind it. -/
theorem arg_run {word rest : List Byte} (nonzero : ∀ c ∈ word, c ≠ 0)
    (plain : ∀ c ∈ word, ¬ isSpace c) (stops : ∀ c ∈ rest.head?, isSpace c) {line : Line}
    (held : Holds line.store line.buf (word ++ rest ++ [0])) {fuel : Nat}
    (enough : word.length < fuel) :
    loop argBody fuel line = .done { line with buf := line.buf + word.length } := by
  induction word generalizing line fuel with
  | nil =>
      obtain ⟨fuel, rfl⟩ : ∃ more, fuel = more + 1 := ⟨fuel - 1, by omega⟩
      apply loop_stop (argBody_stop _)
      rw [held_head held]
      cases rest with
      | nil => exact .inl rfl
      | cons c rest => exact .inr (stops c rfl)
  | cons c word ih =>
      obtain ⟨fuel, rfl⟩ : ∃ more, fuel = more + 1 := ⟨fuel - 1, by omega⟩
      rw [List.cons_append, List.cons_append, holds_cons] at held
      have c_nonzero : line.store line.buf ≠ 0 := by
        rw [held.1]
        exact nonzero c List.mem_cons_self
      have c_plain : ¬ isSpace (line.store line.buf) := by
        rw [held.1]
        exact plain c List.mem_cons_self
      rw [loop_again (argBody_again c_nonzero c_plain),
        ih (fun later later_mem => nonzero later (List.mem_cons_of_mem c later_mem))
          (fun later later_mem => plain later (List.mem_cons_of_mem c later_mem)) held.2
          (Nat.lt_of_succ_lt_succ enough), List.length_cons, Nat.add_assoc, Nat.add_comm 1]

/-! ## The arguments -/

/-- A word that has been passed over: its NUL is in place unless the scan stands
where it belongs. -/
structure Placed (store : Nat → Byte) (limit p : Nat) (word : List Byte) : Prop where
  held : Holds store p word
  inside : p + word.length ≤ limit
  terminated : p + word.length < limit → store (p + word.length) = 0

/-- The scan has cut the words `taken` off the string, and has `rest` before
it. -/
structure Cut (before : Nat → Byte) (base : Nat) (s : List Byte) (line : Line)
    (taken : List (List Byte)) (rest : List Byte) : Prop where
  argc_eq : line.argc = taken.length
  argc_lt : taken.length < maxArgs
  base_le : base ≤ line.buf
  buf_eq : line.buf + rest.length = base + s.length
  held : Holds line.store line.buf (rest ++ [0])
  nonzero : ∀ c ∈ rest, c ≠ 0
  frame : ∀ address, address < base ∨ line.buf ≤ address → line.store address = before address
  placed : ∀ index, (bound : index < taken.length) →
    Placed line.store line.buf (line.argv index) taken[index]
  words_eq : words isSpace s = taken ++ words isSpace rest

/-- Nothing outside the string has been written. -/
def Kept (before after : Nat → Byte) (base : Nat) (s : List Byte) : Prop :=
  ∀ address, address < base ∨ base + s.length ≤ address → after address = before address

/-- The arguments are the words. -/
structure Argued (line : Line) (taken : List (List Byte)) : Prop where
  argc_eq : line.argc = taken.length
  argc_lt : taken.length < maxArgs
  argument : ∀ index, (bound : index < taken.length) →
    Holds line.store (line.argv index) (taken[index] ++ [0])

section

variable {store : Nat → Byte} {limit p : Nat} {word : List Byte}

theorem Placed.holds_terminated (placed : Placed store limit p word) (nul : store limit = 0) :
    Holds store p (word ++ [0]) := by
  rw [holds_append]
  refine ⟨placed.held, holds_cons.mpr ⟨?_, Holds.nil _ _⟩⟩
  rcases placed.inside.lt_or_eq with before | here
  · exact placed.terminated before
  · rw [here, nul]

/-- Overwriting the separators behind it leaves a word as it is, and
terminates it. -/
theorem Placed.gobbled (placed : Placed store limit p word) (count : Nat) :
    Placed (write store limit (List.replicate count 0)) (limit + count) p word := by
  have inside := placed.inside
  refine ⟨?_, by omega, ?_⟩
  · apply holds_congr placed.held
    exact fun index bound => write_of_outside store (.inl (by omega))
  · intro before
    by_cases early : p + word.length < limit
    · rw [write_of_outside store (.inl early)]
      exact placed.terminated early
    · have zeros := holds_write store limit (List.replicate count (0 : Byte))
      have at_limit : p + word.length = limit + 0 := by omega
      rw [at_limit, zeros 0 (by rw [List.length_replicate]; omega), List.getElem_replicate]

/-- A word that has its NUL keeps it when the scan goes on. -/
theorem Placed.passed (placed : Placed store limit p word) (before : p + word.length < limit)
    (count : Nat) : Placed store (limit + count) p word :=
  ⟨placed.held, by omega, fun _ => placed.terminated before⟩

end

section

variable {before : Nat → Byte} {base : Nat} {s : List Byte} {line : Line}
  {taken : List (List Byte)} {front word rest : List Byte}

theorem Cut.kept (cut : Cut before base s line taken rest) : Kept before line.store base s := by
  have buf_eq := cut.buf_eq
  exact fun address outside => cut.frame address (outside.imp_right fun above => by omega)

/-- The separators in front of what is left are gobbled. -/
theorem Cut.gobbled (cut : Cut before base s line taken (front ++ rest))
    (spaces : ∀ c ∈ front, isSpace c) :
    Cut before base s
      { line with
        store := write line.store line.buf (List.replicate front.length 0)
        buf := line.buf + front.length } taken rest := by
  have buf_eq := cut.buf_eq
  have base_le := cut.base_le
  rw [List.length_append] at buf_eq
  refine ⟨cut.argc_eq, cut.argc_lt, by dsimp only; omega, by dsimp only; omega, ?_,
    fun c c_mem => cut.nonzero c (List.mem_append_right front c_mem), ?_,
    fun index bound => (cut.placed index bound).gobbled front.length, ?_⟩
  · apply holds_congr (held_tail cut.held)
    intro index _
    exact write_of_outside line.store (.inr (by rw [List.length_replicate]; omega))
  · intro address outside
    have apart : address < line.buf ∨ line.buf + (List.replicate front.length (0 : Byte)).length
        ≤ address := by
      rw [List.length_replicate]
      dsimp only at outside
      omega
    refine (write_of_outside line.store apart).trans (cut.frame address ?_)
    dsimp only at outside
    omega
  · rw [cut.words_eq, words_append_of_separators spaces]

/-- The next word becomes an argument, once those before it are terminated. -/
theorem Cut.argued (cut : Cut before base s line taken (word ++ rest))
    (terminated : ∀ index, (bound : index < taken.length) →
      line.argv index + taken[index].length < line.buf)
    (room : taken.length + 1 < maxArgs) (nonempty : word ≠ [])
    (plain : ∀ c ∈ word, ¬ isSpace c) (ends : ∀ c ∈ rest.head?, isSpace c) :
    Cut before base s
      { line with
        argv := Function.update line.argv line.argc line.buf
        argc := line.argc + 1
        buf := line.buf + word.length } (taken ++ [word]) rest := by
  have buf_eq := cut.buf_eq
  have base_le := cut.base_le
  rw [List.length_append] at buf_eq
  refine ⟨?_, ?_, by dsimp only; omega, by dsimp only; omega, held_tail cut.held,
    fun c c_mem => cut.nonzero c (List.mem_append_right word c_mem),
    fun address outside => cut.frame address (outside.imp_right fun above => ?_), ?_, ?_⟩
  · rw [List.length_append, cut.argc_eq, List.length_singleton]
  · rw [List.length_append, List.length_singleton]
    exact room
  · dsimp only at above
    omega
  · intro index bound
    rw [List.length_append, List.length_singleton] at bound
    dsimp only
    rcases Nat.lt_succ_iff_lt_or_eq.mp bound with earlier | rfl
    · rw [Function.update_of_ne (by rw [cut.argc_eq]; omega),
        List.getElem_append_left earlier]
      exact (cut.placed index earlier).passed (terminated index earlier) word.length
    · have pointer : Function.update line.argv line.argc line.buf taken.length = line.buf := by
        rw [← cut.argc_eq, Function.update_self]
      rw [pointer, List.getElem_concat_length rfl]
      have word_held := cut.held
      rw [List.append_assoc] at word_held
      exact ⟨(holds_append.mp word_held).1, Nat.le_refl _,
        fun before => absurd before (lt_irrefl _)⟩
  · rw [cut.words_eq, words_append_of_word nonempty plain ends, List.append_assoc]
    rfl

end

/-! ## The rounds -/

/-- How the scan ends: with the words as arguments, or with one word too many. -/
inductive Scanned (before : Nat → Byte) (base : Nat) (s : List Byte) : Parsed → Prop where
  | args {line : Line} (argued : Argued line (words isSpace s))
      (kept : Kept before line.store base s) : Scanned before base s (.args line)
  | tooMany {line : Line} (many : maxArgs ≤ (words isSpace s).length)
      (kept : Kept before line.store base s) : Scanned before base s (.tooMany line)

/-- What a round leaves: the scan is over, or there is another argument. -/
inductive Round (before : Nat → Byte) (base : Nat) (s : List Byte) (taken : List (List Byte))
    (rest : List Byte) : Next Line Parsed → Prop where
  | stop {parsed : Parsed} (scanned : Scanned before base s parsed) :
      Round before base s taken rest (.stop parsed)
  | again {line : Line} {word left : List Byte} (shorter : left.length < rest.length)
      (cut : Cut before base s line (taken ++ [word]) left)
      (separated : ∀ c ∈ left.head?, isSpace c) : Round before base s taken rest (.again line)

/-- A list is a run of items with a property and what begins without it. -/
theorem exists_run (property : Byte → Bool) (rest : List Byte) : ∃ front left,
    rest = front ++ left ∧ (∀ c ∈ front, property c) ∧ ∀ c ∈ left.head?, ¬ property c := by
  refine ⟨rest.takeWhile property, rest.dropWhile property,
    List.takeWhile_append_dropWhile.symm, fun c => List.mem_takeWhile_imp,
    fun c c_mem => ?_⟩
  have stops := List.head?_dropWhile_not property rest
  rw [Option.mem_def.mp c_mem] at stops
  simpa using stops

section

variable {before : Nat → Byte} {base : Nat} {s : List Byte} {line : Line}
  {taken : List (List Byte)} {rest : List Byte}

theorem Cut.words_nil (cut : Cut before base s line taken []) (nul : line.store line.buf = 0) :
    Argued line (words isSpace s) := by
  rw [cut.words_eq, Words.words_nil, List.append_nil]
  exact ⟨cut.argc_eq, cut.argc_lt, fun index bound =>
    (cut.placed index bound).holds_terminated nul⟩

/-- When a character is left behind the separators, each argument has its NUL. -/
theorem Cut.terminated {front : List Byte} (cut : Cut before base s line taken (front ++ rest))
    (separated : taken ≠ [] → ∀ c ∈ (front ++ rest).head?, isSpace c) (nonempty : rest ≠ [])
    (stops : ∀ c ∈ rest.head?, ¬ isSpace c) (index : Nat) (bound : index < taken.length) :
    line.argv index + taken[index].length < line.buf + front.length := by
  have inside := (cut.placed index bound).inside
  have front_nonempty : front ≠ [] := by
    rintro rfl
    have taken_nonempty : taken ≠ [] := List.ne_nil_of_length_pos (by omega)
    cases rest with
    | nil => exact nonempty rfl
    | cons c rest => exact stops c rfl (separated taken_nonempty c rfl)
  have front_pos := List.length_pos_iff.mpr front_nonempty
  omega

theorem parseBody_round (cut : Cut before base s line taken rest)
    (separated : taken ≠ [] → ∀ c ∈ rest.head?, isSpace c) {fuel : Nat}
    (enough : rest.length < fuel) :
    ∃ next, parseBody fuel line = .done next ∧ Round before base s taken rest next := by
  obtain ⟨front, left, rfl, spaces, stops⟩ := exists_run isSpace rest
  rw [List.length_append] at enough
  have gobbled := cut.gobbled spaces
  have terminated := fun nonempty => cut.terminated separated nonempty stops
  rw [parseBody, gobble_run spaces stops cut.held (by omega), Exec.done_bind]
  generalize line_eq : ({ line with
    store := write line.store line.buf (List.replicate front.length 0)
    buf := line.buf + front.length } : Line) = next at gobbled ⊢
  have head := held_head gobbled.held
  cases left with
  | nil =>
      rw [if_pos (show next.store next.buf = 0 from head)]
      exact ⟨_, rfl, .stop (.args (gobbled.words_nil head) gobbled.kept)⟩
  | cons c left =>
      have c_nonzero : next.store next.buf ≠ 0 := by
        rw [head]
        exact gobbled.nonzero c List.mem_cons_self
      rw [if_neg c_nonzero]
      obtain ⟨word, ending, left_eq, plain, ends⟩ := exists_run (fun c => !isSpace c) (c :: left)
      have word_nonempty : word ≠ [] := by
        rintro rfl
        rw [List.nil_append] at left_eq
        rw [← left_eq] at ends
        exact absurd (stops c rfl) (by simpa using ends c rfl)
      rw [left_eq] at gobbled
      have word_plain : ∀ c ∈ word, ¬ isSpace c := fun c c_mem => by simpa using plain c c_mem
      have word_ends : ∀ c ∈ ending.head?, isSpace c := fun c c_mem => by
        simpa using ends c c_mem
      by_cases full : next.argc = maxArgs - 1
      · rw [if_pos full]
        refine ⟨_, rfl, .stop (.tooMany ?_ gobbled.kept)⟩
        rw [gobbled.words_eq, words_append_of_word word_nonempty word_plain word_ends,
          List.length_append, List.length_cons, ← gobbled.argc_eq, full]
        have positive : 0 < maxArgs := by decide
        omega
      · have argc_eq := gobbled.argc_eq
        have argc_lt := gobbled.argc_lt
        have set : next.setArg next.argc next.buf =
            some { next with argv := Function.update next.argv next.argc next.buf } :=
          if_pos (by omega)
        have lengths := congrArg List.length left_eq
        rw [List.length_append] at lengths
        have terminated : ∀ index, (bound : index < taken.length) →
            next.argv index + taken[index].length < next.buf := by
          subst line_eq
          exact terminated (List.cons_ne_nil c left)
        have short : word.length < fuel := by omega
        have run := @arg_run word ending
          (fun c c_mem => gobbled.nonzero c (List.mem_append_left ending c_mem)) word_plain
          word_ends { next with
            argv := Function.update next.argv next.argc next.buf
            argc := next.argc + 1 } gobbled.held fuel short
        rw [if_neg full, set, Exec.ofOption_some, Exec.done_bind, run, Exec.done_bind]
        refine ⟨_, rfl, .again ?_ (gobbled.argued terminated (by omega) word_nonempty word_plain
          word_ends) word_ends⟩
        have word_pos := List.length_pos_iff.mpr word_nonempty
        rw [List.length_append]
        omega

theorem parse_run (cut : Cut before base s line taken rest)
    (separated : taken ≠ [] → ∀ c ∈ rest.head?, isSpace c) {fuel : Nat}
    (enough : rest.length < fuel) {rounds : Nat} (enough_rounds : rest.length < rounds) :
    ∃ parsed, loop (parseBody fuel) rounds line = .done parsed ∧ Scanned before base s parsed := by
  induction rounds generalizing line taken rest with
  | zero => exact absurd enough_rounds (Nat.not_lt_zero _)
  | succ rounds ih =>
      obtain ⟨next, body_eq, round⟩ := parseBody_round cut separated enough
      cases round with
      | stop scanned => exact ⟨_, loop_stop body_eq rounds, scanned⟩
      | again shorter cut separated =>
          rw [loop_again body_eq]
          exact ih cut (fun _ => separated) (by omega) (by omega)

end

/-- The null pointer behind the arguments leaves them as they are. -/
theorem Argued.closed {line : Line} {taken : List (List Byte)} (argued : Argued line taken) :
    Argued { line with argv := Function.update line.argv line.argc 0 } taken := by
  refine ⟨argued.argc_eq, argued.argc_lt, fun index bound => ?_⟩
  have earlier : index ≠ line.argc := by
    rw [argued.argc_eq]
    exact bound.ne
  dsimp only
  rw [Function.update_of_ne earlier]
  exact argued.argument index bound

/-! ## The lookup -/

theorem toNat_sub_eq_zero_iff (a b : Byte) : (a.toNat : Int) - b.toNat = 0 ↔ a = b := by
  rw [sub_eq_zero, Nat.cast_inj, BitVec.toNat_inj]

theorem strcmp_eq_zero_iff {word name : List Byte} (word_nonzero : ∀ c ∈ word, c ≠ 0)
    (name_nonzero : ∀ c ∈ name, c ≠ 0) {store : Nat → Byte} {p : Nat}
    (held : Holds store p (word ++ [0])) :
    ∃ order, strcmp store p (name ++ [0]) = some order ∧ (order = 0 ↔ word = name) := by
  have head := held_head held
  induction name generalizing word p with
  | nil =>
      have stops : ¬ (store p ≠ 0 ∧ store p = 0) := fun ⟨nonzero, zero⟩ => nonzero zero
      refine ⟨_, if_neg stops, ?_⟩
      rw [toNat_sub_eq_zero_iff, head]
      cases word with
      | nil => exact iff_of_true rfl rfl
      | cons c word =>
          exact iff_of_false (word_nonzero c List.mem_cons_self) (List.cons_ne_nil c word)
  | cons b name ih =>
      have b_nonzero := name_nonzero b List.mem_cons_self
      cases word with
      | nil =>
          have stops : ¬ (store p ≠ 0 ∧ store p = b) := fun ⟨nonzero, _⟩ => nonzero head
          refine ⟨_, if_neg stops, ?_⟩
          rw [toNat_sub_eq_zero_iff, head]
          exact iff_of_false b_nonzero.symm (List.cons_ne_nil b name).symm
      | cons c word =>
          have c_nonzero := word_nonzero c List.mem_cons_self
          rw [List.cons_append, holds_cons] at held
          by_cases same : c = b
          · subst same
            obtain ⟨order, order_eq, order_iff⟩ := ih
              (fun later later_mem => word_nonzero later (List.mem_cons_of_mem c later_mem))
              (fun later later_mem => name_nonzero later (List.mem_cons_of_mem c later_mem))
              held.2 (held_head held.2)
            have matches_c : store p ≠ 0 ∧ store p = c := by
              rw [head]
              exact ⟨c_nonzero, rfl⟩
            refine ⟨order, (if_pos matches_c).trans order_eq, ?_⟩
            rw [order_iff, List.cons_inj_right]
          · have stops : ¬ (store p ≠ 0 ∧ store p = b) := by
              rw [head]
              exact fun ⟨_, equal⟩ => same equal
            refine ⟨_, if_neg stops, ?_⟩
            rw [toNat_sub_eq_zero_iff, head]
            exact iff_of_false same fun equal => same (List.cons.inj equal).1

/-- The function that is called. -/
def Outcome.func : Outcome → Option Func
  | .returned _ => none
  | .invoked func => some func

/-- The function of the first command with a name. -/
def called (table : List Command) (name : List Byte) : Option Func :=
  (table.find? fun command => command.name = name).map Command.func

/-- The names of the commands can be compared with a word. -/
theorem commands_nonzero : ∀ command ∈ commands, ∀ c ∈ command.name, c ≠ 0 := by
  decide

theorem lookup_func {line : Line} {word : List Byte} (word_nonzero : ∀ c ∈ word, c ≠ 0)
    (held : Holds line.store (line.argv 0) (word ++ [0])) {table : List Command}
    (names_nonzero : ∀ command ∈ table, ∀ c ∈ command.name, c ≠ 0) :
    ∃ outcome, lookup line table = some outcome ∧ outcome.func = called table word := by
  induction table with
  | nil => exact ⟨_, rfl, rfl⟩
  | cons command table ih =>
      obtain ⟨order, order_eq, order_iff⟩ := strcmp_eq_zero_iff word_nonzero
        (names_nonzero command List.mem_cons_self) held
      rw [lookup, order_eq, Option.bind_some, called, List.find?_cons]
      by_cases same : word = command.name
      · rw [if_pos (order_iff.mpr same), same, decide_eq_true rfl]
        exact ⟨_, rfl, rfl⟩
      · rw [if_neg (mt order_iff.mp same), decide_eq_false (Ne.symm same)]
        exact ih fun later later_mem => names_nonzero later (List.mem_cons_of_mem command later_mem)

/-! ## The command line -/

/-- A call splits the line into its words where it stands.  Up to fifteen are the
arguments, terminated and with a null pointer behind them, and the function called
is that of the command with the first one's name; more are an error, and nothing
is called. -/
theorem runcmd_splits (s : CString) {store : Nat → Byte} {base : Nat}
    (held : Holds store base s.terminated) (argv : Nat → Nat) {fuel : Nat}
    (enough : s.bytes.length < fuel) :
    ∃ outcome line, runcmd fuel store base argv = .done (outcome, line) ∧
      Kept store line.store base s.bytes ∧
      ((words isSpace s.bytes).length < maxArgs →
        Argued line (words isSpace s.bytes) ∧ line.argv line.argc = 0 ∧
          outcome.func = (words isSpace s.bytes).head?.bind (called commands)) ∧
      (maxArgs ≤ (words isSpace s.bytes).length → ∃ message, outcome = .returned message) := by
  have initial : Cut store base s.bytes ⟨store, base, 0, Function.update argv 0 0⟩ [] s.bytes :=
    ⟨rfl, by decide, Nat.le_refl base, rfl, held, s.nonzero, fun _ _ => rfl,
      fun index bound => absurd bound (Nat.not_lt_zero index), rfl⟩
  have set : Line.setArg ⟨store, base, 0, argv⟩ 0 0 =
      some ⟨store, base, 0, Function.update argv 0 0⟩ := if_pos (by decide)
  obtain ⟨parsed, run, scanned⟩ :=
    parse_run initial (fun nonempty => absurd rfl nonempty) enough enough
  rw [runcmd, set, Exec.ofOption_some, Exec.done_bind, run, Exec.done_bind]
  cases scanned with
  | @tooMany line many kept =>
      exact ⟨_, _, rfl, kept, fun few => absurd few (Nat.not_lt.mpr many), fun _ => ⟨_, rfl⟩⟩
  | @args line argued kept =>
      have argc_lt := argued.argc_lt
      have set : line.setArg line.argc 0 =
          some { line with argv := Function.update line.argv line.argc 0 } :=
        if_pos (by rw [argued.argc_eq]; exact argc_lt)
      have closed := argued.closed
      have nul : Function.update line.argv line.argc 0 line.argc = 0 := Function.update_self _ _ _
      dsimp only
      rw [set, Exec.ofOption_some, Exec.done_bind]
      have word_nonzero : ∀ word ∈ words isSpace s.bytes, ∀ c ∈ word, c ≠ 0 :=
        fun word word_mem c c_mem => s.nonzero c (mem_of_mem_words word_mem c c_mem)
      generalize words isSpace s.bytes = taken at *
      cases taken with
      | nil =>
          exact ⟨_, _, if_pos argued.argc_eq, kept, fun _ => ⟨closed, nul, rfl⟩,
            fun many => absurd argc_lt (Nat.not_lt.mpr many)⟩
      | cons word more =>
          obtain ⟨outcome, lookup_eq, func_eq⟩ := lookup_func
            (word_nonzero word List.mem_cons_self)
            (closed.argument 0 (Nat.zero_lt_succ more.length)) commands_nonzero
          have nonempty : line.argc ≠ 0 := by
            rw [argued.argc_eq]
            exact Nat.succ_ne_zero more.length
          rw [lookup_eq]
          exact ⟨_, _, if_neg nonempty, kept, fun _ => ⟨closed, nul, func_eq⟩,
            fun many => absurd argc_lt (Nat.not_lt.mpr many)⟩

/-- `help` with two words behind it. -/
theorem runcmd_splits_help :
    ∃ outcome line, runcmd 16 (write (fun _ => 0xCC) 256 (str " help me\tnow\r" ++ [0])) 256
        (fun _ => 7) = .done (outcome, line) ∧
      Kept (write (fun _ => 0xCC) 256 (str " help me\tnow\r" ++ [0])) line.store 256
        (str " help me\tnow\r") ∧
      Argued line [str "help", str "me", str "now"] ∧ line.argv line.argc = 0 ∧
      outcome.func = some .monHelp := by
  have cut : words isSpace (str " help me\tnow\r") = [str "help", str "me", str "now"] := by decide
  obtain ⟨outcome, line, run, kept, few, _⟩ :=
    runcmd_splits ⟨str " help me\tnow\r", by decide⟩
      (holds_write (fun _ => 0xCC) 256 (str " help me\tnow\r" ++ [0])) (fun _ => 7)
      (show _ < 16 by decide)
  dsimp only at few kept
  rw [cut] at few
  obtain ⟨argued, nul, func_eq⟩ := few (by decide)
  refine ⟨outcome, line, run, kept, argued, nul, func_eq.trans ?_⟩
  decide

end Jos64.Monitor
