import Jos64.Console.Readline.Core
import Jos64.Format.Returns

/-!
# What `readline` returns

The edits of a line are a fold over the characters before its end.  The code
folds a slightly different edit: on the empty line it takes the delete key for
a printable character.  The two folds are followed side by side, and the stray
character tells them apart until it is deleted.
-/

namespace Jos64.Console

open Jos64.Format

/-! ## Edits -/

def IsDelete (c : Byte) : Prop :=
  c = 0x08 ∨ c = 0x7F

def IsPrintable (c : Byte) : Prop :=
  0x20 ≤ c ∧ c ≠ 0x7F

def IsEnd (c : Byte) : Prop :=
  c = 0x0A ∨ c = 0x0D

instance : DecidablePred IsDelete := fun _ => inferInstanceAs (Decidable (_ ∨ _))

instance : DecidablePred IsPrintable := fun _ => inferInstanceAs (Decidable (_ ∧ _))

instance : DecidablePred IsEnd := fun _ => inferInstanceAs (Decidable (_ ∨ _))

/-- What a character is meant to do to a line. -/
def edit (line : List Byte) (c : Byte) : List Byte :=
  if IsDelete c then line.dropLast
  else if IsPrintable c ∧ line.length < bufLen - 1 then line ++ [c]
  else line

/-- What it does. -/
def codeEdit (line : List Byte) (c : Byte) : List Byte :=
  if IsDelete c ∧ line ≠ [] then line.dropLast
  else if 0x20 ≤ c ∧ line.length < bufLen - 1 then line ++ [c]
  else line

/-- A character as `getchar` returns it. -/
def keyCode (c : Byte) : Int :=
  c.toNat

/-- What is echoed for it. -/
def codeEcho (line : List Byte) (c : Byte) : List (BitVec 32) :=
  if IsDelete c ∧ line ≠ [] then [0x08]
  else if 0x20 ≤ c ∧ line.length < bufLen - 1 then [BitVec.ofInt 32 (keyCode c)]
  else []

section Codes

variable (c : Byte)

theorem keyCode_nonneg : ¬ keyCode c < 0 := by
  unfold keyCode
  omega

theorem keyCode_isDelete : (keyCode c = 0x08 ∨ keyCode c = 0x7F) ↔ IsDelete c := by
  revert c
  decide

theorem keyCode_isEnd : (keyCode c = 0x0A ∨ keyCode c = 0x0D) ↔ IsEnd c := by
  revert c
  decide

theorem keyCode_printable : 0x20 ≤ keyCode c ↔ 0x20 ≤ c := by
  revert c
  decide

theorem ofInt_keyCode : BitVec.ofInt 8 (keyCode c) = c := by
  rw [keyCode, BitVec.ofInt_natCast, BitVec.ofNat_toNat, BitVec.setWidth_eq]

theorem IsEnd.not_delete {c : Byte} : IsEnd c → ¬ IsDelete c := by
  revert c
  decide

theorem IsEnd.not_printable {c : Byte} : IsEnd c → ¬ 0x20 ≤ c := by
  revert c
  decide

end Codes

/-! ## The buffer -/

/-- The buffer holds the line, which leaves room for its NUL. -/
structure Line.Represents (line : Line) (text : List Byte) : Prop where
  held : Store.Holds line.buf 0 text
  i_eq : line.i = text.length
  length_lt : text.length < bufLen
  nonzero : (0 : Byte) ∉ text

/-- The buffer holds the text as a NUL-terminated string. -/
structure Line.IsString (line : Line) (text : List Byte) : Prop where
  held : Store.Holds line.buf 0 (text ++ [0])
  length_lt : text.length < bufLen
  nonzero : (0 : Byte) ∉ text

theorem Line.Represents.nil (buf : Nat → Byte) (log : Log) :
    (⟨buf, 0, log⟩ : Line).Represents [] :=
  ⟨.nil buf 0, rfl, by decide, by simp⟩

theorem Line.Represents.echo {line : Line} {text : List Byte} (line_eq : line.Represents text)
    (c : Int) : (line.echo c).Represents text :=
  ⟨line_eq.held, line_eq.i_eq, line_eq.length_lt, line_eq.nonzero⟩

theorem Line.Represents.dropLast {line : Line} {text : List Byte} (line_eq : line.Represents text) :
    ({ line with i := line.i - 1 } : Line).Represents text.dropLast := by
  refine ⟨?_, ?_, ?_, fun zero_mem => line_eq.nonzero (List.mem_of_mem_dropLast zero_mem)⟩
  · rcases List.eq_nil_or_concat text with rfl | ⟨front, last, rfl⟩
    · exact line_eq.held
    · rw [List.concat_eq_append] at line_eq ⊢
      rw [List.dropLast_concat]
      exact line_eq.held.of_append
  · rw [List.length_dropLast, ← line_eq.i_eq]
  · have := line_eq.length_lt
    rw [List.length_dropLast]
    omega

/-- A character is stored behind the line. -/
theorem Line.Represents.store {line : Line} {text : List Byte} (line_eq : line.Represents text)
    (c : Byte) :
    ∃ buf, line.store line.i (keyCode c) = some { line with buf } ∧
      Store.Holds buf 0 (text ++ [c]) := by
  refine ⟨Function.update line.buf line.i c, ?_, ?_⟩
  · rw [Line.store, if_pos (line_eq.i_eq ▸ line_eq.length_lt), ofInt_keyCode]
  · have held := line_eq.held.update c
    rwa [Nat.zero_add, ← line_eq.i_eq] at held

/-- The buffer holds one string only. -/
theorem Line.IsString.unique {line : Line} {text other : List Byte} (text_held : line.IsString text)
    (other_held : line.IsString other) : text = other :=
  text_held.held.eq_of_terminated other_held.held text_held.nonzero other_held.nonzero

/-! ## The loop folds its edit -/

/-- One character that does not end the line. -/
theorem readlineLoop_cons {line : Line} {text : List Byte} (mem : Mem)
    (line_eq : line.Represents text) {c : Byte} (inside : ¬ IsEnd c) (input : List Int) :
    ∃ next : Line, next.Represents (codeEdit text c) ∧
      next.log = line.log.putchs (codeEcho text c) ∧
      readlineLoop mem line (keyCode c :: input) = readlineLoop mem next input := by
  have nonempty : 0 < line.i ↔ text ≠ [] := by
    rw [line_eq.i_eq, List.length_pos_iff]
  rw [readlineLoop, if_neg (keyCode_nonneg c)]
  simp only [keyCode_isDelete, keyCode_isEnd, keyCode_printable, nonempty, if_neg inside]
  unfold codeEdit codeEcho
  by_cases delete : IsDelete c ∧ text ≠ []
  · rw [if_pos delete, if_pos delete, if_pos delete]
    exact ⟨_, (line_eq.echo 0x08).dropLast, rfl, rfl⟩
  rw [if_neg delete, if_neg delete, if_neg delete]
  by_cases room : 0x20 ≤ c ∧ text.length < bufLen - 1
  · rw [if_pos room, if_pos room, if_pos (by rw [line_eq.i_eq]; exact room)]
    obtain ⟨buf, stored, held⟩ := (line_eq.echo (keyCode c)).store c
    refine ⟨{ line.echo (keyCode c) with buf, i := line.i + 1 }, ⟨held, ?_, ?_, ?_⟩, rfl, ?_⟩
    · simp [line_eq.i_eq]
    · have := room.2
      simp
      omega
    · have c_ne : c ≠ 0 := by
        rintro rfl
        exact absurd room.1 (by decide)
      intro zero_mem
      rcases List.mem_append.mp zero_mem with early | new
      · exact line_eq.nonzero early
      · exact c_ne (List.mem_singleton.mp new).symm
    · have stored' : (line.echo (keyCode c)).store line.i (keyCode c) = _ := stored
      rw [stored']
      rfl
  · rw [if_neg room, if_neg room, if_neg (by rw [line_eq.i_eq]; exact room)]
    exact ⟨line, line_eq, rfl, rfl⟩

/-- A run of characters that do not end the line. -/
theorem readlineLoop_append {line : Line} {text : List Byte} (mem : Mem)
    (line_eq : line.Represents text) {typed : List Byte} (inside : ∀ c ∈ typed, ¬ IsEnd c)
    (input : List Int) :
    ∃ next : Line, next.Represents (typed.foldl codeEdit text) ∧
      readlineLoop mem line (typed.map keyCode ++ input) = readlineLoop mem next input := by
  induction typed generalizing line text with
  | nil => exact ⟨line, line_eq, rfl⟩
  | cons c typed ih =>
      obtain ⟨middle, middle_eq, -, step⟩ := readlineLoop_cons mem line_eq
        (inside c List.mem_cons_self) (typed.map keyCode ++ input)
      obtain ⟨next, next_eq, run⟩ := ih middle_eq
        fun later later_mem => inside later (List.mem_cons_of_mem c later_mem)
      exact ⟨next, next_eq, step.trans run⟩

/-- The character that ends the line. -/
theorem readlineLoop_end {line : Line} {text : List Byte} (mem : Mem)
    (line_eq : line.Represents text) {last : Byte} (ends : IsEnd last) (input : List Int) :
    ∃ next : Line, next.IsString text ∧
      readlineLoop mem line (keyCode last :: input) = some (.string next input) := by
  obtain ⟨buf, stored, held⟩ := (line_eq.echo 0x0A).store 0
  refine ⟨{ line.echo 0x0A with buf }, ⟨held, line_eq.length_lt, line_eq.nonzero⟩, ?_⟩
  have stored' : (line.echo 0x0A).store line.i 0 = _ := stored
  rw [readlineLoop, if_neg (keyCode_nonneg last)]
  simp only [keyCode_isDelete, keyCode_isEnd, keyCode_printable]
  rw [if_neg fun delete => ends.not_delete delete.1,
    if_neg fun printable => ends.not_printable printable.1, if_pos ends, stored', Option.map_some]

/-- The prompt is always printed. -/
theorem cprintf_prompt (mem : Mem) (log : Log) (args : Args) :
    ∃ result, cprintf mem log (str "%s") args = some result := by
  have closed : EscapesClosed (str "%s") := .text (by decide) (.text (by decide) .nil)
  obtain ⟨last, printed⟩ := Option.isSome_iff_exists.mp
    ((vprintfmtWith_isSome_iff mem args 0 log (str "%s")).mpr closed)
  rw [cprintf, vcprintf, vprintfmt, printed]
  exact ⟨_, rfl⟩

/-- The whole call. -/
theorem readline_folds (mem : Mem) (buf : Nat → Byte) (log : Log) (prompt : BitVec 64)
    (typed : List Byte) (inside : ∀ c ∈ typed, ¬ IsEnd c) (last : Byte) (ends : IsEnd last)
    (input : List Int) :
    ∃ line : Line, line.IsString (typed.foldl codeEdit []) ∧
      readline mem buf log prompt (typed.map keyCode ++ keyCode last :: input) =
        some (.string line input) := by
  obtain ⟨log', started⟩ : ∃ log', readline mem buf log prompt
      (typed.map keyCode ++ keyCode last :: input) =
        readlineLoop mem ⟨buf, 0, log'⟩ (typed.map keyCode ++ keyCode last :: input) := by
    by_cases prompted : prompt ≠ 0
    · obtain ⟨⟨cnt, log'⟩, printed⟩ := cprintf_prompt mem log fun _ => prompt
      refine ⟨log', ?_⟩
      rw [readline, if_pos prompted, printed]
      rfl
    · refine ⟨log, ?_⟩
      rw [readline, if_neg prompted]
      rfl
  obtain ⟨next, next_eq, run⟩ := readlineLoop_append mem (.nil buf log') inside
    (keyCode last :: input)
  obtain ⟨line, line_eq, finish⟩ := readlineLoop_end mem next_eq ends input
  exact ⟨line, line_eq, started.trans (run.trans finish)⟩

/-! ## The stray character -/

/-- Where the stray delete character stands in relation to the line that is
meant: nowhere, in front of it, or in front of what a full buffer has of it. -/
inductive Stray where
  | none
  | front
  | full
  deriving DecidableEq

/-- The line that is meant and the stray character, after one more character.
Pressing delete on the empty line brings the stray character, and the next
delete on the empty line takes it away.  When the line is filled meanwhile, its
last character is refused; from then on both lines are equally long, and become
empty together. -/
def follow (state : List Byte × Stray) (c : Byte) : List Byte × Stray :=
  let line := edit state.1 c
  match state.2 with
  | .none => (line, if c = 0x7F ∧ state.1 = [] then .front else .none)
  | .front =>
      (line, if IsDelete c ∧ state.1 = [] then .none
        else if line.length = bufLen - 1 then .full else .front)
  | .full => (line, if line = [] then .none else .full)

/-- The condition on what has been typed. -/
def Undisturbed (typed : List Byte) : Prop :=
  (typed.foldl follow ([], .none)).2 = .none

instance : DecidablePred Undisturbed := fun _ => inferInstanceAs (Decidable (_ = _))

/-- How the line in the code is related to the one that is meant. -/
def Related : Stray → List Byte → List Byte → Prop
  | .none, meant, code => code = meant
  | .front, meant, code => code = 0x7F :: meant ∧ meant.length < bufLen - 1
  | .full, meant, code => code.length = meant.length ∧ code.head? = some 0x7F

/-- A line that edits can produce. -/
structure Legal (line : List Byte) : Prop where
  printable : ∀ c ∈ line, IsPrintable c
  length_lt : line.length < bufLen

theorem Legal.nil : Legal [] :=
  ⟨by simp, by decide⟩

theorem Legal.edit {line : List Byte} (legal : Legal line) (c : Byte) : Legal (edit line c) := by
  unfold Console.edit
  split
  · refine ⟨fun later later_mem => legal.printable later (List.mem_of_mem_dropLast later_mem), ?_⟩
    have := legal.length_lt
    rw [List.length_dropLast]
    omega
  split
  · rename_i room
    refine ⟨?_, ?_⟩
    · intro later later_mem
      rcases List.mem_append.mp later_mem with held | new
      · exact legal.printable later held
      · exact List.mem_singleton.mp new ▸ room.1
    · have := room.2
      simp
      omega
  · exact legal

section Edits

variable {c : Byte} {line : List Byte}

theorem isPrintable_iff (not_delete : ¬ IsDelete c) : IsPrintable c ↔ 0x20 ≤ c :=
  and_iff_left fun delete => not_delete (.inr delete)

theorem edit_delete (delete : IsDelete c) : edit line c = line.dropLast :=
  if_pos delete

theorem edit_other (not_delete : ¬ IsDelete c) :
    edit line c = if IsPrintable c ∧ line.length < bufLen - 1 then line ++ [c] else line :=
  if_neg not_delete

theorem codeEdit_delete (delete : IsDelete c) (nonempty : line ≠ []) :
    codeEdit line c = line.dropLast :=
  if_pos ⟨delete, nonempty⟩

theorem codeEdit_other (not_delete : ¬ IsDelete c) :
    codeEdit line c = if IsPrintable c ∧ line.length < bufLen - 1 then line ++ [c] else line := by
  rw [codeEdit, if_neg fun delete => not_delete delete.1]
  simp only [isPrintable_iff not_delete]

theorem codeEdit_delete_nil : IsDelete c → codeEdit [] c = if c = 0x7F then [0x7F] else [] := by
  revert c
  decide

end Edits

section Steps

variable {meant code : List Byte} {c : Byte}

theorem related_none (related : Related .none meant code) :
    Related (follow (meant, .none) c).2 (edit meant c) (codeEdit code c) := by
  cases related
  dsimp only [follow]
  by_cases delete : IsDelete c
  · by_cases empty : meant = []
    · subst empty
      rw [edit_delete delete, codeEdit_delete_nil delete]
      by_cases rubout : c = 0x7F
      · rw [if_pos ⟨rubout, rfl⟩, if_pos rubout]
        exact ⟨rfl, by decide⟩
      · rw [if_neg fun stray => rubout stray.1, if_neg rubout]
        rfl
    · rw [if_neg fun stray => empty stray.2, edit_delete delete, codeEdit_delete delete empty]
      rfl
  · rw [if_neg fun stray => delete (.inr stray.1), edit_other delete, codeEdit_other delete]
    rfl

theorem related_front (related : Related .front meant code) :
    Related (follow (meant, .front) c).2 (edit meant c) (codeEdit code c) := by
  obtain ⟨rfl, room⟩ := related
  dsimp only [follow]
  by_cases delete : IsDelete c
  · rw [edit_delete delete, codeEdit_delete delete (List.cons_ne_nil _ _)]
    by_cases empty : meant = []
    · subst empty
      rw [if_pos ⟨delete, rfl⟩]
      rfl
    · have shorter : meant.dropLast.length < bufLen - 1 := by
        rw [List.length_dropLast]
        omega
      rw [if_neg fun last => empty last.2, if_neg shorter.ne]
      exact ⟨List.dropLast_cons_of_ne_nil empty, shorter⟩
  · rw [if_neg fun last => delete last.1, codeEdit_other delete]
    by_cases printable : IsPrintable c
    · have edited : edit meant c = meant ++ [c] := by
        rw [edit_other delete, if_pos ⟨printable, room⟩]
      rw [edited, List.length_append, List.length_singleton]
      by_cases fits : meant.length + 1 < bufLen - 1
      · rw [if_neg fits.ne, if_pos ⟨printable, fits⟩]
        exact ⟨rfl, by rwa [List.length_append, List.length_singleton]⟩
      · rw [if_pos (by omega), if_neg fun refused => fits refused.2]
        exact ⟨by simp, rfl⟩
    · have edited : edit meant c = meant := by
        rw [edit_other delete, if_neg fun fits => printable fits.1]
      rw [edited, if_neg room.ne, if_neg fun fits => printable fits.1]
      exact ⟨rfl, room⟩

theorem related_full (related : Related .full meant code) :
    Related (follow (meant, .full) c).2 (edit meant c) (codeEdit code c) := by
  obtain ⟨length_eq, head_eq⟩ := related
  obtain ⟨rest, rfl⟩ : ∃ rest, code = 0x7F :: rest := by
    cases code with
    | nil => contradiction
    | cons first rest => exact ⟨rest, by rw [Option.some.inj head_eq]⟩
  dsimp only [follow]
  by_cases delete : IsDelete c
  · rw [edit_delete delete, codeEdit_delete delete (List.cons_ne_nil _ _)]
    have dropped : ((0x7F : Byte) :: rest).dropLast.length = meant.dropLast.length := by
      rw [List.length_dropLast, List.length_dropLast, length_eq]
    by_cases empty : meant.dropLast = []
    · rw [if_pos empty]
      rw [empty] at dropped ⊢
      exact List.length_eq_zero_iff.mp dropped
    · rw [if_neg empty]
      have rest_ne : rest ≠ [] := by
        rintro rfl
        exact empty (List.length_eq_zero_iff.mp dropped.symm)
      exact ⟨dropped, by rw [List.dropLast_cons_of_ne_nil rest_ne, List.head?_cons]⟩
  · rw [edit_other delete, codeEdit_other delete, length_eq]
    have nonempty : meant ≠ [] := by
      rintro rfl
      contradiction
    by_cases fits : IsPrintable c ∧ meant.length < bufLen - 1
    · rw [if_pos fits, if_pos fits, if_neg (by simp)]
      exact ⟨by simp [← length_eq], rfl⟩
    · rw [if_neg fits, if_neg fits, if_neg nonempty]
      exact ⟨length_eq, rfl⟩

theorem Related.step {stray : Stray} (related : Related stray meant code) (c : Byte) :
    Related (follow (meant, stray) c).2 (edit meant c) (codeEdit code c) := by
  cases stray with
  | none => exact related_none related
  | front => exact related_front related
  | full => exact related_full related

end Steps

theorem follow_fst (state : List Byte × Stray) (c : Byte) :
    (follow state c).1 = edit state.1 c := by
  unfold follow
  split <;> rfl

/-- The run: the relation holds after every character, and the line that is
meant stays legal. -/
theorem related_foldl (typed : List Byte) :
    (typed.foldl follow ([], .none)).1 = typed.foldl edit [] ∧
      Legal (typed.foldl edit []) ∧
      Related (typed.foldl follow ([], .none)).2 (typed.foldl edit [])
        (typed.foldl codeEdit []) := by
  induction typed using List.reverseRecOn with
  | nil => exact ⟨rfl, .nil, rfl⟩
  | append_singleton typed c ih =>
      obtain ⟨line_eq, legal, related⟩ := ih
      rw [List.foldl_concat, List.foldl_concat, List.foldl_concat]
      refine ⟨by rw [follow_fst, line_eq], legal.edit c, ?_⟩
      have step := related.step c
      rwa [← line_eq, Prod.mk.eta, line_eq] at step

/-- A stray character shows. -/
theorem Related.eq_iff {stray : Stray} {meant code : List Byte}
    (related : Related stray meant code) (legal : Legal meant) :
    code = meant ↔ stray = .none := by
  cases stray with
  | none => exact iff_of_true related rfl
  | front =>
      refine iff_of_false (fun same => ?_) (by decide)
      have length_eq := congrArg List.length (related.1.symm.trans same)
      simp at length_eq
  | full =>
      refine iff_of_false (fun same => ?_) (by decide)
      have first_mem : (0x7F : Byte) ∈ meant := List.mem_of_mem_head? (same ▸ related.2)
      exact (legal.printable _ first_mem).2 rfl

/-- `readline` returns the line that is meant exactly when the stray character
is not in it at the end. -/
theorem readline_line_iff (mem : Mem) (buf : Nat → Byte) (log : Log) (prompt : BitVec 64)
    (typed : List Byte) (inside : ∀ c ∈ typed, ¬ IsEnd c) (last : Byte) (ends : IsEnd last)
    (input : List Int) :
    ∃ line : Line,
      readline mem buf log prompt (typed.map keyCode ++ keyCode last :: input) =
        some (.string line input) ∧
      (line.IsString (typed.foldl edit []) ↔ Undisturbed typed) := by
  obtain ⟨line, line_eq, returned⟩ := readline_folds mem buf log prompt typed inside last ends input
  obtain ⟨-, legal, related⟩ := related_foldl typed
  refine ⟨line, returned, ?_⟩
  rw [Undisturbed, ← related.eq_iff legal]
  constructor
  · exact fun meant_eq => line_eq.unique meant_eq
  · exact fun same => same ▸ line_eq

/-- Deleting the only character of a line leaves it undisturbed. -/
theorem readline_line_iff_one_deleted :
    ∃ line : Line,
      readline .bare (fun _ => 0) ⟨[], .init⟩ 0 [0x61, 0x7F, 0x0A] = some (.string line []) ∧
      (line.IsString [] ↔ Undisturbed [0x61, 0x7F]) :=
  readline_line_iff .bare (fun _ => 0) ⟨[], .init⟩ 0 [0x61, 0x7F] (by decide) 0x0A (by decide) []

/-- Delete on an empty line ends up in the line. -/
theorem readline_stray_delete :
    ¬ ∀ (mem : Mem) (buf : Nat → Byte) (log : Log) (prompt : BitVec 64) (typed : List Byte)
      (last : Byte) (input : List Int), (∀ c ∈ typed, ¬ IsEnd c) → IsEnd last →
      ∃ line : Line,
        readline mem buf log prompt (typed.map keyCode ++ keyCode last :: input) =
          some (.string line input) ∧
        line.IsString (typed.foldl edit []) := by
  intro meant
  obtain ⟨line, returned, meant_eq⟩ := meant .bare (fun _ => 0) ⟨[], .init⟩ 0 [0x7F] 0x0A []
    (by decide) (by decide)
  obtain ⟨line', line_eq, returned'⟩ := readline_folds .bare (fun _ => 0) ⟨[], .init⟩ 0 [0x7F]
    (by decide) 0x0A (by decide) []
  cases returned.symm.trans returned'
  exact absurd (line_eq.unique meant_eq) (by decide)

end Jos64.Console
