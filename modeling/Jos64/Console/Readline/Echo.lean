import Jos64.Console.Output.Correctness
import Jos64.Console.Readline.Correctness
import Jos64.Console.Transcript.Core
import Jos64.Format.Escape
import Jos64.Format.Number
import Jos64.Page.Trail

/-!
# The echo of a line

While a line is read, the screen shows it: the cells just before the cursor hold
the characters of the buffer.  Scrolling does not hide them, because a line is
shorter than the screen without its last row.
-/

namespace Jos64.Console

open Jos64.Format

/-- The screen shows the text just before the cursor. -/
def Echoed (out : Output) (text : List Byte) : Prop :=
  ∃ page cells, Shown out.screen page ∧ Page.Trail crtCols page cells ∧
    cells.map (BitVec.setWidth 8) = text

variable {out : Output} {text : List Byte}

theorem lowByte_keyCode (c : Byte) : lowByte (BitVec.ofInt 32 (keyCode c)) = c := by
  revert c
  decide

/-- What the cells hold is before the cursor in the buffer of the screen. -/
theorem Echoed.holds (echoed : Echoed out text) :
    out.screen.crtPos < crtSize ∧ text.length ≤ out.screen.crtPos ∧
      Store.Holds (fun index => (out.screen.crtBuf index).setWidth 8)
        (out.screen.crtPos - text.length) text := by
  obtain ⟨page, cells, shown, trail, rfl⟩ := echoed
  obtain ⟨before, held⟩ := shown.shows.trail shown.pos_lt trail
  rw [List.length_map]
  refine ⟨shown.pos_lt, before, fun index bound => ?_⟩
  rw [List.length_map] at bound
  rw [List.getElem_map]
  exact congrArg (BitVec.setWidth 8) (held index bound)

/-- Printing a character behind the text. -/
theorem Echoed.print (echoed : Echoed out text) (flag : BitVec 32) {c : Byte}
    (printable : 0x20 ≤ c) (room : text.length < bufLen - 1) :
    ∃ next, Output.cgaPutc ⟨flag, false⟩ (BitVec.ofInt 32 (keyCode c)) out = some next ∧
      Echoed next (text ++ [c]) := by
  obtain ⟨page, cells, shown, trail, rfl⟩ := echoed
  have plain : ∀ c : Byte, 0x20 ≤ c → c ≠ 0x08 ∧ c ≠ 0x0A ∧ c ≠ 0x0D ∧ c ≠ 0x09 := by decide
  obtain ⟨not_bs, not_lf, not_cr, not_tab⟩ := plain c printable
  rw [← lowByte_keyCode c] at not_bs not_lf not_cr not_tab
  obtain ⟨next, done, next_shown⟩ : ∃ next,
      Output.cgaPutc ⟨flag, false⟩ (BitVec.ofInt 32 (keyCode c)) out = some next ∧
        Shown next.screen _ :=
    Output.cgaPutc_print out shown not_bs not_lf not_cr not_tab
  rw [List.length_map] at room
  have fits : cells.length + 1 + crtCols ≤ crtRows * crtCols := by
    unfold bufLen at room
    unfold crtRows crtCols
    omega
  refine ⟨next, done, _, _, next_shown, trail.put shown.shows.col_lt
    (shown.shows.row_lt shown.pos_lt) fits _ _, ?_⟩
  have character :
      ((attributed flag (BitVec.ofInt 32 (keyCode c))).setWidth 16).setWidth 8 = c := by
    calc
      _ = lowByte (attributed flag (BitVec.ofInt 32 (keyCode c))) :=
        BitVec.setWidth_setWidth_of_le _ (by decide)
      _ = lowByte (BitVec.ofInt 32 (keyCode c)) := lowByte_attributed _ _
      _ = c := lowByte_keyCode c
  rw [List.map_append, List.map_singleton, character]

/-- Erasing the last character. -/
theorem Echoed.erase {last : Byte} (echoed : Echoed out (text ++ [last])) (flag : BitVec 32) :
    ∃ next, Output.cgaPutc ⟨flag, false⟩ 0x08 out = some next ∧ Echoed next text := by
  obtain ⟨page, cells, shown, trail, cells_eq⟩ := echoed
  obtain ⟨front, behind, rfl, front_eq, behind_eq⟩ := List.map_eq_append_iff.mp cells_eq
  obtain ⟨cell, rest, rfl, -, rest_eq⟩ := List.map_eq_cons_iff.mp behind_eq
  obtain rfl := List.map_eq_nil_iff.mp rest_eq
  have is_bs : lowByte 0x08 = 0x08 := by decide
  obtain ⟨next, done, next_shown⟩ : ∃ next,
      Output.cgaPutc ⟨flag, false⟩ 0x08 out = some next ∧ Shown next.screen _ :=
    Output.cgaPutc_backspace shown is_bs
  exact ⟨next, done, _, front, next_shown, trail.backspace shown.shows.col_lt _, front_eq⟩

/-- The ports are not on the screen. -/
theorem Echoed.consPutc {text' : List Byte} {color : Color} {ch : BitVec 32}
    (echoed : Echoed out text)
    (drawn : ∀ out : Output, Echoed out text →
      ∃ next, Output.cgaPutc color ch out = some next ∧ Echoed next text') :
    ∃ next, Output.puts [⟨ch, color⟩] out = some next ∧ Echoed next text' := by
  have same_screen : Echoed ((out.serialPutc ch).lptPutc ch) text := echoed
  obtain ⟨next, done, next_echoed⟩ := drawn _ same_screen
  refine ⟨next, ?_, next_echoed⟩
  rw [Output.puts, List.foldlM_cons, Output.consPutc, done]
  rfl

/-- The echo of one character. -/
theorem Echoed.codeEcho (echoed : Echoed out text) {color : Color} (outside : color.parsing = false)
    (c : Byte) :
    ∃ next, Output.puts ((Console.codeEcho text c).map fun ch => ⟨ch, color⟩) out = some next ∧
      Echoed next (codeEdit text c) := by
  obtain ⟨flag, parsing⟩ := color
  cases outside
  unfold Console.codeEcho codeEdit
  by_cases delete : IsDelete c ∧ text ≠ []
  · rw [if_pos delete, if_pos delete]
    obtain ⟨front, last, rfl⟩ := (List.eq_nil_or_concat text).resolve_left delete.2
    rw [List.concat_eq_append] at echoed ⊢
    rw [List.dropLast_concat]
    exact echoed.consPutc fun out echoed => echoed.erase flag
  rw [if_neg delete, if_neg delete]
  by_cases room : 0x20 ≤ c ∧ text.length < bufLen - 1
  · rw [if_pos room, if_pos room]
    exact echoed.consPutc fun out echoed => echoed.print flag room.1 room.2
  · rw [if_neg room, if_neg room]
    exact ⟨out, rfl, echoed⟩

/-- The echo of any characters that do not end the line. -/
theorem readlineLoop_echoed (mem : Mem) {line : Line} (line_eq : line.Represents text)
    (outside : line.log.color.parsing = false) (echoed : Echoed out text) {typed : List Byte}
    (inside : ∀ c ∈ typed, ¬ IsEnd c) :
    ∃ (next : Line) (new : List Call) (last : Output),
      readlineLoop mem line (typed.map keyCode) = some (.waiting next) ∧
        next.log.calls = line.log.calls ++ new ∧ out.puts new = some last ∧
        next.Represents (typed.foldl codeEdit text) ∧
        Echoed last (typed.foldl codeEdit text) := by
  induction typed generalizing line text out with
  | nil =>
      refine ⟨line, [], out, ?_, (List.append_nil _).symm, rfl, line_eq, echoed⟩
      rw [List.map_nil, readlineLoop]
  | cons c typed ih =>
      obtain ⟨middle, middle_eq, log_eq, step⟩ :=
        readlineLoop_cons mem line_eq (inside c List.mem_cons_self) (typed.map keyCode)
      obtain ⟨drawn, draws, drawn_eq⟩ := echoed.codeEcho outside c
      have middle_outside : middle.log.color.parsing = false := by
        rw [log_eq, State.putchs_color]
        exact outside
      obtain ⟨next, new, last, run, calls_eq, puts, next_eq, last_eq⟩ :=
        ih middle_eq middle_outside drawn_eq
          fun later later_mem => inside later (List.mem_cons_of_mem c later_mem)
      refine ⟨next, (codeEcho text c).map (fun ch => ⟨ch, line.log.color⟩) ++ new, last,
        step.trans run, ?_, ?_, next_eq, last_eq⟩
      · rw [calls_eq, log_eq, State.putchs_calls, List.append_assoc]
      · rw [Output.puts, List.foldlM_append]
        exact (congrArg (· >>= Output.puts new) draws).trans puts

/-- While a line is read, from a screen with its cursor inside and with
`color_parsing` 0, the cells just before the cursor hold the characters that the
buffer holds. -/
theorem readline_echo (mem : Mem) (buf : Nat → Byte) (log : Log) (out : Output)
    (outside : log.color.parsing = false) (start : out.screen.crtPos < crtSize)
    (typed : List Byte) (inside : ∀ c ∈ typed, ¬ IsEnd c) :
    ∃ (line : Line) (new : List Call) (last : Output),
      readlineLoop mem ⟨buf, 0, log⟩ (typed.map keyCode) = some (.waiting line) ∧
        line.log.calls = log.calls ++ new ∧ out.puts new = some last ∧
        last.screen.crtPos < crtSize ∧ line.i ≤ last.screen.crtPos ∧
        ∀ index < line.i,
          (last.screen.crtBuf (last.screen.crtPos - line.i + index)).setWidth 8 =
            line.buf index := by
  have begun : Echoed out [] := by
    have shows : Page.Shows crtRows crtCols out.screen.crtBuf out.screen.crtPos _ :=
      Page.shows_ofBuffer (by decide) start
    exact ⟨_, [], ⟨start, shows⟩, .nil shows.top_le, rfl⟩
  obtain ⟨line, new, last, run, calls_eq, puts, line_eq, echoed⟩ :=
    readlineLoop_echoed mem (.nil buf log) outside begun inside
  obtain ⟨pos_lt, before, held⟩ := echoed.holds
  rw [← line_eq.i_eq] at before held
  refine ⟨line, new, last, run, calls_eq, puts, pos_lt, before, fun index bound => ?_⟩
  have in_line := line_eq.held index (line_eq.i_eq ▸ bound)
  rw [Nat.zero_add] at in_line
  rw [in_line]
  exact held index (line_eq.i_eq ▸ bound)

/-- A line that begins in the last cell of the screen. -/
theorem readline_echo_last_cell :
    ∃ (line : Line) (new : List Call) (last : Output),
      readlineLoop .bare ⟨fun _ => 0, 0, ⟨[], .init⟩⟩ ((str "ab").map keyCode) =
          some (.waiting line) ∧
        line.log.calls = [] ++ new ∧
        (⟨[], [], ⟨fun _ => 0, 1999, 0⟩⟩ : Output).puts new = some last ∧
        last.screen.crtPos < crtSize ∧ line.i ≤ last.screen.crtPos ∧
        ∀ index < line.i,
          (last.screen.crtBuf (last.screen.crtPos - line.i + index)).setWidth 8 =
            line.buf index :=
  readline_echo .bare (fun _ => 0) ⟨[], .init⟩ ⟨[], [], ⟨fun _ => 0, 1999, 0⟩⟩ rfl (by decide)
    (str "ab") (by decide)

end Jos64.Console
