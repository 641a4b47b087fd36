import Jos64.Console.Output.Correctness
import Jos64.Console.Transcript.Core
import Jos64.Format.Escape

/-!
# Text with escape sequences

The ports take a format of text and escape sequences as it is, byte for byte.
The screen takes the text alone, because `color_parsing` is set exactly while
the formatter hands over the bytes of a sequence.
-/

namespace Jos64.Console

open Jos64.Format

/-- A byte of text that the formatter passes on and that is no tab. -/
def IsText (ch : Byte) : Prop :=
  ch ≠ 0 ∧ ch ≠ 0x1B ∧ ch ≠ chr '%' ∧ ch ≠ chr '\t'

instance (ch : Byte) : Decidable (IsText ch) :=
  inferInstanceAs (Decidable (_ ∧ _))

/-- A byte between the bracket and the `m` of an escape sequence. -/
def IsParameter (ch : Byte) : Prop :=
  ch = chr ';' ∨ 0x30 ≤ ch ∧ ch ≤ 0x39

instance (ch : Byte) : Decidable (IsParameter ch) :=
  inferInstanceAs (Decidable (_ ∨ _))

/-- A byte of text or an escape sequence. -/
inductive Fragment where
  | text (ch : Byte) (is_text : IsText ch)
  | escape (body : List Byte) (parameters : ∀ ch ∈ body, IsParameter ch)

namespace Fragment

def bytes : Fragment → List Byte
  | text ch _ => [ch]
  | escape body _ => 0x1B :: chr '[' :: (body ++ [chr 'm'])

/-- What is left without the escape sequences. -/
def visible : Fragment → List Byte
  | text ch _ => [ch]
  | escape _ _ => []

end Fragment

/-- The ports take `bytes` and the screen takes `text` of what has been printed
between two states. -/
def Transcribed (st last : State) (bytes text : List Byte) : Prop :=
  ∃ new, last.calls = st.calls ++ new ∧ Output.sent new = bytes ∧
    (Output.shown new).map Prod.snd = text.map unsignedChar

theorem Transcribed.trans {st mid last : State} {bytes text bytes' text' : List Byte}
    (first : Transcribed st mid bytes text) (second : Transcribed mid last bytes' text') :
    Transcribed st last (bytes ++ bytes') (text ++ text') := by
  obtain ⟨new, calls_eq, sent_eq, shown_eq⟩ := first
  obtain ⟨new', calls_eq', sent_eq', shown_eq'⟩ := second
  refine ⟨new ++ new', ?_, ?_, ?_⟩
  · rw [calls_eq', calls_eq, List.append_assoc]
  · rw [Output.sent, List.map_append, ← sent_eq, ← sent_eq']
    rfl
  · rw [Output.shown, List.filter_append, List.map_append, List.map_append, List.map_append,
      ← shown_eq, ← shown_eq']
    rfl

theorem lowByte_unsignedChar (ch : Byte) : lowByte (unsignedChar ch) = ch := by
  simp [lowByte, unsignedChar]

/-- A character outside an escape sequence. -/
theorem transcribed_text {st : State} (outside : st.color.parsing = false) (ch : Byte) :
    Transcribed st (st.putch (unsignedChar ch)) [ch] [ch] := by
  refine ⟨[⟨unsignedChar ch, st.color⟩], rfl, ?_, ?_⟩
  · rw [Output.sent, List.map_singleton, lowByte_unsignedChar]
  · rw [Output.shown, List.filter_cons_of_pos (by simp [outside])]
    rfl

/-- A character inside an escape sequence, where the colour may have changed. -/
theorem transcribed_hidden (st : State) (color : Color) (inside : color.parsing) (ch : Byte) :
    Transcribed st (({ st with color } : State).putch (unsignedChar ch)) [ch] [] := by
  refine ⟨[⟨unsignedChar ch, color⟩], rfl, ?_, ?_⟩
  · rw [Output.sent, List.map_singleton, lowByte_unsignedChar]
  · rw [Output.shown, List.filter_cons_of_neg (by simp [inside])]
    rfl

/-- The loops over the parameters, up to the `m`. -/
theorem escapeLoop_transcribed (st : State) (inside : st.color.parsing) (escColor : Int)
    {body : List Byte} (parameters : ∀ ch ∈ body, IsParameter ch) (fmt : List Byte) :
    ∃ last, escapeLoop st escColor (body ++ chr 'm' :: fmt) = some (last, fmt) ∧
      Transcribed st last (body ++ [chr 'm']) [] := by
  induction body generalizing st escColor with
  | nil =>
      rw [List.nil_append, escapeLoop, if_neg (by simp)]
      dsimp only
      rw [if_pos rfl]
      exact ⟨_, rfl, transcribed_hidden st
        ⟨interpretColor st.color.flag escColor, st.color.parsing⟩ inside (chr 'm')⟩
  | cons ch body ih =>
      have not_last : ch ≠ chr 'm' := by
        rintro rfl
        rcases parameters _ List.mem_cons_self with separator | ⟨_, small⟩
        · exact absurd separator (by decide)
        · exact absurd small (by decide)
      have rest (color : Color) (inside : color.parsing) (escColor : Int) :=
        ih (({ st with color } : State).putch (unsignedChar ch)) inside escColor
          fun later later_mem => parameters later (List.mem_cons_of_mem ch later_mem)
      rw [List.cons_append, escapeLoop]
      split
      · obtain ⟨last, read, transcribed⟩ := rest st.color inside
          (wrap32 (wrap32 (escColor * 10) + (ch.toNat - 0x30)))
        exact ⟨last, read, (transcribed_hidden st st.color inside ch).trans transcribed⟩
      · let color : Color := ⟨interpretColor st.color.flag escColor, st.color.parsing⟩
        obtain ⟨last, read, transcribed⟩ := rest color inside 0
        refine ⟨last, ?_, (transcribed_hidden st color inside ch).trans transcribed⟩
        rw [← read]

/-- An escape sequence. -/
theorem escape_transcribed (st : State) {body : List Byte}
    (parameters : ∀ ch ∈ body, IsParameter ch) (fmt : List Byte) :
    ∃ last, escape st (chr '[' :: (body ++ chr 'm' :: fmt)) = some (last, fmt) ∧
      last.color.parsing = false ∧
      Transcribed st last (0x1B :: chr '[' :: (body ++ [chr 'm'])) [] := by
  let begun : State := { st with color.parsing := true }
  obtain ⟨last, read, transcribed⟩ := escapeLoop_transcribed
    ((begun.putch 0x1B).putch (unsignedChar (chr '['))) rfl 0 parameters fmt
  refine ⟨{ last with color.parsing := false }, ?_, rfl, ?_⟩
  · rw [escape]
    dsimp only
    rw [read, Option.map_some]
  · have bracket : Transcribed (begun.putch 0x1B) _ [chr '['] [] :=
      transcribed_hidden (begun.putch 0x1B) begun.color rfl (chr '[')
    have esc : Transcribed st _ [0x1B] [] := transcribed_hidden st begun.color rfl 0x1B
    exact esc.trans (bracket.trans transcribed)

/-- The formatter over any fragments. -/
theorem vprintfmtWith_transcribed (mem : Mem) (args : Args) (ap : Nat) (fragments : List Fragment)
    (st : State) (outside : st.color.parsing = false) :
    ∃ last, vprintfmtWith (printfmt mem) mem args ap st (fragments.flatMap Fragment.bytes) =
        some last ∧ last.color.parsing = false ∧
      Transcribed st last (fragments.flatMap Fragment.bytes)
        (fragments.flatMap Fragment.visible) := by
  induction fragments generalizing st with
  | nil => exact ⟨st, vprintfmtWith_nil st, outside, [], (List.append_nil _).symm, rfl, rfl⟩
  | cons fragment fragments ih =>
      rw [List.flatMap_cons, List.flatMap_cons]
      cases fragment with
      | text ch is_text =>
          obtain ⟨last, printed, done, transcribed⟩ := ih (st.putch (unsignedChar ch)) outside
          refine ⟨last, ?_, done, (transcribed_text outside ch).trans transcribed⟩
          exact (vprintfmtWith_text ⟨is_text.2.2.1, is_text.2.1⟩ _).trans printed
      | escape body parameters =>
          obtain ⟨next, read, outside, first⟩ :=
            escape_transcribed st parameters (fragments.flatMap Fragment.bytes)
          obtain ⟨last, printed, done, transcribed⟩ := ih next outside
          refine ⟨last, ?_, done, first.trans transcribed⟩
          rw [Fragment.bytes, List.cons_append, List.cons_append, List.append_assoc]
          exact (vprintfmtWith_escape read).trans printed

/-- Of a format of text and escape sequences, `cprintf` sends every byte to the
two ports and the text to the screen, and `color_parsing` is 0 again. -/
theorem cprintf_transcribed (mem : Mem) (log : Log) (args : Args) (fragments : List Fragment)
    (outside : log.color.parsing = false) :
    ∃ cnt last, cprintf mem log (fragments.flatMap Fragment.bytes) args = some (cnt, last) ∧
      last.color.parsing = false ∧
      ∃ new, last.calls = log.calls ++ new ∧
        ∃ screened : List (BitVec 32 × BitVec 32),
          screened.map Prod.snd = (fragments.flatMap Fragment.visible).map unsignedChar ∧
          ∀ out : Output, out.puts new = (Output.cgaRun screened out).map
            (Output.withPorts (out.serial ++ fragments.flatMap Fragment.bytes)
              (out.lpt ++ fragments.flatMap Fragment.bytes)) ∧
            (out.screen.crtPos < crtSize → ∃ after, out.puts new = some after) := by
  obtain ⟨last, printed, done, new, calls_eq, sent_eq, shown_eq⟩ :=
    vprintfmtWith_transcribed mem args 0 fragments log outside
  refine ⟨_, last, by rw [cprintf, vcprintf, vprintfmt, printed, Option.map_some], done, new,
    calls_eq, Output.shown new, shown_eq, fun out => ?_⟩
  have no_tab : ∀ call ∈ Output.shown new, lowByte call.2 ≠ 0x09 := by
    intro call call_mem
    have code_mem := List.mem_map_of_mem (f := Prod.snd) call_mem
    rw [shown_eq] at code_mem
    obtain ⟨ch, ch_mem, code_eq⟩ := List.mem_map.mp code_mem
    obtain ⟨fragment, -, ch_mem⟩ := List.mem_flatMap.mp ch_mem
    rw [← code_eq, lowByte_unsignedChar]
    cases fragment with
    | text ch' is_text =>
        rw [List.mem_singleton.mp ch_mem]
        exact is_text.2.2.2
    | escape body parameters => exact absurd ch_mem List.not_mem_nil
  rw [out.puts_eq_cgaRun no_tab, sent_eq]
  refine ⟨rfl, fun start => ?_⟩
  have page : Shown out.screen (Page.ofBuffer crtCols out.screen.crtBuf out.screen.crtPos) :=
    ⟨start, Page.shows_ofBuffer (by decide) start⟩
  obtain ⟨after, run, -⟩ := Output.cgaRun_shown page (Output.shown new)
  exact ⟨_, by rw [run, Option.map_some]⟩

/-- A red letter at the end of a sequence. -/
theorem cprintf_transcribed_red :
    ∃ cnt last, cprintf .bare ⟨[], .init⟩ (0x1B :: str "[31mR") (fun _ => 0) = some (cnt, last) ∧
      last.color.parsing = false ∧
      ∃ new, last.calls = [] ++ new ∧
        ∃ screened : List (BitVec 32 × BitVec 32), screened.map Prod.snd = [0x52] ∧
          ∀ out : Output, out.puts new = (Output.cgaRun screened out).map
            (Output.withPorts (out.serial ++ 0x1B :: str "[31mR")
              (out.lpt ++ 0x1B :: str "[31mR")) ∧
            (out.screen.crtPos < crtSize → ∃ after, out.puts new = some after) :=
  cprintf_transcribed .bare ⟨[], .init⟩ (fun _ => 0)
    [.escape [chr '3', chr '1'] (by decide), .text (chr 'R') (by decide)] rfl

end Jos64.Console
