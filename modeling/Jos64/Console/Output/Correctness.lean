import Jos64.Console.Output.Core
import Jos64.Page.Core

/-!
# The text screen is a window on a page

The screen driver refines the abstract page: from any state with the cursor on
the screen, every call succeeds (no access leaves `crt_buf`), the cursor is on
the screen again, and the buffer shows the window of the page on which the same
characters were written.
-/

namespace Jos64.Console

/-- What a character does to the page: printable codes are written with their
attribute, and the four control codes move the cursor. -/
def pagePutc (page : Page (BitVec 16)) (call : BitVec 32 × BitVec 32) : Page (BitVec 16) :=
  let put := Page.put crtRows crtCols Screen.blank
  let cell := attributed call.1 call.2
  if lowByte call.2 = 0x08 then
    page.backspace crtCols ((cell &&& ~~~0xFF ||| 0x20).setWidth 16)
  else if lowByte call.2 = 0x0A then page.newline crtRows Screen.blank
  else if lowByte call.2 = 0x0D then page.carriageReturn
  else if lowByte call.2 = 0x09 then
    let space := (attributed call.1 0x20).setWidth 16
    put (put (put (put (put page space) space) space) space) space
  else put page (cell.setWidth 16)

/-- The screen shows the page, with the cursor on the screen. -/
structure Shown (screen : Screen) (page : Page (BitVec 16)) : Prop where
  pos_lt : screen.crtPos < crtSize
  shows : Page.Shows crtRows crtCols screen.crtBuf screen.crtPos page

namespace Screen

theorem poke_eq_some {screen : Screen} {index : Nat} (index_lt : index < crtSize)
    (value : BitVec 16) :
    screen.poke index value =
      some { screen with crtBuf := Function.update screen.crtBuf index value } :=
  if_pos index_lt

/-- The blanking loop stays inside `crt_buf` and blanks exactly its range. -/
theorem blankCells_eq_some (screen : Screen) {i count : Nat} (range_le : i + count ≤ crtSize) :
    screen.blankCells i count =
      some { screen with
        crtBuf := fun index =>
          if i ≤ index ∧ index < i + count then blank else screen.crtBuf index } := by
  induction count generalizing screen i with
  | zero =>
      have none_in (index : Nat) : ¬ (i ≤ index ∧ index < i + 0) := by omega
      simp only [blankCells, none_in, if_false]
  | succ count ih =>
      rw [blankCells, poke_eq_some (by omega), Option.bind_some, ih _ (by omega)]
      congr 2
      funext index
      by_cases first : index = i
      · simp [first]
      · dsimp only
        rw [Function.update_of_ne first]
        congr 1
        exact propext (by omega)

/-- Scrolling stays inside `crt_buf`. -/
theorem scroll_eq_some (screen : Screen) :
    screen.scroll =
      some { screen with
        crtBuf := Page.scroll crtRows crtCols blank screen.crtBuf
        crtPos := screen.crtPos - crtCols } := by
  have moved : screen.memmove 0 crtCols (crtSize - crtCols) = some _ := if_pos (by decide)
  have blanked := blankCells_eq_some { screen with
    crtBuf := fun index =>
      if 0 ≤ index ∧ index < 0 + (crtSize - crtCols) then screen.crtBuf (index - 0 + crtCols)
      else screen.crtBuf index } (show crtSize - crtCols + crtCols ≤ crtSize by decide)
  simp only [scroll, moved, Option.bind_eq_bind, Option.bind_some, blanked]
  congr 2
  funext index
  have moved_eq : (crtRows - 1) * crtCols = crtSize - crtCols := rfl
  have size_eq : crtRows * crtCols = crtSize := rfl
  have cols_le : crtCols ≤ crtSize := by decide
  rw [Page.scroll, moved_eq, size_eq]
  by_cases low : index < crtSize - crtCols
  · rw [if_neg (by omega), if_pos (by omega), if_pos low]
    rfl
  · by_cases last : index < crtSize
    · rw [if_pos (by omega), if_neg low, if_pos last]
    · rw [if_neg (by omega), if_neg (by omega), if_neg low, if_neg last]

/-- The end of a call brings the cursor back on the screen. -/
theorem finish_shown {screen : Screen} {page : Page (BitVec 16)}
    (shows : Page.Shows crtRows crtCols screen.crtBuf screen.crtPos page) :
    ∃ next, screen.finish = some next ∧ Shown next (page.settle crtRows blank) := by
  by_cases off : crtSize ≤ screen.crtPos
  · refine ⟨{ screen with
        crtBuf := Page.scroll crtRows crtCols blank screen.crtBuf
        crtPos := screen.crtPos - crtCols
        cursor := screen.crtPos - crtCols }, by rw [finish, if_pos off, scroll_eq_some]; rfl,
      ?_, ?_⟩
    · have below := shows.settle_scroll blank (by decide) off
      dsimp only
      rw [shows.pos_eq]
      have col_lt := shows.col_lt
      have row_le := shows.row_le
      unfold Page.index crtSize crtRows crtCols at *
      omega
    · exact shows.settle_scroll blank (by decide) off
  · rw [not_le] at off
    exact ⟨{ screen with cursor := screen.crtPos },
      by rw [finish, if_neg (not_le.mpr off)]; rfl, off, shows.settle_visible off⟩

end Screen

/-! ## One call -/

namespace Output

variable {out : Output} {page : Page (BitVec 16)}

theorem onScreen_eq_some {op : Screen → Option Screen} {screen : Screen}
    (done : op out.screen = some screen) : out.onScreen op = some { out with screen } := by
  rw [onScreen, done, Option.map_some]

/-- The end of a call, on the console. -/
theorem onScreen_finish (out : Output)
    (shows : Page.Shows crtRows crtCols out.screen.crtBuf out.screen.crtPos page) :
    ∃ next, out.onScreen Screen.finish = some next ∧
      Shown next.screen (page.settle crtRows Screen.blank) := by
  obtain ⟨screen, done, shown⟩ := Screen.finish_shown shows
  exact ⟨_, onScreen_eq_some done, shown⟩

theorem settle_of_shown (screen : Screen) (shown : Shown screen page) :
    page.settle crtRows Screen.blank = page := by
  have row_lt := shown.shows.row_lt shown.pos_lt
  rw [Page.settle, if_neg (by omega)]

variable (out) in
/-- A printable code. -/
theorem cgaPutc_print {flag c : BitVec 32} (shown : Shown out.screen page)
    (not_bs : lowByte c ≠ 0x08) (not_lf : lowByte c ≠ 0x0A) (not_cr : lowByte c ≠ 0x0D)
    (not_tab : lowByte c ≠ 0x09) :
    ∃ next, cgaPutc ⟨flag, false⟩ c out = some next ∧
      Shown next.screen
        (page.put crtRows crtCols Screen.blank ((attributed flag c).setWidth 16)) := by
  have pos_lt := shown.pos_lt
  have no_wrap : (out.screen.crtPos + 1) % 2 ^ 16 = out.screen.crtPos + 1 := by
    unfold crtSize crtRows crtCols at pos_lt
    omega
  have written := (shown.shows.write ((attributed flag c).setWidth 16)).advance pos_lt
  rw [← no_wrap] at written
  rw [cgaPutc]
  simp only [Bool.false_eq_true, if_false, dite_eq_ite, lowByte_attributed, not_bs, not_lf,
    not_cr, not_tab]
  rw [onScreen_eq_some (Screen.poke_eq_some pos_lt _)]
  exact onScreen_finish _ written

theorem cgaPutc_backspace {flag c : BitVec 32} (shown : Shown out.screen page)
    (is_bs : lowByte c = 0x08) :
    ∃ next, cgaPutc ⟨flag, false⟩ c out = some next ∧
      Shown next.screen (page.backspace crtCols
        ((attributed flag c &&& ~~~0xFF ||| 0x20).setWidth 16)) := by
  rw [cgaPutc]
  simp only [Bool.false_eq_true, if_false, lowByte_attributed, is_bs, if_true]
  by_cases home : page.AtHome
  · have zero := shown.shows.pos_eq_zero_iff.mpr home
    rw [if_neg (by omega), Page.backspace, if_pos home]
    have ended := onScreen_finish out shown.shows
    rwa [settle_of_shown out.screen shown] at ended
  · obtain ⟨pos_pos, stepped⟩ := shown.shows.retreat home
    have pos_lt : out.screen.crtPos - 1 < crtSize := (Nat.sub_le _ _).trans_lt shown.pos_lt
    rw [if_pos pos_pos, onScreen_eq_some (Screen.poke_eq_some pos_lt _), Page.backspace,
      if_neg home]
    obtain ⟨next, done, ended⟩ := onScreen_finish
      { out with screen := { out.screen with
        crtBuf := Function.update out.screen.crtBuf (out.screen.crtPos - 1)
          ((attributed flag c &&& ~~~0xFF ||| 0x20).setWidth 16)
        crtPos := out.screen.crtPos - 1 } } (stepped.write _)
    refine ⟨next, done, ?_⟩
    rwa [settle_of_shown { out.screen with
      crtBuf := Function.update out.screen.crtBuf (out.screen.crtPos - 1)
        ((attributed flag c &&& ~~~0xFF ||| 0x20).setWidth 16)
      crtPos := out.screen.crtPos - 1 } ⟨pos_lt, stepped.write _⟩] at ended

theorem cgaPutc_newline {flag c : BitVec 32} (shown : Shown out.screen page)
    (is_lf : lowByte c = 0x0A) :
    ∃ next, cgaPutc ⟨flag, false⟩ c out = some next ∧
      Shown next.screen (page.newline crtRows Screen.blank) := by
  have pos_lt := shown.pos_lt
  have no_wrap : (out.screen.crtPos + crtCols) % 2 ^ 16 = out.screen.crtPos + crtCols := by
    unfold crtSize crtRows crtCols at *
    omega
  have moved := (shown.shows.down pos_lt).carriageReturn
  rw [cgaPutc]
  simp only [Bool.false_eq_true, if_false, lowByte_attributed, is_lf, if_true, no_wrap,
    show ¬ (0x0A : Byte) = 0x08 by decide]
  exact onScreen_finish { out with screen.crtPos := _ } moved

theorem cgaPutc_return {flag c : BitVec 32} (shown : Shown out.screen page)
    (is_cr : lowByte c = 0x0D) :
    ∃ next, cgaPutc ⟨flag, false⟩ c out = some next ∧
      Shown next.screen page.carriageReturn := by
  have moved := shown.shows.carriageReturn
  have pos_lt : out.screen.crtPos - out.screen.crtPos % crtCols < crtSize :=
    (Nat.sub_le _ _).trans_lt shown.pos_lt
  rw [cgaPutc]
  simp only [Bool.false_eq_true, if_false, lowByte_attributed, is_cr, if_true,
    show ¬ (0x0D : Byte) = 0x08 by decide, show ¬ (0x0D : Byte) = 0x0A by decide]
  obtain ⟨next, done, ended⟩ := onScreen_finish
    { out with screen.crtPos := out.screen.crtPos - out.screen.crtPos % crtCols } moved
  refine ⟨next, done, ?_⟩
  rwa [settle_of_shown { out.screen with
    crtPos := out.screen.crtPos - out.screen.crtPos % crtCols } ⟨pos_lt, moved⟩] at ended

/-- A space that comes back from the tab case. -/
theorem consPutc_space (flag : BitVec 32) (shown : Shown out.screen page) :
    ∃ next, consPutc ⟨flag, false⟩ 0x20 out = some next ∧
      Shown next.screen
        (page.put crtRows crtCols Screen.blank ((attributed flag 0x20).setWidth 16)) := by
  rw [consPutc]
  exact cgaPutc_print ((out.serialPutc 0x20).lptPutc 0x20) shown (by decide) (by decide)
    (by decide) (by decide)

theorem cgaPutc_tab {flag c : BitVec 32} (shown : Shown out.screen page)
    (is_tab : lowByte c = 0x09) :
    ∃ next, cgaPutc ⟨flag, false⟩ c out = some next ∧
      Shown next.screen (pagePutc page (flag, c)) := by
  obtain ⟨first, first_eq, shown⟩ := consPutc_space flag shown
  obtain ⟨second, second_eq, shown⟩ := consPutc_space flag shown
  obtain ⟨third, third_eq, shown⟩ := consPutc_space flag shown
  obtain ⟨fourth, fourth_eq, shown⟩ := consPutc_space flag shown
  obtain ⟨fifth, fifth_eq, shown⟩ := consPutc_space flag shown
  rw [cgaPutc]
  simp only [Bool.false_eq_true, if_false, lowByte_attributed, is_tab, dite_true, first_eq,
    second_eq, third_eq, fourth_eq, fifth_eq, Option.bind_eq_bind, Option.bind_some,
    show ¬ (0x09 : Byte) = 0x08 by decide, show ¬ (0x09 : Byte) = 0x0A by decide,
    show ¬ (0x09 : Byte) = 0x0D by decide]
  obtain ⟨next, done, ended⟩ := onScreen_finish fifth shown.shows
  refine ⟨next, done, ?_⟩
  rw [settle_of_shown fifth.screen shown] at ended
  simpa [pagePutc, is_tab] using ended

/-- One call of the screen driver. -/
theorem cgaPutc_shown (shown : Shown out.screen page) (call : BitVec 32 × BitVec 32) :
    ∃ next, cgaPutc ⟨call.1, false⟩ call.2 out = some next ∧
      Shown next.screen (pagePutc page call) := by
  by_cases is_tab : lowByte call.2 = 0x09
  · exact cgaPutc_tab shown is_tab
  · unfold pagePutc
    dsimp only
    split_ifs with is_bs is_lf is_cr
    · exact cgaPutc_backspace shown is_bs
    · exact cgaPutc_newline shown is_lf
    · exact cgaPutc_return shown is_cr
    · exact cgaPutc_print out shown is_bs is_lf is_cr is_tab

/-- Any run of the screen driver. -/
theorem cgaRun_shown (shown : Shown out.screen page) (calls : List (BitVec 32 × BitVec 32)) :
    ∃ last, cgaRun calls out = some last ∧ Shown last.screen (calls.foldl pagePutc page) := by
  induction calls generalizing out page with
  | nil => exact ⟨out, rfl, shown⟩
  | cons call calls ih =>
      obtain ⟨next, done, shown⟩ := cgaPutc_shown shown call
      obtain ⟨last, rest, shown⟩ := ih shown
      refine ⟨last, ?_, shown⟩
      rw [cgaRun, List.foldlM_cons, done]
      exact rest

/-- The text screen is a window on an unbounded page: every run of `cga_putc`
stays inside `crt_buf`, keeps the cursor on the screen, and leaves in `crt_buf`
the 25 rows of the page from its first visible row on. -/
theorem cgaRun_refines_page (out : Output) (start : out.screen.crtPos < crtSize)
    (calls : List (BitVec 32 × BitVec 32)) :
    ∃ last, cgaRun calls out = some last ∧
      last.screen.crtPos < crtSize ∧
      let page := calls.foldl pagePutc
        (Page.ofBuffer crtCols out.screen.crtBuf out.screen.crtPos)
      last.screen.crtPos = (page.row - page.top) * crtCols + page.col ∧
        ∀ index < crtSize, last.screen.crtBuf index =
          page.cell (page.top + index / crtCols) (index % crtCols) := by
  have shown : Shown out.screen (Page.ofBuffer crtCols out.screen.crtBuf out.screen.crtPos) :=
    ⟨start, Page.shows_ofBuffer (by decide) start⟩
  obtain ⟨last, done, shown⟩ := cgaRun_shown shown calls
  exact ⟨last, done, shown.pos_lt, shown.shows.pos_eq, shown.shows.window_eq⟩

/-- A character in the last cell scrolls the screen. -/
theorem cgaRun_refines_page_last_cell :
    ∃ last, cgaRun [(0x07, 0x41)] ⟨[], [], ⟨fun _ => 0, 1999, 0⟩⟩ = some last ∧
      last.screen.crtPos < crtSize ∧
      let page := [(0x07, 0x41)].foldl pagePutc (Page.ofBuffer crtCols (fun _ => 0) 1999)
      last.screen.crtPos = (page.row - page.top) * crtCols + page.col ∧
        ∀ index < crtSize, last.screen.crtBuf index =
          page.cell (page.top + index / crtCols) (index % crtCols) :=
  cgaRun_refines_page ⟨[], [], ⟨fun _ => 0, 1999, 0⟩⟩ (by decide) [(0x07, 0x41)]

end Output

end Jos64.Console
