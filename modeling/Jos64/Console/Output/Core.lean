import Jos64.Byte
import Jos64.Console.Color
import Mathlib.Logic.Function.Basic

/-!
# Console output

`consPutc` sends a character to the serial port, to the parallel port and to
the text screen.  The screen driver keeps 25 rows of 80 cells in `crt_buf` and
a 16-bit cursor position.  An access to `crt_buf` outside its 2000 cells has no
value here: every operation that would make one returns `none`.
-/

namespace Jos64.Console

/-- `CRT_ROWS` -/
def crtRows : Nat := 25

/-- `CRT_COLS` -/
def crtCols : Nat := 80

/-- `CRT_SIZE` -/
def crtSize : Nat := crtRows * crtCols

/-- The static variables of the screen driver; `cursor` is the position last
sent to the 6845. -/
structure Screen where
  crtBuf : Nat → BitVec 16
  crtPos : Nat
  cursor : Nat

/-- The output side of the console: the bytes written so far to the two data
ports, and the screen. -/
structure Output where
  serial : List Byte
  lpt : List Byte
  screen : Screen

/-- The low byte of an `int`. -/
def lowByte (c : BitVec 32) : Byte :=
  c.setWidth 8

namespace Screen

/-- `crt_buf[index] = value` -/
def poke (screen : Screen) (index : Nat) (value : BitVec 16) : Option Screen :=
  if index < crtSize then
    some { screen with crtBuf := Function.update screen.crtBuf index value }
  else none

/-- `memmove` of `count` cells from `src` to `dst`, both inside `crt_buf`. -/
def memmove (screen : Screen) (dst src count : Nat) : Option Screen :=
  if dst + count ≤ crtSize ∧ src + count ≤ crtSize then
    some { screen with
      crtBuf := fun index =>
        if dst ≤ index ∧ index < dst + count then screen.crtBuf (index - dst + src)
        else screen.crtBuf index }
  else none

/-- A blank cell, light grey on black. -/
def blank : BitVec 16 := 0x0700 ||| 0x20

/-- The loop that blanks `count` cells from index `i` on. -/
def blankCells (screen : Screen) (i : Nat) : Nat → Option Screen
  | 0 => some screen
  | count + 1 => (screen.poke i blank).bind fun screen => screen.blankCells (i + 1) count

/-- Scroll up by one row. -/
def scroll (screen : Screen) : Option Screen := do
  let screen ← screen.memmove 0 crtCols (crtSize - crtCols)
  let screen ← screen.blankCells (crtSize - crtCols) crtCols
  some { screen with crtPos := screen.crtPos - crtCols }

/-- The end of `cga_putc`: scroll if the cursor has run off the screen, then
move the little blinky thing. -/
def finish (screen : Screen) : Option Screen := do
  let screen ← if crtSize ≤ screen.crtPos then screen.scroll else some screen
  some { screen with cursor := screen.crtPos }

end Screen

/-- The character with its attribute: `color_flag` in the second byte, and light
grey on black if there is none. -/
def attributed (flag c : BitVec 32) : BitVec 32 :=
  let c := c ||| flag <<< 8
  if c &&& ~~~0xFF = 0 then c ||| 0x0700 else c

/-- The attribute does not change the character. -/
theorem lowByte_attributed (flag c : BitVec 32) : lowByte (attributed flag c) = lowByte c := by
  unfold attributed lowByte
  dsimp only
  apply BitVec.eq_of_getLsbD_eq
  intro i i_lt
  split <;> simp [i_lt]

namespace Output

def serialPutc (out : Output) (c : BitVec 32) : Output :=
  { out with serial := out.serial ++ [lowByte c] }

def lptPutc (out : Output) (c : BitVec 32) : Output :=
  { out with lpt := out.lpt ++ [lowByte c] }

/-- Apply a screen operation to the screen of the console. -/
def onScreen (out : Output) (op : Screen → Option Screen) : Option Output :=
  (op out.screen).map fun screen => { out with screen }

mutual

/-- The screen driver.  A tab is handed back to `consPutc` as five spaces. -/
def cgaPutc (color : Color) (c : BitVec 32) (out : Output) : Option Output :=
  if color.parsing then some out
  else
    let cell := attributed color.flag c
    if lowByte cell = 0x08 then
      if 0 < out.screen.crtPos then do
        let crtPos := out.screen.crtPos - 1
        let out ← out.onScreen fun screen =>
          { screen with crtPos }.poke crtPos ((cell &&& ~~~0xFF ||| 0x20).setWidth 16)
        out.onScreen Screen.finish
      else out.onScreen Screen.finish
    else if lowByte cell = 0x0A then
      let crtPos := (out.screen.crtPos + crtCols) % 2 ^ 16
      let crtPos := crtPos - crtPos % crtCols
      { out with screen.crtPos := crtPos }.onScreen Screen.finish
    else if lowByte cell = 0x0D then
      let crtPos := out.screen.crtPos - out.screen.crtPos % crtCols
      { out with screen.crtPos := crtPos }.onScreen Screen.finish
    else if _tab : lowByte cell = 0x09 then do
      let out ← consPutc color 0x20 out
      let out ← consPutc color 0x20 out
      let out ← consPutc color 0x20 out
      let out ← consPutc color 0x20 out
      let out ← consPutc color 0x20 out
      out.onScreen Screen.finish
    else do
      let out ← out.onScreen fun screen =>
        { screen with crtPos := (screen.crtPos + 1) % 2 ^ 16 }.poke screen.crtPos
          (cell.setWidth 16)
      out.onScreen Screen.finish
termination_by if lowByte c = 0x09 then 2 else 0
decreasing_by
  all_goals
    rw [lowByte_attributed] at _tab
    rw [if_pos _tab]
    decide

/-- Output a character to the console. -/
def consPutc (color : Color) (c : BitVec 32) (out : Output) : Option Output :=
  cgaPutc color c ((out.serialPutc c).lptPutc c)
termination_by if lowByte c = 0x09 then 3 else 1
decreasing_by split <;> omega

end

/-- A sequence of screen calls, each with the value `color_flag` has then. -/
def cgaRun (calls : List (BitVec 32 × BitVec 32)) (out : Output) : Option Output :=
  calls.foldlM (fun out call => cgaPutc ⟨call.1, false⟩ call.2 out) out

end Output

end Jos64.Console
