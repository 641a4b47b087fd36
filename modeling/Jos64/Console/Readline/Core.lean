import Jos64.Console.Printf
import Jos64.Store.Core

/-!
# Line input

`readline` edits a line in a static buffer while it reads.  The characters that
`getchar` will deliver are a list; the call waits where the list ends.
-/

namespace Jos64.Console

open Jos64.Format

/-- `BUFLEN` -/
def bufLen : Nat := 1024

/-- The static `buf`, the index `i` and what has been printed. -/
structure Line where
  buf : Nat → Byte
  i : Nat
  log : Log

/-- How a call of `readline` stands when the input runs out or the call
returns, with the input that is left. -/
inductive Reading where
  | waiting (line : Line)
  | null (line : Line) (rest : List Int)
  | string (line : Line) (rest : List Int)

namespace Line

/-- `buf[index] = c`, which has no value outside the buffer. -/
def store (line : Line) (index : Nat) (c : Int) : Option Line :=
  if index < bufLen then
    some { line with buf := Function.update line.buf index (BitVec.ofInt 8 c) }
  else none

def echo (line : Line) (c : Int) : Line :=
  { line with log := cputchar line.log (BitVec.ofInt 32 c) }

end Line

/-- The loop of `readline`.  `iscons` is always true, so every edit is
echoed. -/
def readlineLoop (mem : Mem) (line : Line) : List Int → Option Reading
  | [] => some (.waiting line)
  | c :: input =>
      if c < 0 then do
        let (_, log) ← cprintf mem line.log (str "read error: %e\n")
          fun _ => (BitVec.ofInt 32 c).setWidth 64
        some (.null { line with log } input)
      else if (c = 0x08 ∨ c = 0x7F) ∧ 0 < line.i then
        let line := line.echo 0x08
        readlineLoop mem { line with i := line.i - 1 } input
      else if 0x20 ≤ c ∧ line.i < bufLen - 1 then
        ((line.echo c).store line.i c).bind fun line =>
          readlineLoop mem { line with i := line.i + 1 } input
      else if c = 0x0A ∨ c = 0x0D then
        ((line.echo 0x0A).store line.i 0).map fun line => .string line input
      else readlineLoop mem line input

/-- A call of `readline`, with the contents that the last one left in `buf`. -/
def readline (mem : Mem) (buf : Nat → Byte) (log : Log) (prompt : BitVec 64) (input : List Int) :
    Option Reading := do
  let (_, log) ← if prompt ≠ 0 then cprintf mem log (str "%s") fun _ => prompt else some (0, log)
  readlineLoop mem ⟨buf, 0, log⟩ input

end Jos64.Console
