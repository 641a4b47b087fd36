import Jos64.Format.Core

/-!
# Console printing

The kernel's `cprintf` passes every character to `cputchar`.  What has been
passed so far, with the colours of that moment, is the log of the console.
-/

namespace Jos64.Console

open Jos64.Format

/-- The characters passed to `cputchar`, and the colour globals. -/
abbrev Log := Format.State

/-- `cputchar` -/
def cputchar (log : Log) (c : BitVec 32) : Log :=
  log.putch c

/-- What the callback of `vcprintf` leaves in `*cnt`: the statement `*cnt++`
moves its pointer and stores nothing. -/
def putch (cnt : Int) (_ : Call) : Int :=
  cnt

def vcprintf (mem : Mem) (log : Log) (fmt : List Byte) (ap : Args) : Option (Int × Log) :=
  (vprintfmt mem ap log fmt).map fun last =>
    ((last.calls.drop log.calls.length).foldl putch 0, last)

def cprintf (mem : Mem) (log : Log) (fmt : List Byte) (args : Args) : Option (Int × Log) :=
  vcprintf mem log fmt args

/-- `*cnt` stays as it is. -/
theorem foldl_putch (cnt : Int) (calls : List Call) : calls.foldl putch cnt = cnt := by
  induction calls with
  | nil => rfl
  | cons call calls ih => exact ih

end Jos64.Console
