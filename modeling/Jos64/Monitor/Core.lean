import Jos64.Loop.Core
import Jos64.Store.Core
import Jos64.Strings.Core

/-!
# The command interpreter

`runcmd` cuts the command buffer into arguments where it stands, looks the first
one up in the table of commands and calls the function it finds there.  Pointers
are addresses, and the null pointer is zero.
-/

namespace Jos64.Monitor

open Jos64.Loop Jos64.Strings

/-- `WHITESPACE` -/
def whitespace : List Byte := str "\t\r\n " ++ [0]

/-- `MAXARGS` -/
def maxArgs : Nat := 16

/-! ## Commands -/

/-- The functions of the table. -/
inductive Func where
  | monHelp
  | monKerninfo
  | monBacktrace
  deriving DecidableEq

/-- The fields of a `struct Command` that are looked at here. -/
structure Command where
  name : List Byte
  func : Func

def commands : List Command :=
  [⟨str "help", .monHelp⟩, ⟨str "kerninfo", .monKerninfo⟩, ⟨str "backtrace", .monBacktrace⟩]

/-- What a call prints: the format and its argument. -/
structure Message where
  format : List Byte
  argument : Nat

/-- How a call ends: it returns zero, perhaps after a message, or it returns what
a function returns. -/
inductive Outcome where
  | returned (message : Option Message)
  | invoked (func : Func)

/-! ## The command line -/

/-- The local variables, and memory. -/
structure Line where
  store : Nat → Byte
  buf : Nat
  argc : Nat
  argv : Nat → Nat

/-- `argv[index] = pointer`, which has no value outside the array. -/
def Line.setArg (line : Line) (index pointer : Nat) : Option Line :=
  if index < maxArgs then some { line with argv := Function.update line.argv index pointer }
  else none

/-- `strchr(WHITESPACE, c)` as a condition. -/
def separates (c : Byte) : Exec Bool :=
  (Exec.ofOption (strchr c whitespace)).bind fun found => .done found.isSome

/-- `while (*buf && strchr(WHITESPACE, *buf)) *buf++ = 0` -/
def gobbleBody (line : Line) : Exec (Next Line Line) :=
  let c := line.store line.buf
  if c = 0 then .done (.stop line)
  else
    (separates c).bind fun found =>
      if found then
        .done (.again
          { line with store := Function.update line.store line.buf 0, buf := line.buf + 1 })
      else .done (.stop line)

/-- `while (*buf && !strchr(WHITESPACE, *buf)) buf++` -/
def argBody (line : Line) : Exec (Next Line Line) :=
  let c := line.store line.buf
  if c = 0 then .done (.stop line)
  else
    (separates c).bind fun found =>
      if !found then .done (.again { line with buf := line.buf + 1 })
      else .done (.stop line)

/-- How the parsing ends. -/
inductive Parsed where
  | args (line : Line)
  | tooMany (line : Line)

/-- One argument. -/
def parseBody (fuel : Nat) (line : Line) : Exec (Next Line Parsed) :=
  (loop gobbleBody fuel line).bind fun line =>
    if line.store line.buf = 0 then .done (.stop (.args line))
    else if line.argc = maxArgs - 1 then .done (.stop (.tooMany line))
    else
      (Exec.ofOption (line.setArg line.argc line.buf)).bind fun line =>
        (loop argBody fuel { line with argc := line.argc + 1 }).bind fun line =>
          .done (.again line)

/-! ## The lookup -/

/-- `strcmp` of a string in memory with the name of a command. -/
def strcmp (store : Nat → Byte) (p : Nat) : List Byte → Option Int
  | [] => none
  | b :: q =>
      if store p ≠ 0 ∧ store p = b then strcmp store (p + 1) q
      else some ((store p).toNat - b.toNat)

def lookup (line : Line) : List Command → Option Outcome
  | [] => some (.returned (some ⟨str "Unknown command '%s'\n", line.argv 0⟩))
  | command :: more =>
      (strcmp line.store (line.argv 0) (command.name ++ [0])).bind fun order =>
        if order = 0 then some (.invoked command.func) else lookup line more

/-- `runcmd`, on an array `argv` with any contents. -/
def runcmd (fuel : Nat) (store : Nat → Byte) (buf : Nat) (argv : Nat → Nat) :
    Exec (Outcome × Line) :=
  (Exec.ofOption (Line.setArg ⟨store, buf, 0, argv⟩ 0 0)).bind fun line =>
    (loop (parseBody fuel) fuel line).bind fun
      | .tooMany line =>
          .done (.returned (some ⟨str "Too many arguments (max %d)\n", maxArgs⟩), line)
      | .args line =>
          (Exec.ofOption (line.setArg line.argc 0)).bind fun line =>
            if line.argc = 0 then .done (.returned none, line)
            else (Exec.ofOption (lookup line commands)).bind fun outcome => .done (outcome, line)

end Jos64.Monitor
