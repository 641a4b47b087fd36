import Jos64.Byte

/-!
# Strings in memory

A pointer into a NUL-terminated string is the list of the bytes from there to the
NUL, which is one of them.  Behind the NUL the list is empty; a function that
reads there has no result: `none`.
-/

namespace Jos64

/-- Where a pointer to the string points. -/
def CString.terminated (s : CString) : List Byte :=
  s.bytes ++ [0]

namespace Strings

/-- The loop of `strlen`, whose count is an `int`. -/
def strlenLoop (n : Int) : List Byte → Option Int
  | [] => none
  | c :: s => if c ≠ 0 then strlenLoop (wrap32 (n + 1)) s else some n

def strlen (s : List Byte) : Option Int :=
  strlenLoop 0 s

/-- `strncmp`.  It reads a character of each string in every round, in the
condition of its loop or behind it. -/
def strncmp : Nat → List Byte → List Byte → Option Int
  | 0, _, _ => some 0
  | n + 1, a :: p, b :: q =>
      if a ≠ 0 ∧ a = b then strncmp n p q else some (a.toNat - b.toNat)
  | _ + 1, _, _ => none

/-- `strchr`: the pointer that is returned, or `none` for the null pointer. -/
def strchr (c : Byte) : List Byte → Option (Option (List Byte))
  | [] => none
  | d :: s =>
      if d = 0 then some none
      else if d = c then some (some (d :: s))
      else strchr c s

/-- The two nested loops of `strstr`, from `in` on.  Both of them read the next
character first.  The result is the pointer that is returned, or `none` for
the null pointer. -/
def strstrLoop (c : Byte) (pattern : List Byte) (len : Nat) :
    List Byte → Option (Option (List Byte))
  | [] => none
  | sc :: text =>
      if sc = 0 then some none
      else if sc ≠ c then strstrLoop c pattern len text
      else
        (strncmp len text pattern).bind fun order =>
          if order ≠ 0 then strstrLoop c pattern len text
          -- `in - 1`
          else some (some (sc :: text))

/-- `strstr`, which looks for its second argument in the first.  The length is an
`int` that is converted to a `size_t`. -/
def strstr (text : List Byte) : List Byte → Option (Option (List Byte))
  | [] => none
  | c :: pattern =>
      if c = 0 then some (some text)
      else
        (strlen pattern).bind fun n =>
          strstrLoop c pattern (BitVec.ofInt 64 n).toNat text

end Strings

end Jos64
