import Mathlib.Tactic

/-!
# The colour globals

The formatter interprets escape sequences and leaves their effect in two global
variables, which the screen driver reads each time it is handed a character.
-/

namespace Jos64.Console

/-- The globals `color_flag` and `color_parsing`. -/
structure Color where
  flag : BitVec 32
  parsing : Bool
  deriving DecidableEq, Repr

/-- Their static initialisation. -/
def Color.init : Color :=
  ⟨0x07, false⟩

end Jos64.Console
