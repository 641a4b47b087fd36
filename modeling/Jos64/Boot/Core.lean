import Jos64.Disk.Core
import Jos64.Loop.Core

/-!
# The boot loader

`bootmain` reads each segment of the kernel to its physical address, in the order
of the program headers.  It computes in 32 bits and reads whole sectors, so it
copies more than asked.
-/

namespace Jos64.Boot

open Disk Loop

/-- The value of a `uint32_t` after an operation whose exact result is `x`. -/
def u32 (x : Nat) : Nat :=
  x % 2 ^ 32

/-- What the loader uses of `struct Proghdr`, and the size of the segment in the
file. -/
structure Proghdr where
  pOffset : Nat
  pPa : Nat
  pFilesz : Nat
  pMemsz : Nat
  deriving DecidableEq

/-- The variables of the loop of `readseg`, and the memory. -/
structure SegState where
  pa : Nat
  offset : Nat
  mem : Nat → Byte

/-- A round of the loop of `readseg`. -/
def readsegBody (disk : Sectors) (endPa : Nat) (state : SegState) :
    Exec (Next SegState (Nat → Byte)) :=
  if state.pa < endPa then
    .done (.again ⟨u32 (state.pa + sectSize), u32 (state.offset + 1),
      readsect disk state.mem state.pa state.offset⟩)
  else .done (.stop state.mem)

/-- `readseg` -/
def readseg (disk : Sectors) (fuel : Nat) (mem : Nat → Byte) (pa count offset : Nat) :
    Exec (Nat → Byte) :=
  let endPa := u32 (pa + count)
  let pa := pa - pa % sectSize
  loop (readsegBody disk endPa) fuel ⟨pa, u32 (offset / sectSize + 1), mem⟩

/-- The load loop of `bootmain` over the program headers in the scratch area. -/
def loadLoop (disk : Sectors) (fuel : Nat) (mem : Nat → Byte) : List Proghdr → Exec (Nat → Byte)
  | [] => .done mem
  | ph :: phs =>
      (readseg disk fuel mem (u32 ph.pPa) (u32 ph.pMemsz) (u32 ph.pOffset)).bind fun mem =>
        loadLoop disk fuel mem phs

end Jos64.Boot
