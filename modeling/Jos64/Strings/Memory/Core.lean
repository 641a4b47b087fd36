import Jos64.Byte

/-!
# Moving and setting memory

Both versions of `memmove` and `memset`: the one that the macro `ASM` selects,
made of x86 string instructions, and the portable one.  A string instruction
with a `rep` prefix handles as many items as the count register says; an item
of several bytes is read as a whole before it is stored.  The direction flag
says whether the pointers go up or down behind an item.
-/

namespace Jos64.Strings

abbrev Addr := BitVec 64

abbrev Memory := Addr → Byte

/-- What the string instructions work on besides their registers. -/
structure Machine where
  mem : Memory
  df : Bool

/-! ## String instructions -/

def Machine.cld (machine : Machine) : Machine :=
  { machine with df := false }

def Machine.std (machine : Machine) : Machine :=
  { machine with df := true }

/-- The step of a pointer over an item. -/
def advance (df : Bool) (pointer : Addr) (size : Nat) : Addr :=
  if df then pointer - BitVec.ofNat 64 size else pointer + BitVec.ofNat 64 size

/-- `movs` for an item of `size` bytes. -/
def moveItem (size : Nat) (rdi rsi : Addr) (mem : Memory) : Memory := fun address =>
  if (address - rdi).toNat < size then mem (rsi + (address - rdi)) else mem address

/-- `stos` for an item of `size` bytes, which are the low ones of the register
`eax`, least significant first. -/
def storeItem (size : Nat) (eax : BitVec 32) (rdi : Addr) (mem : Memory) : Memory := fun address =>
  if (address - rdi).toNat < size then eax.extractLsb' (8 * (address - rdi).toNat) 8
  else mem address

/-- The items of a `rep movs`. -/
def moveItems (df : Bool) (size : Nat) (rdi rsi : Addr) : Nat → Memory → Memory
  | 0, mem => mem
  | rcx + 1, mem =>
      moveItems df size (advance df rdi size) (advance df rsi size) rcx (moveItem size rdi rsi mem)

/-- The items of a `rep stos`. -/
def storeItems (df : Bool) (size : Nat) (eax : BitVec 32) (rdi : Addr) : Nat → Memory → Memory
  | 0, mem => mem
  | rcx + 1, mem => storeItems df size eax (advance df rdi size) rcx (storeItem size eax rdi mem)

/-- `rep movsb` and `rep movsl`. -/
def Machine.repMovs (size : Nat) (rdi rsi rcx : BitVec 64) (machine : Machine) : Machine :=
  { machine with mem := moveItems machine.df size rdi rsi rcx.toNat machine.mem }

/-- `rep stosb` and `rep stosl`. -/
def Machine.repStos (size : Nat) (eax : BitVec 32) (rdi rcx : BitVec 64) (machine : Machine) :
    Machine :=
  { machine with mem := storeItems machine.df size eax rdi rcx.toNat machine.mem }

/-! ## With string instructions -/

/-- `(int64_t) pointer % 4 == 0` -/
def aligned (pointer : Addr) : Prop :=
  pointer.srem 4 = 0

instance (pointer : Addr) : Decidable (aligned pointer) :=
  inferInstanceAs (Decidable (_ = _))

/-- `memset`: the pointer that is returned, and the machine. -/
def memset (v : Addr) (c : BitVec 32) (n : BitVec 64) (machine : Machine) : Addr × Machine :=
  if n = 0 then (v, machine)
  else if aligned v ∧ n % 4 = 0 then
    let c := c &&& 0xFF
    let c := c <<< 24 ||| c <<< 16 ||| c <<< 8 ||| c
    (v, machine.cld.repStos 4 c v (n / 4))
  else (v, machine.cld.repStos 1 c v n)

/-- `memmove`: the pointer that is returned, and the machine. -/
def memmove (dst src : Addr) (n : BitVec 64) (machine : Machine) : Addr × Machine :=
  let s := src
  let d := dst
  if s < d ∧ s + n > d then
    let s := s + n
    let d := d + n
    if aligned s ∧ aligned d ∧ n % 4 = 0 then
      (dst, (machine.std.repMovs 4 (d - 4) (s - 4) (n / 4)).cld)
    else (dst, (machine.std.repMovs 1 (d - 1) (s - 1) n).cld)
  else if aligned s ∧ aligned d ∧ n % 4 = 0 then
    (dst, machine.cld.repMovs 4 d s (n / 4))
  else (dst, machine.cld.repMovs 1 d s n)

/-! ## In C -/

/-- `while (--m >= 0) *p++ = c`.  The count is an `int`, and its decrement
wraps. -/
def memsetLoop (c : BitVec 32) (m : BitVec 32) (p : Addr) (mem : Memory) : Memory :=
  if _stop : (m - 1).slt 0 then mem
  else memsetLoop c (m - 1) (p + 1) (Function.update mem p (c.setWidth 8))
termination_by m.toNat
decreasing_by
  have nonzero : m ≠ 0 := by
    rintro rfl
    exact _stop (by decide)
  bv_omega

/-- The portable `memset`. -/
def memsetPortable (v : Addr) (c : BitVec 32) (n : BitVec 64) (mem : Memory) : Addr × Memory :=
  (v, memsetLoop c (n.setWidth 32) v mem)

/-- `while (n-- > 0) *--d = *--s` -/
def moveDown (d s : Addr) : Nat → Memory → Memory
  | 0, mem => mem
  | n + 1, mem => moveDown (d - 1) (s - 1) n (Function.update mem (d - 1) (mem (s - 1)))

/-- `while (n-- > 0) *d++ = *s++` -/
def moveUp (d s : Addr) : Nat → Memory → Memory
  | 0, mem => mem
  | n + 1, mem => moveUp (d + 1) (s + 1) n (Function.update mem d (mem s))

/-- The portable `memmove`. -/
def memmovePortable (dst src : Addr) (n : BitVec 64) (mem : Memory) : Addr × Memory :=
  let s := src
  let d := dst
  if s < d ∧ s + n > d then (dst, moveDown (d + n) (s + n) n.toNat mem)
  else (dst, moveUp d s n.toNat mem)

end Jos64.Strings
