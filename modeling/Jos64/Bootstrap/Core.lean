import Jos64.Machine.Core
import Jos64.Paging.Core

/-!
# The first page tables

Before paging is turned on, `_head64` clears five tables and fills them, so that
the first addresses and those from `KERNBASE` on are mapped to the first physical
ones.  All that it depends on is that the direction flag is clear, as the boot
loader leaves it.
-/

namespace Jos64.Bootstrap

open Machine

/-- `KERNBASE` -/
def kernbase : Nat := 0x8004000000

/-- `PTE_P` -/
def pteP : BitVec 32 := 0x001

/-- `PTE_W` -/
def pteW : BitVec 32 := 0x002

/-! ## Indexes -/

/-- `PML4(la)` -/
def pml4Index (la : Nat) : Nat :=
  la >>> 39 &&& 0x1FF

/-- `PDPE(la)` -/
def pdpeIndex (la : Nat) : Nat :=
  la >>> 30 &&& 0x1FF

/-- `PDX(la)` -/
def pdxIndex (la : Nat) : Nat :=
  la >>> 21 &&& 0x1FF

/-! ## `_head64` -/

variable (pml4 : BitVec 32)

def pdpt1 : BitVec 32 := pml4 + 0x1000

def pdpt2 : BitVec 32 := pml4 + 2 * 0x1000

def pde1 : BitVec 32 := pml4 + 3 * 0x1000

def pde2 : BitVec 32 := pml4 + 4 * 0x1000

/-- The operands of `rep stosl`. -/
def clearTables : List Instr :=
  [.movlImm pml4 .edi,
    .xorl .eax .eax,
    .movlImm ((4096 / 4) * 5) .ecx]

/-- The entries of the tables above the lowest ones, and what the loop begins with. -/
def linkTables : List Instr :=
  [.movlImm pml4 .eax,
    .movlImm (pdpt1 pml4) .ebx,
    .orlImm pteP .ebx,
    .orlImm pteW .ebx,
    .movlStore .ebx 0 .eax,
    .movlImm (pdpt2 pml4) .ebx,
    .orlImm pteP .ebx,
    .orlImm pteW .ebx,
    .movlStore .ebx 0x8 .eax,
    .movlImm (pdpt1 pml4) .edi,
    .movlImm (pde1 pml4) .ebx,
    .orlImm pteP .ebx,
    .orlImm pteW .ebx,
    .movlStore .ebx 0 .edi,
    .movlImm (pdpt2 pml4) .edi,
    .movlImm (pde2 pml4) .ebx,
    .orlImm pteP .ebx,
    .orlImm pteW .ebx,
    .movlStore .ebx 0 .edi,
    .movlImm 128 .ecx,
    .movlImm (pde1 pml4) .edi,
    .movlImm (pde2 pml4) .ebx,
    .addlImm 256 .ebx,
    .movlImm 0x00000183 .eax]

/-- A round of the loop, up to its jump. -/
def mapPages : List Instr :=
  [.movlStore .eax 0 .edi,
    .movlStore .eax 0 .ebx,
    .addlImm 0x8 .edi,
    .addlImm 0x8 .ebx,
    .addlImm 0x00200000 .eax,
    .sublImm 1 .ecx,
    .cmplImm 0x0 .ecx]

/-- `_head64`, from the tables on to the end of the loop. -/
def head64 : List Instr :=
  clearTables pml4 ++ (.repStosl :: (linkTables pml4 ++ (mapPages ++ [.jne 28])))

end Jos64.Bootstrap
