import Jos64.Disk.Core
import Jos64.Dwarf.Memory
import Jos64.Loop.Core
import Mathlib.Logic.Function.Basic

/-!
# Reading the section headers

The kernel reads the section table of its image behind its own end, then the
table of names, and then the debug sections one behind the other.  Every read is
one of whole sectors, so a section begins inside its first one.
-/

namespace Jos64.Elf

open Disk Dwarf Loop

/-- `KERNBASE` -/
def kernbase : Nat := 0x8004000000

/-- `KELFHDR` -/
def kelfhdr : Nat := 0x10000 + kernbase

/-! ## Numbers and strings in memory -/

/-- A little-endian number of `n` bytes. -/
def load (mem : Nat → Byte) (address : Nat) : (n : Nat) → Nat
  | 0 => 0
  | n + 1 => (mem address).toNat + 256 * load mem (address + 1) n

/-- `strcmp` with a literal. -/
def strcmp (mem : Nat → Byte) (p : Nat) : List Byte → Int
  | [] => (mem p).toNat
  | c :: q =>
      if mem p ≠ 0 ∧ mem p = c then strcmp mem (p + 1) q else (mem p).toNat - c.toNat

/-- What is used of `struct Secthdr`. -/
structure Secthdr where
  shName : Nat
  shAddr : Nat
  shOffset : Nat
  shSize : Nat
  deriving DecidableEq

/-- The header that stands at an address. -/
def secthdrAt (mem : Nat → Byte) (address : Nat) : Secthdr where
  shName := load mem address 4
  shAddr := load mem (address + 16) 8
  shOffset := load mem (address + 24) 8
  shSize := load mem (address + 32) 8

/-- `ROUNDUP(to_va, SECTSIZE)` -/
def roundUp (address : Nat) : Nat :=
  u64 (address + (sectSize - 1)) - u64 (address + (sectSize - 1)) % sectSize

/-! ## `readseg` -/

/-- The variables of the loop of `readseg`, `*kvoffset` and the memory. -/
structure SegState where
  pa : Nat
  offset : Nat
  kvoffset : Nat
  mem : Nat → Byte

/-- A round of the loop of `readseg`. -/
def readsegBody (disk : Sectors) (endPa : Nat) (state : SegState) :
    Exec (Next SegState SegState) :=
  if state.pa < endPa then
    .done (.again ⟨u64 (state.pa + sectSize), u64 (state.offset + 1),
      u64 (state.kvoffset + sectSize), readsect disk state.mem state.pa state.offset⟩)
  else .done (.stop state)

/-- `readseg`: the memory and `*kvoffset` afterwards.  A failed assertion is a
fault. -/
def readseg (disk : Sectors) (fuel : Nat) (mem : Nat → Byte) (pa count offset kvoffset : Nat) :
    Exec ((Nat → Byte) × Nat) :=
  if pa % sectSize ≠ 0 then .fault
  else
    (loop (readsegBody disk (u64 (pa + count))) fuel
        ⟨pa - pa % sectSize, u64 (offset / sectSize + 1), kvoffset, mem⟩).bind fun state =>
      let (mem, kvoffset) :=
        if sectSize < u64 (offset % sectSize + count) then
          (readsect disk state.mem state.pa state.offset, u64 (state.kvoffset + sectSize))
        else (state.mem, state.kvoffset)
      if kvoffset % sectSize ≠ 0 then .fault else .done (mem, kvoffset)

/-! ## `read_section_headers` -/

/-- The elements of `section_info`. -/
inductive DebugSect where
  | debugInfo
  | debugAbbrev
  | debugFrame
  | debugLine
  | debugStr
  deriving DecidableEq

/-- `ds_name` -/
def DebugSect.dsName : DebugSect → List Byte
  | debugInfo => str ".debug_info"
  | debugAbbrev => str ".debug_abbrev"
  | debugFrame => str ".eh_frame"
  | debugLine => str ".debug_line"
  | debugStr => str ".debug_str"

/-- The comparisons with the name of a section, in their order. -/
def recognise (mem : Nat → Byte) (name : Nat) : Option DebugSect :=
  [DebugSect.debugInfo, .debugAbbrev, .debugLine, .debugFrame, .debugStr].find? fun sect =>
    strcmp mem name sect.dsName = 0

/-- The memory, `kvoffset` and `section_info`, of which `ds_addr` is always
`ds_data`. -/
structure State where
  mem : Nat → Byte
  kvoffset : Nat
  sectionInfo : DebugSect → Section

section

variable (disk : Sectors) (fuel kvbase secthdr nametab : Nat)

/-- The loop over the section headers for one of them. -/
def sectionBody (i : Nat) (state : State) : Exec State :=
  let hdr := secthdrAt state.mem (u64 (secthdr + 64 * i))
  let name := u64 (nametab + hdr.shName)
  if state.kvoffset % sectSize ≠ 0 then .fault
  else
    match recognise state.mem name with
    | none => .done state
    | some .debugFrame =>
        let sectionInfo := Function.update state.sectionInfo .debugFrame ⟨hdr.shAddr, hdr.shSize⟩
        .done { state with sectionInfo }
    | some sect =>
        (readseg disk fuel state.mem (u64 (kvbase + state.kvoffset)) hdr.shSize hdr.shOffset
            state.kvoffset).bind fun (mem, kvoffset) =>
          -- the header is read again, from the memory as it is then
          let hdr := secthdrAt mem (u64 (secthdr + 64 * i))
          .done ⟨mem, kvoffset, Function.update state.sectionInfo sect
            ⟨u64 (kvbase + state.kvoffset + hdr.shOffset % sectSize), hdr.shSize⟩⟩

/-- The loop over `count` section headers from `i` on. -/
def sectionLoop (i : Nat) (state : State) : (count : Nat) → Exec State
  | 0 => .done state
  | count + 1 =>
      (sectionBody disk fuel kvbase secthdr nametab i state).bind fun state =>
        sectionLoop (i + 1) state count

end

/-- The product of two `int`s, as the `uint64_t` that it becomes. -/
def product (x y : Nat) : Nat :=
  ((BitVec.ofNat 32 (x * y)).signExtend 64).toNat

/-- `read_section_headers`: its value, and what it leaves.  A pointer stored
behind `secthdr_ptr`, and one read where none has been stored, is a fault. -/
def readSectionHeaders (disk : Sectors) (fuel : Nat) (mem : Nat → Byte)
    (sectionInfo : DebugSect → Section) (elfhdr toVa : Nat) : Exec (Nat × State) :=
  let kvbase := roundUp toVa
  let eShoff := load mem (elfhdr + 40) 8
  let offset :=
    if elfhdr = kelfhdr then eShoff else u64 (eShoff + (elfhdr + (2 ^ 64 - kernbase)))
  let numSectionHeaders := load mem (elfhdr + 60) 2
  let sizeSections := load mem (elfhdr + 58) 2
  (readseg disk fuel mem kvbase (product numSectionHeaders sizeSections) offset 0).bind
    fun (mem, kvoffset) =>
      let secthdr := u64 (kvbase + offset % sectSize)
      let eShstrndx := load mem (elfhdr + 62) 2
      if 20 < numSectionHeaders ∨ numSectionHeaders ≤ eShstrndx then .fault
      else
        let secName := secthdrAt mem (u64 (secthdr + 64 * eShstrndx))
        let temp := kvoffset
        (readseg disk fuel mem (u64 (kvbase + kvoffset)) secName.shSize secName.shOffset
            kvoffset).bind fun (mem, kvoffset) =>
          let secName := secthdrAt mem (u64 (secthdr + 64 * eShstrndx))
          let nametab := u64 (kvbase + temp + secName.shOffset % sectSize)
          (sectionLoop disk fuel kvbase secthdr nametab 0 ⟨mem, kvoffset, sectionInfo⟩
              numSectionHeaders).bind fun state =>
            .done (u64 (kvbase + state.kvoffset), state)

end Jos64.Elf
