import Jos64.Dwarf.Die.Core
import Jos64.Dwarf.Length
import Jos64.Loop.Core
import Jos64.Strings.Core

/-!
# The frame section

`.eh_frame` is a row of entries.  A CIE says how the entries that refer to it are
read, and an FDE describes a range of addresses.  `dwarf_get_fde_at_pc` goes from
entry to entry; it reads every CIE into one struct, and every FDE with what it finds
there.
-/

namespace Jos64.Frame

open Loop Dwarf

/-! ## Constants -/

/-- `DW_DLE_DEBUG_FRAME_LENGTH_BAD` -/
def dleDebugFrameLengthBad : Int := 18

/-- `DW_DLE_NO_CIE_FOR_FDE` -/
def dleNoCieForFde : Int := 19

/-- `DW_DLE_FRAME_AUGMENTATION_UNKNOWN` -/
def dleFrameAugmentationUnknown : Int := 20

/-- `DW_DLE_FRAME_VERSION_BAD` -/
def dleFrameVersionBad : Int := 22

/-- `DW_EH_PE_absptr` -/
def ehPeAbsptr : Byte := 0x00

/-- `DW_EH_PE_pcrel` -/
def ehPePcrel : Byte := 0x10

/-- `DW_EH_PE_omit` -/
def ehPeOmit : Byte := 0xff

/-! ## Data -/

/-- What the readers know: the memory, `debug_frame_sec`, `dbg_pointer_size` and
`dbg_eh_size`, and what the local `val` of `_dwarf_frame_set_fde` holds before it is
stored to, by the offset of the FDE. -/
structure FrameDebug where
  order : Endianness
  mem : Memory
  ds : Section
  dsAddr : Nat
  dbgPointerSize : Nat
  dbgEhSize : Nat
  val : Nat → Nat
  -- `_dwarf_elf_get_pointer_size`
  pointer_known : dbgPointerSize = 4 ∨ dbgPointerSize = 8
  -- `dwarf_init_eh_section`
  sizes_eq : dbgEhSize = ds.dsSize
  size_lt : dbgEhSize < 2 ^ 64

theorem eight_known : 8 = 4 ∨ 8 = 8 :=
  .inr rfl

/-- `struct _Dwarf_Cie` -/
structure Cie where
  cieOffset : Nat
  cieLength : Nat
  cieVersion : Nat
  cieAugment : Nat
  cieEhdata : Nat
  cieCaf : Nat
  cieDaf : Nat
  cieRa : Nat
  cieAuglen : Nat
  cieAugdata : Nat
  cieFdeEncode : Byte
  cieInitinst : Nat
  cieInstlen : Nat
  deriving DecidableEq

/-- `struct _Dwarf_Fde`, without the pointer to the CIE, which is the same for all. -/
structure Fde where
  fdeAddr : Nat
  fdeOffset : Nat
  fdeLength : Nat
  fdeCieoff : Nat
  fdeInitloc : Nat
  fdeAdrange : Nat
  fdeAuglen : Nat
  fdeAugdata : Nat
  fdeInst : Nat
  fdeInstlen : Nat
  deriving DecidableEq

/-- What `memset` leaves. -/
def Fde.zero : Fde := ⟨0, 0, 0, 0, 0, 0, 0, 0, 0, 0⟩

/-- `dbg_eh_offset` and the structs that the caller has given. -/
structure EhState where
  dbgEhOffset : Nat
  fde : Fde
  cie : Cie
  deriving DecidableEq

section

variable (dbg : FrameDebug)

/-! ## Encoded pointers -/

/-- A signed number of `width` bytes as a `uint64_t`. -/
def signed (width value : Nat) : Nat :=
  ((BitVec.ofNat (8 * width) value).signExtend 64).toNat

/-- The switch over the formats: the value and the offset behind it, or nothing if the
format is not known. -/
def readFormat (ds : Section) (offset : Nat) (format : Byte) : Option (Option (Nat × Nat)) :=
  match format.toNat with
  -- `DW_EH_PE_absptr`
  | 0x00 => (dbgRead dbg.order dbg.mem ds offset dbg.dbgPointerSize).map some
  -- `DW_EH_PE_uleb128`
  | 0x01 => (readUleb128 dbg.mem ds offset).map some
  -- `DW_EH_PE_udata2`
  | 0x02 => (dbgRead dbg.order dbg.mem ds offset 2).map some
  -- `DW_EH_PE_udata4`
  | 0x03 => (dbgRead dbg.order dbg.mem ds offset 4).map some
  -- `DW_EH_PE_udata8`
  | 0x04 => (dbgRead dbg.order dbg.mem ds offset 8).map some
  -- `DW_EH_PE_sleb128`
  | 0x09 => (readSleb128 dbg.mem ds offset).map some
  -- `DW_EH_PE_sdata2`
  | 0x0a =>
      (dbgRead dbg.order dbg.mem ds offset 2).map fun (val, offset) => some (signed 2 val, offset)
  -- `DW_EH_PE_sdata4`
  | 0x0b =>
      (dbgRead dbg.order dbg.mem ds offset 4).map fun (val, offset) => some (signed 4 val, offset)
  -- `DW_EH_PE_sdata8`
  | 0x0c => (dbgRead dbg.order dbg.mem ds offset 8).map some
  | _ => some none

/-- `_dwarf_frame_read_lsb_encoded`: the code, `*val` and `*offsetp`.  A pointer of the
format `DW_EH_PE_absptr` is never relative. -/
def frameReadLsbEncoded (ds : Section) (val offset : Nat) (encode : Byte) (pc : Nat) :
    Option (Int × Nat × Nat) :=
  if encode = ehPeOmit then some (dleNone, val, offset)
  else
    let application := encode &&& 0xf0
    let format := encode &&& 0x0f
    (readFormat dbg ds offset format).map fun
      | none => (dleFrameAugmentationUnknown, val, offset)
      | some (val, offset) =>
          if application = ehPePcrel ∧ format ≠ ehPeAbsptr then (dleNone, u64 (pc + val), offset)
          else (dleNone, val, offset)

/-! ## CIEs -/

/-- The string at an address, up to its NUL. -/
def textAt (mem : Memory) : (address room : Nat) → Option (List Byte)
  | _, 0 => none
  | address, room + 1 =>
      (mem.byte address).bind fun c =>
        if c ≠ 0 then (textAt mem (address + 1) room).map (c :: ·) else some []

/-- The loop of `_dwarf_frame_parse_lsb_cie_augment` over the string behind the `z`:
the code and `cie_fde_encode`. -/
def frameParseLsbCieAugment : (augment : List Byte) → (augdataP : Nat) → (encode : Byte) →
    Option (Int × Byte)
  | [], _, cieFdeEncode => some (dleNone, cieFdeEncode)
  | c :: augment, augdataP, cieFdeEncode =>
      -- `L`
      if c = 0x4c then frameParseLsbCieAugment augment (u64 (augdataP + 1)) cieFdeEncode
      -- `P`
      else if c = 0x50 then
        (dbg.mem.byte augdataP).bind fun encode =>
          let augdataP := u64 (augdataP + 1)
          (frameReadLsbEncoded dbg ⟨augdataP, 0⟩ 0 0 encode 0).bind fun (ret, _, offset) =>
            if ret ≠ dleNone then some (ret, cieFdeEncode)
            else frameParseLsbCieAugment augment (u64 (augdataP + offset)) cieFdeEncode
      -- `R`
      else if c = 0x52 then
        (dbg.mem.byte augdataP).bind fun encode =>
          frameParseLsbCieAugment augment (u64 (augdataP + 1)) encode
      else some (dleFrameAugmentationUnknown, cieFdeEncode)

/-- The data of the augmentation, if the string begins with a `z`: the code, the offset
behind and the CIE. -/
def frameAugdata (augment : List Byte) (offset : Nat) (cie : Cie) : Option (Int × Nat × Cie) :=
  if augment.head? = some 0x7a then
    (readUleb128 dbg.mem dbg.ds offset).bind fun (cieAuglen, offset) =>
      let cieAugdata := dbg.ds.at offset
      (frameParseLsbCieAugment dbg augment.tail cieAugdata ehPeAbsptr).map
        fun (ret, cieFdeEncode) =>
          (ret, u64 (offset + cieAuglen), { cie with cieAuglen, cieAugdata, cieFdeEncode })
  else some (dleNone, offset, cie)

/-- The fields of a CIE behind the augmentation string: the code, the offset behind and
the CIE. -/
def frameCieFields (augment : List Byte) (offset : Nat) (cie : Cie) :
    Option (Int × Nat × Cie) :=
  (Strings.strstr (augment ++ [0]) [0x65, 0x68, 0]).bind fun eh =>
    (if eh.isSome then
        (dbgRead dbg.order dbg.mem dbg.ds offset dbg.dbgPointerSize).map
          fun (cieEhdata, offset) => (offset, { cie with cieEhdata })
      else some (offset, cie)).bind fun (offset, cie) =>
      (readUleb128 dbg.mem dbg.ds offset).bind fun (cieCaf, offset) =>
        (readSleb128 dbg.mem dbg.ds offset).bind fun (cieDaf, offset) =>
          (if cie.cieVersion = 1 then dbgRead dbg.order dbg.mem dbg.ds offset 1
            else readUleb128 dbg.mem dbg.ds offset).bind fun (cieRa, offset) =>
            frameAugdata dbg augment offset { cie with cieCaf, cieDaf, cieRa }

/-- `_dwarf_frame_set_cie`: the code, `*off` and `*ret_cie`. -/
def frameSetCie (off : Nat) (cie : Cie) : Option (Int × Nat × Cie) :=
  let cieOffset := off
  let cie := { cie with cieOffset }
  (readLength dbg.order dbg.mem dbg.ds off).bind fun (length, dwarfSize, off) =>
    if sub64 dbg.ds.dsSize off < length then some (dleDebugFrameLengthBad, off, cie)
    else
      -- the CIE id is skipped
      (dbgRead dbg.order dbg.mem dbg.ds off dwarfSize).bind fun (_, off) =>
        (dbgRead dbg.order dbg.mem dbg.ds off 1).bind fun (cieVersion, off) =>
          let cie := { cie with cieLength := length, cieVersion }
          if cieVersion ≠ 1 ∧ cieVersion ≠ 3 ∧ cieVersion ≠ 4 then
            some (dleFrameVersionBad, off, cie)
          else
            (textAt dbg.mem (dbg.ds.at off) (dbg.mem.room (dbg.ds.at off))).bind fun augment =>
              let cie := { cie with cieAugment := dbg.ds.at off }
              let off := u64 (off + augment.length + 1)
              let width := if dwarfSize = 4 then 4 else 12
              if augment ≠ [] ∧ augment.head? ≠ some 0x7a then
                some (dleNone, u64 (cieOffset + width + length), cie)
              else
                (frameCieFields dbg augment off cie).map fun (ret, off, cie) =>
                  if ret ≠ dleNone then (ret, off, cie)
                  else
                    let cieInstlen := sub64 (cieOffset + width + length) off
                    (dleNone, u64 (off + cieInstlen),
                      { cie with cieInitinst := dbg.ds.at off, cieInstlen })

/-! ## FDEs -/

/-- The range of an FDE, read with the encoding of the CIE: the code, the offset behind
and the FDE. -/
def frameFdeRange (off : Nat) (encode : Byte) (fde : Fde) : Option (Int × Nat × Fde) :=
  (frameReadLsbEncoded dbg dbg.ds (dbg.val fde.fdeOffset) off encode
      (u64 (dbg.dsAddr + off))).bind fun (ret, val, off) =>
    if ret ≠ dleNone then some (ret, off, fde)
    else
      let fde := { fde with fdeInitloc := val }
      (frameReadLsbEncoded dbg dbg.ds val off encode 0).map fun (ret, val, off) =>
        if ret ≠ dleNone then (ret, off, fde) else (dleNone, off, { fde with fdeAdrange := val })

/-- The augmentation data of an FDE, if the string of the CIE begins with a `z`. -/
def frameFdeAugdata (off : Nat) (cie : Cie) (fde : Fde) : Option (Nat × Fde) :=
  (dbg.mem.byte cie.cieAugment).bind fun c =>
    if c = 0x7a then
      (readUleb128 dbg.mem dbg.ds off).map fun (fdeAuglen, off) =>
        (u64 (off + fdeAuglen), { fde with fdeAuglen, fdeAugdata := dbg.ds.at off })
    else some (off, fde)

/-- `_dwarf_frame_set_fde` with `eh_frame`: the code, `*off` and `*retfde`. -/
def frameSetFde (off : Nat) (cie : Cie) (fde : Fde) : Option (Int × Nat × Fde) :=
  let fdeOffset := off
  let fde := { fde with fdeAddr := dbg.ds.at off, fdeOffset }
  (readLength dbg.order dbg.mem dbg.ds off).bind fun (length, dwarfSize, off) =>
    if sub64 dbg.ds.dsSize off < length then some (dleDebugFrameLengthBad, off, fde)
    else
      (dbgRead dbg.order dbg.mem dbg.ds off 4).bind fun (fdeCieoff, off) =>
        let fde := { fde with fdeLength := length, fdeCieoff }
        if sub64 off (4 + fdeCieoff) = fdeOffset then some (dleNoCieForFde, off, fde)
        else
          (frameFdeRange dbg off cie.cieFdeEncode fde).bind fun (ret, off, fde) =>
            if ret ≠ dleNone then some (ret, off, fde)
            else
              (frameFdeAugdata dbg off cie fde).map fun (off, fde) =>
                let width := if dwarfSize = 4 then 4 else 12
                let fdeInstlen := sub64 (fdeOffset + width + length) off
                (dleNone, u64 (off + fdeInstlen),
                  { fde with fdeInst := dbg.ds.at off, fdeInstlen })

/-! ## The scan -/

/-- `_dwarf_get_next_fde` with `eh_frame`: the code and what has been stored. -/
def getNextFde (state : EhState) : Option (Int × EhState) :=
  if state.dbgEhOffset < dbg.ds.dsSize then
    (readLength dbg.order dbg.mem dbg.ds state.dbgEhOffset).bind
      fun (length, dwarfSize, offset) =>
        if sub64 dbg.ds.dsSize offset < length then some (dleDebugFrameLengthBad, state)
        else if length = 0 then some (-1, state)
        else
          (dbgRead dbg.order dbg.mem dbg.ds offset dwarfSize).bind fun (cieId, _) =>
            if cieId = 0 then
              (frameSetCie dbg state.dbgEhOffset state.cie).map fun (ret, off, cie) =>
                if ret ≠ dleNone then (-1, { state with cie })
                else (0, { state with dbgEhOffset := off, cie })
            else
              (frameSetFde dbg state.dbgEhOffset state.cie state.fde).map fun (ret, off, fde) =>
                if ret ≠ dleNone then (-1, { state with fde })
                else (0, { state with dbgEhOffset := off, fde })
  else some (0, state)

/-- The address is in the range of the FDE. -/
def Fde.Covers (fde : Fde) (pc : Nat) : Prop :=
  fde.fdeInitloc ≤ pc ∧ pc < u64 (fde.fdeInitloc + fde.fdeAdrange)

instance (fde : Fde) (pc : Nat) : Decidable (fde.Covers pc) :=
  inferInstanceAs (Decidable (_ ∧ _))

/-- What `dwarf_get_fde_at_pc` returns, stores to `*lopc` and `*hipc` and leaves. -/
structure FdeAtPc where
  ret : Int
  pcs : Option (Nat × Nat)
  state : EhState
  deriving DecidableEq

/-- A round of the loop of `dwarf_get_fde_at_pc`. -/
def fdeAtPcBody (pc : Nat) (state : EhState) : Exec (Next EhState FdeAtPc) :=
  if state.dbgEhOffset < dbg.dbgEhSize then
    (Exec.ofOption (getNextFde dbg state)).bind fun (ret, state) =>
      if ret < 0 then .done (.stop ⟨dlvNoEntry, none, state⟩)
      else if state.fde.Covers pc then
        let lopc := state.fde.fdeInitloc
        .done (.stop ⟨dlvOk, some (lopc, sub64 (lopc + state.fde.fdeAdrange) 1), state⟩)
      else .done (.again state)
  else .done (.stop ⟨dlvNoEntry, none, state⟩)

/-- `dwarf_get_fde_at_pc` with pointers that are not null, for the offset that is left
and whatever the caller's CIE holds. -/
def dwarfGetFdeAtPc (fuel dbgEhOffset pc : Nat) (cie : Cie) : Exec FdeAtPc :=
  loop (fdeAtPcBody dbg pc) fuel ⟨dbgEhOffset, .zero, cie⟩

end

end Jos64.Frame
