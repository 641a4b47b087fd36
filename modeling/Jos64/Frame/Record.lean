import Jos64.Frame.Lookup
import Jos64.Frame.Pointer

/-!
# Descriptions of functions

An FDE has the range of a function as two encoded pointers, the data of the augmentation,
and instructions.  With a CIE that agrees with it in the encoding it is read as it is
written.
-/

namespace Jos64.Frame

open Loop Dwarf

/-- An FDE of a CIE whose augmentation begins with a `z`. -/
structure FdeRecord (dbgPointerSize : Nat) where
  wide : Bool
  ciePointer : Nat
  initloc : EncodedPointer dbgPointerSize
  adrange : EncodedPointer dbgPointerSize
  auglen : Uleb
  augdata : List Byte
  instrs : List Byte

namespace FdeRecord

variable {dbgPointerSize : Nat} (r : FdeRecord dbgPointerSize) (order : Endianness)

/-- The bytes behind the range. -/
def tail : List Byte :=
  r.auglen.bytes ++ (r.augdata ++ r.instrs)

def toEntry : FdeEntry :=
  ⟨r.wide, r.ciePointer, r.initloc.bytes order ++ (r.adrange.bytes order ++ r.tail)⟩

/-- The range is stored in the encoding and survives the reader, and the length of the
augmentation data is theirs. -/
structure Encoded (encode : Byte) : Prop where
  initloc_format : encode &&& 0x0f = r.initloc.format
  adrange_format : encode &&& 0x0f = r.adrange.format
  initloc_back : r.initloc.ReadsBack
  adrange_back : r.adrange.ReadsBack
  auglen_eq : r.auglen.value = r.augdata.length
  auglen_small : r.auglen.value < 2 ^ 31

end FdeRecord

/-- A function as it is described: where it begins, its size, its instructions and the CIE
that these go with. -/
structure Described where
  cie : CieEntry
  initloc : Nat
  adrange : Nat
  instrs : List Byte

/-- What the FDE at `off` describes. -/
def FdeRecord.describe (dbg : FrameDebug) (c : CieEntry) (off : Nat)
    (r : FdeRecord dbg.dbgPointerSize) : Described where
  cie := c
  initloc := r.initloc.address c.aug.encode (u64 (dbg.dsAddr + (off + lengthWidth r.wide + 4)))
  adrange := r.adrange.address c.aug.encode 0
  instrs := r.instrs

/-- The struct of an FDE says what is described. -/
structure Described.Read (dbg : FrameDebug) (d : Described) (fde : Fde) : Prop where
  initloc_eq : fde.fdeInitloc = d.initloc
  adrange_eq : fde.fdeAdrange = d.adrange
  instrs_held : dbg.mem.Holds fde.fdeInst d.instrs
  instlen_eq : fde.fdeInstlen = d.instrs.length

/-- The struct of a CIE says what is in it, and where its augmentation begins. -/
structure Loaded (dbg : FrameDebug) (c : CieEntry) (cie : Cie) : Prop where
  holds : Holds dbg c c.aug.encode cie
  augment_z : dbg.mem.byte cie.cieAugment = some 0x7a

section

variable {dbg : FrameDebug} {off : Nat}

/-! ## FDEs -/

/-- The range of an FDE. -/
theorem frameFdeRange_eq {r : FdeRecord dbg.dbgPointerSize} {encode : Byte}
    (encoded : r.Encoded encode)
    (contains : dbg.ds.Contains dbg.mem off
      (r.initloc.bytes dbg.order ++ r.adrange.bytes dbg.order)) (fde : Fde) :
    frameFdeRange dbg off encode fde =
      some (dleNone, off + (r.initloc.bytes dbg.order).length + (r.adrange.bytes dbg.order).length,
        { fde with
          fdeInitloc := r.initloc.address encode (u64 (dbg.dsAddr + off))
          fdeAdrange := r.adrange.address encode 0 }) := by
  have initloc_read := (frameReadLsbEncoded_iff encoded.initloc_format contains.left
    (dbg.val fde.fdeOffset) (u64 (dbg.dsAddr + off))).mpr encoded.initloc_back
  have adrange_read := (frameReadLsbEncoded_iff encoded.adrange_format contains.right
    (r.initloc.address encode (u64 (dbg.dsAddr + off))) 0).mpr encoded.adrange_back
  rw [frameFdeRange, initloc_read, Option.bind_some]
  dsimp only
  rw [if_neg (not_not.mpr rfl), adrange_read, Option.map_some]
  dsimp only
  rw [if_neg (not_not.mpr rfl)]

/-- The augmentation data are skipped. -/
theorem frameFdeAugdata_eq {r : FdeRecord dbg.dbgPointerSize} {encode : Byte}
    (encoded : r.Encoded encode) {cie : Cie}
    (augment_z : dbg.mem.byte cie.cieAugment = some 0x7a)
    (contains : dbg.ds.Contains dbg.mem off (r.auglen.bytes ++ r.augdata)) (fde : Fde) :
    frameFdeAugdata dbg off cie fde =
      some (off + r.auglen.bytes.length + r.augdata.length,
        { fde with
          fdeAuglen := r.auglen.value
          fdeAugdata := dbg.ds.at (off + r.auglen.bytes.length) }) := by
  rw [frameFdeAugdata, augment_z, Option.bind_some, if_pos rfl, contains.left.readUleb128,
    Option.map_some]
  dsimp only
  rw [Uleb.decoded_of_lt encoded.auglen_small, encoded.auglen_eq, contains.right.u64_next]

theorem FdeRecord.contents_length (r : FdeRecord dbg.dbgPointerSize) :
    ((Entry.fde (r.toEntry dbg.order)).contents dbg.order dbg.dbgPointerSize).length =
      4 + ((r.initloc.bytes dbg.order).length + ((r.adrange.bytes dbg.order).length +
        (r.auglen.bytes.length + (r.augdata.length + r.instrs.length)))) := by
  simp only [Entry.contents, FdeEntry.contents, toEntry, tail, List.length_append,
    Endianness.bytes_length]

/-- An FDE is read up to its end, and the struct says what it describes. -/
theorem frameSetFde_eq {r : FdeRecord dbg.dbgPointerSize} {c : CieEntry} {cie : Cie}
    (encoded : r.Encoded c.aug.encode)
    (wellFormed : (Entry.fde (r.toEntry dbg.order)).WellFormed dbg.order dbg.dbgPointerSize)
    (refers : lengthWidth r.wide < r.ciePointer) (loaded : Loaded dbg c cie)
    (contains : dbg.ds.Contains dbg.mem off
      ((Entry.fde (r.toEntry dbg.order)).bytes dbg.order dbg.dbgPointerSize)) (fde : Fde) :
    ∃ fde', frameSetFde dbg off cie fde =
        some (dleNone,
          off + ((Entry.fde (r.toEntry dbg.order)).bytes dbg.order dbg.dbgPointerSize).length,
          fde') ∧
      (r.describe dbg c off).Read dbg fde' := by
  obtain ⟨length_read, fits, contents⟩ := Entry.read_length wellFormed contains
  rw [show (Entry.fde (r.toEntry dbg.order)).wide = r.wide from rfl] at length_read fits contents
  have inside := contents.inside
  have size_lt := dbg.size_lt
  rw [dbg.sizes_eq] at size_lt
  have pointer_lt : r.ciePointer < 2 ^ 32 := wellFormed.2.2
  have pointer_contains : dbg.ds.Contains dbg.mem (off + lengthWidth r.wide)
      (dbg.order.bytes 4 r.ciePointer ++ (r.toEntry dbg.order).rest) := contents
  have pointer_read := pointer_contains.left.dbgRead (by decide)
    (show r.ciePointer < 256 ^ 4 from pointer_lt.trans_le (by decide))
  have range_contains := pointer_contains.right
  rw [dbg.order.bytes_length, FdeRecord.toEntry, ← List.append_assoc] at range_contains
  have tail_contains := range_contains.right
  rw [List.length_append, ← Nat.add_assoc, FdeRecord.tail, ← List.append_assoc] at tail_contains
  have instrs_contains := tail_contains.right
  rw [List.length_append, ← Nat.add_assoc] at instrs_contains
  have end_eq : u64 (off + lengthWidth r.wide +
      ((Entry.fde (r.toEntry dbg.order)).contents dbg.order dbg.dbgPointerSize).length) =
        off + ((Entry.fde (r.toEntry dbg.order)).bytes dbg.order dbg.dbgPointerSize).length := by
    rw [Entry.bytes_length, ← Nat.add_assoc]
    exact u64_of_lt (inside.trans_lt size_lt)
  have total := r.contents_length
  have other_cie : sub64 (off + lengthWidth r.wide + 4) (4 + r.ciePointer) ≠ off := by
    have width_le : lengthWidth r.wide ≤ 12 := by
      cases r.wide <;> decide
    have offset_lt : off < 2 ^ 64 := by omega
    unfold sub64 u64
    omega
  unfold frameSetFde
  dsimp only
  rw [length_read, Option.bind_some]
  dsimp only
  rw [if_neg fits, pointer_read, Option.bind_some]
  dsimp only
  rw [if_neg other_cie, loaded.holds.encode_eq, frameFdeRange_eq encoded range_contains.left,
    Option.bind_some]
  dsimp only
  rw [if_neg (not_not.mpr rfl), frameFdeAugdata_eq encoded loaded.augment_z tail_contains.left,
    Option.map_some]
  dsimp only
  rw [lengthWidth_eq, u64_add_sub64, end_eq]
  refine ⟨_, rfl, rfl, rfl, instrs_contains.holds_at, ?_⟩
  dsimp only
  rw [sub64_of_le (by omega) (by omega), total]
  have rest_length : r.instrs.length = (r.describe dbg c off).instrs.length := rfl
  omega

/-! ## CIEs -/

theorem frameAugdata_augment {augment : List Byte} {cie cie' : Cie} {ret : Int} {off' : Nat}
    (done : frameAugdata dbg augment off cie = some (ret, off', cie')) :
    cie'.cieAugment = cie.cieAugment := by
  unfold frameAugdata at done
  split at done
  · obtain ⟨⟨length, next⟩, -, rest⟩ := Option.bind_eq_some_iff.mp done
    obtain ⟨⟨code, encode⟩, -, same⟩ := Option.map_eq_some_iff.mp rest
    cases same
    rfl
  · cases done
    rfl

/-- The fields behind the augmentation string leave it. -/
theorem frameCieFields_augment {augment : List Byte} {cie cie' : Cie} {ret : Int} {off' : Nat}
    (done : frameCieFields dbg augment off cie = some (ret, off', cie')) :
    cie'.cieAugment = cie.cieAugment := by
  obtain ⟨eh, -, rest⟩ := Option.bind_eq_some_iff.mp done
  obtain ⟨⟨front, read⟩, ehdata, rest⟩ := Option.bind_eq_some_iff.mp rest
  have kept : read.cieAugment = cie.cieAugment := by
    split at ehdata
    · obtain ⟨⟨data, next⟩, -, same⟩ := Option.map_eq_some_iff.mp ehdata
      cases same
      rfl
    · cases ehdata
      rfl
  obtain ⟨⟨caf, next⟩, -, rest⟩ := Option.bind_eq_some_iff.mp rest
  obtain ⟨⟨daf, next⟩, -, rest⟩ := Option.bind_eq_some_iff.mp rest
  obtain ⟨⟨ra, next⟩, -, rest⟩ := Option.bind_eq_some_iff.mp rest
  exact (frameAugdata_augment rest).trans kept

/-- Where the augmentation of a CIE begins. -/
theorem frameSetCie_augment {c : CieEntry} {cie cie' : Cie} {off' : Nat}
    (wellFormed : (Entry.cie c).WellFormed dbg.order dbg.dbgPointerSize)
    (contains : dbg.ds.Contains dbg.mem off ((Entry.cie c).bytes dbg.order dbg.dbgPointerSize))
    (done : frameSetCie dbg off cie = some (dleNone, off', cie')) :
    cie'.cieAugment = dbg.ds.at (off + lengthWidth c.wide + offsetWidth c.wide + 1) := by
  obtain ⟨length_read, fits, contents⟩ := Entry.read_length wellFormed contains
  rw [show (Entry.cie c).wide = c.wide from rfl] at length_read fits contents
  obtain ⟨id_read, version_read, text_eq, -, -⟩ := CieEntry.read_front contents
  have versions : ¬ (c.version ≠ 1 ∧ c.version ≠ 3 ∧ c.version ≠ 4) := by
    rcases c.known with known | known <;> omega
  unfold frameSetCie at done
  dsimp only at done
  rw [length_read, Option.bind_some] at done
  dsimp only at done
  rw [if_neg fits, id_read, Option.bind_some] at done
  dsimp only at done
  rw [version_read, Option.bind_some] at done
  dsimp only at done
  rw [if_neg versions, text_eq, Option.bind_some] at done
  split at done
  · cases done
    rfl
  · obtain ⟨⟨ret, next, read⟩, fields, same⟩ := Option.map_eq_some_iff.mp done
    have kept := frameCieFields_augment fields
    dsimp only at same
    split at same
    · cases same
      exact kept
    · cases same
      exact kept

/-- The augmentation of a CIE begins with its text. -/
theorem CieEntry.text_held {c : CieEntry}
    (contains : dbg.ds.Contains dbg.mem off ((Entry.cie c).bytes dbg.order dbg.dbgPointerSize)) :
    dbg.mem.Holds (dbg.ds.at (off + lengthWidth c.wide + offsetWidth c.wide + 1))
      (c.aug.text ++ [0]) := by
  have contents := contains.right
  rw [lengthBytes_length, show (Entry.cie c).wide = c.wide from rfl] at contents
  have text_contains := contents.right.right.left
  rw [dbg.order.bytes_length, dbg.order.bytes_length] at text_contains
  exact text_contains.holds_at

/-- The augmentation begins with a `z`. -/
def Augmentation.BeginsWithZ (aug : Augmentation) : Prop :=
  ∃ length items padding, aug = .z length items padding

variable {state : EhState}

/-- A round at a CIE loads it. -/
theorem getNextFde_loads {c : CieEntry} (z : c.aug.BeginsWithZ)
    (wellFormed : (Entry.cie c).WellFormed dbg.order dbg.dbgPointerSize)
    (contains : dbg.ds.Contains dbg.mem state.dbgEhOffset
      ((Entry.cie c).bytes dbg.order dbg.dbgPointerSize)) :
    ∃ cie', getNextFde dbg state = some (0, { state with
        dbgEhOffset := state.dbgEhOffset +
          ((Entry.cie c).bytes dbg.order dbg.dbgPointerSize).length
        cie := cie' }) ∧
      Loaded dbg c cie' := by
  obtain ⟨length, items, padding, aug_eq⟩ := z
  obtain ⟨-, -, contents⟩ := Entry.read_length wellFormed contains
  rw [show (Entry.cie c).wide = c.wide from rfl] at contents
  have id_read := contents.left.dbgRead (isWidth_offsetWidth c.wide) (by positivity)
  obtain ⟨cie', set_eq, -, read⟩ := frameSetCie_eq wellFormed contains state.cie
  have known (data : Nat) : c.aug ≠ .eh data := by
    rw [aug_eq]
    exact nofun
  have holds := read known
  have kept : c.aug.kept state.cie.cieFdeEncode = c.aug.encode := by
    rw [aug_eq]
    rfl
  have text_held := CieEntry.text_held contains
  rw [aug_eq] at text_held
  have augment_eq := frameSetCie_augment wellFormed contains set_eq
  rw [getNextFde_eq wellFormed contains, show (Entry.cie c).wide = c.wide from rfl, id_read,
    Option.bind_some]
  dsimp only
  rw [if_pos rfl, set_eq, Option.map_some]
  dsimp only
  rw [if_neg (not_not.mpr rfl)]
  exact ⟨cie', rfl, kept ▸ holds, augment_eq ▸ (Memory.holds_cons.mp text_held).1⟩

/-- A round at an FDE reads what it describes. -/
theorem getNextFde_reads {r : FdeRecord dbg.dbgPointerSize} {c : CieEntry}
    (encoded : r.Encoded c.aug.encode)
    (wellFormed : (Entry.fde (r.toEntry dbg.order)).WellFormed dbg.order dbg.dbgPointerSize)
    (refers : lengthWidth r.wide < r.ciePointer)
    (roomy : offsetWidth r.wide ≤
      ((Entry.fde (r.toEntry dbg.order)).contents dbg.order dbg.dbgPointerSize).length)
    (loaded : Loaded dbg c state.cie)
    (contains : dbg.ds.Contains dbg.mem state.dbgEhOffset
      ((Entry.fde (r.toEntry dbg.order)).bytes dbg.order dbg.dbgPointerSize)) :
    ∃ fde', getNextFde dbg state = some (0, { state with
        dbgEhOffset := state.dbgEhOffset +
          ((Entry.fde (r.toEntry dbg.order)).bytes dbg.order dbg.dbgPointerSize).length
        fde := fde' }) ∧
      (r.describe dbg c state.dbgEhOffset).Read dbg fde' := by
  obtain ⟨-, -, contents⟩ := Entry.read_length wellFormed contains
  rw [show (Entry.fde (r.toEntry dbg.order)).wide = r.wide from rfl] at contents
  obtain ⟨fde', set_eq, read⟩ := frameSetFde_eq encoded wellFormed refers loaded contains state.fde
  obtain ⟨front, back, split, front_length⟩ :
      ∃ front back, (Entry.fde (r.toEntry dbg.order)).contents dbg.order dbg.dbgPointerSize =
        front ++ back ∧ front.length = offsetWidth r.wide :=
    ⟨_, _, (List.take_append_drop (offsetWidth r.wide) _).symm, List.length_take_of_le roomy⟩
  have id_held := contents
  rw [split] at id_held
  obtain ⟨cieId, id_read⟩ := dbgRead_spans dbg.order
    (front_length ▸ isWidth_offsetWidth r.wide) id_held.left.holds_at
  rw [front_length] at id_read
  have nonzero := FdeEntry.id_ne_zero wellFormed contents.left id_read
  rw [getNextFde_eq wellFormed contains,
    show (Entry.fde (r.toEntry dbg.order)).wide = r.wide from rfl, id_read, Option.bind_some]
  dsimp only
  rw [if_neg nonzero, set_eq, Option.map_some]
  dsimp only
  rw [if_neg (not_not.mpr rfl)]
  exact ⟨fde', rfl, read⟩

end

end Jos64.Frame
