import Jos64.Frame.Entries
import Jos64.Frame.Scan

/-!
# Reading a CIE

The struct that a CIE is read into keeps what it holds where the CIE does not say
otherwise: without a `z` there is no encoding to be stored, and of other augmentations
nothing is stored that an FDE is read with.
-/

namespace Jos64.Frame

open Dwarf Leb

section

variable {dbg : FrameDebug}

/-! ## The augmentation -/

theorem itemData_cons (item : AugItem) (items : List AugItem) :
    Augmentation.itemData (item :: items) = item.data ++ Augmentation.itemData items :=
  List.flatMap_cons

/-- Every letter is parsed with its data. -/
theorem frameParseLsbCieAugment_items {items : List AugItem}
    (wellFormed : ∀ item ∈ items, item.WellFormed dbg.dbgPointerSize) {p : Nat}
    (held : dbg.mem.Holds p (Augmentation.itemData items)) (encode : Byte) :
    frameParseLsbCieAugment dbg (items.map AugItem.letter) p encode =
      some (dleNone, items.foldl AugItem.encode encode) := by
  induction items generalizing p encode with
  | nil => rfl
  | cons item items ih =>
      have rest_wellFormed := fun other member =>
        wellFormed other (List.mem_cons_of_mem item member)
      rw [itemData_cons] at held
      obtain ⟨item_held, rest_held⟩ := Memory.holds_append.mp held
      have nonempty : item.data ≠ [] := by cases item <;> exact List.cons_ne_nil _ _
      have top := item_held.le_top nonempty
      have top_lt := dbg.mem.top_lt
      rw [List.map_cons, frameParseLsbCieAugment, List.foldl_cons]
      cases item with
      | lsda at_encode =>
          have next : u64 (p + 1) = p + 1 := u64_of_lt (by
            rw [AugItem.data, List.length_singleton] at top
            omega)
          rw [if_pos (show (AugItem.lsda at_encode).letter = 0x4c from rfl), next]
          exact ih rest_wellFormed rest_held _
      | personality at_encode pointer =>
          have not_lsda : ¬ (0x50 : Byte) = 0x4c := by decide
          have spans := wellFormed _ List.mem_cons_self
          rw [AugItem.data, List.length_cons] at top
          obtain ⟨mapped, pointer_held⟩ := Memory.holds_cons.mp item_held
          have next : u64 (p + 1) = p + 1 := u64_of_lt (by omega)
          have start : Section.at ⟨p + 1, 0⟩ 0 = p + 1 := next
          obtain ⟨value, read⟩ := frameReadLsbEncoded_spans spans (start.symm ▸ pointer_held)
            (by decide) 0 0
          have behind : u64 (p + 1 + u64 (0 + pointer.length)) = p + (pointer.length + 1) := by
            rw [Nat.zero_add, u64_of_lt (show pointer.length < 2 ^ 64 by omega),
              u64_of_lt (by omega)]
            omega
          rw [if_neg (show ¬ (AugItem.personality at_encode pointer).letter = 0x4c from not_lsda),
            if_pos (show (AugItem.personality at_encode pointer).letter = 0x50 from rfl), mapped,
            Option.bind_some]
          dsimp only
          rw [next, read, Option.bind_some]
          dsimp only
          rw [if_neg (not_not.mpr rfl), behind]
          exact ih rest_wellFormed rest_held _
      | fdeEncode at_encode =>
          have not_lsda : ¬ (0x52 : Byte) = 0x4c := by decide
          have not_personality : ¬ (0x52 : Byte) = 0x50 := by decide
          have mapped := (Memory.holds_cons.mp item_held).1
          have next : u64 (p + 1) = p + 1 := u64_of_lt (by
            rw [AugItem.data, List.length_singleton] at top
            omega)
          rw [if_neg (show ¬ (AugItem.fdeEncode at_encode).letter = 0x4c from not_lsda),
            if_neg (show ¬ (AugItem.fdeEncode at_encode).letter = 0x50 from not_personality),
            if_pos (show (AugItem.fdeEncode at_encode).letter = 0x52 from rfl), mapped,
            Option.bind_some, next]
          exact ih rest_wellFormed rest_held _

/-- The encoding that is left behind the augmentation: without a `z` the one from
before. -/
def Augmentation.kept (before : Byte) : Augmentation → Byte
  | z _ items _ => items.foldl AugItem.encode ehPeAbsptr
  | _ => before

theorem frameAugdata_eq {aug : Augmentation} (wellFormed : aug.WellFormed dbg.dbgPointerSize)
    (known : ∀ data, aug ≠ .eh data) {off : Nat}
    (contains : dbg.ds.Contains dbg.mem off aug.zData) (cie : Cie) :
    ∃ cieAuglen cieAugdata, frameAugdata dbg aug.text off cie =
      some (dleNone, off + aug.zData.length,
        { cie with cieAuglen, cieAugdata, cieFdeEncode := aug.kept cie.cieFdeEncode }) := by
  cases aug with
  | none => exact ⟨cie.cieAuglen, cie.cieAugdata, rfl⟩
  | eh data => exact absurd rfl (known data)
  | z length items padding =>
      obtain ⟨length_eq, small, items_wellFormed⟩ := wellFormed
      have length_contains := contains.left
      have data_contains := contains.right
      have parsed := frameParseLsbCieAugment_items items_wellFormed data_contains.left.holds_at
        ehPeAbsptr
      have next := data_contains.u64_next
      have total : off + length.bytes.length + (Augmentation.itemData items ++ padding).length =
          off + (Augmentation.z length items padding).zData.length := by
        simp only [Augmentation.zData, List.length_append]
        omega
      refine ⟨length.decoded, dbg.ds.at (off + length.bytes.length), ?_⟩
      rw [frameAugdata, if_pos (show (Augmentation.text _).head? = some 0x7a from rfl),
        length_contains.readUleb128, Option.bind_some]
      dsimp only
      rw [show (Augmentation.z length items padding).text.tail = items.map AugItem.letter from rfl,
        parsed, Option.map_some, Uleb.decoded_of_lt small, length_eq, next,
        total]
      rfl

/-! ## The fields -/

/-- What an FDE is read with is in the struct: the encoding, and the alignment factors
and instructions of the CIE as they are read. -/
structure Holds (dbg : FrameDebug) (c : CieEntry) (encode : Byte) (cie : Cie) : Prop where
  encode_eq : cie.cieFdeEncode = encode
  caf_eq : cie.cieCaf = c.caf.decoded
  daf_eq : cie.cieDaf = c.daf.decoded
  instrs_held : dbg.mem.Holds cie.cieInitinst c.instrs
  instlen_eq : cie.cieInstlen = c.instrs.length

/-- The bytes from the alignment factors up to the instructions. -/
def CieEntry.factorBytes (c : CieEntry) : List Byte :=
  c.caf.bytes ++ (c.daf.bytes ++ (c.ra ++ c.aug.zData))

theorem frameCieFields_eq {c : CieEntry} (wellFormed : c.aug.WellFormed dbg.dbgPointerSize)
    (known : ∀ data, c.aug ≠ .eh data) {off : Nat}
    (contains : dbg.ds.Contains dbg.mem off c.factorBytes) (cie : Cie)
    (version_eq : cie.cieVersion = c.version) :
    ∃ cie', frameCieFields dbg c.aug.text off cie =
        some (dleNone, off + c.factorBytes.length, cie') ∧
      cie'.cieFdeEncode = c.aug.kept cie.cieFdeEncode ∧ cie'.cieCaf = c.caf.decoded ∧
      cie'.cieDaf = c.daf.decoded := by
  have caf_read := contains.left.readUleb128
  have daf_read := contains.right.left.readSleb128
  have ra_contains := contains.right.right.left
  have ra_read : ∃ cieRa,
      (if cie.cieVersion = 1 then
          dbgRead dbg.order dbg.mem dbg.ds (off + c.caf.bytes.length + c.daf.bytes.length) 1
        else readUleb128 dbg.mem dbg.ds (off + c.caf.bytes.length + c.daf.bytes.length)) =
        some (cieRa, off + c.caf.bytes.length + c.daf.bytes.length + c.ra.length) := by
    rw [version_eq, ← ra_contains.u64_next]
    rcases c.known with ⟨one, length_eq⟩ | ⟨three, ended⟩
    · rw [if_pos one]
      have read := dbgRead_spans dbg.order (by rw [length_eq]; decide) ra_contains.holds_at
      rwa [length_eq] at read ⊢
    · rw [if_neg (by omega), readUleb128_ended ended ra_contains.holds_at]
      exact ⟨_, rfl⟩
  obtain ⟨cieRa, ra_read⟩ := ra_read
  obtain ⟨cieAuglen, cieAugdata, augdata⟩ := frameAugdata_eq wellFormed known
    contains.right.right.right
    { cie with cieCaf := c.caf.decoded, cieDaf := c.daf.decoded, cieRa }
  refine ⟨{ cie with
    cieCaf := c.caf.decoded, cieDaf := c.daf.decoded, cieRa, cieAuglen, cieAugdata,
    cieFdeEncode := c.aug.kept cie.cieFdeEncode }, ?_, rfl, rfl, rfl⟩
  have total : off + c.caf.bytes.length + c.daf.bytes.length + c.ra.length + c.aug.zData.length =
      off + c.factorBytes.length := by
    simp only [CieEntry.factorBytes, List.length_append]
    omega
  rw [frameCieFields, strstr_eh known, Option.bind_some, Option.isSome_none,
    if_neg Bool.false_ne_true, Option.bind_some]
  dsimp only
  rw [caf_read, Option.bind_some]
  dsimp only
  rw [daf_read, Option.bind_some]
  dsimp only
  rw [ra_read, Option.bind_some]
  dsimp only
  rw [augdata, total]

theorem CieEntry.fieldBytes_eq {c : CieEntry} (known : ∀ data, c.aug ≠ .eh data)
    (order : Endianness) (dbgPointerSize : Nat) :
    c.fieldBytes order dbgPointerSize = c.factorBytes ++ c.instrs := by
  have no_data : c.aug.ehData order dbgPointerSize = [] := by
    cases aug_eq : c.aug with
    | none => rfl
    | eh data => exact absurd aug_eq (known data)
    | z length items padding => rfl
  simp only [fieldBytes, factorBytes, no_data, List.nil_append, List.append_assoc]

/-! ## The entry -/

/-- The width of a length by that of the offsets. -/
theorem lengthWidth_eq (wide : Bool) :
    (if offsetWidth wide = 4 then 4 else 12) = lengthWidth wide := by
  cases wide with
  | false => rfl
  | true => rfl

/-- Behind the length of an entry stands what it counts, which does not exceed the
section. -/
theorem Entry.read_length {e : Entry} {off : Nat}
    (wellFormed : e.WellFormed dbg.order dbg.dbgPointerSize)
    (contains : dbg.ds.Contains dbg.mem off (e.bytes dbg.order dbg.dbgPointerSize)) :
    readLength dbg.order dbg.mem dbg.ds off =
        some ((e.contents dbg.order dbg.dbgPointerSize).length, offsetWidth e.wide,
          off + lengthWidth e.wide) ∧
      ¬ sub64 dbg.ds.dsSize (off + lengthWidth e.wide) <
        (e.contents dbg.order dbg.dbgPointerSize).length ∧
      dbg.ds.Contains dbg.mem (off + lengthWidth e.wide)
        (e.contents dbg.order dbg.dbgPointerSize) := by
  have contents := contains.right
  rw [lengthBytes_length] at contents
  have inside := contents.inside
  have size_lt := dbg.size_lt
  rw [dbg.sizes_eq] at size_lt
  refine ⟨contains.left.readLength wellFormed.1, ?_, contents⟩
  rw [sub64_of_le (by omega) size_lt]
  omega

theorem Entry.bytes_length (e : Entry) (order : Endianness) (dbgPointerSize : Nat) :
    (e.bytes order dbgPointerSize).length =
      lengthWidth e.wide + (e.contents order dbgPointerSize).length := by
  rw [bytes, List.length_append, lengthBytes_length]

/-- What an FDE is read with is the same in both structs. -/
structure Alike (cie cie' : Cie) : Prop where
  encode_eq : cie'.cieFdeEncode = cie.cieFdeEncode
  caf_eq : cie'.cieCaf = cie.cieCaf
  daf_eq : cie'.cieDaf = cie.cieDaf
  initinst_eq : cie'.cieInitinst = cie.cieInitinst
  instlen_eq : cie'.cieInstlen = cie.cieInstlen

/-- The augmentations that are passed over are those that begin with `eh`. -/
theorem Augmentation.passed_iff (aug : Augmentation) :
    aug.text ≠ [] ∧ aug.text.head? ≠ some 0x7a ↔ ∃ data, aug = .eh data := by
  constructor
  · rintro ⟨nonempty, other⟩
    cases aug with
    | none => exact absurd rfl nonempty
    | eh data => exact ⟨data, rfl⟩
    | z length items padding => exact absurd rfl other
  · rintro ⟨data, rfl⟩
    have not_z : ¬ (0x65 : Byte) = 0x7a := by decide
    exact ⟨List.cons_ne_nil _ _, fun same => not_z (Option.some.inj same)⟩

/-- The identifier, the version and the augmentation, with the fields behind them. -/
theorem CieEntry.read_front {c : CieEntry} {off : Nat}
    (contains : dbg.ds.Contains dbg.mem off (c.contents dbg.order dbg.dbgPointerSize)) :
    dbgRead dbg.order dbg.mem dbg.ds off (offsetWidth c.wide) =
        some (0, off + offsetWidth c.wide) ∧
      dbgRead dbg.order dbg.mem dbg.ds (off + offsetWidth c.wide) 1 =
        some (c.version, off + offsetWidth c.wide + 1) ∧
      textAt dbg.mem (dbg.ds.at (off + offsetWidth c.wide + 1))
          (dbg.mem.room (dbg.ds.at (off + offsetWidth c.wide + 1))) = some c.aug.text ∧
      u64 (off + offsetWidth c.wide + 1 + c.aug.text.length + 1) =
        off + offsetWidth c.wide + 1 + c.aug.text.length + 1 ∧
      dbg.ds.Contains dbg.mem (off + offsetWidth c.wide + 1 + c.aug.text.length + 1)
        (c.fieldBytes dbg.order dbg.dbgPointerSize) := by
  have version_lt : c.version < 256 ^ 1 := by
    rcases c.known with known | known <;> omega
  have version_contains := contains.right.left
  rw [dbg.order.bytes_length] at version_contains
  have text_contains := contains.right.right
  rw [dbg.order.bytes_length, dbg.order.bytes_length] at text_contains
  have text_held := text_contains.left.holds_at
  have room := text_held.length_le_room
  rw [List.length_append, List.length_singleton] at room
  have behind := text_contains.left.u64_next
  rw [List.length_append, List.length_singleton, ← Nat.add_assoc] at behind
  have fields_contains := text_contains.right
  rw [List.length_append, List.length_singleton, ← Nat.add_assoc] at fields_contains
  exact ⟨contains.left.dbgRead (isWidth_offsetWidth _) (by positivity),
    version_contains.dbgRead (by decide) version_lt,
    textAt_eq c.aug.text_nonzero text_held room, behind, fields_contains⟩

/-- The instructions reach to the end of the entry. -/
theorem CieEntry.contents_length {c : CieEntry} (known : ∀ data, c.aug ≠ .eh data)
    (order : Endianness) (dbgPointerSize : Nat) :
    (c.contents order dbgPointerSize).length =
      offsetWidth c.wide + 1 + c.aug.text.length + 1 + c.factorBytes.length +
        c.instrs.length := by
  simp only [contents, fieldBytes_eq known, List.length_append, List.length_singleton,
    Endianness.bytes_length]
  omega

/-- A CIE is read up to its end.  An `eh` is passed over. -/
theorem frameSetCie_eq {c : CieEntry} {off : Nat}
    (wellFormed : (Entry.cie c).WellFormed dbg.order dbg.dbgPointerSize)
    (contains : dbg.ds.Contains dbg.mem off ((Entry.cie c).bytes dbg.order dbg.dbgPointerSize))
    (cie : Cie) :
    ∃ cie', frameSetCie dbg off cie =
        some (dleNone, off + ((Entry.cie c).bytes dbg.order dbg.dbgPointerSize).length, cie') ∧
      ((∃ data, c.aug = .eh data) → Alike cie cie') ∧
      ((∀ data, c.aug ≠ .eh data) → Holds dbg c (c.aug.kept cie.cieFdeEncode) cie') := by
  obtain ⟨length_read, fits, contents⟩ := Entry.read_length wellFormed contains
  rw [show (Entry.cie c).wide = c.wide from rfl] at length_read fits contents
  have inside := contents.inside
  have size_lt := dbg.size_lt
  rw [dbg.sizes_eq] at size_lt
  obtain ⟨id_read, version_read, text_eq, behind, fields_contains⟩ := CieEntry.read_front contents
  have end_eq : u64 (off + lengthWidth c.wide +
      ((Entry.cie c).contents dbg.order dbg.dbgPointerSize).length) =
        off + ((Entry.cie c).bytes dbg.order dbg.dbgPointerSize).length := by
    rw [Entry.bytes_length, ← Nat.add_assoc]
    exact u64_of_lt (inside.trans_lt size_lt)
  have versions : ¬ (c.version ≠ 1 ∧ c.version ≠ 3 ∧ c.version ≠ 4) := by
    rcases c.known with known | known <;> omega
  unfold frameSetCie
  dsimp only
  rw [length_read, Option.bind_some]
  dsimp only
  rw [if_neg fits, id_read, Option.bind_some]
  dsimp only
  rw [version_read, Option.bind_some]
  dsimp only
  rw [if_neg versions, text_eq, Option.bind_some, behind, lengthWidth_eq, end_eq]
  by_cases passed : ∃ data, c.aug = .eh data
  · rw [if_pos (c.aug.passed_iff.mpr passed)]
    obtain ⟨data, aug_eq⟩ := passed
    exact ⟨_, rfl, fun _ => ⟨rfl, rfl, rfl, rfl, rfl⟩, fun known => absurd aug_eq (known data)⟩
  · have known : ∀ data, c.aug ≠ .eh data := fun data same => passed ⟨data, same⟩
    rw [CieEntry.fieldBytes_eq known] at fields_contains
    have instrs_contains := fields_contains.right
    have instlen_eq : sub64 (off + lengthWidth c.wide +
        ((Entry.cie c).contents dbg.order dbg.dbgPointerSize).length)
          (off + lengthWidth c.wide + offsetWidth c.wide + 1 + c.aug.text.length + 1 +
            c.factorBytes.length) = c.instrs.length := by
      have total : ((Entry.cie c).contents dbg.order dbg.dbgPointerSize).length = _ :=
        CieEntry.contents_length known dbg.order dbg.dbgPointerSize
      rw [sub64_of_le (by omega) (by omega)]
      omega
    obtain ⟨cie', fields_read, encode_eq, caf_eq, daf_eq⟩ :=
      frameCieFields_eq wellFormed.2 known fields_contains.left
        { cie with
          cieOffset := off
          cieLength := ((Entry.cie c).contents dbg.order dbg.dbgPointerSize).length
          cieVersion := c.version
          cieAugment := dbg.ds.at (off + lengthWidth c.wide + offsetWidth c.wide + 1) } rfl
    rw [if_neg (passed ∘ c.aug.passed_iff.mp), fields_read, Option.map_some]
    dsimp only
    rw [if_neg (not_not.mpr rfl), u64_add_sub64, end_eq, instlen_eq]
    exact ⟨_, rfl, fun eh => absurd eh passed, fun _ =>
      ⟨encode_eq, caf_eq, daf_eq, instrs_contains.holds_at, rfl⟩⟩

end

end Jos64.Frame
