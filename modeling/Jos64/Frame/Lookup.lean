import Jos64.Frame.Cie

/-!
# The CIE of an FDE

Every FDE says which CIE it is to be read with.  The lookup reads it with the struct
that it has, so with what the CIEs on the way have left there.
-/

namespace Jos64.Frame

open Loop Dwarf

/-! ## Sections -/

section

variable (dbg : FrameDebug)

def entriesLength (entries : List Entry) : Nat :=
  (entryBytes dbg.order dbg.dbgPointerSize entries).length

/-- The section begins with the entries, and ends behind them or has a terminator
there. -/
structure Stands (entries : List Entry) : Prop where
  wellFormed : ∀ e ∈ entries, e.WellFormed dbg.order dbg.dbgPointerSize
  contains : ∃ terminator,
    (terminator = [] ∧ entriesLength dbg entries = dbg.ds.dsSize ∨
      terminator = dbg.order.bytes 4 0) ∧
    dbg.ds.Contains dbg.mem 0 (entryBytes dbg.order dbg.dbgPointerSize entries ++ terminator)

/-- The pointer of the FDE behind the entries leads back to the CIE. -/
def Refers (before : List Entry) (f : FdeEntry) (c : CieEntry) : Prop :=
  ∃ front back, before = front ++ .cie c :: back ∧
    entriesLength dbg front + f.ciePointer = entriesLength dbg before + lengthWidth f.wide

/-- The pointer of every FDE leads back to a CIE. -/
def Named (entries : List Entry) : Prop :=
  ∀ before f after, entries = before ++ .fde f :: after → ∃ c, Refers dbg before f c

/-! ## What an FDE is read with -/

/-- The range of the FDE at `off` is what the two encoded pointers at `pos` are. -/
def RangeRead (off pos : Nat) (encode : Byte) (fde : Fde) : Prop :=
  ∃ next behind,
    frameReadLsbEncoded dbg dbg.ds (dbg.val off) pos encode (u64 (dbg.dsAddr + pos)) =
        some (dleNone, fde.fdeInitloc, next) ∧
      frameReadLsbEncoded dbg dbg.ds fde.fdeInitloc next encode 0 =
        some (dleNone, fde.fdeAdrange, behind)

/-- The FDE at `off` has been read with the CIE: its range was there and was read in the
CIE's encoding, and the fields of the struct are the CIE's. -/
structure ReadWith (c : CieEntry) (off pos : Nat) (state : EhState) : Prop where
  encode_eq : state.cie.cieFdeEncode = c.aug.encode
  caf_eq : state.cie.cieCaf = c.caf.value
  daf_eq : state.cie.cieDaf = c.daf.word
  instrs_held : dbg.mem.Holds state.cie.cieInitinst c.instrs
  instlen_eq : state.cie.cieInstlen = c.instrs.length
  present : c.aug.encode ≠ ehPeOmit
  range : RangeRead dbg off pos c.aug.encode state.fde

end

/-! ## The struct on the way -/

/-- What the CIEs on the way leave: an encoding, and the CIE that was read last, if there
was one that is not passed over. -/
structure Slot where
  encode : Byte
  last : Option CieEntry

namespace Slot

def next (slot : Slot) : Entry → Slot
  | .cie c =>
      match c.aug with
      | .eh _ => slot
      | aug => ⟨aug.kept slot.encode, some c⟩
  | .fde _ => slot

/-- Behind some entries, when the struct had the encoding before. -/
def after (encode : Byte) (passed : List Entry) : Slot :=
  passed.foldl next ⟨encode, none⟩

section

variable (dbg : FrameDebug) (start : Cie)

/-- The struct, which was `start` before, is as the CIEs on the way have left it. -/
def Keeps (slot : Slot) (cie : Cie) : Prop :=
  cie.cieFdeEncode = slot.encode ∧
    match slot.last with
    | none => Alike start cie
    | some c => Holds dbg c slot.encode cie

/-- What is left agrees with the CIE: the encoding with its encoding, and the factors and
the instructions of the CIE that was read last, as they are read, with its own. -/
def Agrees (slot : Slot) (c : CieEntry) : Prop :=
  slot.encode = c.aug.encode ∧
    match slot.last with
    | none =>
        start.cieCaf = c.caf.value ∧ start.cieDaf = c.daf.word ∧
          dbg.mem.Holds start.cieInitinst c.instrs ∧ start.cieInstlen = c.instrs.length
    | some last =>
        last.caf.decoded = c.caf.value ∧ last.daf.decoded = c.daf.word ∧ last.instrs = c.instrs

end

end Slot

section

variable {dbg : FrameDebug} {start : Cie}

theorem Slot.after_concat (encode : Byte) (passed : List Entry) (e : Entry) :
    Slot.after encode (passed ++ [e]) = (Slot.after encode passed).next e := by
  rw [after, List.foldl_append]
  rfl

theorem Slot.next_eh (slot : Slot) {c : CieEntry} (eh : ∃ data, c.aug = .eh data) :
    slot.next (.cie c) = slot := by
  obtain ⟨data, aug_eq⟩ := eh
  rw [next, aug_eq]

theorem Slot.next_cie (slot : Slot) {c : CieEntry} (known : ∀ data, c.aug ≠ .eh data) :
    slot.next (.cie c) = ⟨c.aug.kept slot.encode, some c⟩ := by
  cases aug_eq : c.aug with
  | eh data => exact absurd aug_eq (known data)
  | none => rw [next, aug_eq]
  | z length items padding => rw [next, aug_eq]

theorem Alike.trans {cie cie' : Cie} (first : Alike start cie) (second : Alike cie cie') :
    Alike start cie' :=
  ⟨second.encode_eq.trans first.encode_eq, second.caf_eq.trans first.caf_eq,
    second.daf_eq.trans first.daf_eq, second.initinst_eq.trans first.initinst_eq,
    second.instlen_eq.trans first.instlen_eq⟩

/-- A CIE that is passed over changes nothing of what is kept. -/
theorem Slot.Keeps.alike {slot : Slot} {cie cie' : Cie} (keeps : slot.Keeps dbg start cie)
    (alike : Alike cie cie') : slot.Keeps dbg start cie' := by
  refine ⟨alike.encode_eq.trans keeps.1, ?_⟩
  have kept := keeps.2
  cases last_eq : slot.last with
  | none =>
      rw [last_eq] at kept
      exact Alike.trans kept alike
  | some c =>
      rw [last_eq] at kept
      exact ⟨alike.encode_eq.trans kept.encode_eq, alike.caf_eq.trans kept.caf_eq,
        alike.daf_eq.trans kept.daf_eq, alike.initinst_eq ▸ kept.instrs_held,
        alike.instlen_eq.trans kept.instlen_eq⟩

/-- An FDE has been read with the CIE exactly if what is left agrees with the CIE. -/
theorem Slot.Keeps.readWith_iff {slot : Slot} {c : CieEntry} {off pos : Nat} {state : EhState}
    (keeps : slot.Keeps dbg start state.cie) (present : c.aug.encode ≠ ehPeOmit)
    (range : RangeRead dbg off pos state.cie.cieFdeEncode state.fde) :
    ReadWith dbg c off pos state ↔ slot.Agrees dbg start c := by
  obtain ⟨encode_eq, kept⟩ := keeps
  unfold Agrees
  cases last_eq : slot.last with
  | none =>
      rw [last_eq] at kept
      have alike : Alike start state.cie := kept
      dsimp only
      rw [← encode_eq, ← alike.caf_eq, ← alike.daf_eq, ← alike.initinst_eq, ← alike.instlen_eq]
      constructor
      · intro read
        exact ⟨read.encode_eq, read.caf_eq, read.daf_eq, read.instrs_held, read.instlen_eq⟩
      · rintro ⟨encode, caf, daf, instrs, instlen⟩
        exact ⟨encode, caf, daf, instrs, instlen, present, encode ▸ range⟩
  | some last =>
      rw [last_eq] at kept
      have holds : Holds dbg last slot.encode state.cie := kept
      dsimp only
      rw [← encode_eq, ← holds.caf_eq, ← holds.daf_eq]
      constructor
      · intro read
        refine ⟨read.encode_eq, read.caf_eq, read.daf_eq, ?_⟩
        have last_read := Memory.read_of_holds holds.instrs_held
        rw [← holds.instlen_eq, read.instlen_eq, Memory.read_of_holds read.instrs_held] at last_read
        exact (Option.some.inj last_read).symm
      · rintro ⟨encode, caf, daf, instrs⟩
        exact ⟨encode, caf, daf, instrs ▸ holds.instrs_held, instrs ▸ holds.instlen_eq, present,
          encode ▸ range⟩

/-! ## One entry -/

theorem entriesLength_concat (passed : List Entry) (e : Entry) :
    entriesLength dbg (passed ++ [e]) =
      entriesLength dbg passed + (e.bytes dbg.order dbg.dbgPointerSize).length := by
  unfold entriesLength entryBytes
  rw [List.flatMap_append, List.length_append, List.flatMap_singleton]

variable {state state' : EhState}

/-- An entry that is read leads to the one behind it. -/
theorem getNextFde_entry {ret : Int} {e : Entry}
    (wellFormed : e.WellFormed dbg.order dbg.dbgPointerSize)
    (contains : dbg.ds.Contains dbg.mem state.dbgEhOffset
      (e.bytes dbg.order dbg.dbgPointerSize))
    (found : getNextFde dbg state = some (ret, state')) (nonneg : 0 ≤ ret) :
    ret = 0 ∧
      state'.dbgEhOffset =
        state.dbgEhOffset + (e.bytes dbg.order dbg.dbgPointerSize).length := by
  obtain ⟨length_read, fits, -⟩ := Entry.read_length wellFormed contains
  have inside : state.dbgEhOffset < dbg.dbgEhSize := by
    have end_le := contains.inside
    rw [Entry.bytes_length] at end_le
    have positive : 0 < lengthWidth e.wide := by
      cases e.wide with
      | false | true => decide
    rw [dbg.sizes_eq]
    omega
  obtain ⟨length, width, next, read, exceeds | failed | entry⟩ := getNextFde_cases inside found
  · rw [length_read] at read
    cases read
    exact absurd exceeds.1 fits
  · rw [failed.2] at nonneg
    exact absurd nonneg (by decide)
  · rw [length_read] at read
    cases read
    refine ⟨entry.2.1, ?_⟩
    rw [entry.2.2, Entry.bytes_length, ← Nat.add_assoc, Nat.add_assoc _ (lengthWidth _),
      ← Entry.bytes_length, contains.u64_next]

/-- An entry has at least a CIE id or a CIE pointer. -/
theorem Entry.contents_length_pos (e : Entry) (order : Endianness) (dbgPointerSize : Nat) :
    0 < (e.contents order dbgPointerSize).length := by
  cases e with
  | cie c =>
      rw [contents, CieEntry.contents, List.length_append, order.bytes_length]
      cases c.wide with
      | false => exact Nat.lt_add_right _ (by decide)
      | true => exact Nat.lt_add_right _ (by decide)
  | fde f =>
      rw [contents, FdeEntry.contents, List.length_append, order.bytes_length]
      omega

/-- What a round does that gets past the length of an entry. -/
theorem getNextFde_eq {e : Entry} (wellFormed : e.WellFormed dbg.order dbg.dbgPointerSize)
    (contains : dbg.ds.Contains dbg.mem state.dbgEhOffset
      (e.bytes dbg.order dbg.dbgPointerSize)) :
    getNextFde dbg state =
      (dbgRead dbg.order dbg.mem dbg.ds (state.dbgEhOffset + lengthWidth e.wide)
          (offsetWidth e.wide)).bind fun (cieId, _) =>
        if cieId = 0 then
          (frameSetCie dbg state.dbgEhOffset state.cie).map fun (ret, off, cie) =>
            if ret ≠ dleNone then (-1, { state with cie })
            else (0, { state with dbgEhOffset := off, cie })
        else
          (frameSetFde dbg state.dbgEhOffset state.cie state.fde).map fun (ret, off, fde) =>
            if ret ≠ dleNone then (-1, { state with fde })
            else (0, { state with dbgEhOffset := off, fde }) := by
  obtain ⟨length_read, fits, contents⟩ := Entry.read_length wellFormed contains
  have positive := e.contents_length_pos dbg.order dbg.dbgPointerSize
  have inside : state.dbgEhOffset < dbg.ds.dsSize := by
    have end_le := contents.inside
    omega
  rw [getNextFde, if_pos inside, length_read, Option.bind_some]
  dsimp only
  rw [if_neg fits, if_neg positive.ne']

/-- A CIE is read into the struct. -/
theorem getNextFde_cie {c : CieEntry} {slot : Slot}
    (wellFormed : (Entry.cie c).WellFormed dbg.order dbg.dbgPointerSize)
    (contains : dbg.ds.Contains dbg.mem state.dbgEhOffset
      ((Entry.cie c).bytes dbg.order dbg.dbgPointerSize))
    (found : getNextFde dbg state = some (0, state')) (keeps : slot.Keeps dbg start state.cie) :
    state'.fde = state.fde ∧ (slot.next (.cie c)).Keeps dbg start state'.cie := by
  obtain ⟨-, -, contents⟩ := Entry.read_length wellFormed contains
  rw [show (Entry.cie c).wide = c.wide from rfl] at contents
  have id_read := contents.left.dbgRead (isWidth_offsetWidth c.wide) (by positivity)
  obtain ⟨cie', set_eq, passed, read⟩ := frameSetCie_eq wellFormed contains state.cie
  rw [getNextFde_eq wellFormed contains, show (Entry.cie c).wide = c.wide from rfl, id_read,
    Option.bind_some] at found
  dsimp only at found
  rw [if_pos rfl, set_eq, Option.map_some] at found
  dsimp only at found
  rw [if_neg (not_not.mpr rfl)] at found
  cases found
  refine ⟨rfl, ?_⟩
  have encode_eq : state.cie.cieFdeEncode = slot.encode := keeps.1
  by_cases eh : ∃ data, c.aug = .eh data
  · rw [Slot.next_eh slot eh]
    exact keeps.alike (passed eh)
  · have known : ∀ data, c.aug ≠ .eh data := fun data same => eh ⟨data, same⟩
    have holds := read known
    rw [encode_eq] at holds
    rw [Slot.next_cie slot known]
    exact ⟨holds.encode_eq, holds⟩

/-- The number behind the length of an FDE is not the id of a CIE. -/
theorem FdeEntry.id_ne_zero {f : FdeEntry} {off cieId next : Nat}
    (wellFormed : (Entry.fde f).WellFormed dbg.order dbg.dbgPointerSize)
    (contains : dbg.ds.Contains dbg.mem off (dbg.order.bytes 4 f.ciePointer))
    (read : dbgRead dbg.order dbg.mem dbg.ds off (offsetWidth f.wide) = some (cieId, next)) :
    cieId ≠ 0 := by
  obtain ⟨-, positive, pointer_lt⟩ := wellFormed
  have pointer_read := contains.dbgRead (by decide) (show f.ciePointer < 256 ^ 4 by omega)
  rintro rfl
  have zero_read : ∃ next, dbgRead dbg.order dbg.mem dbg.ds off 4 = some (0, next) := by
    cases wide : f.wide with
    | false =>
        rw [wide] at read
        exact ⟨next, read⟩
    | true =>
        rw [wide] at read
        exact ⟨_, dbgRead_half read⟩
  obtain ⟨next, zero_read⟩ := zero_read
  rw [pointer_read] at zero_read
  have pointer_zero : f.ciePointer = 0 := congrArg Prod.fst (Option.some.inj zero_read)
  omega

/-- What a range that is read consists of. -/
theorem rangeRead_of_frameFdeRange {off off' : Nat} {encode : Byte} {fde fde' : Fde}
    (done : frameFdeRange dbg off encode fde = some (dleNone, off', fde')) :
    fde'.fdeOffset = fde.fdeOffset ∧ RangeRead dbg fde.fdeOffset off encode fde' := by
  obtain ⟨⟨ret, initloc, next⟩, first, rest⟩ := Option.bind_eq_some_iff.mp done
  dsimp only at rest
  split at rest
  · rename_i failed
    cases rest
    exact absurd rfl failed
  · rename_i succeeded
    rw [not_not] at succeeded
    subst succeeded
    obtain ⟨⟨ret, adrange, behind⟩, second, same⟩ := Option.map_eq_some_iff.mp rest
    dsimp only at same
    split at same
    · rename_i failed
      cases same
      exact absurd rfl failed
    · rename_i succeeded
      rw [not_not] at succeeded
      subst succeeded
      cases same
      exact ⟨rfl, next, _, first, second⟩

/-- The range of an FDE is read with the encoding that is in the struct. -/
theorem frameSetFde_range {f : FdeEntry} {off off' : Nat} {cie : Cie} {fde fde' : Fde}
    (wellFormed : (Entry.fde f).WellFormed dbg.order dbg.dbgPointerSize)
    (contains : dbg.ds.Contains dbg.mem off ((Entry.fde f).bytes dbg.order dbg.dbgPointerSize))
    (done : frameSetFde dbg off cie fde = some (dleNone, off', fde')) :
    fde'.fdeOffset = off ∧
      RangeRead dbg off (off + lengthWidth f.wide + 4) cie.cieFdeEncode fde' := by
  obtain ⟨length_read, fits, contents⟩ := Entry.read_length wellFormed contains
  have pointer_read := contents.left.dbgRead (by decide)
    (show f.ciePointer < 256 ^ 4 from wellFormed.2.2.trans_le (by decide))
  unfold frameSetFde at done
  dsimp only at done
  rw [length_read, Option.bind_some] at done
  dsimp only at done
  rw [if_neg fits, pointer_read, Option.bind_some] at done
  dsimp only at done
  split at done
  · cases done
  · obtain ⟨⟨ret, behind, range⟩, range_read, rest⟩ := Option.bind_eq_some_iff.mp done
    dsimp only at rest
    split at rest
    · rename_i failed
      cases rest
      exact absurd rfl failed
    · rename_i succeeded
      rw [not_not] at succeeded
      subst succeeded
      obtain ⟨offset_eq, read⟩ := rangeRead_of_frameFdeRange range_read
      obtain ⟨⟨end_, augmented⟩, augdata, same⟩ := Option.map_eq_some_iff.mp rest
      cases same
      have kept : augmented.fdeOffset = range.fdeOffset ∧
          augmented.fdeInitloc = range.fdeInitloc ∧ augmented.fdeAdrange = range.fdeAdrange := by
        obtain ⟨c, -, rest⟩ := Option.bind_eq_some_iff.mp augdata
        split at rest
        · obtain ⟨length, -, same⟩ := Option.map_eq_some_iff.mp rest
          cases same
          exact ⟨rfl, rfl, rfl⟩
        · cases rest
          exact ⟨rfl, rfl, rfl⟩
      refine ⟨kept.1.trans offset_eq, ?_⟩
      unfold RangeRead at read ⊢
      dsimp only
      rw [kept.2.1, kept.2.2]
      exact read

/-- An FDE is read with what is in the struct. -/
theorem getNextFde_fde {f : FdeEntry}
    (wellFormed : (Entry.fde f).WellFormed dbg.order dbg.dbgPointerSize)
    (contains : dbg.ds.Contains dbg.mem state.dbgEhOffset
      ((Entry.fde f).bytes dbg.order dbg.dbgPointerSize))
    (found : getNextFde dbg state = some (0, state')) :
    state'.cie = state.cie ∧ state'.fde.fdeOffset = state.dbgEhOffset ∧
      RangeRead dbg state.dbgEhOffset (state.dbgEhOffset + lengthWidth f.wide + 4)
        state.cie.cieFdeEncode state'.fde := by
  obtain ⟨-, -, contents⟩ := Entry.read_length wellFormed contains
  rw [getNextFde_eq wellFormed contains] at found
  obtain ⟨⟨cieId, next⟩, id_read, rest⟩ := Option.bind_eq_some_iff.mp found
  dsimp only at rest
  rw [if_neg (FdeEntry.id_ne_zero wellFormed contents.left id_read)] at rest
  obtain ⟨⟨ret, off, fde⟩, set_eq, same⟩ := Option.map_eq_some_iff.mp rest
  dsimp only at same
  split at same
  · cases same
  · rename_i succeeded
    rw [not_not] at succeeded
    subst succeeded
    cases same
    exact ⟨rfl, frameSetFde_range wellFormed contains set_eq⟩

/-! ## The scan -/

theorem Augmentation.encode_ne_omit {aug : Augmentation} {dbgPointerSize : Nat}
    (wellFormed : aug.WellFormed dbgPointerSize) : aug.encode ≠ ehPeOmit := by
  have items_keep (items : List AugItem)
      (wellFormed : ∀ item ∈ items, item.WellFormed dbgPointerSize) (before : Byte)
      (present : before ≠ ehPeOmit) : items.foldl AugItem.encode before ≠ ehPeOmit := by
    induction items generalizing before with
    | nil => exact present
    | cons item items ih =>
        have item_wellFormed := wellFormed item List.mem_cons_self
        refine ih (fun other member => wellFormed other (List.mem_cons_of_mem item member)) _ ?_
        cases item with
        | lsda encode => exact present
        | personality encode pointer => exact present
        | fdeEncode encode => exact item_wellFormed
  have absolute : ehPeAbsptr ≠ ehPeOmit := by decide
  cases aug with
  | none => exact absolute
  | eh data => exact absolute
  | z length items padding => exact items_keep items wellFormed.2.2 ehPeAbsptr absolute

/-- An entry stands behind those in front of it. -/
theorem Stands.entry {before after : List Entry} {e : Entry}
    (stands : Stands dbg (before ++ e :: after)) :
    e.WellFormed dbg.order dbg.dbgPointerSize ∧
      dbg.ds.Contains dbg.mem (entriesLength dbg before)
        (e.bytes dbg.order dbg.dbgPointerSize) := by
  refine ⟨stands.wellFormed e (List.mem_append_right before List.mem_cons_self), ?_⟩
  obtain ⟨terminator, -, contains⟩ := stands.contains
  have whole := contains.left
  rw [entryBytes, List.flatMap_append, List.flatMap_cons] at whole
  have here := whole.right.left
  rwa [Nat.zero_add] at here

/-- Behind the entries nothing is found. -/
theorem getNextFde_end {entries : List Entry} (stands : Stands dbg entries)
    (here : state.dbgEhOffset = entriesLength dbg entries)
    (inside : state.dbgEhOffset < dbg.dbgEhSize) :
    getNextFde dbg state = some (-1, state) := by
  obtain ⟨terminator, ended | rfl, contains⟩ := stands.contains
  · rw [here, ended.2, dbg.sizes_eq] at inside
    exact absurd inside (Nat.lt_irrefl _)
  · have closing := contains.right
    rw [Nat.zero_add, show (entryBytes _ _ entries).length = state.dbgEhOffset from here.symm]
      at closing
    have zero_length : dbg.ds.Contains dbg.mem state.dbgEhOffset
        (lengthBytes dbg.order false 0) := closing
    rw [getNextFde, if_pos (dbg.sizes_eq ▸ inside), zero_length.readLength (by decide),
      Option.bind_some]
    dsimp only
    rw [if_neg (Nat.not_lt_zero _), if_pos rfl]

/-- Where the scan is: behind some entries, with what their CIEs have left, and not at an
FDE for the address. -/
structure Scanned (dbg : FrameDebug) (pc : Nat) (start : Cie) (earlier scanned : List Entry)
    (state : EhState) : Prop where
  position : ∃ passed rest, scanned = passed ++ rest ∧
    state.dbgEhOffset = entriesLength dbg (earlier ++ passed) ∧
    (Slot.after start.cieFdeEncode passed).Keeps dbg start state.cie
  away : ¬ state.fde.Covers pc

/-- The FDE that the state holds has been read as it stands behind some of the entries,
with what the CIEs on the way have left. -/
def FoundFde (dbg : FrameDebug) (start : Cie) (earlier scanned : List Entry) (state : EhState) :
    Prop :=
  ∃ passed f rest, scanned = passed ++ .fde f :: rest ∧
    state.fde.fdeOffset = entriesLength dbg (earlier ++ passed) ∧
    (Slot.after start.cieFdeEncode passed).Keeps dbg start state.cie ∧
    RangeRead dbg (entriesLength dbg (earlier ++ passed))
      (entriesLength dbg (earlier ++ passed) + lengthWidth f.wide + 4) state.cie.cieFdeEncode
      state.fde

/-- A step of the scan: to behind the next entry, or to an FDE for the address. -/
theorem Scanned.step {pc : Nat} {earlier scanned : List Entry} {ret : Int}
    (stands : Stands dbg (earlier ++ scanned))
    (at_entry : Scanned dbg pc start earlier scanned state)
    (inside : state.dbgEhOffset < dbg.dbgEhSize)
    (found : getNextFde dbg state = some (ret, state')) (nonneg : 0 ≤ ret) :
    (¬ state'.fde.Covers pc → Scanned dbg pc start earlier scanned state') ∧
      (state'.fde.Covers pc → FoundFde dbg start earlier scanned state') := by
  obtain ⟨⟨passed, rest, scanned_eq, here, keeps⟩, away⟩ := at_entry
  cases rest with
  | nil =>
      rw [List.append_nil] at scanned_eq
      subst scanned_eq
      rw [getNextFde_end stands here inside] at found
      cases found
      exact absurd nonneg (by decide)
  | cons e rest =>
      have split : earlier ++ scanned = (earlier ++ passed) ++ e :: rest := by
        rw [scanned_eq, List.append_assoc]
      obtain ⟨wellFormed, contains⟩ := Stands.entry (split ▸ stands)
      rw [← here] at contains
      obtain ⟨rfl, next⟩ := getNextFde_entry wellFormed contains found nonneg
      have next_eq : state'.dbgEhOffset = entriesLength dbg (earlier ++ (passed ++ [e])) := by
        rw [next, here, ← List.append_assoc, entriesLength_concat]
      have scanned_next : scanned = (passed ++ [e]) ++ rest := by
        rw [scanned_eq, List.append_assoc, List.singleton_append]
      cases e with
      | cie c =>
          obtain ⟨fde_eq, keeps⟩ := getNextFde_cie wellFormed contains found keeps
          rw [← Slot.after_concat] at keeps
          refine ⟨fun away => ⟨⟨passed ++ [.cie c], rest, scanned_next, next_eq, keeps⟩, away⟩,
            fun covers => absurd (fde_eq ▸ covers) away⟩
      | fde f =>
          obtain ⟨cie_eq, offset_eq, range⟩ := getNextFde_fde wellFormed contains found
          rw [← cie_eq] at keeps range
          rw [here] at offset_eq range
          have kept : (Slot.after start.cieFdeEncode (passed ++ [.fde f])).Keeps dbg start
              state'.cie := by
            rw [Slot.after_concat]
            exact keeps
          exact ⟨fun away => ⟨⟨passed ++ [.fde f], rest, scanned_next, next_eq, kept⟩, away⟩,
            fun _ => ⟨passed, f, rest, scanned_eq, offset_eq, keeps, range⟩⟩

/-- The FDE that a lookup finds has been read with what the CIEs on the way have left. -/
theorem foundFde_of_ok {earlier scanned : List Entry} (stands : Stands dbg (earlier ++ scanned))
    {fuel pc : Nat} {result : FdeAtPc}
    (found : dwarfGetFdeAtPc dbg fuel (entriesLength dbg earlier) pc start = .done result)
    (ok : result.ret = dlvOk) : FoundFde dbg start earlier scanned result.state := by
  have begins : Scanned dbg pc start earlier scanned
      ⟨entriesLength dbg earlier, .zero, start⟩ :=
    ⟨⟨[], scanned, rfl, by rw [List.append_nil], ⟨rfl, ⟨rfl, rfl, rfl, rfl, rfl⟩⟩⟩,
      fun covers => Nat.not_lt_zero pc covers.2⟩
  refine loop_result (Scanned dbg pc start earlier scanned)
    (fun result => result.ret = dlvOk → FoundFde dbg start earlier scanned result.state)
    (fun state state' scanned_to round => ?_) (fun state result scanned_to round ok => ?_)
    begins found ok
  · obtain ⟨inside, ret, nonneg, found, away⟩ := fdeAtPcBody_again_iff.mp round
    exact (scanned_to.step stands inside found nonneg).1 away
  · unfold fdeAtPcBody at round
    split at round
    · rename_i inside
      obtain ⟨⟨ret, next⟩, found, rest⟩ := Exec.bind_eq_done round
      dsimp only at rest
      split at rest
      · cases rest
        exact absurd ok (show ¬ dlvNoEntry = dlvOk by decide)
      · rename_i nonneg
        split at rest
        · rename_i covers
          cases rest
          exact (scanned_to.step stands inside (Exec.ofOption_eq_done found)
            (not_lt.mp nonneg)).2 covers
        · cases rest
    · cases round
      exact absurd ok (show ¬ dlvNoEntry = dlvOk by decide)

end

/-- The FDE that a lookup finds behind some entries, with what the CIEs on the way have
left, has been read with the CIE that it refers to exactly if that agrees with this
CIE. -/
theorem fdeAtPc_readWith_iff {dbg : FrameDebug} {earlier scanned : List Entry}
    (stands : Stands dbg (earlier ++ scanned)) (named : Named dbg (earlier ++ scanned))
    {fuel pc : Nat} {start : Cie} {result : FdeAtPc}
    (found : dwarfGetFdeAtPc dbg fuel (entriesLength dbg earlier) pc start = .done result)
    (ok : result.ret = dlvOk) :
    ∃ passed f rest, scanned = passed ++ .fde f :: rest ∧
      result.state.fde.fdeOffset = entriesLength dbg (earlier ++ passed) ∧
      (∃ c, Refers dbg (earlier ++ passed) f c) ∧
      ∀ c, Refers dbg (earlier ++ passed) f c →
        (ReadWith dbg c (entriesLength dbg (earlier ++ passed))
            (entriesLength dbg (earlier ++ passed) + lengthWidth f.wide + 4) result.state ↔
          (Slot.after start.cieFdeEncode passed).Agrees dbg start c) := by
  obtain ⟨passed, f, rest, scanned_eq, offset_eq, keeps, range⟩ := foundFde_of_ok stands found ok
  have split : earlier ++ scanned = (earlier ++ passed) ++ .fde f :: rest := by
    rw [scanned_eq, List.append_assoc]
  refine ⟨passed, f, rest, scanned_eq, offset_eq, named _ f rest split, fun c refers => ?_⟩
  obtain ⟨front, back, before_eq, -⟩ := refers
  have member : Entry.cie c ∈ earlier ++ scanned := by
    rw [split, before_eq]
    exact List.mem_append_left _ (List.mem_append_right front List.mem_cons_self)
  have wellFormed := stands.wellFormed _ member
  exact keeps.readWith_iff (Augmentation.encode_ne_omit wellFormed.2) range

/-! ## An FDE of the first of two CIEs -/

theorem factor_ends : ¬ Leb.Continues 0x78 := by
  decide

theorem other_factor_ends : ¬ Leb.Continues 0x7c := by
  decide

/-- A signed number of one byte. -/
def smallSleb (b : Byte) (ends : ¬ Leb.Continues b) : Sleb where
  value := if Leb.group b < 64 then Leb.group b else Leb.group b - 128
  bytes := [b]
  valid := .last ends
  low := by
    have := Leb.group_lt b
    split <;> omega
  high := by
    have := Leb.group_lt b
    split <;> omega

/-- A CIE without augmentation and instructions. -/
def bareCie (factor : Byte) (ends : ¬ Leb.Continues factor) : CieEntry where
  wide := false
  version := 1
  aug := .none
  caf := .byte 1 one_ends
  daf := smallSleb factor ends
  ra := [16]
  instrs := []
  known := .inl ⟨rfl, rfl⟩

/-- The factors -8 and -4, and the range from 0x100 up to 0x110, which refers to the
first. -/
def twoCies : List Entry :=
  [.cie (bareCie 0x78 factor_ends), .cie (bareCie 0x7c other_factor_ends),
    .fde ⟨false, 30, Endianness.lsb.bytes 8 0x100 ++ Endianness.lsb.bytes 8 0x10⟩]

theorem twoCies_fits : 0x1000 + (entryBytes .lsb 8 twoCies).length < 2 ^ 47 := by
  decide

theorem fifty_lt : 50 < 2 ^ 64 := by
  decide

def twoCiesDebug : FrameDebug where
  order := .lsb
  mem := .image 0x1000 (entryBytes .lsb 8 twoCies) twoCies_fits
  ds := ⟨0x1000, 50⟩
  dsAddr := 0x1000
  dbgPointerSize := 8
  dbgEhSize := 50
  val _ := 0
  pointer_known := eight_known
  sizes_eq := rfl
  size_lt := fifty_lt

def Cie.zero : Cie := ⟨0, 0, 0, 0, 0, 0, 0, 0, 0, 0, 0, 0, 0⟩

/-- What the lookup leaves: the second CIE. -/
def twoCiesFound : FdeAtPc where
  ret := 0
  pcs := some (0x100, 0x10f)
  state := {
    dbgEhOffset := 50
    fde := ⟨0x101a, 26, 20, 30, 0x100, 0x10, 0, 0, 0x1032, 0⟩
    cie := ⟨13, 9, 1, 0x1016, 0, 1, 2 ^ 64 - 4, 16, 0, 0, 0, 0x101a, 0⟩ }

theorem twoCies_found :
    dwarfGetFdeAtPc twoCiesDebug 4 (entriesLength twoCiesDebug []) 0x108 .zero =
      .done twoCiesFound := by
  decide

theorem twoCies_stands : Stands twoCiesDebug ([] ++ twoCies) where
  wellFormed := by
    intro e member
    rcases List.mem_cons.mp member with rfl | member
    · exact ⟨by decide, trivial⟩
    · rcases List.mem_cons.mp member with rfl | member
      · exact ⟨by decide, trivial⟩
      · rw [List.mem_singleton.mp member]
        exact ⟨by decide, by decide, by decide⟩
  contains := by
    refine ⟨[], .inl ⟨rfl, by decide⟩, ?_, by decide, by decide⟩
    exact Memory.image_holds twoCies_fits [] [] (List.append_assoc _ _ _)

theorem twoCies_refers : Refers twoCiesDebug
    [.cie (bareCie 0x78 factor_ends), .cie (bareCie 0x7c other_factor_ends)]
    ⟨false, 30, Endianness.lsb.bytes 8 0x100 ++ Endianness.lsb.bytes 8 0x10⟩
    (bareCie 0x78 factor_ends) :=
  ⟨[], [.cie (bareCie 0x7c other_factor_ends)], rfl, by decide⟩

theorem twoCies_named : Named twoCiesDebug ([] ++ twoCies) := by
  intro before f after split
  rcases before with _ | ⟨first, _ | ⟨second, before⟩⟩
  · cases split
  · cases split
  · rcases before with _ | ⟨third, before⟩
    · cases split
      exact ⟨_, twoCies_refers⟩
    · have length_eq := congrArg List.length split
      simp only [twoCies, List.nil_append, List.cons_append, List.length_append,
        List.length_cons, List.length_nil] at length_eq
      omega

theorem fdeAtPc_readWith_iff_twoCies :
    ∃ passed f rest, twoCies = passed ++ .fde f :: rest ∧
      twoCiesFound.state.fde.fdeOffset = entriesLength twoCiesDebug ([] ++ passed) ∧
      (∃ c, Refers twoCiesDebug ([] ++ passed) f c) ∧
      ∀ c, Refers twoCiesDebug ([] ++ passed) f c →
        (ReadWith twoCiesDebug c (entriesLength twoCiesDebug ([] ++ passed))
            (entriesLength twoCiesDebug ([] ++ passed) + lengthWidth f.wide + 4)
            twoCiesFound.state ↔
          (Slot.after Cie.zero.cieFdeEncode passed).Agrees twoCiesDebug .zero c) :=
  fdeAtPc_readWith_iff twoCies_stands twoCies_named twoCies_found rfl

/-- The FDE is found with the factor of the second CIE. -/
theorem twoCies_second_left :
    ¬ ∀ (dbg : FrameDebug) (earlier scanned : List Entry) (fuel pc : Nat) (start : Cie)
        (result : FdeAtPc), Stands dbg (earlier ++ scanned) → Named dbg (earlier ++ scanned) →
      dwarfGetFdeAtPc dbg fuel (entriesLength dbg earlier) pc start = .done result →
      result.ret = dlvOk →
      ∀ passed f rest c, scanned = passed ++ .fde f :: rest →
        result.state.fde.fdeOffset = entriesLength dbg (earlier ++ passed) →
        Refers dbg (earlier ++ passed) f c →
        ReadWith dbg c (entriesLength dbg (earlier ++ passed))
          (entriesLength dbg (earlier ++ passed) + lengthWidth f.wide + 4) result.state := by
  intro claim
  have read := claim twoCiesDebug [] twoCies 4 0x108 .zero twoCiesFound twoCies_stands
    twoCies_named twoCies_found rfl _ _ [] (bareCie 0x78 factor_ends) rfl (by decide)
    twoCies_refers
  have factors_eq : twoCiesFound.state.cie.cieDaf = (bareCie 0x78 factor_ends).daf.word :=
    read.daf_eq
  exact absurd factors_eq (by decide)

end Jos64.Frame
