import Jos64.Dwarf.Contents
import Jos64.Frame.Core

/-!
# Entries of the frame section

A CIE has an augmentation string that says which data it has besides the alignment
factors and its instructions.  The reader takes in those without a string and those
whose string begins with a `z`, and passes over others.
-/

namespace Jos64.Frame

open Dwarf Leb

/-! ## Augmentations -/

/-- The bytes are those of a pointer in the encoding. -/
def PointerSpans (dbgPointerSize : Nat) (encode : Byte) (bytes : List Byte) : Prop :=
  if encode = ehPeOmit then bytes = []
  else
    match (encode &&& 0x0f).toNat with
    | 0x00 => bytes.length = dbgPointerSize
    | 0x01 | 0x09 => Ended bytes
    | 0x02 | 0x0a => bytes.length = 2
    | 0x03 | 0x0b => bytes.length = 4
    | 0x04 | 0x0c => bytes.length = 8
    | _ => False

/-- A letter of the augmentation string with its data: the encoding of a pointer that
is in the FDEs, an encoded pointer, and the encoding of the ranges. -/
inductive AugItem where
  | lsda (encode : Byte)
  | personality (encode : Byte) (pointer : List Byte)
  | fdeEncode (encode : Byte)

namespace AugItem

def letter : AugItem → Byte
  | lsda _ => 0x4c
  | personality .. => 0x50
  | fdeEncode _ => 0x52

def data : AugItem → List Byte
  | lsda encode => [encode]
  | personality encode pointer => encode :: pointer
  | fdeEncode encode => [encode]

def WellFormed (dbgPointerSize : Nat) : AugItem → Prop
  | lsda _ => True
  | personality encode pointer => PointerSpans dbgPointerSize encode pointer
  | fdeEncode encode => encode ≠ ehPeOmit

/-- The encoding of the ranges behind an item. -/
def encode (before : Byte) : AugItem → Byte
  | fdeEncode encode => encode
  | _ => before

end AugItem

/-- No augmentation, `eh` and its data, or `z` and letters, the length of their data,
and what the length counts besides. -/
inductive Augmentation where
  | none
  | eh (data : Nat)
  | z (length : Uleb) (items : List AugItem) (padding : List Byte)

namespace Augmentation

def text : Augmentation → List Byte
  | none => []
  | eh _ => [0x65, 0x68]
  | z _ items _ => 0x7a :: items.map AugItem.letter

def itemData (items : List AugItem) : List Byte :=
  items.flatMap AugItem.data

/-- The encoding of the ranges in the FDEs. -/
def encode : Augmentation → Byte
  | z _ items _ => items.foldl AugItem.encode ehPeAbsptr
  | _ => ehPeAbsptr

/-- The data in front of the alignment factors. -/
def ehData (order : Endianness) (dbgPointerSize : Nat) : Augmentation → List Byte
  | eh data => order.bytes dbgPointerSize data
  | _ => []

/-- The data behind the return address register. -/
def zData : Augmentation → List Byte
  | z length items padding => length.bytes ++ (itemData items ++ padding)
  | _ => []

def WellFormed (dbgPointerSize : Nat) : Augmentation → Prop
  | z length items padding =>
      length.value = (itemData items ++ padding).length ∧ length.value < 2 ^ 31 ∧
        ∀ item ∈ items, item.WellFormed dbgPointerSize
  | _ => True

end Augmentation

/-! ## Entries -/

/-- A CIE of version 1 or 3.  The return address register is a byte or a number. -/
structure CieEntry where
  wide : Bool
  version : Nat
  aug : Augmentation
  caf : Uleb
  daf : Sleb
  ra : List Byte
  instrs : List Byte
  known : version = 1 ∧ ra.length = 1 ∨ version = 3 ∧ Ended ra

/-- An FDE: how far its CIE is in front of this number, and the bytes behind it. -/
structure FdeEntry where
  wide : Bool
  ciePointer : Nat
  rest : List Byte

inductive Entry where
  | cie (c : CieEntry)
  | fde (f : FdeEntry)

section

variable (order : Endianness) (dbgPointerSize : Nat)

namespace CieEntry

/-- The bytes behind the augmentation string. -/
def fieldBytes (c : CieEntry) : List Byte :=
  c.aug.ehData order dbgPointerSize ++ (c.caf.bytes ++ (c.daf.bytes ++ (c.ra ++ (c.aug.zData ++
    c.instrs))))

/-- What the length counts. -/
def contents (c : CieEntry) : List Byte :=
  order.bytes (offsetWidth c.wide) 0 ++
    (order.bytes 1 c.version ++ ((c.aug.text ++ [0]) ++ c.fieldBytes order dbgPointerSize))

end CieEntry

def FdeEntry.contents (f : FdeEntry) : List Byte :=
  order.bytes 4 f.ciePointer ++ f.rest

namespace Entry

def wide : Entry → Bool
  | cie c => c.wide
  | fde f => f.wide

def contents : Entry → List Byte
  | cie c => c.contents order dbgPointerSize
  | fde f => f.contents order

def bytes (e : Entry) : List Byte :=
  lengthBytes order e.wide (e.contents order dbgPointerSize).length ++
    e.contents order dbgPointerSize

/-- The length is one that can be written. -/
def WellFormed (e : Entry) : Prop :=
  ((e.contents order dbgPointerSize).length < if e.wide then 2 ^ 64 else 0xffffffff) ∧
    match e with
    | cie c => c.aug.WellFormed dbgPointerSize
    | fde f => 0 < f.ciePointer ∧ f.ciePointer < 2 ^ 32

end Entry

def entryBytes (entries : List Entry) : List Byte :=
  entries.flatMap (Entry.bytes order dbgPointerSize)

end

/-! ## Strings -/

section

variable {dbg : FrameDebug}

theorem textAt_eq {mem : Memory} {text : List Byte} (nonzero : ∀ c ∈ text, c ≠ 0)
    {address room : Nat} (held : mem.Holds address (text ++ [0])) (enough : text.length < room) :
    textAt mem address room = some text := by
  induction text generalizing address room with
  | nil =>
      obtain ⟨room, rfl⟩ : ∃ more, room = more + 1 := ⟨room - 1, by omega⟩
      have mapped := (Memory.holds_cons.mp held).1
      rw [textAt, mapped, Option.bind_some, if_neg fun ne => ne rfl]
  | cons c text ih =>
      obtain ⟨room, rfl⟩ : ∃ more, room = more + 1 := ⟨room - 1, by omega⟩
      obtain ⟨mapped, rest⟩ := Memory.holds_cons.mp held
      rw [List.length_cons] at enough
      rw [textAt, mapped, Option.bind_some, if_pos (nonzero c List.mem_cons_self),
        ih (fun c' member => nonzero c' (List.mem_cons_of_mem c member)) rest (by omega),
        Option.map_some]

theorem AugItem.letter_mem (item : AugItem) : item.letter ∈ [(0x4c : Byte), 0x50, 0x52] := by
  cases item with
  | lsda encode => exact List.mem_cons_self
  | personality encode pointer => exact List.mem_cons_of_mem _ List.mem_cons_self
  | fdeEncode encode => exact List.mem_cons_of_mem _ (List.mem_cons_of_mem _ List.mem_cons_self)

/-- The characters of the augmentation strings. -/
theorem Augmentation.mem_text {aug : Augmentation} {c : Byte} (member : c ∈ aug.text) :
    c ∈ [(0x65 : Byte), 0x68, 0x7a, 0x4c, 0x50, 0x52] := by
  cases aug with
  | none => cases member
  | eh data => exact List.mem_append_left [0x7a, 0x4c, 0x50, 0x52] member
  | z length items padding =>
      rcases List.mem_cons.mp member with rfl | later
      · decide
      · obtain ⟨item, -, rfl⟩ := List.mem_map.mp later
        exact List.mem_append_right [0x65, 0x68, 0x7a] item.letter_mem

theorem Augmentation.text_nonzero (aug : Augmentation) : ∀ c ∈ aug.text, c ≠ 0 := by
  rintro c member rfl
  exact absurd (mem_text member) (by decide)

/-- A character that is not in the text is not found. -/
theorem strstrLoop_of_notMem {c : Byte} {text : List Byte} (absent : c ∉ text)
    (pattern : List Byte) (len : Nat) :
    Strings.strstrLoop c pattern len (text ++ [0]) = some none := by
  induction text with
  | nil => rfl
  | cons sc text ih =>
      have other : sc ≠ c := fun same => absent (same ▸ List.mem_cons_self)
      rw [List.cons_append, Strings.strstrLoop, if_pos other]
      split
      · rfl
      · exact ih fun member => absent (List.mem_cons_of_mem sc member)

/-- Only the augmentation `eh` has it. -/
theorem strstr_eh {aug : Augmentation} (known : ∀ data, aug ≠ .eh data) :
    Strings.strstr (aug.text ++ [0]) [0x65, 0x68, 0] = some none := by
  have absent : 0x65 ∉ aug.text := by
    intro member
    cases aug with
    | none => cases member
    | eh data => exact known data rfl
    | z length items padding =>
        rcases List.mem_cons.mp member with same | later
        · exact absurd same (by decide)
        · obtain ⟨item, -, same⟩ := List.mem_map.mp later
          have letter := item.letter_mem
          rw [same] at letter
          exact absurd letter (by decide)
  exact strstrLoop_of_notMem absent [0x68, 0] 1

/-! ## Encoded pointers -/

theorem dbgRead_spans (order : Endianness) {mem : Memory} {ds : Section} {offset : Nat}
    {bytes : List Byte} (known : IsWidth bytes.length) (held : mem.Holds (ds.at offset) bytes) :
    ∃ value, dbgRead order mem ds offset bytes.length =
      some (value, u64 (offset + bytes.length)) := by
  rw [dbgRead, if_pos (show bytes.length = 1 ∨ _ from known), Memory.read_of_holds held]
  exact ⟨_, rfl⟩

theorem readFormat_spans {ds : Section} {offset : Nat} {format : Byte} {bytes : List Byte}
    (spans : match format.toNat with
      | 0x00 => bytes.length = dbg.dbgPointerSize
      | 0x01 | 0x09 => Ended bytes
      | 0x02 | 0x0a => bytes.length = 2
      | 0x03 | 0x0b => bytes.length = 4
      | 0x04 | 0x0c => bytes.length = 8
      | _ => False)
    (held : dbg.mem.Holds (ds.at offset) bytes) :
    ∃ value, readFormat dbg ds offset format =
      some (some (value, u64 (offset + bytes.length))) := by
  have fixed {width : Nat} (known : IsWidth width) (length_eq : bytes.length = width) :
      ∃ value, dbgRead dbg.order dbg.mem ds offset width =
        some (value, u64 (offset + bytes.length)) := by
    subst length_eq
    exact dbgRead_spans dbg.order known held
  unfold readFormat
  split at spans
  case h_1 found =>
    have known : IsWidth dbg.dbgPointerSize := by
      rcases dbg.pointer_known with eq | eq
      · rw [eq]
        decide
      · rw [eq]
        decide
    obtain ⟨value, read⟩ := fixed known spans
    rw [found]
    dsimp only
    rw [read]
    exact ⟨value, rfl⟩
  case h_2 found =>
    rw [found]
    dsimp only
    rw [readUleb128_ended spans held]
    exact ⟨_, rfl⟩
  case h_3 found =>
    rw [found]
    dsimp only
    rw [readSleb128_eq spans held]
    exact ⟨_, rfl⟩
  case h_10 => exact spans.elim
  all_goals
    rename_i found
    obtain ⟨value, read⟩ := fixed (by decide) spans
    rw [found]
    dsimp only
    rw [read]
    exact ⟨_, rfl⟩

/-- A pointer is read, and the offset is the one behind it. -/
theorem frameReadLsbEncoded_spans {ds : Section} {encode : Byte} {bytes : List Byte}
    (spans : PointerSpans dbg.dbgPointerSize encode bytes) {offset : Nat}
    (held : dbg.mem.Holds (ds.at offset) bytes) (small : offset < 2 ^ 64) (val pc : Nat) :
    ∃ value, frameReadLsbEncoded dbg ds val offset encode pc =
      some (dleNone, value, u64 (offset + bytes.length)) := by
  unfold PointerSpans at spans
  unfold frameReadLsbEncoded
  split at spans
  · rename_i omitted
    subst spans
    rw [if_pos omitted, List.length_nil, Nat.add_zero, u64_of_lt small]
    exact ⟨val, rfl⟩
  · rename_i present
    rw [if_neg present]
    obtain ⟨value, read_eq⟩ := readFormat_spans spans held
    dsimp only
    rw [read_eq, Option.map_some]
    dsimp only
    split
    · exact ⟨_, rfl⟩
    · exact ⟨_, rfl⟩

end

end Jos64.Frame
