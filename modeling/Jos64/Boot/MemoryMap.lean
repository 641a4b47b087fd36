import Jos64.Byte
import Jos64.Loop.Core
import Jos64.Store.Dword

/-!
# The memory map

Before it leaves real mode, the boot loader asks the BIOS for its map of the memory, one
entry a call, and leaves it behind the boot information.  The size of an entry is stored in
front of it in the next round, when the BIOS has already returned.
-/

namespace Jos64.Boot

open Loop Store

/-! ## The machine in real mode -/

/-- The registers that are used, the carry flag and the memory. -/
structure RealMode where
  eax : BitVec 32
  ebx : BitVec 32
  ecx : BitVec 32
  edx : BitVec 32
  edi : BitVec 32
  ebp : BitVec 32
  cf : Bool
  mem : Nat → Byte

/-- `movl` to an address, which has to lie in the segment. -/
def RealMode.movl (s : RealMode) (value address : BitVec 32) : Exec RealMode :=
  if address.toNat + 4 ≤ 2 ^ 16 then
    .done { s with mem := putDword s.mem address.toNat value }
  else .fault

/-! ## The boot information -/

def multibootInfo : Nat := 0x7000
def e820Map : Nat := multibootInfo + 52

/-- `MB_flag` -/
def mbFlag : Nat := multibootInfo

/-- `MB_mmap_len` -/
def mbMmapLen : Nat := multibootInfo + 44

/-- `MB_mmap_addr` -/
def mbMmapAddr : Nat := multibootInfo + 48

/-- `SMAP` -/
def smap : BitVec 32 := 0x534D4150

section

variable (int15 : RealMode → RealMode)

/-- `done` -/
def publish (s : RealMode) : Exec RealMode :=
  (s.movl s.ecx (s.edi - 4)).bind fun s =>
  let mem := write s.mem mbFlag [0x40, 0x00]
  let mem := putDword mem mbMmapAddr (BitVec.ofNat 32 e820Map)
  .done { s with mem := putDword mem mbMmapLen s.ebp }

/-- `next_entry` -/
def nextEntry (s : RealMode) : Exec (Next RealMode RealMode) :=
  (s.movl s.ecx (s.edi - 4)).bind fun s =>
  let s := int15 { s with edi := s.edi + 24, eax := 0xe820, ecx := 24 }
  if s.cf then (publish s).bind fun s => .done (.stop s)
  else
    let s := { s with ebp := s.ebp + 24 }
    if s.ebx = 0 then (publish s).bind fun s => .done (.stop s)
    else .done (.again s)

/-- `do_e820`, up to `failed`. -/
def doE820 (fuel : Nat) (s : RealMode) : Exec RealMode :=
  let s := int15 { s with
    eax := 0xe820, edi := BitVec.ofNat 32 e820Map + 4, ebx := 0, edx := smap, ecx := 24 }
  if s.cf then .done s
  else if s.edx ≠ s.eax then .done s
  else if s.ebx = 0 then .done s
  else loop (nextEntry int15) fuel { s with ebp := 24 }

end

/-! ## The BIOS -/

/-- A call that asks for the entry of a continuation value. -/
structure Asks (ebx : BitVec 32) (s : RealMode) : Prop where
  eax_eq : s.eax = 0xe820
  ebx_eq : s.ebx = ebx
  ecx_eq : s.ecx = 24
  edx_eq : s.edx = smap

/-- An entry and the value that the next call has to pass. -/
def RealMode.reply (s : RealMode) (entry : List Byte) (next : BitVec 32) : RealMode :=
  { s with
    eax := smap, ebx := next, ecx := BitVec.ofNat 32 entry.length, cf := false,
    mem := write s.mem s.edi.toNat entry }

@[simp]
theorem RealMode.reply_cf (s : RealMode) (entry : List Byte) (next : BitVec 32) :
    (s.reply entry next).cf = false :=
  rfl

@[simp]
theorem RealMode.reply_ebx (s : RealMode) (entry : List Byte) (next : BitVec 32) :
    (s.reply entry next).ebx = next :=
  rfl

/-- How the BIOS says that there are no more entries: with the last one, or in the call
behind it. -/
inductive Ending where
  | zero
  | carry
  deriving DecidableEq

/-- The entries that the BIOS has from a continuation value on. -/
inductive Serves (int15 : RealMode → RealMode) : BitVec 32 → List (List Byte) → Ending → Prop
  | past {ebx : BitVec 32}
      (answers : ∀ s, Asks ebx s → (int15 s).cf = true ∧ (int15 s).edi = s.edi ∧
        (int15 s).ebp = s.ebp ∧ (int15 s).mem = s.mem) :
      Serves int15 ebx [] .carry
  | last {ebx : BitVec 32} {entry : List Byte} (fits : entry.length ≤ 24)
      (answers : ∀ s, Asks ebx s → int15 s = s.reply entry 0) :
      Serves int15 ebx [entry] .zero
  | entry {ebx next : BitVec 32} {entry : List Byte} {entries : List (List Byte)}
      {ending : Ending} (fits : entry.length ≤ 24) (more : next ≠ 0)
      (answers : ∀ s, Asks ebx s → int15 s = s.reply entry next)
      (behind : Serves int15 next entries ending) :
      Serves int15 ebx (entry :: entries) ending

/-! ## The map -/

/-- The address of the slot of an entry. -/
def slotAddress (index : Nat) : Nat :=
  e820Map + 24 * index

/-- An entry with its size in front of it stands at an address.  Of a longer entry the next one
has taken what is behind its 20 bytes. -/
def SlotAt (mem : Nat → Byte) (address : Nat) (entry : List Byte) : Prop :=
  dword mem address = entry.length ∧ Holds mem (address + 4) (entry.take 20)

/-- The entries stand in a row. -/
def Slots (mem : Nat → Byte) (entries : List (List Byte)) : Prop :=
  ∀ index, (inside : index < entries.length) → SlotAt mem (slotAddress index) entries[index]

/-- The boot information has the map. -/
structure Published (mem : Nat → Byte) (entries : List (List Byte)) : Prop where
  flag : Holds mem mbFlag [0x40, 0x00]
  mmapAddr : dword mem mbMmapAddr = e820Map
  mmapLen : dword mem mbMmapLen = 24 * entries.length
  slots : Slots mem entries

/-- Nothing has changed outside some addresses. -/
def Kept (low high : Nat) (mem mem' : Nat → Byte) : Prop :=
  ∀ address, address < low ∨ high ≤ address → mem' address = mem address

section

variable {mem mem' : Nat → Byte}

theorem SlotAt.congr {address : Nat} {entry : List Byte} (slot : SlotAt mem address entry)
    (same : ∀ offset < 24, mem' (address + offset) = mem (address + offset)) :
    SlotAt mem' address entry := by
  constructor
  · rw [← slot.1]
    exact dword_congr fun offset small => same offset (by omega)
  · apply holds_congr slot.2
    intro index inside
    rw [Nat.add_assoc]
    apply same
    have short := List.length_take_le 20 entry
    omega

theorem Slots.congr {entries : List (List Byte)} (slots : Slots mem entries)
    (same : ∀ address, e820Map ≤ address → address < slotAddress entries.length →
      mem' address = mem address) : Slots mem' entries := by
  intro index inside
  apply (slots index inside).congr
  intro offset small
  apply same
  · exact (Nat.le_add_right _ _).trans (Nat.le_add_right _ _)
  · unfold slotAddress
    omega

/-- What is published is kept with the boot information and the map. -/
theorem Published.congr {entries : List (List Byte)} (published : Published mem entries)
    (same : ∀ address, multibootInfo ≤ address → address < slotAddress entries.length →
      mem' address = mem address) : Published mem' entries := by
  have info {start : Nat} (inside : start < 52) :
      mem' (multibootInfo + start) = mem (multibootInfo + start) := by
    apply same
    · exact Nat.le_add_right _ _
    · unfold slotAddress e820Map
      omega
  constructor
  case flag =>
    apply holds_congr published.flag
    intro index small
    change index < 2 at small
    exact info (by omega)
  case mmapAddr =>
    rw [← published.mmapAddr]
    apply dword_congr
    intro offset small
    unfold mbMmapAddr
    rw [Nat.add_assoc]
    exact info (by omega)
  case mmapLen =>
    rw [← published.mmapLen]
    apply dword_congr
    intro offset small
    unfold mbMmapLen
    rw [Nat.add_assoc]
    exact info (by omega)
  case slots =>
    apply published.slots.congr
    intro address low high
    exact same address ((Nat.le_add_right _ _).trans low) high

/-- One more slot behind the others. -/
theorem Slots.concat {entries : List (List Byte)} (slots : Slots mem entries) {entry : List Byte}
    (slot : SlotAt mem (slotAddress entries.length) entry) : Slots mem (entries ++ [entry]) := by
  intro index inside
  rcases Nat.lt_succ_iff_lt_or_eq.mp (by simpa using inside) with early | last
  · rw [List.getElem_append_left early]
    exact slots index early
  · subst last
    rw [List.getElem_concat_length rfl]
    exact slot

end

/-! ## The rounds -/

theorem edi_sub (index : Nat) :
    BitVec.ofNat 32 (slotAddress index + 4) - 4 = BitVec.ofNat 32 (slotAddress index) := by
  rw [BitVec.ofNat_add]
  exact BitVec.add_sub_cancel _ _

theorem edi_add (index : Nat) :
    BitVec.ofNat 32 (slotAddress index + 4) + 24 =
      BitVec.ofNat 32 (slotAddress (index + 1) + 4) := by
  have next_eq : slotAddress (index + 1) + 4 = slotAddress index + 4 + 24 := by
    unfold slotAddress
    omega
  rw [next_eq, BitVec.ofNat_add (slotAddress index + 4)]
  rfl

theorem e820Map_le (index : Nat) : e820Map ≤ slotAddress index :=
  Nat.le_add_right _ _

theorem slotAddress_lt {index : Nat} (few : index ≤ 125) : slotAddress index + 28 < 2 ^ 16 := by
  unfold slotAddress e820Map multibootInfo
  omega

section

variable {s : RealMode} {mem : Nat → Byte} {entries : List (List Byte)} {entry : List Byte}

/-- The size is stored in front of the entry. -/
theorem movl_size {index : Nat} (few : index ≤ 125)
    (edi_eq : s.edi = BitVec.ofNat 32 (slotAddress index + 4)) :
    s.movl s.ecx (s.edi - 4) =
      .done { s with mem := putDword s.mem (slotAddress index) s.ecx } := by
  have inside := slotAddress_lt few
  have toNat_eq : (s.edi - 4).toNat = slotAddress index := by
    rw [edi_eq, edi_sub, BitVec.toNat_ofNat, Nat.mod_eq_of_lt (by omega)]
  rw [RealMode.movl, toNat_eq, if_pos (by omega)]

/-- The BIOS has answered with an entry, of which the size is not yet stored. -/
structure Answered (mem : Nat → Byte) (entries : List (List Byte)) (entry : List Byte)
    (s : RealMode) : Prop where
  edi_eq : s.edi = BitVec.ofNat 32 (slotAddress entries.length + 4)
  ecx_eq : s.ecx = BitVec.ofNat 32 entry.length
  edx_eq : s.edx = smap
  ebp_eq : s.ebp = BitVec.ofNat 32 (24 * (entries.length + 1))
  fits : entry.length ≤ 24
  slots : Slots s.mem entries
  data : Holds s.mem (slotAddress entries.length + 4) (entry.take 20)
  kept : Kept e820Map (slotAddress (entries.length + 1) + 4) mem s.mem

/-- With its size, the entry is one more slot. -/
theorem Answered.sized (answered : Answered mem entries entry s) :
    Slots (putDword s.mem (slotAddress entries.length) s.ecx) (entries ++ [entry]) := by
  have length : (dwordBytes s.ecx).length = 4 := rfl
  refine Slots.concat (answered.slots.congr fun address _ early => ?_) ⟨?_, ?_⟩
  · exact write_of_outside s.mem (.inl early)
  · have fits := answered.fits
    rw [dword_putDword_self, answered.ecx_eq, BitVec.toNat_ofNat, Nat.mod_eq_of_lt (by omega)]
  · apply holds_congr answered.data
    intro index _
    apply write_of_outside s.mem
    rw [length]
    omega

theorem Answered.sized_kept (answered : Answered mem entries entry s) :
    Kept e820Map (slotAddress (entries.length + 1) + 4) mem
      (putDword s.mem (slotAddress entries.length) s.ecx) := by
  intro address outside
  rw [← answered.kept address outside]
  apply write_of_outside s.mem
  have length : (dwordBytes s.ecx).length = 4 := rfl
  rw [length]
  unfold slotAddress at *
  omega

/-- An answer in the place behind some slots. -/
theorem answered_reply (edi_eq : s.edi = BitVec.ofNat 32 (slotAddress entries.length + 4))
    (edx_eq : s.edx = smap) (few : entries.length ≤ 125) (fits : entry.length ≤ 24)
    (slots : Slots s.mem entries) (kept : Kept e820Map (slotAddress entries.length + 4) mem s.mem)
    (next : BitVec 32) :
    Answered mem entries entry
      { s.reply entry next with ebp := BitVec.ofNat 32 (24 * (entries.length + 1)) } := by
  have inside := slotAddress_lt few
  have toNat_eq : s.edi.toNat = slotAddress entries.length + 4 := by
    rw [edi_eq, BitVec.toNat_ofNat, Nat.mod_eq_of_lt (by omega)]
  refine ⟨edi_eq, rfl, edx_eq, rfl, fits, ?_, ?_, ?_⟩
  · refine slots.congr fun address _ early => write_of_outside s.mem (.inl ?_)
    rw [toNat_eq]
    omega
  · have held : Holds (write s.mem s.edi.toNat entry) s.edi.toNat
        (entry.take 20 ++ entry.drop 20) := by
      rw [List.take_append_drop]
      exact holds_write s.mem s.edi.toNat entry
    rw [← toNat_eq]
    exact held.of_append
  · intro address outside
    change write s.mem s.edi.toNat entry address = mem address
    unfold slotAddress at *
    rw [write_of_outside s.mem (by omega)]
    exact kept address (by omega)

/-- The words of the boot information lie in front of the map. -/
theorem info_kept (store : Nat → Byte) (addr len : BitVec 32) {address : Nat}
    (outside : address < multibootInfo ∨ e820Map ≤ address) :
    putDword (putDword (write store mbFlag [0x40, 0x00]) mbMmapAddr addr) mbMmapLen len address =
      store address := by
  have four (value : BitVec 32) : (dwordBytes value).length = 4 := rfl
  have len_outside : address < mbMmapLen ∨ mbMmapLen + (dwordBytes len).length ≤ address := by
    rw [four]
    unfold mbMmapLen
    unfold e820Map at outside
    omega
  have addr_outside : address < mbMmapAddr ∨ mbMmapAddr + (dwordBytes addr).length ≤ address := by
    rw [four]
    unfold mbMmapAddr
    unfold e820Map at outside
    omega
  have flag_outside : address < mbFlag ∨ mbFlag + [(0x40 : Byte), 0x00].length ≤ address := by
    change _ ∨ mbFlag + 2 ≤ address
    unfold mbFlag
    unfold e820Map at outside
    omega
  rw [putDword, write_of_outside _ len_outside, putDword, write_of_outside _ addr_outside,
    write_of_outside _ flag_outside]

/-- Behind the last size, the boot information is told where the map is. -/
theorem publish_published {index high : Nat} (few : index ≤ 125)
    (edi_eq : s.edi = BitVec.ofNat 32 (slotAddress index + 4))
    (ebp_eq : s.ebp = BitVec.ofNat 32 (24 * entries.length)) (small : entries.length ≤ 125)
    (slots : Slots (putDword s.mem (slotAddress index) s.ecx) entries)
    (kept : Kept e820Map high mem (putDword s.mem (slotAddress index) s.ecx))
    (room : e820Map ≤ high) :
    ∃ s', publish s = .done s' ∧ Published s'.mem entries ∧ Kept multibootInfo high mem s'.mem := by
  refine ⟨_, by rw [publish, movl_size few edi_eq, Exec.done_bind], ⟨?_, ?_, ?_, ?_⟩, ?_⟩
  · apply holds_congr (holds_write (putDword s.mem (slotAddress index) s.ecx) mbFlag [0x40, 0x00])
    intro index inside
    change index < 2 at inside
    refine (write_of_outside _ (.inl ?_)).trans (write_of_outside _ (.inl ?_))
    · unfold mbFlag mbMmapLen
      omega
    · unfold mbFlag mbMmapAddr
      omega
  · exact (dword_putDword_of_apart (.inr le_rfl)).trans dword_putDword_self
  · refine dword_putDword_self.trans ?_
    dsimp only
    rw [ebp_eq, BitVec.toNat_ofNat, Nat.mod_eq_of_lt (by omega)]
  · exact slots.congr fun address behind _ => info_kept _ _ _ (.inr behind)
  · intro address outside
    rcases outside with before | behind
    · have in_front : address < e820Map := before.trans_le (Nat.le_add_right _ _)
      exact (info_kept _ _ _ (.inl before)).trans (kept address (.inl in_front))
    · exact (info_kept _ _ _ (.inr (room.trans behind))).trans (kept address (.inr behind))

/-- The call for the entry behind a slot, whose size has been stored. -/
def RealMode.asking (s : RealMode) (index : Nat) : RealMode :=
  { s with
    eax := 0xe820, ecx := 24, edi := BitVec.ofNat 32 (slotAddress (index + 1) + 4)
    mem := putDword s.mem (slotAddress index) s.ecx }

/-- A round stores the size of the last entry and asks for the next one. -/
theorem nextEntry_eq (int15 : RealMode → RealMode) {index : Nat} (few : index ≤ 125)
    (edi_eq : s.edi = BitVec.ofNat 32 (slotAddress index + 4)) :
    nextEntry int15 s =
      let s := int15 (s.asking index)
      if s.cf then (publish s).bind fun s => .done (.stop s)
      else
        let s := { s with ebp := s.ebp + 24 }
        if s.ebx = 0 then (publish s).bind fun s => .done (.stop s)
        else .done (.again s) := by
  rw [nextEntry, movl_size few edi_eq, Exec.done_bind]
  dsimp only
  rw [edi_eq, edi_add]
  rfl

/-- The answer to the next call takes the place behind. -/
theorem Answered.reply (answered : Answered mem entries entry s)
    (few : entries.length + 1 ≤ 125) {behind : List Byte} (fits : behind.length ≤ 24)
    (next : BitVec 32) :
    Answered mem (entries ++ [entry]) behind
      { (s.asking entries.length).reply behind next with ebp := s.ebp + 24 } := by
  have length_eq : (entries ++ [entry]).length = entries.length + 1 := by simp
  have ebp_eq : s.ebp + 24 = BitVec.ofNat 32 (24 * ((entries ++ [entry]).length + 1)) := by
    rw [answered.ebp_eq, length_eq, Nat.mul_add 24 (entries.length + 1), BitVec.ofNat_add]
    rfl
  rw [ebp_eq]
  apply answered_reply
  · rw [length_eq]
    rfl
  · exact answered.edx_eq
  · rw [length_eq]
    exact few
  · exact fits
  · exact answered.sized
  · rw [length_eq]
    exact answered.sized_kept

theorem length_concat (entries : List (List Byte)) (entry : List Byte) :
    (entries ++ [entry]).length = entries.length + 1 := by
  rw [List.length_append, List.length_singleton]

/-- The BIOS has no more entries in the call behind the last one. -/
theorem Answered.past (answered : Answered mem entries entry s) (few : entries.length + 1 ≤ 125)
    {int15 : RealMode → RealMode} {s' : RealMode} (call : int15 (s.asking entries.length) = s')
    (cf : s'.cf = true) (edi_eq : s'.edi = (s.asking entries.length).edi)
    (ebp_eq : s'.ebp = s.ebp) (mem_eq : s'.mem = (s.asking entries.length).mem) :
    ∃ last, nextEntry int15 s = .done (.stop last) ∧ Published last.mem (entries ++ [entry]) ∧
      Kept multibootInfo (slotAddress (entries.length + 1) + 4) mem last.mem := by
  have outside : ∀ address, address < slotAddress (entries.length + 1) ∨
      slotAddress (entries.length + 1) + 4 ≤ address →
      putDword s'.mem (slotAddress (entries.length + 1)) s'.ecx address =
        putDword s.mem (slotAddress entries.length) s.ecx address := by
    intro address outside
    rw [mem_eq]
    exact write_of_outside _ outside
  have counted : s'.ebp = BitVec.ofNat 32 (24 * (entries ++ [entry]).length) := by
    rw [ebp_eq, length_concat]
    exact answered.ebp_eq
  have slots := answered.sized.congr fun address _ early =>
    outside address (.inl (by rwa [length_concat] at early))
  have kept : Kept e820Map (slotAddress (entries.length + 1) + 4) mem _ :=
    fun address either => (outside address (either.imp_left fun before =>
      before.trans_le (e820Map_le _))).trans (answered.sized_kept address either)
  obtain ⟨last, published, shown, kept'⟩ := publish_published few edi_eq counted
    ((length_concat entries entry).trans_le few) slots kept
    ((e820Map_le _).trans (Nat.le_add_right _ _))
  refine ⟨last, ?_, shown, kept'⟩
  rw [nextEntry_eq int15 (by omega) answered.edi_eq, call]
  dsimp only
  rw [if_pos cf, published, Exec.done_bind]

/-- The BIOS says with the last entry that there are no more. -/
theorem Answered.last (answered : Answered mem entries entry s) (few : entries.length + 2 ≤ 125)
    {int15 : RealMode → RealMode} {behind : List Byte} (fits : behind.length ≤ 24)
    (call : int15 (s.asking entries.length) = (s.asking entries.length).reply behind 0) :
    ∃ last, nextEntry int15 s = .done (.stop last) ∧
      Published last.mem (entries ++ [entry, behind]) ∧
      Kept multibootInfo (slotAddress (entries.length + 2) + 4) mem last.mem := by
  have next := answered.reply (by omega) fits 0
  have counted := next.ebp_eq
  have slots := next.sized
  rw [List.append_assoc, List.singleton_append] at slots
  rw [← length_concat, List.append_assoc, List.singleton_append] at counted
  obtain ⟨last, published, shown, kept⟩ := publish_published (by rw [length_concat]; omega)
    next.edi_eq counted (by simp; omega) slots next.sized_kept
    ((e820Map_le _).trans (Nat.le_add_right _ _))
  rw [length_concat] at kept
  refine ⟨last, ?_, shown, kept⟩
  rw [nextEntry_eq int15 (by omega) answered.edi_eq, call]
  dsimp only
  rw [RealMode.reply_cf, RealMode.reply_ebx, if_neg Bool.false_ne_true, if_pos rfl]
  exact (congrArg (Exec.bind · _) published).trans (Exec.done_bind last _)

/-- The loop takes up the entries that are left. -/
theorem nextEntry_loop {int15 : RealMode → RealMode} {ebx : BitVec 32} {rest : List (List Byte)}
    {ending : Ending} (serves : Serves int15 ebx rest ending)
    (answered : Answered mem entries entry s) (ebx_eq : s.ebx = ebx)
    (few : entries.length + 1 + rest.length ≤ 125) {fuel : Nat} (enough : rest.length < fuel) :
    ∃ s', loop (nextEntry int15) fuel s = .done s' ∧
      Published s'.mem (entries ++ entry :: rest) ∧
      Kept multibootInfo (slotAddress (entries.length + 1 + rest.length) + 4) mem s'.mem := by
  induction serves generalizing s entries entry fuel with
  | past answers =>
      obtain ⟨fuel, rfl⟩ : ∃ more, fuel = more + 1 := ⟨fuel - 1, by omega⟩
      obtain ⟨cf, edi_eq, ebp_eq, mem_eq⟩ :=
        answers (s.asking entries.length) ⟨rfl, ebx_eq, rfl, answered.edx_eq⟩
      obtain ⟨last, round, published, kept⟩ :=
        answered.past few rfl cf edi_eq ebp_eq mem_eq
      exact ⟨last, loop_stop round fuel, published, kept⟩
  | last fits answers =>
      obtain ⟨fuel, rfl⟩ : ∃ more, fuel = more + 1 := ⟨fuel - 1, by omega⟩
      obtain ⟨last, round, published, kept⟩ :=
        answered.last few fits (answers _ ⟨rfl, ebx_eq, rfl, answered.edx_eq⟩)
      exact ⟨last, loop_stop round fuel, published, kept⟩
  | @entry _ next behind rest _ fits more answers serves ih =>
      obtain ⟨fuel, rfl⟩ : ∃ more, fuel = more + 1 := ⟨fuel - 1, by omega⟩
      rw [List.length_cons] at few enough
      have round : nextEntry int15 s = .done (.again
          { (s.asking entries.length).reply behind next with ebp := s.ebp + 24 }) := by
        rw [nextEntry_eq int15 (by omega) answered.edi_eq,
          answers (s.asking entries.length) ⟨rfl, ebx_eq, rfl, answered.edx_eq⟩]
        dsimp only
        rw [RealMode.reply_cf, RealMode.reply_ebx, if_neg Bool.false_ne_true, if_neg more]
        rfl
      obtain ⟨last, run, published, kept⟩ := ih (answered.reply (by omega) fits next) rfl
        (by rw [length_concat]; omega) (Nat.lt_of_succ_lt_succ enough)
      rw [List.append_assoc, List.singleton_append] at published
      rw [length_concat, Nat.add_assoc (entries.length + 1) 1, Nat.add_comm 1] at kept
      exact ⟨last, (loop_again round fuel).trans run, published, kept⟩

end

/-! ## The whole map -/

/-- The number of entries that the loader needs: it gives up if the BIOS says with the first one
that there are no more. -/
def Ending.least : Ending → Nat
  | zero => 2
  | carry => 1

theorem Serves.least_le {int15 : RealMode → RealMode} {ebx : BitVec 32}
    {entries : List (List Byte)} {ending : Ending} (serves : Serves int15 ebx entries ending) :
    ending.least ≤ entries.length + 1 := by
  cases serves with
  | past answers => exact le_rfl
  | last fits answers => exact le_rfl
  | @entry _ _ _ entries ending fits more answers behind =>
      rw [List.length_cons]
      cases ending with
      | zero => exact Nat.le_add_left 2 entries.length
      | carry => exact Nat.le_add_left 1 (entries.length + 1)

/-- The first call. -/
def RealMode.starting (s : RealMode) : RealMode :=
  { s with eax := 0xe820, edi := BitVec.ofNat 32 e820Map + 4, ebx := 0, edx := smap, ecx := 24 }

theorem doE820_reply {int15 : RealMode → RealMode} {s : RealMode} {entry : List Byte}
    {next : BitVec 32} (call : int15 s.starting = s.starting.reply entry next) (fuel : Nat) :
    doE820 int15 fuel s =
      if next = 0 then .done (s.starting.reply entry next)
      else loop (nextEntry int15) fuel { s.starting.reply entry next with ebp := 24 } := by
  change (if (int15 s.starting).cf then .done (int15 s.starting)
    else if (int15 s.starting).edx ≠ (int15 s.starting).eax then .done (int15 s.starting)
    else if (int15 s.starting).ebx = 0 then .done (int15 s.starting)
    else loop (nextEntry int15) fuel { int15 s.starting with ebp := 24 }) = _
  rw [call]
  rfl

section

variable {int15 : RealMode → RealMode} {entries : List (List Byte)} {ending : Ending}

/-- Without enough entries the boot information is left as it is. -/
theorem doE820_few (serves : Serves int15 0 entries ending) (few : entries.length < ending.least)
    (fuel : Nat) (s : RealMode) :
    ∃ s', doE820 int15 fuel s = .done s' ∧
      Kept multibootInfo (slotAddress entries.length + 4) s.mem s'.mem ∧
      ∀ address < e820Map, s'.mem address = s.mem address := by
  have asks : Asks 0 s.starting := ⟨rfl, rfl, rfl, rfl⟩
  cases serves with
  | past answers =>
      obtain ⟨cf, -, -, mem_eq⟩ := answers s.starting asks
      exact ⟨int15 s.starting, if_pos cf, fun address _ => congrFun mem_eq address,
        fun address _ => congrFun mem_eq address⟩
  | @last _ entry fits answers =>
      have kept : ∀ address, address < e820Map + 4 ∨ e820Map + 4 + entry.length ≤ address →
          (s.starting.reply entry 0).mem address = s.mem address :=
        fun address outside => write_of_outside s.mem outside
      refine ⟨_, (doE820_reply (answers s.starting asks) fuel).trans (if_pos rfl),
        fun address outside => kept address ?_,
        fun address before => kept address (.inl (before.trans_le (Nat.le_add_right _ 4)))⟩
      change _ ∨ e820Map + 24 + 4 ≤ address at outside
      unfold multibootInfo at outside
      unfold e820Map multibootInfo at *
      omega
  | entry fits more answers behind =>
      exact absurd behind.least_le (not_le.mpr few)

/-- With enough of them it tells of all. -/
theorem doE820_enough (serves : Serves int15 0 entries ending)
    (least_le : ending.least ≤ entries.length) (few : entries.length ≤ 125) {fuel : Nat}
    (enough : entries.length ≤ fuel) (s : RealMode) :
    ∃ s', doE820 int15 fuel s = .done s' ∧
      Kept multibootInfo (slotAddress entries.length + 4) s.mem s'.mem ∧
      Published s'.mem entries := by
  have asks : Asks 0 s.starting := ⟨rfl, rfl, rfl, rfl⟩
  cases serves with
  | past answers => exact absurd least_le (by decide)
  | last fits answers =>
      have too_few : ¬ 2 ≤ 1 := by decide
      exact absurd least_le too_few
  | @entry _ next entry entries _ fits more answers behind =>
      rw [List.length_cons] at few enough
      have none_yet : Slots s.starting.mem [] :=
        fun index inside => absurd inside (Nat.not_lt_zero index)
      have answered : Answered s.mem [] entry { s.starting.reply entry next with ebp := 24 } :=
        @answered_reply s.starting s.mem [] entry rfl rfl (Nat.zero_le 125) fits none_yet
          (fun address _ => rfl) next
      obtain ⟨last, run, published, kept⟩ := nextEntry_loop behind answered rfl
        (by rw [List.length_nil]; omega) enough
      rw [List.length_nil, Nat.zero_add, Nat.add_comm 1] at kept
      exact ⟨last, (doE820_reply (answers s.starting asks) fuel).trans ((if_neg more).trans run),
        kept, published⟩

end

/-- The boot information tells of all entries, if they are enough, and nothing of it changes
otherwise.  Of 125 entries the map ends in front of the boot sector, which is kept. -/
theorem doE820_map {int15 : RealMode → RealMode} {entries : List (List Byte)} {ending : Ending}
    (serves : Serves int15 0 entries ending) (few : entries.length ≤ 125) {fuel : Nat}
    (enough : entries.length ≤ fuel) (s : RealMode) :
    ∃ s', doE820 int15 fuel s = .done s' ∧
      Kept multibootInfo (slotAddress entries.length + 4) s.mem s'.mem ∧
      if ending.least ≤ entries.length then Published s'.mem entries
      else ∀ address < e820Map, s'.mem address = s.mem address := by
  by_cases least_le : ending.least ≤ entries.length
  · obtain ⟨s', run, kept, published⟩ := doE820_enough serves least_le few enough s
    refine ⟨s', run, kept, ?_⟩
    rw [if_pos least_le]
    exact published
  · obtain ⟨s', run, kept, unchanged⟩ := doE820_few serves (not_le.mp least_le) fuel s
    refine ⟨s', run, kept, ?_⟩
    rw [if_neg least_le]
    exact unchanged

/-! ### Two regions -/

/-- Memory of a base and a length, which can be used. -/
def usable (base length : BitVec 32) : List Byte :=
  dwordBytes base ++ dwordBytes 0 ++ dwordBytes length ++ dwordBytes 0 ++ dwordBytes 1

def twoRegions (s : RealMode) : RealMode :=
  if s.ebx = 0 then s.reply (usable 0 0x9fc00) 1 else s.reply (usable 0x100000 0x7ee0000) 0

theorem twoRegions_serves :
    Serves twoRegions 0 [usable 0 0x9fc00, usable 0x100000 0x7ee0000] .zero := by
  refine .entry (by decide) (by decide) (fun s asks => if_pos asks.ebx_eq)
    (.last (by decide) fun s asks => if_neg ?_)
  rw [asks.ebx_eq]
  decide

theorem doE820_map_twoRegions :
    ∃ s', doE820 twoRegions 2 ⟨0, 0, 0, 0, 0, 0, true, fun _ => 0xCC⟩ = .done s' ∧
      Kept 0x7000 0x7068 (fun _ => 0xCC) s'.mem ∧
      Published s'.mem [usable 0 0x9fc00, usable 0x100000 0x7ee0000] := by
  obtain ⟨s', run, kept, shown⟩ := doE820_map twoRegions_serves (by decide) le_rfl
    ⟨0, 0, 0, 0, 0, 0, true, fun _ => 0xCC⟩
  exact ⟨s', run, kept, shown⟩

end Jos64.Boot
