import Jos64.Elf.Correctness
import Jos64.Loop.Trace

/-!
# The array of section headers

`secthdr_ptr` has twenty elements, and the image says how many headers there are
and which of them has the names.  Neither number is compared with the length of
the array, so that only the image keeps the kernel inside it.
-/

namespace Jos64.Elf

open Disk Dwarf Loop

/-! ## The uses of the array -/

/-- The loop that fills `secthdr_ptr` from `i` on. -/
def fillLoop (i : Nat) : (count : Nat) → Traced Nat Unit
  | 0 => .silent (.done ())
  | count + 1 => (Traced.use (· < 20) i).bind fun _ => fillLoop (i + 1) count

section

variable (disk : Sectors) (fuel kvbase secthdr nametab numSectionHeaders : Nat)

/-- `sectionLoop` with its uses of `secthdr_ptr`, of which `numSectionHeaders`
elements are filled. -/
def tracedSectionLoop (i : Nat) (state : State) : (count : Nat) → Traced Nat State
  | 0 => .silent (.done state)
  | count + 1 =>
      (Traced.use (· < numSectionHeaders) i).bind fun _ =>
        (Traced.silent (sectionBody disk fuel kvbase secthdr nametab i state)).bind fun state =>
          tracedSectionLoop (i + 1) state count

/-- What `read_section_headers` does with the table when it is in memory. -/
def tracedTable (elfhdr : Nat) (sectionInfo : DebugSect → Section) (mem : Nat → Byte)
    (kvoffset : Nat) : Traced Nat (Nat × State) :=
  (fillLoop 0 numSectionHeaders).bind fun _ =>
    let eShstrndx := load mem (elfhdr + 62) 2
    (Traced.use (· < numSectionHeaders) eShstrndx).bind fun _ =>
      let secName := secthdrAt mem (u64 (secthdr + 64 * eShstrndx))
      let temp := kvoffset
      (Traced.silent (readseg disk fuel mem (u64 (kvbase + kvoffset)) secName.shSize
          secName.shOffset kvoffset)).bind fun (mem, kvoffset) =>
        let secName := secthdrAt mem (u64 (secthdr + 64 * eShstrndx))
        let nametab := u64 (kvbase + temp + secName.shOffset % sectSize)
        (tracedSectionLoop disk fuel kvbase secthdr nametab numSectionHeaders 0
            ⟨mem, kvoffset, sectionInfo⟩ numSectionHeaders).bind fun state =>
          .silent (.done (u64 (kvbase + state.kvoffset), state))

end

/-- The position in the image that the table is read from. -/
def tableOffset (mem : Nat → Byte) (elfhdr : Nat) : Nat :=
  if elfhdr = kelfhdr then load mem (elfhdr + 40) 8
  else u64 (load mem (elfhdr + 40) 8 + (elfhdr + (2 ^ 64 - kernbase)))

/-- The number of bytes that are asked for. -/
def tableSize (mem : Nat → Byte) (elfhdr : Nat) : Nat :=
  product (load mem (elfhdr + 60) 2) (load mem (elfhdr + 58) 2)

/-- `read_section_headers` with its uses of `secthdr_ptr`. -/
def tracedReadSectionHeaders (disk : Sectors) (fuel : Nat) (mem : Nat → Byte)
    (sectionInfo : DebugSect → Section) (elfhdr toVa : Nat) : Traced Nat (Nat × State) :=
  let kvbase := roundUp toVa
  let offset := tableOffset mem elfhdr
  let numSectionHeaders := load mem (elfhdr + 60) 2
  (Traced.silent (readseg disk fuel mem kvbase (tableSize mem elfhdr) offset 0)).bind
    fun (mem, kvoffset) =>
      tracedTable disk fuel kvbase (u64 (kvbase + offset % sectSize)) numSectionHeaders elfhdr
        sectionInfo mem kvoffset

/-! ## The uses beside the executions -/

theorem fillLoop_exec {i count : Nat} (inside : i ≤ 20) :
    (fillLoop i count).exec = if i + count ≤ 20 then .done () else .fault := by
  induction count generalizing i with
  | zero => rw [fillLoop, Traced.exec_silent, if_pos (by omega)]
  | succ count ih =>
      rw [fillLoop, Traced.exec_bind, Traced.exec_use]
      by_cases here : i < 20
      · rw [if_pos here, Exec.done_bind, ih here, Nat.succ_add_eq_add_succ]
      · rw [if_neg here, Exec.fault_bind, if_neg (by omega)]

variable {disk : Sectors} {fuel kvbase secthdr nametab numSectionHeaders : Nat}

theorem tracedSectionLoop_exec {i count : Nat} {state : State}
    (filled : i + count ≤ numSectionHeaders) :
    (tracedSectionLoop disk fuel kvbase secthdr nametab numSectionHeaders i state count).exec =
      sectionLoop disk fuel kvbase secthdr nametab i state count := by
  induction count generalizing i state with
  | zero => rfl
  | succ count ih =>
      rw [tracedSectionLoop, Traced.exec_bind, Traced.exec_use, if_pos (by omega), Exec.done_bind,
        Traced.exec_bind, Traced.exec_silent, sectionLoop]
      congr 1
      funext state'
      exact ih (by omega)

/-- Noting the uses changes nothing else. -/
theorem tracedReadSectionHeaders_exec (disk : Sectors) (fuel : Nat) (mem : Nat → Byte)
    (sectionInfo : DebugSect → Section) (elfhdr toVa : Nat) :
    (tracedReadSectionHeaders disk fuel mem sectionInfo elfhdr toVa).exec =
      readSectionHeaders disk fuel mem sectionInfo elfhdr toVa := by
  rw [tracedReadSectionHeaders, readSectionHeaders]
  dsimp only
  rw [Traced.exec_bind, Traced.exec_silent, ← tableSize, ← tableOffset]
  congr 1
  funext read
  rw [tracedTable, Traced.exec_bind, fillLoop_exec (Nat.zero_le _), Nat.zero_add]
  dsimp only
  by_cases many : 20 < load mem (elfhdr + 60) 2
  · rw [if_neg (by omega), Exec.fault_bind, if_pos (.inl many)]
  · rw [if_pos (by omega), Exec.done_bind, Traced.exec_bind, Traced.exec_use]
    by_cases named : load read.1 (elfhdr + 62) 2 < load mem (elfhdr + 60) 2
    · rw [if_pos named, Exec.done_bind, if_neg (by omega), Traced.exec_bind, Traced.exec_silent]
      congr 1
      funext names
      rw [Traced.exec_bind, tracedSectionLoop_exec (Nat.le_of_eq (Nat.zero_add _))]
      rfl
    · rw [if_neg named, Exec.fault_bind, if_pos (.inr (by omega))]

/-! ## What is used -/

/-- The array has the element, and it is filled. -/
def HasHeader (numSectionHeaders i : Nat) : Prop :=
  i < 20 ∧ i < numSectionHeaders

theorem fillLoop_keeps_iff {i count : Nat} (inside : i ≤ 20)
    (all : i + count = numSectionHeaders) :
    (fillLoop i count).Keeps (HasHeader numSectionHeaders) ↔ numSectionHeaders ≤ 20 := by
  induction count generalizing i with
  | zero => exact iff_of_true (Traced.keeps_silent _) (by omega)
  | succ count ih =>
      rw [fillLoop, Traced.keeps_bind, Traced.keeps_use, Traced.exec_use]
      by_cases here : i < 20
      · rw [if_pos here, ih here (by omega)]
        constructor
        · rintro ⟨-, rest⟩
          exact rest () rfl
        · intro few
          exact ⟨⟨here, by omega⟩, fun _ _ => few⟩
      · exact iff_of_false (fun kept => here kept.1.1) (by omega)

theorem tracedSectionLoop_keeps {i count : Nat} {state : State} (few : numSectionHeaders ≤ 20)
    (filled : i + count ≤ numSectionHeaders) :
    (tracedSectionLoop disk fuel kvbase secthdr nametab numSectionHeaders i state count).Keeps
      (HasHeader numSectionHeaders) := by
  induction count generalizing i state with
  | zero => exact Traced.keeps_silent _
  | succ count ih =>
      rw [tracedSectionLoop]
      refine Traced.keeps_bind.mpr ⟨Traced.keeps_use.mpr ⟨by omega, by omega⟩, fun _ _ => ?_⟩
      refine Traced.keeps_bind.mpr ⟨Traced.keeps_silent _, fun state' _ => ?_⟩
      exact ih (by omega)

theorem tracedTable_keeps_iff {elfhdr kvoffset : Nat} {sectionInfo : DebugSect → Section}
    {mem : Nat → Byte} :
    (tracedTable disk fuel kvbase secthdr numSectionHeaders elfhdr sectionInfo mem kvoffset).Keeps
        (HasHeader numSectionHeaders) ↔
      numSectionHeaders ≤ 20 ∧ load mem (elfhdr + 62) 2 < numSectionHeaders := by
  rw [tracedTable, Traced.keeps_bind, fillLoop_keeps_iff (Nat.zero_le _) (Nat.zero_add _),
    fillLoop_exec (Nat.zero_le _), Nat.zero_add]
  constructor
  · rintro ⟨few, rest⟩
    rw [if_pos few] at rest
    have names := (Traced.keeps_bind.mp (rest () rfl)).1
    exact ⟨few, (Traced.keeps_use.mp names).2⟩
  · rintro ⟨few, named⟩
    refine ⟨few, fun _ _ => ?_⟩
    refine Traced.keeps_bind.mpr ⟨Traced.keeps_use.mpr ⟨by omega, named⟩, fun _ _ => ?_⟩
    refine Traced.keeps_bind.mpr ⟨Traced.keeps_silent _, fun names _ => ?_⟩
    refine Traced.keeps_bind.mpr ⟨?_, fun state _ => Traced.keeps_silent _⟩
    exact tracedSectionLoop_keeps few (Nat.le_of_eq (Nat.zero_add _))

/-! ## Reading the table -/

theorem load_lt (mem : Nat → Byte) (address n : Nat) : load mem address n < 256 ^ n := by
  induction n generalizing address with
  | zero => exact Nat.one_pos
  | succ n ih =>
      have rest := ih (address + 1)
      have first := (mem address).isLt
      rw [load, Nat.pow_succ]
      omega

theorem product_lt (x y : Nat) : product x y < 2 ^ 64 :=
  BitVec.isLt _

theorem tableOffset_lt (mem : Nat → Byte) (elfhdr : Nat) : tableOffset mem elfhdr < 2 ^ 64 := by
  rw [tableOffset]
  split
  · exact load_lt mem (elfhdr + 40) 8
  · exact Nat.mod_lt _ (by decide)

/-- The memory with the sectors of the table in place. -/
def tableRead (disk : Sectors) (mem : Nat → Byte) (elfhdr toVa : Nat) : Nat → Byte :=
  copySectors disk mem (roundUp toVa) (tableOffset mem elfhdr / sectSize + 1)
    (sectorsCopied (roundUp toVa) (tableOffset mem elfhdr) (tableSize mem elfhdr))

theorem roundUp_lt (toVa : Nat) : roundUp toVa < 2 ^ 64 :=
  (Nat.sub_le _ _).trans_lt (Nat.mod_lt _ (by decide))

theorem roundUp_aligned (toVa : Nat) : roundUp toVa % sectSize = 0 := by
  unfold roundUp sectSize
  omega

/-- The sectors of the table are read wherever there is room for them. -/
theorem readseg_table (disk : Sectors) (mem : Nat → Byte) {elfhdr toVa : Nat}
    (early : ¬ EndsLate (roundUp toVa) (tableSize mem elfhdr)) {fuel : Nat}
    (enough : 2 ^ 64 ≤ fuel) :
    ∃ kvoffset, readseg disk fuel mem (roundUp toVa) (tableSize mem elfhdr)
      (tableOffset mem elfhdr) 0 = .done (tableRead disk mem elfhdr toVa, kvoffset) :=
  ⟨_, readseg_eq_copied disk mem (roundUp_aligned toVa) (roundUp_lt toVa) (product_lt _ _) early
    (tableOffset_lt mem elfhdr) (by decide) (by decide) ((product_lt _ _).trans_le enough)⟩

theorem readseg_mono {mem mem' : Nat → Byte} {pa count offset kvoffset kvoffset' more : Nat}
    (ended : readseg disk fuel mem pa count offset kvoffset = .done (mem', kvoffset'))
    (le : fuel ≤ more) :
    readseg disk more mem pa count offset kvoffset = .done (mem', kvoffset') := by
  rw [readseg] at ended ⊢
  split at ended
  · contradiction
  · rename_i aligned
    rw [if_neg aligned]
    obtain ⟨state, rounds, rest⟩ := Exec.bind_eq_done ended
    rw [loop_mono rounds le, Exec.done_bind, rest]

/-- All uses of the array come behind the reading of the table. -/
theorem tracedReadSectionHeaders_keeps_iff {P : Nat → Prop} {mem : Nat → Byte}
    {sectionInfo : DebugSect → Section} {elfhdr toVa : Nat} :
    (tracedReadSectionHeaders disk fuel mem sectionInfo elfhdr toVa).Keeps P ↔
      ∀ mem' kvoffset, readseg disk fuel mem (roundUp toVa) (tableSize mem elfhdr)
          (tableOffset mem elfhdr) 0 = .done (mem', kvoffset) →
        (tracedTable disk fuel (roundUp toVa)
          (u64 (roundUp toVa + tableOffset mem elfhdr % sectSize))
          (load mem (elfhdr + 60) 2) elfhdr sectionInfo mem' kvoffset).Keeps P := by
  rw [tracedReadSectionHeaders]
  dsimp only
  rw [Traced.keeps_bind, and_iff_right (Traced.keeps_silent _), Traced.exec_silent]
  constructor
  · intro kept mem' kvoffset read
    exact kept (mem', kvoffset) read
  · rintro kept ⟨mem', kvoffset⟩ read
    exact kept mem' kvoffset read

/-- The kernel stays inside the array exactly if the image has no more headers
than fit and its names are in one of them, by the index that stands in the header
when the table has been read.  A table that ends in the last bytes below 2 ^ 64 is
read forever. -/
theorem secthdrPtr_uses_iff (disk : Sectors) (mem : Nat → Byte)
    (sectionInfo : DebugSect → Section) (elfhdr toVa : Nat) :
    (∀ fuel, (tracedReadSectionHeaders disk fuel mem sectionInfo elfhdr toVa).Keeps
        (HasHeader (load mem (elfhdr + 60) 2))) ↔
      EndsLate (roundUp toVa) (tableSize mem elfhdr) ∨
        load mem (elfhdr + 60) 2 ≤ 20 ∧
          load (tableRead disk mem elfhdr toVa) (elfhdr + 62) 2 < load mem (elfhdr + 60) 2 := by
  by_cases late : EndsLate (roundUp toVa) (tableSize mem elfhdr)
  · refine iff_of_true (fun fuel => ?_) (.inl late)
    rw [tracedReadSectionHeaders_keeps_iff]
    intro mem' kvoffset read
    exact absurd read (readseg_ne_done disk mem late fuel _)
  · have table (fuel : Nat) (enough : 2 ^ 64 ≤ fuel) := readseg_table disk mem late enough
    rw [or_iff_right late]
    constructor
    · intro kept
      obtain ⟨fuel, enough⟩ : ∃ fuel, 2 ^ 64 ≤ fuel := ⟨2 ^ 64, Nat.le_refl _⟩
      obtain ⟨kvoffset, read⟩ := table fuel enough
      exact tracedTable_keeps_iff.mp
        (tracedReadSectionHeaders_keeps_iff.mp (kept fuel) _ kvoffset read)
    · rintro inside fuel
      rw [tracedReadSectionHeaders_keeps_iff]
      intro mem' kvoffset read
      obtain ⟨kvoffset', read'⟩ := table _ (Nat.le_max_right fuel (2 ^ 64))
      have same := (readseg_mono read (Nat.le_max_left fuel (2 ^ 64))).symm.trans read'
      obtain ⟨rfl, -⟩ := Prod.mk.inj (Exec.done.inj same)
      exact tracedTable_keeps_iff.mpr inside

/-- A header with the numbers that it says and zeros beside them. -/
def headerMem (shnum shstrndx : Byte) : Nat → Byte := fun address =>
  if address = kelfhdr + 58 then 64
  else if address = kelfhdr + 60 then shnum
  else if address = kelfhdr + 62 then shstrndx
  else 0

/-- Twenty headers are used inside the array.  So they are where the names would be
in the thirty-first, but zeros are read over the index. -/
theorem secthdrPtr_uses_twenty :
    (tracedReadSectionHeaders (fun _ _ => 0) 4 (headerMem 20 19) (fun _ => ⟨0, 0⟩)
        kelfhdr 0x8004200000).Keeps (HasHeader (load (headerMem 20 19) (kelfhdr + 60) 2)) ∧
      (tracedReadSectionHeaders (fun _ _ => 0) 4 (headerMem 20 30) (fun _ => ⟨0, 0⟩)
        kelfhdr kelfhdr).Keeps (HasHeader (load (headerMem 20 30) (kelfhdr + 60) 2)) :=
  ⟨(secthdrPtr_uses_iff (fun _ _ => 0) (headerMem 20 19) (fun _ => ⟨0, 0⟩) kelfhdr
      0x8004200000).mpr (.inr (by decide)) 4,
    (secthdrPtr_uses_iff (fun _ _ => 0) (headerMem 20 30) (fun _ => ⟨0, 0⟩) kelfhdr
      kelfhdr).mpr (.inr (by decide)) 4⟩

/-- The pointer to the last of twenty-one is stored behind it. -/
theorem twentyOne_stored_behind :
    20 ∈ (tracedReadSectionHeaders (fun _ _ => 0) 4 (headerMem 21 0) (fun _ => ⟨0, 0⟩) kelfhdr
        0x8004200000).uses ∧
      ¬ HasHeader (load (headerMem 21 0) (kelfhdr + 60) 2) 20 :=
  ⟨by decide, fun inside => absurd inside.1 (by decide)⟩

end Jos64.Elf
