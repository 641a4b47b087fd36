import Jos64.Boot.Correctness
import Jos64.Boot.MemoryMap
import Jos64.Elf.Correctness

/-!
# From the header to the entry point

`bootmain` reads the first 8 sectors of the image to its scratch area, loads the segments that
the program headers there ask for, and calls the entry point with the address of the boot
information.  Without the magic number, or with a segment that ends too close to 2 ^ 32, the
kernel is never entered.
-/

namespace Jos64.Boot

open Disk Loop
open Elf (load load_congr)

/-! ## `bootmain` -/

/-- `ELFHDR` -/
def elfhdr : Nat := 0x10000

/-- `ELF_MAGIC` -/
def elfMagic : Nat := 0x464C457F

/-- The number of bytes that are read to the scratch area. -/
def scratchSize : Nat := sectSize * 8

/-- The program header that stands at an address. -/
def proghdrAt (mem : Nat → Byte) (address : Nat) : Proghdr where
  pOffset := load mem (address + 8) 8
  pPa := load mem (address + 24) 8
  pFilesz := load mem (address + 32) 8
  pMemsz := load mem (address + 40) 8

/-- The pointer to the next program header and the memory. -/
structure PhState where
  ph : Nat
  mem : Nat → Byte

/-- A round of the load loop, which reads the header from the memory as it is then. -/
def bootmainBody (disk : Sectors) (fuel eph : Nat) (state : PhState) :
    Exec (Next PhState (Nat → Byte)) :=
  if state.ph < eph then
    let hdr := proghdrAt state.mem state.ph
    (readseg disk fuel state.mem (u32 hdr.pPa) (u32 hdr.pMemsz) (u32 hdr.pOffset)).bind fun mem =>
      .done (.again ⟨u32 (state.ph + 56), mem⟩)
  else .done (.stop state.mem)

/-- Where the loader ends: in the kernel, with a value in `ebx`, or in the loop at `bad`. -/
inductive Outcome where
  | entered (entry ebx : Nat) (mem : Nat → Byte)
  | bad (mem : Nat → Byte)

/-- `bootmain` -/
def bootmain (disk : Sectors) (fuel : Nat) (mem : Nat → Byte) : Exec Outcome :=
  (readseg disk fuel mem elfhdr scratchSize 0).bind fun mem =>
    if load mem elfhdr 4 ≠ elfMagic then .done (.bad mem)
    else
      let ph := u32 (elfhdr + load mem (elfhdr + 32) 8)
      let eph := u32 (ph + 56 * load mem (elfhdr + 56) 2)
      (loop (bootmainBody disk fuel eph) fuel ⟨ph, mem⟩).bind fun mem =>
        .done (.entered (u32 (load mem (elfhdr + 24) 8)) multibootInfo mem)

/-! ## The image -/

section

variable (image : Nat → Byte)

/-- `e_phoff` -/
def ePhoff : Nat := load image 32 8

/-- `e_phnum` -/
def ePhnum : Nat := load image 56 2

/-- `e_entry`, as the address that is called. -/
def eEntry : Nat := u32 (load image 24 8)

/-- The program headers of the image. -/
def proghdrs : List Proghdr :=
  (List.range (ePhnum image)).map fun index => proghdrAt image (ePhoff image + 56 * index)

/-- The image begins with the magic number. -/
def Magic : Prop := load image 0 4 = elfMagic

instance : Decidable (Magic image) :=
  inferInstanceAs (Decidable (_ = _))

/-- The program headers are in the part that is read to the scratch area, and no block of a
segment is read over the memory of the loader, which goes from the boot information to the end
of the scratch area. -/
structure Bootable : Prop where
  headers_inside : ePhoff image + 56 * ePhnum image ≤ scratchSize
  clear : ∀ ph ∈ proghdrs image, ∀ address, Covers ph address →
    address < multibootInfo ∨ elfhdr + scratchSize ≤ address

end

/-! ## The scratch area -/

/-- The memory when the beginning of the image has been read. -/
def scratched (disk : Sectors) (mem : Nat → Byte) (address : Nat) : Byte :=
  if elfhdr ≤ address ∧ address < elfhdr + scratchSize then imageByte disk (address - elfhdr)
  else mem address

/-- The scratch area has the beginning of the image. -/
def Scratched (disk : Sectors) (mem : Nat → Byte) : Prop :=
  ∀ j < scratchSize, mem (elfhdr + j) = imageByte disk j

theorem scratched_scratched (disk : Sectors) (mem : Nat → Byte) :
    Scratched disk (scratched disk mem) := by
  intro j inside
  rw [scratched, if_pos ⟨Nat.le_add_right _ _, Nat.add_lt_add_left inside _⟩,
    Nat.add_sub_cancel_left]

/-- The beginning of the image as a segment. -/
def scratchSegment : Proghdr :=
  ⟨0, elfhdr, scratchSize, scratchSize⟩

theorem covers_scratchSegment (address : Nat) :
    Covers scratchSegment address ↔ elfhdr ≤ address ∧ address < elfhdr + scratchSize := by
  have start_eq : startPa scratchSegment = elfhdr := by decide
  have end_eq : endPa scratchSegment = elfhdr + scratchSize := by decide
  rw [Covers, start_eq, end_eq]
  unfold elfhdr scratchSize sectSize
  omega

theorem readseg_scratch (disk : Sectors) (mem : Nat → Byte) {fuel : Nat}
    (enough : 2 ^ 23 < fuel) :
    readseg disk fuel mem elfhdr scratchSize 0 = .done (scratched disk mem) := by
  obtain ⟨mem', ended, read⟩ := readseg_eq disk mem scratchSegment (by decide) enough
  have mem_eq : mem' = scratched disk mem := by
    funext address
    have position_eq : filePosition scratchSegment address = address - elfhdr :=
      Nat.zero_add _
    rw [read address, scratched]
    simp only [covers_scratchSegment, position_eq]
  rw [← mem_eq]
  exact ended

/-- What has been read for a header, if reading it has ended. -/
theorem readseg_done {disk : Sectors} {mem mem' : Nat → Byte} {ph : Proghdr} {fuel : Nat}
    (ended : readseg disk fuel mem (u32 ph.pPa) (u32 ph.pMemsz) (u32 ph.pOffset) = .done mem')
    (address : Nat) :
    mem' address =
      if Covers ph address then imageByte disk (filePosition ph address) else mem address := by
  obtain ⟨read, longer, read_eq⟩ := @readseg_eq disk mem ph (end_le_of_readseg ended)
    (fuel + (2 ^ 23 + 1)) (by omega)
  have same := loop_mono ended (Nat.le_add_right fuel (2 ^ 23 + 1))
  rw [← read_eq address, Exec.done.inj (same.symm.trans longer)]

section

variable {disk : Sectors} {mem : Nat → Byte}

theorem Scratched.load_eq (headers : Scratched disk mem) {start n : Nat}
    (inside : start + n ≤ scratchSize) :
    load mem (elfhdr + start) n = load (imageByte disk) start n := by
  apply load_congr
  intro j before
  rw [Nat.add_assoc]
  exact headers (start + j) (by omega)

theorem Scratched.proghdrAt_eq (headers : Scratched disk mem) {start : Nat}
    (inside : start + 56 ≤ scratchSize) :
    proghdrAt mem (elfhdr + start) = proghdrAt (imageByte disk) start := by
  have field (offset : Nat) (small : offset + 8 ≤ 56) :
      load mem (elfhdr + start + offset) 8 = load (imageByte disk) (start + offset) 8 := by
    rw [Nat.add_assoc]
    exact headers.load_eq (by omega)
  rw [proghdrAt, proghdrAt, field 8 (by decide), field 24 (by decide), field 32 (by decide),
    field 40 (by decide)]

/-- A segment that is read elsewhere leaves the headers as they are. -/
theorem Scratched.readseg (headers : Scratched disk mem) {ph : Proghdr} {fuel : Nat}
    {mem' : Nat → Byte}
    (clear : ∀ address, Covers ph address →
      address < multibootInfo ∨ elfhdr + scratchSize ≤ address)
    (ended : readseg disk fuel mem (u32 ph.pPa) (u32 ph.pMemsz) (u32 ph.pOffset) = .done mem') :
    Scratched disk mem' := by
  intro j inside
  have uncovered : ¬ Covers ph (elfhdr + j) := by
    intro covered
    have apart := clear _ covered
    unfold elfhdr multibootInfo at apart
    omega
  rw [readseg_done ended, if_neg uncovered]
  exact headers j inside

end

/-! ## The load loop -/

/-- The program headers from one on. -/
def proghdrsFrom (image : Nat → Byte) (index count : Nat) : List Proghdr :=
  (List.range' index count).map fun index => proghdrAt image (ePhoff image + 56 * index)

theorem proghdrsFrom_succ (image : Nat → Byte) (index count : Nat) :
    proghdrsFrom image index (count + 1) =
      proghdrAt image (ePhoff image + 56 * index) :: proghdrsFrom image (index + 1) count := by
  rw [proghdrsFrom, List.range'_succ, List.map_cons]
  rfl

theorem proghdrsFrom_zero (image : Nat → Byte) :
    proghdrsFrom image 0 (ePhnum image) = proghdrs image := by
  rw [proghdrsFrom, proghdrs, List.range_eq_range']

/-- The pointer to a program header. -/
def phPointer (image : Nat → Byte) (index : Nat) : Nat :=
  elfhdr + (ePhoff image + 56 * index)

theorem phPointer_zero (image : Nat → Byte) : phPointer image 0 = elfhdr + ePhoff image := by
  rw [phPointer, Nat.mul_zero, Nat.add_zero]

theorem phPointer_add (image : Nat → Byte) (index count : Nat) :
    phPointer image index + 56 * count = phPointer image (index + count) := by
  unfold phPointer
  omega

/-- No pointer to a header is cut off. -/
theorem Bootable.u32_phPointer {image : Nat → Byte} (bootable : Bootable image) {index : Nat}
    (le : index ≤ ePhnum image) : u32 (phPointer image index) = phPointer image index := by
  have inside := bootable.headers_inside
  unfold scratchSize sectSize at inside
  unfold u32 phPointer elfhdr
  omega

/-- While the headers stay as they are, the loop goes through those of the image. -/
theorem loop_bootmainBody {disk : Sectors} (bootable : Bootable (imageByte disk))
    (fuel : Nat) {index count : Nat} (split : index + count = ePhnum (imageByte disk))
    {mem : Nat → Byte} (headers : Scratched disk mem) {rounds : Nat} (enough : count < rounds) :
    loop (bootmainBody disk fuel (phPointer (imageByte disk) (ePhnum (imageByte disk)))) rounds
        ⟨phPointer (imageByte disk) index, mem⟩ =
      loadLoop disk fuel mem (proghdrsFrom (imageByte disk) index count) := by
  have inside := bootable.headers_inside
  induction count generalizing index mem rounds with
  | zero =>
      obtain ⟨rounds, rfl⟩ : ∃ more, rounds = more + 1 := ⟨rounds - 1, by omega⟩
      obtain rfl : index = ePhnum (imageByte disk) := split
      refine loop_stop ?_ rounds
      rw [bootmainBody, if_neg (lt_irrefl _)]
  | succ count ih =>
      obtain ⟨rounds, rfl⟩ : ∃ more, rounds = more + 1 := ⟨rounds - 1, by omega⟩
      let ph := proghdrAt (imageByte disk) (ePhoff (imageByte disk) + 56 * index)
      have member : ph ∈ proghdrs (imageByte disk) :=
        List.mem_map_of_mem (List.mem_range.mpr (by omega))
      have before : phPointer (imageByte disk) index <
          phPointer (imageByte disk) (ePhnum (imageByte disk)) := by
        unfold phPointer
        omega
      have next_eq : u32 (phPointer (imageByte disk) index + 56) =
          phPointer (imageByte disk) (index + 1) :=
        (congrArg u32 (phPointer_add _ index 1)).trans (bootable.u32_phPointer (by omega))
      have header_eq : proghdrAt mem (phPointer (imageByte disk) index) = ph :=
        headers.proghdrAt_eq (by omega)
      have round : bootmainBody disk fuel
          (phPointer (imageByte disk) (ePhnum (imageByte disk)))
          ⟨phPointer (imageByte disk) index, mem⟩ =
          (readseg disk fuel mem (u32 ph.pPa) (u32 ph.pMemsz) (u32 ph.pOffset)).bind
            fun mem => .done (.again ⟨phPointer (imageByte disk) (index + 1), mem⟩) := by
        rw [bootmainBody, if_pos before]
        dsimp only
        rw [header_eq, next_eq]
      rw [proghdrsFrom_succ, loop, round, loadLoop]
      change _ = (readseg disk fuel mem (u32 ph.pPa) (u32 ph.pMemsz) (u32 ph.pOffset)).bind _
      cases read : readseg disk fuel mem (u32 ph.pPa) (u32 ph.pMemsz) (u32 ph.pOffset) with
      | done mem' =>
          rw [Exec.done_bind, Exec.done_bind, Exec.done_bind]
          exact ih (by omega) (headers.readseg (bootable.clear ph member) read) (by omega)
      | fault => rfl
      | timeout => rfl

/-- Reading a segment never fails, it only may not end. -/
theorem readseg_ne_fault (disk : Sectors) (fuel : Nat) (mem : Nat → Byte)
    (pa count offset : Nat) : readseg disk fuel mem pa count offset ≠ .fault := by
  apply loop_ne_fault
  intro state
  rw [readsegBody]
  split
  · simp
  · simp

theorem loadLoop_ne_fault (disk : Sectors) (fuel : Nat) (mem : Nat → Byte) (phs : List Proghdr) :
    loadLoop disk fuel mem phs ≠ .fault := by
  induction phs generalizing mem with
  | nil => simp [loadLoop]
  | cons ph phs ih =>
      exact Exec.bind_ne_fault (readseg_ne_fault disk fuel mem _ _ _) fun mem' _ => ih mem'

/-- The segments are all read, or the loop does not end. -/
theorem loadLoop_cases (disk : Sectors) (mem : Nat → Byte) (phs : List Proghdr) {fuel : Nat}
    (enough : 2 ^ 23 < fuel) :
    loadLoop disk fuel mem phs =
      if ∀ ph ∈ phs, endPa ph ≤ 2 ^ 32 - sectSize then .done (brought disk mem phs)
      else .timeout := by
  split
  case isTrue ends => exact loadLoop_eq disk ends mem enough
  case isFalse late =>
    cases ended : loadLoop disk fuel mem phs with
    | done mem' => exact absurd (ends_of_loadLoop ended) late
    | fault => exact absurd ended (loadLoop_ne_fault disk fuel mem phs)
    | timeout => rfl

/-- Where no block is read, the memory is kept. -/
theorem brought_of_uncovered {disk : Sectors} {mem : Nat → Byte} {phs : List Proghdr}
    {address : Nat} (uncovered : ∀ ph ∈ phs, ¬ Covers ph address) :
    brought disk mem phs address = mem address := by
  have none : lastCover phs address = none := by
    apply List.find?_eq_none.mpr
    intro ph ph_mem
    rw [decide_eq_true_eq]
    exact uncovered ph (List.mem_reverse.mp ph_mem)
  rw [brought, none]

section

variable {disk : Sectors} {mem : Nat → Byte}

/-- Between the boot information and the end of the scratch area nothing is read. -/
theorem Bootable.brought_eq (bootable : Bootable (imageByte disk)) {address : Nat}
    (own : multibootInfo ≤ address ∧ address < elfhdr + scratchSize) :
    brought disk mem (proghdrs (imageByte disk)) address = mem address := by
  apply brought_of_uncovered
  intro ph member covered
  have apart := bootable.clear ph member address covered
  omega

theorem Bootable.scratched_brought (bootable : Bootable (imageByte disk))
    (headers : Scratched disk mem) :
    Scratched disk (brought disk mem (proghdrs (imageByte disk))) := by
  intro j inside
  rw [bootable.brought_eq ⟨?_, Nat.add_lt_add_left inside _⟩]
  · exact headers j inside
  · exact Nat.le_add_right_of_le (by decide)

/-! ## The whole loader -/

/-- The magic number and the ends of the segments decide how the loader ends. -/
theorem Bootable.bootmain_eq (bootable : Bootable (imageByte disk)) (mem : Nat → Byte)
    {fuel : Nat} (enough : 2 ^ 23 < fuel) :
    bootmain disk fuel mem =
      if Magic (imageByte disk) then
        if ∀ ph ∈ proghdrs (imageByte disk), endPa ph ≤ 2 ^ 32 - sectSize then
          .done (.entered (eEntry (imageByte disk)) multibootInfo
            (brought disk (scratched disk mem) (proghdrs (imageByte disk))))
        else .timeout
      else .done (.bad (scratched disk mem)) := by
  have headers := scratched_scratched disk mem
  have inside := bootable.headers_inside
  have magic_eq : load (scratched disk mem) elfhdr 4 = load (imageByte disk) 0 4 :=
    headers.load_eq (show 0 + 4 ≤ scratchSize by decide)
  have phoff_eq : load (scratched disk mem) (elfhdr + 32) 8 = ePhoff (imageByte disk) :=
    headers.load_eq (by decide)
  have phnum_eq : load (scratched disk mem) (elfhdr + 56) 2 = ePhnum (imageByte disk) :=
    headers.load_eq (by decide)
  have few : ePhnum (imageByte disk) < fuel := by
    unfold scratchSize sectSize at inside
    omega
  have first_eq : u32 (elfhdr + ePhoff (imageByte disk)) = phPointer (imageByte disk) 0 := by
    rw [← phPointer_zero]
    exact bootable.u32_phPointer (Nat.zero_le _)
  have behind_eq : u32 (phPointer (imageByte disk) 0 + 56 * ePhnum (imageByte disk)) =
      phPointer (imageByte disk) (ePhnum (imageByte disk)) := by
    rw [phPointer_add, Nat.zero_add]
    exact bootable.u32_phPointer le_rfl
  rw [bootmain, readseg_scratch disk mem enough, Exec.done_bind, magic_eq]
  by_cases magic : Magic (imageByte disk)
  · have present : ¬ load (imageByte disk) 0 4 ≠ elfMagic := not_not.mpr magic
    rw [if_neg present, if_pos magic]
    dsimp only
    rw [phoff_eq, phnum_eq, first_eq, behind_eq,
      loop_bootmainBody bootable fuel (Nat.zero_add _) headers few, proghdrsFrom_zero,
      loadLoop_cases disk _ _ enough]
    split
    · have entry_eq := (bootable.scratched_brought headers).load_eq
        (show 24 + 8 ≤ scratchSize by decide)
      rw [Exec.done_bind, entry_eq]
      rfl
    · rfl
  · have missing : load (imageByte disk) 0 4 ≠ elfMagic := magic
    rw [if_pos missing, if_neg magic]

/-- Given the magic number, the kernel is entered exactly if no segment ends in the last bytes
below 2 ^ 32; without it, never.  It is entered at its entry point, with the boot information
and with every byte that was brought to it last. -/
theorem bootmain_enters_iff (bootable : Bootable (imageByte disk)) (mem : Nat → Byte)
    {fuel : Nat} (enough : 2 ^ 23 < fuel) (entry ebx : Nat) (mem' : Nat → Byte) :
    bootmain disk fuel mem = .done (.entered entry ebx mem') ↔
      (Magic (imageByte disk) ∧
          ∀ ph ∈ proghdrs (imageByte disk), endPa ph ≤ 2 ^ 32 - sectSize) ∧
        entry = eEntry (imageByte disk) ∧ ebx = multibootInfo ∧
          mem' = brought disk (scratched disk mem) (proghdrs (imageByte disk)) := by
  rw [bootable.bootmain_eq mem enough]
  by_cases magic : Magic (imageByte disk)
  · rw [if_pos magic]
    by_cases ends : ∀ ph ∈ proghdrs (imageByte disk), endPa ph ≤ 2 ^ 32 - sectSize
    · rw [if_pos ends]
      constructor
      · intro same
        obtain ⟨rfl, rfl, rfl⟩ := Outcome.entered.inj (Exec.done.inj same)
        exact ⟨⟨magic, ends⟩, rfl, rfl, rfl⟩
      · rintro ⟨-, rfl, rfl, rfl⟩
        rfl
    · rw [if_neg ends]
      exact iff_of_false (by simp) fun entered => ends entered.1.2
  · rw [if_neg magic]
    exact iff_of_false (by simp) fun entered => magic entered.1.1

end

/-! ### A kernel of one segment -/

/-- The entry point 0x100000, and the program header of a segment there. -/
def kernelImage : Nat → Byte
  | 0 => 0x7F
  | 1 => 0x45
  | 2 => 0x4C
  | 3 => 0x46
  | 26 => 0x10
  | 32 => 64
  | 56 => 1
  | 73 => 0x10
  | 90 => 0x10
  | 97 => 2
  | 105 => 2
  | position => if 0x1000 ≤ position then 0xF4 else 0

/-- The image begins behind the boot sector. -/
def kernelDisk : Sectors := fun sector position =>
  kernelImage ((sector - 1) * sectSize + position)

def kernelSegment : Proghdr :=
  ⟨0x1000, 0x100000, 0x200, 0x200⟩

theorem kernelDisk_proghdrs : proghdrs (imageByte kernelDisk) = [kernelSegment] := by
  decide

theorem kernelDisk_magic : Magic (imageByte kernelDisk) := by
  decide

theorem kernelDisk_entry : eEntry (imageByte kernelDisk) = 0x100000 := by
  decide

theorem kernelSegment_end : endPa kernelSegment ≤ 2 ^ 32 - sectSize := by
  decide

theorem kernelDisk_bootable : Bootable (imageByte kernelDisk) := by
  constructor
  · decide
  · rw [kernelDisk_proghdrs]
    intro ph member address covered
    obtain rfl := List.mem_singleton.mp member
    have start_eq : startPa kernelSegment = 0x100000 := by decide
    have above : startPa kernelSegment ≤ address := covered.1
    unfold elfhdr scratchSize sectSize
    omega

theorem bootmain_enters_iff_kernel :
    ∃ mem', bootmain kernelDisk (2 ^ 23 + 1) (fun _ => 0xCC) =
      .done (.entered 0x100000 0x7000 mem') := by
  refine ⟨_, (bootmain_enters_iff kernelDisk_bootable (fun _ => 0xCC) (Nat.lt_succ_self _) 0x100000
    0x7000 _).mpr ⟨⟨kernelDisk_magic, ?_⟩, Eq.symm kernelDisk_entry, rfl, rfl⟩⟩
  rw [kernelDisk_proghdrs]
  intro ph member
  obtain rfl := List.mem_singleton.mp member
  exact kernelSegment_end

end Jos64.Boot
