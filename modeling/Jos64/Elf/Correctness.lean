import Jos64.Elf.Segment

/-!
# What the kernel has of its image

Each part of the image that the kernel reads gets sectors of its own, behind those
of the parts before, and lies in them as it does in its sectors on the disk.
-/

namespace Jos64.Elf

open Disk Dwarf Loop

/-! ## Regions -/

/-- A range of memory, and the position in the image that is read to it. -/
structure Region where
  address : Nat
  size : Nat
  position : Nat

namespace Region

/-- What of the image is read to it. -/
def part (r : Region) : Nat × Nat :=
  (r.position, r.size)

/-- The bytes of the image are there. -/
def Loaded (disk : Sectors) (mem : Nat → Byte) (r : Region) : Prop :=
  ∀ j < r.size, mem (r.address + j) = imageByte disk (r.position + j)

/-- No byte belongs to both. -/
def Disjoint (r r' : Region) : Prop :=
  ∀ j < r.size, ∀ j' < r'.size, r.address + j ≠ r'.address + j'

/-- All bytes are in a range. -/
def Inside (low high : Nat) (r : Region) : Prop :=
  ∀ j < r.size, low ≤ r.address + j ∧ r.address + j < high

end Region

/-! ## What has been read so far -/

/-- The range has not been touched below `base`, and from there on it is laid out
in regions of whole sectors, of which `kvoffset` bytes are used up. -/
structure Layout (disk : Sectors) (base : Nat) (below mem : Nat → Byte) (kvoffset : Nat)
    (regions : List Region) : Prop where
  aligned : kvoffset % sectSize = 0
  small : kvoffset ≤ regions.length * 2 ^ 39
  unchanged : ∀ address < base, mem address = below address
  disjoint : regions.Pairwise Region.Disjoint
  inside : ∀ r ∈ regions, r.Inside base (base + kvoffset)
  loaded : ∀ r ∈ regions, r.Loaded disk mem

/-- The region of what is read next. -/
def nextRegion (base kvoffset count offset : Nat) : Region :=
  ⟨base + kvoffset + offset % sectSize, count, offset⟩

/-- The bytes of the image that the ports can name. -/
def imageSize : Nat := 2 ^ 29 * sectSize - sectSize

/-- A read adds a region and leaves the others as they are. -/
theorem Layout.readseg {disk : Sectors} {base kvoffset count offset : Nat}
    {below mem : Nat → Byte} {regions : List Region}
    (layout : Layout disk base below mem kvoffset regions) (base_aligned : base % sectSize = 0)
    (base_le : base + 2 ^ 44 ≤ 2 ^ 64) (few : regions.length < 22)
    (inImage : offset + count ≤ imageSize) :
    ∃ mem' kvoffset',
      (∀ fuel, 2 ^ 38 ≤ fuel →
          Elf.readseg disk fuel mem (u64 (base + kvoffset)) count offset kvoffset =
            .done (mem', kvoffset')) ∧
        Layout disk base below mem' kvoffset'
          (regions ++ [nextRegion base kvoffset count offset]) := by
  have aligned := layout.aligned
  have small := layout.small
  have sectors_le := sectorsRead_le offset count
  have sectors_enough := sectorsRead_enough offset count
  have image_eq : imageSize = 2 ^ 38 - 512 := by decide
  have outside : ∀ address, address < base + kvoffset →
      copySectors disk mem (base + kvoffset) (offset / sectSize + 1) (sectorsRead offset count)
        address = mem address := fun address before => copySectors_of_outside (Or.inl before)
  refine ⟨copySectors disk mem (base + kvoffset) (offset / sectSize + 1)
    (sectorsRead offset count), kvoffset + sectorsRead offset count * sectSize, ?_, ?_⟩
  · intro fuel enough
    have used : kvoffset + sectorsRead offset count * sectSize < 2 ^ 64 := by
      unfold sectSize at *
      omega
    have base_next : (base + kvoffset) % sectSize = 0 := by
      unfold sectSize at *
      omega
    have room : base + kvoffset + count + sectSize ≤ 2 ^ 64 := by
      unfold sectSize at *
      omega
    rw [u64_of_lt (by omega), readseg_eq disk mem base_next aligned (by omega) room (by omega)
      (by omega), u64_of_lt used]
  constructor
  case aligned =>
    unfold sectSize at *
    omega
  case small =>
    rw [List.length_append, List.length_singleton]
    unfold sectSize at *
    omega
  case unchanged =>
    intro address before
    rw [outside address (by omega)]
    exact layout.unchanged address before
  case disjoint =>
    apply List.pairwise_append.mpr
    refine ⟨layout.disjoint, List.pairwise_singleton _ _, ?_⟩
    intro r member r' member' j inside j' inside'
    rw [List.mem_singleton.mp member'] at inside' ⊢
    have := layout.inside r member j inside
    dsimp only [nextRegion] at inside' ⊢
    omega
  case inside =>
    intro r member j inside
    rcases List.mem_append.mp member with before | last
    · have := layout.inside r before j inside
      omega
    · rw [List.mem_singleton.mp last] at inside ⊢
      have := sectors_enough (by dsimp only [nextRegion] at inside; omega)
      dsimp only [nextRegion] at inside ⊢
      omega
  case loaded =>
    intro r member j inside
    rcases List.mem_append.mp member with before | last
    · rw [outside _ (layout.inside r before j inside).2]
      exact layout.loaded r before j inside
    · rw [List.mem_singleton.mp last] at inside ⊢
      have := sectors_enough (by dsimp only [nextRegion] at inside; omega)
      dsimp only [nextRegion] at inside ⊢
      have position_eq : offset / sectSize * sectSize +
          (base + kvoffset + offset % sectSize + j - (base + kvoffset)) = offset + j := by
        unfold sectSize
        omega
      rw [copySectors_of_inside (by omega), position_eq]

/-! ## The same bytes elsewhere -/

/-- Numbers of the same bytes are the same. -/
theorem load_congr {mem mem' : Nat → Byte} {address address' n : Nat}
    (same : ∀ j < n, mem (address + j) = mem' (address' + j)) :
    load mem address n = load mem' address' n := by
  induction n generalizing address address' with
  | zero => rfl
  | succ n ih =>
      have rest : load mem (address + 1) n = load mem' (address' + 1) n := by
        apply ih
        intro j before
        have next := same (j + 1) (by omega)
        rwa [← Nat.add_assoc, Nat.add_right_comm, ← Nat.add_assoc,
          Nat.add_right_comm address'] at next
      have first := same 0 (by omega)
      rw [Nat.add_zero, Nat.add_zero] at first
      rw [load, load, first, rest]

/-- So are headers. -/
theorem secthdrAt_congr {mem mem' : Nat → Byte} {address address' : Nat}
    (same : ∀ j < 64, mem (address + j) = mem' (address' + j)) :
    secthdrAt mem address = secthdrAt mem' address' := by
  have field : ∀ start n, start + n ≤ 64 →
      load mem (address + start) n = load mem' (address' + start) n := by
    intro start n inside
    apply load_congr
    intro j before
    rw [Nat.add_assoc, Nat.add_assoc]
    exact same (start + j) (by omega)
  rw [secthdrAt, secthdrAt, field 16 8 (by omega), field 24 8 (by omega), field 32 8 (by omega)]
  have name := field 0 4 (by omega)
  rw [Nat.add_zero, Nat.add_zero] at name
  rw [name]

/-- A string is compared up to its NUL only. -/
theorem strcmp_congr {mem mem' : Nat → Byte} {p p' k : Nat}
    (same : ∀ j ≤ k, mem (p + j) = mem' (p' + j)) (nul : mem (p + k) = 0) (name : List Byte) :
    strcmp mem p name = strcmp mem' p' name := by
  have first := same 0 (Nat.zero_le _)
  rw [Nat.add_zero, Nat.add_zero] at first
  induction name generalizing p p' k with
  | nil => rw [strcmp, strcmp, first]
  | cons c name ih =>
      rw [strcmp, strcmp, first]
      by_cases more : mem' p' ≠ 0 ∧ mem' p' = c
      · obtain ⟨k, rfl⟩ : ∃ rest, k = rest + 1 := by
          cases k with
          | zero =>
              rw [Nat.add_zero] at nul
              exact absurd (first ▸ nul) more.1
          | succ rest => exact ⟨rest, rfl⟩
        have same' : ∀ j ≤ k, mem (p + 1 + j) = mem' (p' + 1 + j) := by
          intro j le
          have next := same (j + 1) (by omega)
          rwa [← Nat.add_assoc, Nat.add_right_comm, ← Nat.add_assoc, Nat.add_right_comm p'] at next
        rw [if_pos more, if_pos more]
        apply ih same'
        · rwa [← Nat.add_assoc, Nat.add_right_comm] at nul
        · exact same 1 (by omega)
      · rw [if_neg more, if_neg more]

theorem recognise_congr {mem mem' : Nat → Byte} {p p' k : Nat}
    (same : ∀ j ≤ k, mem (p + j) = mem' (p' + j)) (nul : mem (p + k) = 0) :
    recognise mem p = recognise mem' p' := by
  unfold recognise
  congr 1
  funext sect
  rw [strcmp_congr same nul]

/-! ## The image -/

section

variable (file : Nat → Byte)

/-- A NUL-terminated string stands at a position. -/
def Names (position : Nat) : List Byte → Prop
  | [] => file position = 0
  | c :: name => file position = c ∧ Names (position + 1) name

/-- The section table of the image: its position, the number of headers and the
one of the table of names. -/
def shoff : Nat := load file 40 8

def shnum : Nat := load file 60 2

def shstrndx : Nat := load file 62 2

/-- A header of the table. -/
def header (i : Nat) : Secthdr :=
  secthdrAt file (shoff file + 64 * i)

/-- The position of the name of a section. -/
def nameAt (i : Nat) : Nat :=
  (header file (shstrndx file)).shOffset + (header file i).shName

/-- The position and the size of the contents of a section. -/
def contentsOf (i : Nat) : Nat × Nat :=
  ((header file i).shOffset, (header file i).shSize)

/-- The contents that are read of the first `n` sections. -/
def debugParts (n : Nat) : List (Nat × Nat) :=
  (List.range n).filterMap fun i =>
    match recognise file (nameAt file i) with
    | none => none
    | some .debugFrame => none
    | some _ => some (contentsOf file i)

/-- A section whose contents are read. -/
def IsDebug (i : Nat) (sect : DebugSect) : Prop :=
  sect ≠ .debugFrame ∧ Names file (nameAt file i) sect.dsName

/-- An image whose section table, table of names and debug sections are on the
disk, whose headers have the size that the kernel expects, and whose names end
in the table of names. -/
structure WellFormed : Prop where
  shnum_le : shnum file ≤ 20
  shentsize_eq : load file 58 2 = 64
  shstrndx_lt : shstrndx file < shnum file
  table_inside : shoff file + 64 * shnum file ≤ imageSize
  names_inside : (header file (shstrndx file)).shOffset + (header file (shstrndx file)).shSize ≤
    imageSize
  debug_inside : ∀ i < shnum file, ∀ sect, IsDebug file i sect →
    (header file i).shOffset + (header file i).shSize ≤ imageSize
  name_ends : ∀ i < shnum file, ∃ k,
    (header file i).shName + k < (header file (shstrndx file)).shSize ∧
      file (nameAt file i + k) = 0

end

/-- `strcmp` finds the name, and nothing else. -/
theorem strcmp_eq_zero_iff {file : Nat → Byte} {p : Nat} {name : List Byte}
    (nonzero : ∀ c ∈ name, c ≠ 0) : strcmp file p name = 0 ↔ Names file p name := by
  induction name generalizing p with
  | nil =>
      rw [strcmp, Names]
      constructor
      · intro zero
        apply BitVec.eq_of_toNat_eq
        exact_mod_cast zero
      · intro zero
        rw [zero]
        rfl
  | cons c name ih =>
      rw [strcmp, Names]
      by_cases same : file p = c
      · have := nonzero c List.mem_cons_self
        rw [if_pos ⟨same ▸ this, same⟩,
          ih fun c' member => nonzero c' (List.mem_cons_of_mem c member)]
        exact (and_iff_right same).symm
      · rw [if_neg fun both => same both.2]
        constructor
        · intro zero
          apply absurd _ same
          apply BitVec.eq_of_toNat_eq
          omega
        · intro both
          exact absurd both.1 same

/-- A string has one value. -/
theorem Names.unique {file : Nat → Byte} {p : Nat} {name name' : List Byte}
    (nonzero : ∀ c ∈ name, c ≠ 0) (nonzero' : ∀ c ∈ name', c ≠ 0) (names : Names file p name)
    (names' : Names file p name') : name = name' := by
  induction name generalizing p name' with
  | nil =>
      cases name' with
      | nil => rfl
      | cons c' name' =>
          exact absurd (names'.1 ▸ names) (nonzero' c' List.mem_cons_self)
  | cons c name ih =>
      cases name' with
      | nil =>
          exact absurd (names.1 ▸ names') (nonzero c List.mem_cons_self)
      | cons c' name' =>
          rw [← names.1, ← names'.1]
          congr 1
          exact ih (fun d member => nonzero d (List.mem_cons_of_mem c member))
            (fun d member => nonzero' d (List.mem_cons_of_mem c' member)) names.2 names'.2

theorem dsName_nonzero (sect : DebugSect) : ∀ c ∈ sect.dsName, c ≠ 0 := by
  cases sect <;> simp [DebugSect.dsName, str, chr]

theorem dsName_injective : Function.Injective DebugSect.dsName := by
  intro sect sect' same
  cases sect <;> cases sect' <;> first
    | rfl
    | simp [DebugSect.dsName, str, chr] at same

/-- `recognise` finds the section of the name. -/
theorem recognise_eq_some {file : Nat → Byte} {p : Nat} {sect : DebugSect} :
    recognise file p = some sect ↔ Names file p sect.dsName := by
  constructor
  · intro found
    have zero := List.find?_some found
    exact (strcmp_eq_zero_iff (dsName_nonzero sect)).mp (by simpa using zero)
  · intro names
    have member :
        sect ∈ [DebugSect.debugInfo, .debugAbbrev, .debugLine, .debugFrame, .debugStr] := by
      cases sect <;> decide
    have some : (recognise file p).isSome := by
      apply List.find?_isSome.mpr
      exact ⟨sect, member, by simpa using (strcmp_eq_zero_iff (dsName_nonzero sect)).mpr names⟩
    obtain ⟨sect', found⟩ := Option.isSome_iff_exists.mp some
    have zero := List.find?_some found
    have names' := (strcmp_eq_zero_iff (dsName_nonzero sect')).mp (by simpa using zero)
    rw [found, dsName_injective (names'.unique (dsName_nonzero _) (dsName_nonzero _) names)]

theorem isDebug_iff {file : Nat → Byte} {i : Nat} {sect : DebugSect} :
    IsDebug file i sect ↔ sect ≠ .debugFrame ∧ recognise file (nameAt file i) = some sect := by
  rw [IsDebug, recognise_eq_some]

theorem debugParts_of_not {file : Nat → Byte} {i : Nat} (other : ∀ sect, ¬ IsDebug file i sect) :
    debugParts file (i + 1) = debugParts file i := by
  rw [debugParts, List.range_succ, List.filterMap_append, ← debugParts]
  cases found : recognise file (nameAt file i) with
  | none => simp only [List.filterMap_cons, found, List.filterMap_nil, List.append_nil]
  | some sect =>
      have frame : sect = .debugFrame := by
        by_contra ne
        exact other sect (isDebug_iff.mpr ⟨ne, found⟩)
      rw [frame] at found
      simp only [List.filterMap_cons, found, List.filterMap_nil, List.append_nil]

theorem debugParts_of_isDebug {file : Nat → Byte} {i : Nat} {sect : DebugSect}
    (isDebug : IsDebug file i sect) :
    debugParts file (i + 1) = debugParts file i ++ [contentsOf file i] := by
  obtain ⟨ne, found⟩ := isDebug_iff.mp isDebug
  rw [debugParts, List.range_succ, List.filterMap_append, ← debugParts]
  cases sect <;> first
    | exact absurd rfl ne
    | simp only [List.filterMap_cons, found, List.filterMap_nil]

theorem debugParts_length_le (file : Nat → Byte) (n : Nat) : (debugParts file n).length ≤ n := by
  have le := List.length_filterMap_le (fun i =>
    match recognise file (nameAt file i) with
    | none => none
    | some .debugFrame => none
    | some _ => some (contentsOf file i)) (List.range n)
  rwa [List.length_range] at le

/-! ## The sections -/

section

variable {disk : Sectors} {base kvoffset : Nat} {below mem : Nat → Byte} {regions : List Region}

/-- A header that is read from the table is the one of the image. -/
theorem Layout.secthdrAt_eq (layout : Layout disk base below mem kvoffset regions)
    (end_le : base + kvoffset ≤ 2 ^ 64) {table : Region} (member : table ∈ regions)
    (table_eq : table.part = (shoff (imageByte disk), 64 * shnum (imageByte disk))) {i : Nat}
    (before : i < shnum (imageByte disk)) :
    secthdrAt mem (u64 (table.address + 64 * i)) = header (imageByte disk) i := by
  obtain ⟨position_eq, size_eq⟩ := Prod.mk.inj table_eq
  have inside := (layout.inside table member (64 * i) (by omega)).2
  rw [u64_of_lt (by omega), header, ← position_eq]
  apply secthdrAt_congr
  intro j small
  rw [Nat.add_assoc, Nat.add_assoc]
  exact layout.loaded table member (64 * i + j) (by omega)

/-- A name that is read from the table of names is recognised as in the image. -/
theorem Layout.recognise_eq (layout : Layout disk base below mem kvoffset regions)
    (end_le : base + kvoffset ≤ 2 ^ 64) {names : Region} (member : names ∈ regions)
    (names_eq : names.part = contentsOf (imageByte disk) (shstrndx (imageByte disk)))
    (wellFormed : WellFormed (imageByte disk)) {i : Nat} (before : i < shnum (imageByte disk)) :
    recognise mem (u64 (names.address + (header (imageByte disk) i).shName)) =
      recognise (imageByte disk) (nameAt (imageByte disk) i) := by
  obtain ⟨k, inTable, nul⟩ := wellFormed.name_ends i before
  obtain ⟨position_eq, size_eq⟩ := Prod.mk.inj names_eq
  have inside := (layout.inside names member _ (size_eq ▸ Nat.lt_of_le_of_lt
    (Nat.le_add_right _ k) inTable)).2
  have same : ∀ j ≤ k, mem (names.address + (header (imageByte disk) i).shName + j) =
      imageByte disk (nameAt (imageByte disk) i + j) := by
    intro j le
    rw [nameAt, ← position_eq, Nat.add_assoc, Nat.add_assoc]
    exact layout.loaded names member _ (by omega)
  rw [u64_of_lt (by omega)]
  apply recognise_congr same
  rw [same k le_rfl, nul]

end

section

variable {disk : Sectors} {base : Nat} {below : Nat → Byte} {table names : Region}

/-- What holds after the first `i` headers have been looked at. -/
structure Progress (disk : Sectors) (base : Nat) (below : Nat → Byte) (table names : Region)
    (i : Nat) (state : State) (rest : List Region) : Prop where
  layout : Layout disk base below state.mem state.kvoffset (table :: names :: rest)
  parts : rest.map Region.part = debugParts (imageByte disk) i
  info : ∀ j < i, ∀ sect, IsDebug (imageByte disk) j sect →
    (∀ j', j < j' → j' < i → ¬ IsDebug (imageByte disk) j' sect) →
    ∃ r ∈ rest, r.part = contentsOf (imageByte disk) j ∧
      state.sectionInfo sect = ⟨r.address, r.size⟩

/-- A section whose contents are not read. -/
theorem Progress.skip {i : Nat} {state state' : State} {rest : List Region}
    (progress : Progress disk base below table names i state rest)
    (other : ∀ sect, ¬ IsDebug (imageByte disk) i sect) (mem_eq : state'.mem = state.mem)
    (kvoffset_eq : state'.kvoffset = state.kvoffset)
    (info_eq : ∀ sect, sect ≠ .debugFrame → state'.sectionInfo sect = state.sectionInfo sect) :
    Progress disk base below table names (i + 1) state' rest := by
  constructor
  case layout =>
    rw [mem_eq, kvoffset_eq]
    exact progress.layout
  case parts =>
    rw [progress.parts, debugParts_of_not other]
  case info =>
    intro j before sect isDebug latest
    rcases Nat.lt_succ_iff_lt_or_eq.mp before with earlier | rfl
    · rw [info_eq sect isDebug.1]
      exact progress.info j earlier sect isDebug fun j' after before' =>
        latest j' after (Nat.lt_succ_of_lt before')
    · exact absurd isDebug (other sect)

/-- A section whose contents are read to a region of its own. -/
theorem Progress.add {i : Nat} {state : State} {rest : List Region} {sect : DebugSect}
    {mem : Nat → Byte} {kvoffset : Nat} {r : Region}
    (progress : Progress disk base below table names i state rest)
    (isDebug : IsDebug (imageByte disk) i sect)
    (layout : Layout disk base below mem kvoffset (table :: names :: rest ++ [r]))
    (part_eq : r.part = contentsOf (imageByte disk) i) :
    Progress disk base below table names (i + 1)
      ⟨mem, kvoffset, Function.update state.sectionInfo sect ⟨r.address, r.size⟩⟩
      (rest ++ [r]) := by
  constructor
  case layout => exact layout
  case parts =>
    rw [List.map_append, progress.parts, debugParts_of_isDebug isDebug, ← part_eq]
    rfl
  case info =>
    intro j before sect' isDebug' latest
    rcases Nat.lt_succ_iff_lt_or_eq.mp before with earlier | rfl
    · have ne : sect' ≠ sect := by
        rintro rfl
        exact latest i earlier (Nat.lt_succ_self i) isDebug
      obtain ⟨r', member, part_eq', info_eq⟩ := progress.info j earlier sect' isDebug'
        fun j' after before' => latest j' after (Nat.lt_succ_of_lt before')
      refine ⟨r', List.mem_append_left _ member, part_eq', ?_⟩
      exact (Function.update_of_ne ne _ _).trans info_eq
    · have same : sect' = sect := by
        have found := (isDebug_iff.mp isDebug').2
        rw [(isDebug_iff.mp isDebug).2] at found
        exact (Option.some.inj found).symm
      refine ⟨r, List.mem_append_right _ (List.mem_singleton_self r), part_eq, ?_⟩
      rw [same]
      exact Function.update_self _ _ _

/-- The round for a header. -/
theorem Progress.sectionBody {i : Nat} {state : State} {rest : List Region}
    (progress : Progress disk base below table names i state rest)
    (base_aligned : base % sectSize = 0) (base_le : base + 2 ^ 44 ≤ 2 ^ 64)
    (wellFormed : WellFormed (imageByte disk)) (before : i < shnum (imageByte disk))
    (table_eq : table.part = (shoff (imageByte disk), 64 * shnum (imageByte disk)))
    (names_eq : names.part = contentsOf (imageByte disk) (shstrndx (imageByte disk))) :
    ∃ state' rest',
      (∀ fuel, 2 ^ 38 ≤ fuel →
          Elf.sectionBody disk fuel base table.address names.address i state = .done state') ∧
        Progress disk base below table names (i + 1) state' rest' := by
  have layout := progress.layout
  have shnum_le := wellFormed.shnum_le
  have few : (table :: names :: rest).length < 22 := by
    have rest_le : rest.length ≤ i := by
      rw [← List.length_map (f := Region.part), progress.parts]
      exact debugParts_length_le _ i
    rw [List.length_cons, List.length_cons]
    omega
  have small := layout.small
  have end_le : base + state.kvoffset ≤ 2 ^ 64 := by omega
  have header_eq := layout.secthdrAt_eq end_le List.mem_cons_self table_eq before
  have found_eq := layout.recognise_eq end_le (List.mem_cons_of_mem _ List.mem_cons_self) names_eq
    wellFormed before
  have aligned : ¬ state.kvoffset % sectSize ≠ 0 := fun ne => ne layout.aligned
  by_cases debug : ∃ sect, IsDebug (imageByte disk) i sect
  · obtain ⟨sect, isDebug⟩ := debug
    obtain ⟨ne, found⟩ := isDebug_iff.mp isDebug
    have inImage := wellFormed.debug_inside i before sect isDebug
    obtain ⟨mem, kvoffset, read, layout'⟩ := layout.readseg base_aligned base_le few inImage
    refine ⟨_, _, ?_, progress.add isDebug layout' rfl⟩
    intro fuel enough
    have small' := layout'.small
    have few' : (table :: names :: rest ++ [nextRegion base state.kvoffset
        (header (imageByte disk) i).shSize (header (imageByte disk) i).shOffset]).length ≤ 22 := by
      rw [List.length_append, List.length_singleton]
      omega
    have header_eq' := layout'.secthdrAt_eq (by omega) List.mem_cons_self table_eq before
    have address_lt : base + state.kvoffset + (header (imageByte disk) i).shOffset % sectSize <
        2 ^ 64 := by
      rw [List.length_append, List.length_singleton] at *
      unfold sectSize
      omega
    cases sect with
    | debugFrame => exact absurd rfl ne
    | _ =>
        rw [Elf.sectionBody, header_eq]
        dsimp only
        rw [if_neg aligned, found_eq, found]
        dsimp only
        rw [read fuel enough, Exec.done_bind]
        dsimp only
        rw [header_eq', u64_of_lt address_lt]
        rfl
  · have other : ∀ sect, ¬ IsDebug (imageByte disk) i sect := fun sect isDebug =>
      debug ⟨sect, isDebug⟩
    cases found : recognise (imageByte disk) (nameAt (imageByte disk) i) with
    | none =>
        refine ⟨state, rest, ?_, progress.skip other rfl rfl fun _ _ => rfl⟩
        intro fuel _
        rw [Elf.sectionBody, header_eq]
        dsimp only
        rw [if_neg aligned, found_eq, found]
    | some sect =>
        have frame : sect = .debugFrame := by
          by_contra ne
          exact other sect (isDebug_iff.mpr ⟨ne, found⟩)
        refine ⟨⟨state.mem, state.kvoffset, Function.update state.sectionInfo .debugFrame
          ⟨(header (imageByte disk) i).shAddr, (header (imageByte disk) i).shSize⟩⟩, rest, ?_,
          progress.skip other rfl rfl ?_⟩
        · intro fuel _
          rw [Elf.sectionBody, header_eq]
          dsimp only
          rw [if_neg aligned, found_eq, found, frame]
        · intro sect ne
          exact Function.update_of_ne ne _ _

/-- The rounds for `count` headers from `i` on. -/
theorem Progress.sectionLoop {i count : Nat} {state : State} {rest : List Region}
    (progress : Progress disk base below table names i state rest)
    (base_aligned : base % sectSize = 0) (base_le : base + 2 ^ 44 ≤ 2 ^ 64)
    (wellFormed : WellFormed (imageByte disk)) (end_le : i + count ≤ shnum (imageByte disk))
    (table_eq : table.part = (shoff (imageByte disk), 64 * shnum (imageByte disk)))
    (names_eq : names.part = contentsOf (imageByte disk) (shstrndx (imageByte disk))) :
    ∃ state' rest',
      (∀ fuel, 2 ^ 38 ≤ fuel →
          Elf.sectionLoop disk fuel base table.address names.address i state count =
            .done state') ∧
        Progress disk base below table names (i + count) state' rest' := by
  induction count generalizing i state rest with
  | zero => exact ⟨state, rest, fun _ _ => rfl, progress⟩
  | succ count ih =>
      obtain ⟨state₁, rest₁, round, progress₁⟩ := progress.sectionBody base_aligned base_le
        wellFormed (by omega) table_eq names_eq
      obtain ⟨state₂, rest₂, rounds, progress₂⟩ := ih progress₁ (by omega)
      refine ⟨state₂, rest₂, ?_, ?_⟩
      · intro fuel enough
        rw [Elf.sectionLoop, round fuel enough, Exec.done_bind, rounds fuel enough]
      · rwa [Nat.add_right_comm] at progress₂

end

/-! ## `read_section_headers` -/

theorem roundUp_spec {address : Nat} (small : address + 2 ^ 45 ≤ 2 ^ 64) :
    address ≤ roundUp address ∧ roundUp address < address + sectSize ∧
      roundUp address % sectSize = 0 := by
  unfold roundUp sectSize
  rw [u64_of_lt (by omega)]
  omega

theorem product_of_small {x : Nat} (small : x ≤ 20) : product x 64 = 64 * x := by
  interval_cases x <;> rfl

/-- The table, the names and every debug section of a well-formed image are in
memory, apart from each other, and `section_info` tells where the last section of
each name is. -/
theorem readSectionHeaders_layout (disk : Sectors) (mem : Nat → Byte)
    (sectionInfo : DebugSect → Section) (toVa : Nat) (wellFormed : WellFormed (imageByte disk))
    (elfHeader : ∀ j < 64, mem (kelfhdr + j) = imageByte disk j) (behind : kelfhdr + 64 ≤ toVa)
    (toVa_le : toVa + 2 ^ 45 ≤ 2 ^ 64) :
    ∃ ret state, ∃ regions : List Region,
      (∀ fuel, 2 ^ 38 ≤ fuel →
          readSectionHeaders disk fuel mem sectionInfo kelfhdr toVa = .done (ret, state)) ∧
        regions.map Region.part =
          (shoff (imageByte disk), 64 * shnum (imageByte disk)) ::
            contentsOf (imageByte disk) (shstrndx (imageByte disk)) ::
              debugParts (imageByte disk) (shnum (imageByte disk)) ∧
        regions.Pairwise Region.Disjoint ∧
        (∀ r ∈ regions, r.Inside (roundUp toVa) ret ∧ r.Loaded disk state.mem) ∧
        ∀ i < shnum (imageByte disk), ∀ sect, IsDebug (imageByte disk) i sect →
          (∀ i', i < i' → i' < shnum (imageByte disk) → ¬ IsDebug (imageByte disk) i' sect) →
          (state.sectionInfo sect).dsSize = (header (imageByte disk) i).shSize ∧
            ∀ j < (header (imageByte disk) i).shSize,
              state.mem ((state.sectionInfo sect).dsData + j) =
                imageByte disk ((header (imageByte disk) i).shOffset + j) := by
  obtain ⟨base_ge, base_lt, base_aligned⟩ := roundUp_spec toVa_le
  have base_le : roundUp toVa + 2 ^ 44 ≤ 2 ^ 64 := by
    unfold sectSize at base_lt
    omega
  have kelfhdr_eq : kelfhdr = 0x8004010000 := by decide
  -- what is read of the image's header
  have field : ∀ {mem' : Nat → Byte}, (∀ address < roundUp toVa, mem' address = mem address) →
      ∀ start n, start + n ≤ 64 →
        load mem' (kelfhdr + start) n = load (imageByte disk) start n := by
    intro mem' unchanged start n inside
    apply load_congr
    intro j before
    rw [Nat.add_assoc, unchanged _ (by omega)]
    exact elfHeader (start + j) (by omega)
  have start : Layout disk (roundUp toVa) mem mem 0 [] :=
    ⟨rfl, Nat.zero_le _, fun _ _ => rfl, List.Pairwise.nil, nofun, nofun⟩
  obtain ⟨mem₁, kvoffset₁, read₁, layout₁⟩ := start.readseg base_aligned base_le
    (by decide) wellFormed.table_inside
  rw [List.nil_append] at layout₁
  have small₁ := layout₁.small
  rw [List.length_singleton] at small₁
  have names_header := layout₁.secthdrAt_eq (by omega) List.mem_cons_self rfl
    wellFormed.shstrndx_lt
  obtain ⟨mem₂, kvoffset₂, read₂, layout₂⟩ := layout₁.readseg base_aligned base_le
    (by rw [List.length_singleton]; omega) wellFormed.names_inside
  have small₂ := layout₂.small
  rw [List.length_append, List.length_singleton, List.length_singleton] at small₂
  have names_header' := layout₂.secthdrAt_eq (by omega) List.mem_cons_self rfl
    wellFormed.shstrndx_lt
  have progress : Progress disk (roundUp toVa) mem _ _ 0 ⟨mem₂, kvoffset₂, sectionInfo⟩ [] :=
    ⟨layout₂, rfl, nofun⟩
  obtain ⟨state, rest, rounds, progress'⟩ := progress.sectionLoop base_aligned base_le wellFormed
    (Nat.le_of_eq (Nat.zero_add _)) rfl rfl
  rw [Nat.zero_add] at progress'
  have layout := progress'.layout
  have end_lt : roundUp toVa + state.kvoffset < 2 ^ 64 := by
    have small := layout.small
    have rest_le : rest.length ≤ shnum (imageByte disk) := by
      rw [← List.length_map (f := Region.part), progress'.parts]
      exact debugParts_length_le _ _
    have := wellFormed.shnum_le
    rw [List.length_cons, List.length_cons] at small
    omega
  refine ⟨roundUp toVa + state.kvoffset, state, _, ?_, ?_, layout.disjoint, ?_, ?_⟩
  · intro fuel enough
    have shoff_eq : load mem (kelfhdr + 40) 8 = shoff (imageByte disk) :=
      field (fun _ _ => rfl) 40 8 (by omega)
    have shnum_eq : load mem (kelfhdr + 60) 2 = shnum (imageByte disk) :=
      field (fun _ _ => rfl) 60 2 (by omega)
    have shentsize_eq : load mem (kelfhdr + 58) 2 = 64 :=
      (field (fun _ _ => rfl) 58 2 (by omega)).trans wellFormed.shentsize_eq
    have shstrndx_eq : load mem₁ (kelfhdr + 62) 2 = shstrndx (imageByte disk) :=
      field layout₁.unchanged 62 2 (by omega)
    have shnum_le := wellFormed.shnum_le
    have shstrndx_lt := wellFormed.shstrndx_lt
    have offset_lt (offset : Nat) : offset % sectSize < 512 := Nat.mod_lt _ (by decide)
    have table_lt := offset_lt (shoff (imageByte disk))
    have names_lt :=
      offset_lt (header (imageByte disk) (shstrndx (imageByte disk))).shOffset
    have table_address : u64 (roundUp toVa + shoff (imageByte disk) % sectSize) =
        (nextRegion (roundUp toVa) 0 (64 * shnum (imageByte disk))
          (shoff (imageByte disk))).address := by
      rw [u64_of_lt (by omega), nextRegion, Nat.add_zero]
    have read₀ := read₁ fuel enough
    rw [Nat.add_zero, u64_of_lt (by omega)] at read₀
    rw [readSectionHeaders]
    dsimp only
    rw [shoff_eq, shnum_eq, shentsize_eq, if_pos rfl, product_of_small shnum_le, read₀,
      Exec.done_bind]
    dsimp only
    rw [shstrndx_eq, if_neg (by omega), table_address, names_header, read₂ fuel enough,
      Exec.done_bind]
    dsimp only
    rw [names_header', u64_of_lt (by omega)]
    have ended := rounds fuel enough
    dsimp only [nextRegion] at ended ⊢
    rw [ended, Exec.done_bind, u64_of_lt end_lt]
  · rw [List.map_cons, List.map_cons, progress'.parts]
    rfl
  · intro r member
    exact ⟨layout.inside r member, layout.loaded r member⟩
  · intro i before sect isDebug latest
    obtain ⟨r, member, part_eq, info_eq⟩ := progress'.info i before sect isDebug latest
    obtain ⟨position_eq, size_eq⟩ := Prod.mk.inj part_eq
    rw [info_eq]
    refine ⟨size_eq, ?_⟩
    intro j inside
    rw [← position_eq]
    exact layout.loaded r (List.mem_cons_of_mem _ (List.mem_cons_of_mem _ member)) j
      (size_eq ▸ inside)

/-- An image of a header, two section headers, the names at 192 and the three
bytes of `.debug_info` at 205. -/
def smallImage : Nat → Byte
  | 40 => 64
  | 58 => 64
  | 60 => 2
  | 62 => 1
  | 64 => 1
  | 88 => 205
  | 96 => 3
  | 152 => 192
  | 160 => 13
  | position => (0 :: str ".debug_info" ++ [0, 7, 8, 9]).getD (position - 192) 0

/-- It is in the first sector behind the boot sector. -/
def smallDisk : Sectors := fun sector position =>
  if sector = 1 then smallImage position else 0

theorem smallImage_shoff : shoff (imageByte smallDisk) = 64 := by
  decide

theorem smallImage_shnum : shnum (imageByte smallDisk) = 2 := by
  decide

theorem smallImage_shstrndx : shstrndx (imageByte smallDisk) = 1 := by
  decide

theorem smallImage_header_zero : header (imageByte smallDisk) 0 = ⟨1, 0, 205, 3⟩ := by
  rw [header, smallImage_shoff]
  decide

theorem smallImage_header_one : header (imageByte smallDisk) 1 = ⟨0, 0, 192, 13⟩ := by
  rw [header, smallImage_shoff]
  decide

theorem smallImage_wellFormed : WellFormed (imageByte smallDisk) := by
  constructor
  case shnum_le => decide
  case shentsize_eq => decide
  case shstrndx_lt => decide
  case table_inside =>
    rw [smallImage_shoff, smallImage_shnum]
    decide
  case names_inside =>
    rw [smallImage_shstrndx, smallImage_header_one]
    decide
  case debug_inside =>
    rw [smallImage_shnum]
    intro i before sect _
    interval_cases i
    · rw [smallImage_header_zero]
      decide
    · rw [smallImage_header_one]
      decide
  case name_ends =>
    rw [smallImage_shnum]
    intro i before
    interval_cases i
    · refine ⟨11, ?_⟩
      rw [nameAt, smallImage_shstrndx, smallImage_header_zero, smallImage_header_one]
      decide
    · refine ⟨0, ?_⟩
      rw [nameAt, smallImage_shstrndx, smallImage_header_one]
      decide

/-- Its `.debug_info` is found. -/
theorem readSectionHeaders_layout_small :
    ∃ ret state,
      (∀ fuel, 2 ^ 38 ≤ fuel →
          readSectionHeaders smallDisk fuel (fun address => imageByte smallDisk (address - kelfhdr))
            (fun _ => ⟨0, 0⟩) kelfhdr 0x8004200000 = .done (ret, state)) ∧
        (state.sectionInfo .debugInfo).dsSize = 3 ∧
        state.mem ((state.sectionInfo .debugInfo).dsData + 2) = 9 := by
  obtain ⟨ret, state, _, run, _, _, _, info⟩ := readSectionHeaders_layout smallDisk
    (fun address => imageByte smallDisk (address - kelfhdr)) (fun _ => ⟨0, 0⟩)
    0x8004200000 smallImage_wellFormed
    (fun j _ => by rw [Nat.add_sub_cancel_left]) (by decide) (by decide)
  have isDebug : IsDebug (imageByte smallDisk) 0 .debugInfo := by
    rw [isDebug_iff, nameAt, smallImage_shstrndx, smallImage_header_zero, smallImage_header_one]
    decide
  have other : ¬ IsDebug (imageByte smallDisk) 1 .debugInfo := by
    rw [isDebug_iff, nameAt, smallImage_shstrndx, smallImage_header_one]
    decide
  have shnum_eq := smallImage_shnum
  obtain ⟨size_eq, bytes⟩ := info 0 (by omega) .debugInfo isDebug (by
    intro i' after before
    obtain rfl : i' = 1 := by omega
    exact other)
  rw [smallImage_header_zero] at size_eq bytes
  refine ⟨ret, state, run, size_eq, ?_⟩
  rw [bytes 2 (by decide)]
  decide

/-! ### The table over the header -/

/-- The same image with its section table at 512. -/
def lateImage : Nat → Byte
  | 41 => 2
  | 58 => 64
  | 60 => 2
  | 62 => 1
  | 512 => 1
  | 536 => 205
  | 544 => 3
  | 600 => 192
  | 608 => 13
  | position => (0 :: str ".debug_info" ++ [0, 7, 8, 9]).getD (position - 192) 0

/-- It is in the first two sectors behind the boot sector. -/
def lateDisk : Sectors := fun sector position =>
  if sector = 1 then lateImage position
  else if sector = 2 then lateImage (512 + position)
  else 0

theorem lateImage_shoff : shoff (imageByte lateDisk) = 512 := by
  decide

theorem lateImage_shnum : shnum (imageByte lateDisk) = 2 := by
  decide

theorem lateImage_shstrndx : shstrndx (imageByte lateDisk) = 1 := by
  decide

theorem lateImage_header_zero : header (imageByte lateDisk) 0 = ⟨1, 0, 205, 3⟩ := by
  rw [header, lateImage_shoff]
  decide

theorem lateImage_header_one : header (imageByte lateDisk) 1 = ⟨0, 0, 192, 13⟩ := by
  rw [header, lateImage_shoff]
  decide

theorem lateImage_wellFormed : WellFormed (imageByte lateDisk) := by
  constructor
  case shnum_le =>
    rw [lateImage_shnum]
    decide
  case shentsize_eq => decide
  case shstrndx_lt =>
    rw [lateImage_shstrndx, lateImage_shnum]
    decide
  case table_inside =>
    rw [lateImage_shoff, lateImage_shnum]
    decide
  case names_inside =>
    rw [lateImage_shstrndx, lateImage_header_one]
    decide
  case debug_inside =>
    rw [lateImage_shnum]
    intro i before sect _
    interval_cases i
    · rw [lateImage_header_zero]
      decide
    · rw [lateImage_header_one]
      decide
  case name_ends =>
    rw [lateImage_shnum]
    intro i before
    interval_cases i
    · refine ⟨11, ?_⟩
      rw [nameAt, lateImage_shstrndx, lateImage_header_zero, lateImage_header_one]
      decide
    · refine ⟨0, ?_⟩
      rw [nameAt, lateImage_shstrndx, lateImage_header_one]
      decide

/-- Where the sections are read from the ELF header on, the table is read over it.
The index of the names is loaded afterwards, and names the wrong section. -/
theorem table_read_over_header :
    WellFormed (imageByte lateDisk) ∧
      (∀ j < 64, imageByte lateDisk (kelfhdr + j - kelfhdr) = imageByte lateDisk j) ∧
      IsDebug (imageByte lateDisk) 0 .debugInfo ∧ (header (imageByte lateDisk) 0).shSize = 3 ∧
      ∃ ret state,
        readSectionHeaders lateDisk 4 (fun address => imageByte lateDisk (address - kelfhdr))
          (fun _ => ⟨0, 0⟩) kelfhdr kelfhdr = .done (ret, state) ∧
        (state.sectionInfo .debugInfo).dsSize = 0 := by
  refine ⟨lateImage_wellFormed, fun j _ => by rw [Nat.add_sub_cancel_left], ?_, ?_, ?_⟩
  · rw [isDebug_iff, nameAt, lateImage_shstrndx, lateImage_header_zero, lateImage_header_one]
    decide
  · rw [lateImage_header_zero]
  · have size_eq : ((readSectionHeaders lateDisk 4
        (fun address => imageByte lateDisk (address - kelfhdr)) (fun _ => ⟨0, 0⟩) kelfhdr
        kelfhdr).bind fun out => .done (out.2.sectionInfo .debugInfo).dsSize) = .done 0 := by
      decide
    obtain ⟨⟨ret, state⟩, run, rest⟩ := Exec.bind_eq_done size_eq
    exact ⟨ret, state, run, Exec.done.inj rest⟩

end Jos64.Elf
