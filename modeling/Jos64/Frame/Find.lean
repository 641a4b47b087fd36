import Jos64.Frame.Record

/-!
# Looking up a function

In a section in which every CIE is followed by its FDEs, `dwarf_get_fde_at_pc` finds the
first function that contains the address, and reads it with the CIE in front of it.
-/

namespace Jos64.Frame

open Loop Dwarf

/-! ## Groups -/

/-- A CIE with the FDEs that refer to it. -/
structure Group (dbgPointerSize : Nat) where
  cie : CieEntry
  fdes : List (FdeRecord dbgPointerSize)

section

variable (dbg : FrameDebug)

def FdeRecord.entry (r : FdeRecord dbg.dbgPointerSize) : Entry :=
  .fde (r.toEntry dbg.order)

def Group.entries (g : Group dbg.dbgPointerSize) : List Entry :=
  .cie g.cie :: g.fdes.map (FdeRecord.entry dbg)

def groupEntries (groups : List (Group dbg.dbgPointerSize)) : List Entry :=
  groups.flatMap (Group.entries dbg)

def entryLength (e : Entry) : Nat :=
  (e.bytes dbg.order dbg.dbgPointerSize).length

/-- The FDEs from an offset on are encoded as the CIE says, and refer to it where it is. -/
def FdesOf (c : CieEntry) (cieOff : Nat) : Nat → List (FdeRecord dbg.dbgPointerSize) → Prop
  | _, [] => True
  | off, r :: fdes =>
      r.Encoded c.aug.encode ∧
        offsetWidth r.wide ≤ ((r.entry dbg).contents dbg.order dbg.dbgPointerSize).length ∧
        off + lengthWidth r.wide = cieOff + r.ciePointer ∧
        FdesOf c cieOff (off + entryLength dbg (r.entry dbg)) fdes

/-- So it is in all groups from an offset on. -/
def Grouped : Nat → List (Group dbg.dbgPointerSize) → Prop
  | _, [] => True
  | off, g :: groups =>
      g.cie.aug.BeginsWithZ ∧
        FdesOf dbg g.cie off (off + entryLength dbg (.cie g.cie)) g.fdes ∧
        Grouped (off + entriesLength dbg (g.entries dbg)) groups

/-! ## What is described -/

def describeFdes (c : CieEntry) : Nat → List (FdeRecord dbg.dbgPointerSize) → List Described
  | _, [] => []
  | off, r :: fdes =>
      r.describe dbg c off :: describeFdes c (off + entryLength dbg (r.entry dbg)) fdes

/-- The functions that are described from an offset on. -/
def describeGroups : Nat → List (Group dbg.dbgPointerSize) → List Described
  | _, [] => []
  | off, g :: groups =>
      describeFdes dbg g.cie (off + entryLength dbg (.cie g.cie)) g.fdes ++
        describeGroups (off + entriesLength dbg (g.entries dbg)) groups

end

namespace Described

/-- The function contains the address. -/
def covers (pc : Nat) (d : Described) : Bool :=
  decide (d.initloc ≤ pc ∧ pc < u64 (d.initloc + d.adrange))

theorem Read.covers_iff {dbg : FrameDebug} {d : Described} {fde : Fde} (read : d.Read dbg fde)
    (pc : Nat) : fde.Covers pc ↔ d.covers pc = true := by
  rw [Fde.Covers, read.initloc_eq, read.adrange_eq, covers, decide_eq_true_iff]

end Described

/-! ## The scan -/

section

variable {dbg : FrameDebug} {pc : Nat} {state : EhState}

variable (dbg pc) in
/-- The scan gets from a state to the function, and stops with its bounds and with what is
needed to read its instructions. -/
def Finds (state : EhState) (d : Described) : Prop :=
  ∃ state' last, Reached (fdeAtPcBody dbg pc) state state' ∧
    fdeAtPcBody dbg pc state' =
      .done (.stop ⟨dlvOk, some (d.initloc, sub64 (d.initloc + d.adrange) 1), last⟩) ∧
    d.Read dbg last.fde ∧ Loaded dbg d.cie last.cie

variable (dbg pc) in
/-- The scan gets from a state to an offset, with no function found. -/
def Passes (state : EhState) (off : Nat) (loaded : Cie → Prop) : Prop :=
  ∃ state', Reached (fdeAtPcBody dbg pc) state state' ∧ state'.dbgEhOffset = off ∧
    loaded state'.cie ∧ ¬ state'.fde.Covers pc

variable (dbg pc) in
/-- The scan finds the function if there is one, and gets to the offset otherwise. -/
def Scans (state : EhState) (off : Nat) (loaded : Cie → Prop) : Option Described → Prop
  | some d => Finds dbg pc state d
  | none => Passes dbg pc state off loaded

theorem Finds.of_reached {state' : EhState} (reached : Reached (fdeAtPcBody dbg pc) state state')
    {d : Described} (finds : Finds dbg pc state' d) : Finds dbg pc state d := by
  obtain ⟨middle, last, rest, stops, found⟩ := finds
  exact ⟨middle, last, reached.trans rest, stops, found⟩

theorem Scans.of_reached {state' : EhState} (reached : Reached (fdeAtPcBody dbg pc) state state')
    {off : Nat} {loaded : Cie → Prop} {found : Option Described}
    (scans : Scans dbg pc state' off loaded found) : Scans dbg pc state off loaded found := by
  cases found with
  | some d => exact Finds.of_reached reached scans
  | none =>
      obtain ⟨middle, rest, passed⟩ := scans
      exact ⟨middle, reached.trans rest, passed⟩

theorem inside_of_contains {e : Entry}
    (contains : dbg.ds.Contains dbg.mem state.dbgEhOffset
      (e.bytes dbg.order dbg.dbgPointerSize)) : state.dbgEhOffset < dbg.dbgEhSize := by
  have inside := contains.inside
  have positive := e.contents_length_pos dbg.order dbg.dbgPointerSize
  rw [Entry.bytes_length] at inside
  rw [dbg.sizes_eq]
  omega

/-- The FDEs of a CIE that is loaded. -/
theorem scans_fdes {c : CieEntry} {cieOff off : Nat} {fdes : List (FdeRecord dbg.dbgPointerSize)}
    (front : cieOff < off) (fdesOf : FdesOf dbg c cieOff off fdes)
    (wellFormed : ∀ r ∈ fdes, (r.entry dbg).WellFormed dbg.order dbg.dbgPointerSize)
    (contains : dbg.ds.Contains dbg.mem off
      (entryBytes dbg.order dbg.dbgPointerSize (fdes.map (FdeRecord.entry dbg))))
    (here : state.dbgEhOffset = off) (loaded : Loaded dbg c state.cie)
    (away : ¬ state.fde.Covers pc) :
    Scans dbg pc state (off + entriesLength dbg (fdes.map (FdeRecord.entry dbg))) (Loaded dbg c)
      ((describeFdes dbg c off fdes).find? (Described.covers pc)) := by
  induction fdes generalizing off state with
  | nil => exact ⟨state, .refl, here, loaded, away⟩
  | cons r fdes ih =>
      obtain ⟨encoded, roomy, refers, rest_of⟩ := fdesOf
      have bytes_eq : entryBytes dbg.order dbg.dbgPointerSize
          ((r :: fdes).map (FdeRecord.entry dbg)) =
            (r.entry dbg).bytes dbg.order dbg.dbgPointerSize ++
              entryBytes dbg.order dbg.dbgPointerSize (fdes.map (FdeRecord.entry dbg)) :=
        List.flatMap_cons
      have length_eq : off + entriesLength dbg ((r :: fdes).map (FdeRecord.entry dbg)) =
          off + entryLength dbg (r.entry dbg) +
            entriesLength dbg (fdes.map (FdeRecord.entry dbg)) := by
        rw [entriesLength, bytes_eq, List.length_append, ← Nat.add_assoc]
        rfl
      rw [bytes_eq] at contains
      have r_contains := contains.left
      rw [← here] at r_contains
      obtain ⟨fde', next_eq, read⟩ := getNextFde_reads encoded (wellFormed r List.mem_cons_self)
        (by omega) roomy loaded r_contains
      rw [here] at read next_eq
      have inside := inside_of_contains r_contains
      let next : EhState := { state with
        dbgEhOffset := off + entryLength dbg (r.entry dbg)
        fde := fde' }
      rw [length_eq, describeFdes, List.find?_cons]
      by_cases covers : (r.describe dbg c off).covers pc = true
      · rw [covers]
        have covered := (read.covers_iff pc).mpr covers
        refine ⟨state, next, .refl, ?_, read, loaded⟩
        rw [fdeAtPcBody, if_pos inside, next_eq, Exec.ofOption_some, Exec.done_bind]
        dsimp only
        rw [if_neg (by decide), if_pos covered, read.initloc_eq, read.adrange_eq]
        rfl
      · rw [(Bool.not_eq_true _).mp covers]
        have uncovered := mt (read.covers_iff pc).mp covers
        have scans : Scans dbg pc next _ _ _ := ih (by omega) rest_of
          (fun other member => wellFormed other (List.mem_cons_of_mem _ member))
          contains.right rfl loaded uncovered
        refine scans.of_reached (Reached.refl.again ?_)
        rw [fdeAtPcBody, if_pos inside, next_eq, Exec.ofOption_some, Exec.done_bind]
        dsimp only
        rw [if_neg (by decide), if_neg uncovered]
        rfl

theorem groupEntries_cons (g : Group dbg.dbgPointerSize) (groups : List (Group dbg.dbgPointerSize)) :
    groupEntries dbg (g :: groups) =
      .cie g.cie :: (g.fdes.map (FdeRecord.entry dbg) ++ groupEntries dbg groups) := by
  rw [groupEntries, List.flatMap_cons, Group.entries, List.cons_append]
  rfl

theorem entryBytes_cons (e : Entry) (entries : List Entry) :
    entryBytes dbg.order dbg.dbgPointerSize (e :: entries) =
      e.bytes dbg.order dbg.dbgPointerSize ++
        entryBytes dbg.order dbg.dbgPointerSize entries :=
  List.flatMap_cons

theorem entryBytes_append (entries more : List Entry) :
    entryBytes dbg.order dbg.dbgPointerSize (entries ++ more) =
      entryBytes dbg.order dbg.dbgPointerSize entries ++
        entryBytes dbg.order dbg.dbgPointerSize more :=
  List.flatMap_append

theorem entriesLength_cons (e : Entry) (entries : List Entry) :
    entriesLength dbg (e :: entries) = entryLength dbg e + entriesLength dbg entries := by
  rw [entriesLength, entryBytes_cons, List.length_append]
  rfl

theorem entryLength_pos (e : Entry) : 0 < entryLength dbg e := by
  have positive := e.contents_length_pos dbg.order dbg.dbgPointerSize
  rw [entryLength, Entry.bytes_length]
  omega

/-- The groups of a section. -/
theorem scans_groups {off : Nat} {groups : List (Group dbg.dbgPointerSize)}
    (grouped : Grouped dbg off groups)
    (wellFormed : ∀ e ∈ groupEntries dbg groups, e.WellFormed dbg.order dbg.dbgPointerSize)
    (contains : dbg.ds.Contains dbg.mem off
      (entryBytes dbg.order dbg.dbgPointerSize (groupEntries dbg groups)))
    (here : state.dbgEhOffset = off) (away : ¬ state.fde.Covers pc) :
    Scans dbg pc state (off + entriesLength dbg (groupEntries dbg groups)) (fun _ => True)
      ((describeGroups dbg off groups).find? (Described.covers pc)) := by
  induction groups generalizing off state with
  | nil => exact ⟨state, .refl, here, trivial, away⟩
  | cons g groups ih =>
      obtain ⟨z, fdesOf, rest_of⟩ := grouped
      rw [groupEntries_cons] at wellFormed contains ⊢
      rw [entryBytes_cons] at contains
      have cie_contains := contains.left
      rw [← here] at cie_contains
      obtain ⟨cie', next_eq, loaded⟩ :=
        getNextFde_loads z (wellFormed _ List.mem_cons_self) cie_contains
      rw [here] at next_eq
      have inside := inside_of_contains cie_contains
      have rest_contains := contains.right
      rw [entryBytes_append] at rest_contains
      let next : EhState := { state with
        dbgEhOffset := off + entryLength dbg (.cie g.cie)
        cie := cie' }
      have step : fdeAtPcBody dbg pc state = .done (.again next) := by
        rw [fdeAtPcBody, if_pos inside, next_eq, Exec.ofOption_some, Exec.done_bind]
        dsimp only
        rw [if_neg (by decide), if_neg away]
        rfl
      have fdes_wellFormed : ∀ r ∈ g.fdes,
          (r.entry dbg).WellFormed dbg.order dbg.dbgPointerSize := fun r member =>
        wellFormed _ (List.mem_cons_of_mem _ (List.mem_append_left _ (List.mem_map_of_mem member)))
      have fdes_scan : Scans dbg pc next _ _ _ :=
        scans_fdes (Nat.lt_add_of_pos_right (entryLength_pos (.cie g.cie))) fdesOf fdes_wellFormed
          rest_contains.left rfl loaded away
      refine Scans.of_reached (Reached.refl.again step) ?_
      rw [describeGroups, List.find?_append]
      cases found : (describeFdes dbg g.cie (off + entryLength dbg (.cie g.cie)) g.fdes).find?
          (Described.covers pc) with
      | some d =>
          rw [found] at fdes_scan
          exact fdes_scan
      | none =>
          rw [found] at fdes_scan
          obtain ⟨middle, reached, middle_here, -, middle_away⟩ := fdes_scan
          have offset_eq : off + entriesLength dbg (g.entries dbg) = middle.dbgEhOffset := by
            rw [middle_here, Group.entries, entriesLength_cons, Nat.add_assoc]
          have total : off + entriesLength dbg (.cie g.cie ::
              (g.fdes.map (FdeRecord.entry dbg) ++ groupEntries dbg groups)) =
              off + entriesLength dbg (g.entries dbg) +
                entriesLength dbg (groupEntries dbg groups) := by
            rw [← List.cons_append, entriesLength, entryBytes_append, List.length_append,
              ← Nat.add_assoc]
            rfl
          have after_contains := rest_contains.right
          rw [total]
          refine Scans.of_reached reached (ih rest_of
            (fun e member => wellFormed e (List.mem_cons_of_mem _ (List.mem_append_right _ member)))
            ?_ offset_eq.symm middle_away)
          rw [offset_eq, middle_here]
          exact after_contains

end

/-- What the caller of a lookup gets. -/
def Answers (dbg : FrameDebug) (result : FdeAtPc) : Option Described → Prop
  | some d =>
      result.ret = dlvOk ∧
        result.pcs = some (d.initloc, sub64 (d.initloc + d.adrange) 1) ∧
        d.Read dbg result.state.fde ∧ Loaded dbg d.cie result.state.cie
  | none => result.ret = dlvNoEntry ∧ result.pcs = none

/-- A lookup from the beginning of the section finds the first function that contains the
address, and reads it with its own CIE, whatever the caller's struct holds. -/
theorem dwarfGetFdeAtPc_finds {dbg : FrameDebug} {groups : List (Group dbg.dbgPointerSize)}
    (stands : Stands dbg (groupEntries dbg groups)) (grouped : Grouped dbg 0 groups) (pc : Nat)
    (start : Cie) :
    ∃ result, (∃ bound, ∀ fuel, bound ≤ fuel →
        dwarfGetFdeAtPc dbg fuel 0 pc start = .done result) ∧
      Answers dbg result ((describeGroups dbg 0 groups).find? (Described.covers pc)) := by
  obtain ⟨terminator, -, contains⟩ := stands.contains
  have away : ¬ Fde.zero.Covers pc := fun covers => Nat.not_lt_zero pc covers.2
  have scans : Scans dbg pc ⟨0, .zero, start⟩ _ _ _ :=
    scans_groups grouped stands.wellFormed contains.left rfl away
  cases found : (describeGroups dbg 0 groups).find? (Described.covers pc) with
  | some d =>
      rw [found] at scans
      obtain ⟨state', last, reached, stops, read, loaded⟩ := scans
      exact ⟨_, reached.loop_done stops, rfl, rfl, read, loaded⟩
  | none =>
      rw [found] at scans
      obtain ⟨state', reached, here, -, -⟩ := scans
      rw [Nat.zero_add] at here
      refine ⟨⟨dlvNoEntry, none, state'⟩, reached.loop_done ?_, rfl, rfl⟩
      rw [fdeAtPcBody]
      by_cases inside : state'.dbgEhOffset < dbg.dbgEhSize
      · rw [if_pos inside, getNextFde_end stands here inside, Exec.ofOption_some, Exec.done_bind]
        rfl
      · rw [if_neg inside]

/-! ## A function with its prologue -/

theorem zero_small : (Uleb.byte 0 zero_ends).value < 2 ^ 31 := by
  decide

/-- The factors 1 and -8, ranges relative to where they stand, and the instructions
`DW_CFA_def_cfa` of register 7 and offset 8, and `DW_CFA_offset` of register 16. -/
def prologueCie : CieEntry :=
  { bareCie 0x78 factor_ends with
    aug := .z (.byte 1 one_ends) [.fdeEncode 0x1b] []
    instrs := [0x0c, 0x07, 0x08, 0x90, 0x01] }

/-- The range from 0x800 up to 0x840, with the instructions `DW_CFA_advance_loc` by 1,
`DW_CFA_def_cfa_offset` of 16 and `DW_CFA_offset` of register 6. -/
def prologueFde : FdeRecord 8 where
  wide := false
  ciePointer := 26
  initloc := .sdata4 (BitVec.ofInt 32 (-0x81e))
  adrange := .sdata4 0x40
  auglen := .byte 0 zero_ends
  augdata := []
  instrs := [0x41, 0x0e, 0x10, 0x86, 0x02]

def prologueBytes : List Byte :=
  entryBytes .lsb 8 [.cie prologueCie, .fde (prologueFde.toEntry .lsb)]

theorem prologue_fits : 0x1000 + prologueBytes.length < 2 ^ 47 := by
  decide

theorem fortyFour_lt : 44 < 2 ^ 64 := by
  decide

def prologueDebug : FrameDebug where
  order := .lsb
  mem := .image 0x1000 prologueBytes prologue_fits
  ds := ⟨0x1000, 44⟩
  dsAddr := 0x1000
  dbgPointerSize := 8
  dbgEhSize := 44
  val _ := 0
  pointer_known := eight_known
  sizes_eq := rfl
  size_lt := fortyFour_lt

def prologueGroups : List (Group prologueDebug.dbgPointerSize) :=
  [⟨prologueCie, [prologueFde]⟩]

theorem prologue_stands : Stands prologueDebug (groupEntries prologueDebug prologueGroups) where
  wellFormed := by
    intro e member
    rcases List.mem_cons.mp member with rfl | member
    · refine ⟨by decide, by decide, by decide, fun item member => ?_⟩
      rw [List.mem_singleton.mp member]
      exact (by decide : (0x1b : Byte) ≠ ehPeOmit)
    · rw [List.mem_singleton.mp member]
      exact ⟨by decide, by decide, by decide⟩
  contains := by
    refine ⟨[], .inl ⟨rfl, by decide⟩, ?_, by decide, by decide⟩
    exact Memory.image_holds prologue_fits [] [] (List.append_assoc _ _ _)

theorem prologue_grouped : Grouped prologueDebug 0 prologueGroups := by
  refine ⟨⟨_, _, _, rfl⟩, ⟨⟨by decide, by decide, trivial, trivial, rfl, zero_small⟩, by decide,
    by decide, trivial⟩, trivial⟩

theorem dwarfGetFdeAtPc_finds_prologue :
    ∃ result, (∃ bound, ∀ fuel, bound ≤ fuel →
        dwarfGetFdeAtPc prologueDebug fuel 0 0x810 .zero = .done result) ∧
      Answers prologueDebug result
        ((describeGroups prologueDebug 0 prologueGroups).find? (Described.covers 0x810)) :=
  dwarfGetFdeAtPc_finds prologue_stands prologue_grouped 0x810 .zero

example : (describeGroups prologueDebug 0 prologueGroups).map (fun d => (d.initloc, d.adrange)) =
    [(0x800, 0x40)] := by
  decide

end Jos64.Frame
