import Jos64.Frame.Core
import Jos64.Loop.Relation

/-!
# The scan of the frame section

An entry that is read leads to the offset behind it.  An entry whose length exceeds
the section is reported with a positive code, and the scan, which ends at negative
ones, comes back to the same entry.
-/

namespace Jos64.Frame

open Loop Dwarf

/-! ## Offsets -/

theorem u64_add_sub64 (x y : Nat) : u64 (x + sub64 y x) = u64 y := by
  unfold sub64 u64
  omega

/-- Behind a length is the offset that its width says. -/
theorem readLength_next {order : Endianness} {mem : Memory} {ds : Section}
    {offset length width next : Nat}
    (found : readLength order mem ds offset = some (length, width, next)) :
    next = u64 (offset + if width = 4 then 4 else 12) := by
  have read_next {offset width value next : Nat} (known : width = 4 ∨ width = 8)
      (found : dbgRead order mem ds offset width = some (value, next)) :
      next = u64 (offset + width) := by
    rw [dbgRead, if_pos (by omega)] at found
    obtain ⟨bytes, -, same⟩ := Option.map_eq_some_iff.mp found
    cases same
    rfl
  obtain ⟨⟨short, behind⟩, short_read, rest⟩ := Option.bind_eq_some_iff.mp found
  have behind_eq := read_next (.inl rfl) short_read
  dsimp only at rest
  split at rest
  · obtain ⟨⟨long, end_⟩, long_read, same⟩ := Option.map_eq_some_iff.mp rest
    cases same
    rw [read_next (.inr rfl) long_read, behind_eq, u64_add_u64, if_neg (by decide)]
  · cases rest
    rw [behind_eq, if_pos rfl]

section

variable {dbg : FrameDebug} {pc : Nat} {state state' : EhState}

/-! ## Entries -/

/-- A CIE that is read leads to the end of its length. -/
theorem frameSetCie_next {off off' : Nat} {cie cie' : Cie}
    (done : frameSetCie dbg off cie = some (dleNone, off', cie')) :
    ∃ length width next, readLength dbg.order dbg.mem dbg.ds off = some (length, width, next) ∧
      off' = u64 (next + length) := by
  obtain ⟨⟨length, width, next⟩, read, rest⟩ := Option.bind_eq_some_iff.mp done
  refine ⟨length, width, next, read, ?_⟩
  rw [readLength_next read, u64_add_u64]
  dsimp only at rest
  split at rest
  · cases rest
  · obtain ⟨id, -, rest⟩ := Option.bind_eq_some_iff.mp rest
    obtain ⟨version, -, rest⟩ := Option.bind_eq_some_iff.mp rest
    split at rest
    · cases rest
    · obtain ⟨augment, -, rest⟩ := Option.bind_eq_some_iff.mp rest
      split at rest
      · cases rest
        rfl
      · obtain ⟨⟨ret, behind, fields⟩, -, same⟩ := Option.map_eq_some_iff.mp rest
        dsimp only at same
        split at same
        · rename_i failed
          cases same
          exact absurd rfl failed
        · cases same
          rw [u64_add_sub64]

theorem frameSetFde_next {off off' : Nat} {cie : Cie} {fde fde' : Fde}
    (done : frameSetFde dbg off cie fde = some (dleNone, off', fde')) :
    ∃ length width next, readLength dbg.order dbg.mem dbg.ds off = some (length, width, next) ∧
      off' = u64 (next + length) := by
  obtain ⟨⟨length, width, next⟩, read, rest⟩ := Option.bind_eq_some_iff.mp done
  refine ⟨length, width, next, read, ?_⟩
  rw [readLength_next read, u64_add_u64]
  dsimp only at rest
  split at rest
  · cases rest
  · obtain ⟨pointer, -, rest⟩ := Option.bind_eq_some_iff.mp rest
    split at rest
    · cases rest
    · obtain ⟨⟨ret, behind, range⟩, -, rest⟩ := Option.bind_eq_some_iff.mp rest
      dsimp only at rest
      split at rest
      · rename_i failed
        cases rest
        exact absurd rfl failed
      · obtain ⟨augdata, -, same⟩ := Option.map_eq_some_iff.mp rest
        cases same
        exact u64_add_sub64 _ _

/-- What `_dwarf_get_next_fde` can do inside of the section: report a length, which
changes nothing, fail, or go on behind an entry. -/
theorem getNextFde_cases {ret : Int} (inside : state.dbgEhOffset < dbg.dbgEhSize)
    (found : getNextFde dbg state = some (ret, state')) :
    ∃ length width next,
      readLength dbg.order dbg.mem dbg.ds state.dbgEhOffset = some (length, width, next) ∧
        (sub64 dbg.ds.dsSize next < length ∧ ret = dleDebugFrameLengthBad ∧ state' = state ∨
          length ≤ sub64 dbg.ds.dsSize next ∧ ret = -1 ∨
          length ≤ sub64 dbg.ds.dsSize next ∧ ret = 0 ∧
            state'.dbgEhOffset = u64 (next + length)) := by
  rw [getNextFde, if_pos (dbg.sizes_eq ▸ inside)] at found
  obtain ⟨⟨length, width, next⟩, read, rest⟩ := Option.bind_eq_some_iff.mp found
  refine ⟨length, width, next, read, ?_⟩
  dsimp only at rest
  split at rest
  · rename_i exceeds
    cases rest
    exact .inl ⟨exceeds, rfl, rfl⟩
  · rename_i fits
    have fits := not_lt.mp fits
    refine .inr ?_
    split at rest
    · cases rest
      exact .inl ⟨fits, rfl⟩
    · obtain ⟨⟨cieId, _⟩, -, rest⟩ := Option.bind_eq_some_iff.mp rest
      dsimp only at rest
      split at rest
      · obtain ⟨⟨code, off, cie⟩, entry, same⟩ := Option.map_eq_some_iff.mp rest
        dsimp only at same
        split at same
        · cases same
          exact .inl ⟨fits, rfl⟩
        · rename_i succeeded
          cases same
          rw [not_not] at succeeded
          rw [succeeded] at entry
          obtain ⟨length', width', next', read', off_eq⟩ := frameSetCie_next entry
          rw [read] at read'
          cases read'
          exact .inr ⟨fits, rfl, off_eq⟩
      · obtain ⟨⟨code, off, fde⟩, entry, same⟩ := Option.map_eq_some_iff.mp rest
        dsimp only at same
        split at same
        · cases same
          exact .inl ⟨fits, rfl⟩
        · rename_i succeeded
          cases same
          rw [not_not] at succeeded
          rw [succeeded] at entry
          obtain ⟨length', width', next', read', off_eq⟩ := frameSetFde_next entry
          rw [read] at read'
          cases read'
          exact .inr ⟨fits, rfl, off_eq⟩

/-- A length that exceeds the section is reported. -/
theorem getNextFde_exceeds {length width next : Nat}
    (inside : state.dbgEhOffset < dbg.dbgEhSize)
    (read : readLength dbg.order dbg.mem dbg.ds state.dbgEhOffset = some (length, width, next))
    (exceeds : sub64 dbg.ds.dsSize next < length) :
    getNextFde dbg state = some (dleDebugFrameLengthBad, state) := by
  rw [getNextFde, if_pos (dbg.sizes_eq ▸ inside), read, Option.bind_some]
  exact if_pos exceeds

end

/-! ## Progress -/

section

variable (dbg : FrameDebug) (pc : Nat)

/-- The scan comes to an end, and each of its rounds ends it or leads to an offset
further on. -/
def Progresses (start : EhState) : Prop :=
  (∃ fuel, loop (fdeAtPcBody dbg pc) fuel start ≠ .timeout) ∧
    ∀ state state', Reached (fdeAtPcBody dbg pc) start state →
      fdeAtPcBody dbg pc state = .done (.again state') → state.dbgEhOffset < state'.dbgEhOffset

/-- At an entry whose length exceeds the rest of the section; or, where the end of the
section cuts a length off, at one that leads past the last address back to the entry or
before it, and is read as an entry that is not for the address. -/
def Stalls (state : EhState) : Prop :=
  state.dbgEhOffset < dbg.dbgEhSize ∧ ∃ length width next,
    readLength dbg.order dbg.mem dbg.ds state.dbgEhOffset = some (length, width, next) ∧
      (sub64 dbg.ds.dsSize next < length ∨
        u64 (next + length) ≤ state.dbgEhOffset ∧
          ∃ state', getNextFde dbg state = some (0, state') ∧ ¬ state'.fde.Covers pc)

end

section

variable {dbg : FrameDebug} {pc : Nat} {state state' : EhState}

/-- What a round is that goes on. -/
theorem fdeAtPcBody_again_iff :
    fdeAtPcBody dbg pc state = .done (.again state') ↔
      state.dbgEhOffset < dbg.dbgEhSize ∧ ∃ ret, 0 ≤ ret ∧
        getNextFde dbg state = some (ret, state') ∧ ¬ state'.fde.Covers pc := by
  unfold fdeAtPcBody
  by_cases inside : state.dbgEhOffset < dbg.dbgEhSize
  · rw [if_pos inside, and_iff_right inside]
    constructor
    · intro round
      obtain ⟨⟨ret, next⟩, found, rest⟩ := Exec.bind_eq_done round
      dsimp only at rest
      split at rest
      · cases rest
      · rename_i nonneg
        split at rest
        · cases rest
        · rename_i passed
          cases rest
          exact ⟨ret, not_lt.mp nonneg, Exec.ofOption_eq_done found, passed⟩
    · rintro ⟨ret, nonneg, found, passed⟩
      rw [found, Exec.ofOption_some, Exec.done_bind]
      dsimp only
      rw [if_neg (not_lt.mpr nonneg), if_neg passed]
  · rw [if_neg inside]
    exact iff_of_false nofun fun both => inside both.1

theorem fdeAtPcBody_ne_timeout (state : EhState) : fdeAtPcBody dbg pc state ≠ .timeout := by
  unfold fdeAtPcBody
  split
  · refine Exec.bind_ne_timeout (Exec.ofOption_ne_timeout _) ?_
    rintro ⟨ret, next⟩ -
    dsimp only
    split
    · exact Exec.done_ne_timeout _
    · split
      · exact Exec.done_ne_timeout _
      · exact Exec.done_ne_timeout _
  · exact Exec.done_ne_timeout _

/-- No FDE that the scan has left behind is for the address. -/
theorem not_covers_of_reached {start : EhState} (away : ¬ start.fde.Covers pc)
    (reached : Reached (fdeAtPcBody dbg pc) start state) : ¬ state.fde.Covers pc := by
  cases reached with
  | refl => exact away
  | again _ round =>
      obtain ⟨-, ret, -, -, passed⟩ := fdeAtPcBody_again_iff.mp round
      exact passed

/-- At a length that exceeds the section the scan comes back to where it is. -/
theorem fdeAtPcBody_exceeds {length width next : Nat}
    (inside : state.dbgEhOffset < dbg.dbgEhSize)
    (read : readLength dbg.order dbg.mem dbg.ds state.dbgEhOffset = some (length, width, next))
    (exceeds : sub64 dbg.ds.dsSize next < length) (away : ¬ state.fde.Covers pc) :
    fdeAtPcBody dbg pc state = .done (.again state) :=
  fdeAtPcBody_again_iff.mpr
    ⟨inside, dleDebugFrameLengthBad, by decide, getNextFde_exceeds inside read exceeds, away⟩

/-- Elsewhere a round that goes on leads further. -/
theorem lt_of_not_stalls (clear : ¬ Stalls dbg pc state)
    (round : fdeAtPcBody dbg pc state = .done (.again state')) :
    state.dbgEhOffset < dbg.dbgEhSize ∧ state.dbgEhOffset < state'.dbgEhOffset := by
  obtain ⟨inside, ret, nonneg, found, passed⟩ := fdeAtPcBody_again_iff.mp round
  refine ⟨inside, ?_⟩
  obtain ⟨length, width, next, read, exceeds | failed | entry⟩ := getNextFde_cases inside found
  · exact absurd ⟨inside, length, width, next, read, .inl exceeds.1⟩ clear
  · rw [failed.2] at nonneg
    exact absurd nonneg (by decide)
  · obtain ⟨-, rfl, next_eq⟩ := entry
    by_contra back
    rw [not_lt, next_eq] at back
    exact clear ⟨inside, length, width, next, read, .inr ⟨back, state', found, passed⟩⟩

/-- The scan makes progress exactly if it comes to no entry at which it stalls. -/
theorem progresses_iff (dbg : FrameDebug) (pc dbgEhOffset : Nat) (cie : Cie) :
    Progresses dbg pc ⟨dbgEhOffset, .zero, cie⟩ ↔
      ∀ state, Reached (fdeAtPcBody dbg pc) ⟨dbgEhOffset, .zero, cie⟩ state →
        ¬ Stalls dbg pc state := by
  have none_yet : ¬ Fde.zero.Covers pc := fun covers => Nat.not_lt_zero pc covers.2
  constructor
  · rintro ⟨-, advances⟩ state reached ⟨inside, length, width, next, read, exceeds | back⟩
    · have round := fdeAtPcBody_exceeds inside read exceeds (not_covers_of_reached none_yet reached)
      exact Nat.lt_irrefl _ (advances state state reached round)
    · obtain ⟨back, state', passes, passed⟩ := back
      have round := fdeAtPcBody_again_iff.mpr ⟨inside, 0, le_rfl, passes, passed⟩
      have further := advances state state' reached round
      obtain ⟨length', width', next', read', exceeds | failed | entry⟩ :=
        getNextFde_cases inside passes
      · exact absurd exceeds.2.1 (by decide)
      · exact absurd failed.2 (by decide)
      · rw [read] at read'
        cases read'
        rw [entry.2.2] at further
        exact absurd further (not_lt.mpr back)
  · intro never
    refine ⟨⟨dbg.dbgEhSize - dbgEhOffset + 1, ?_⟩, fun state state' reached round =>
      (lt_of_not_stalls (never state reached) round).2⟩
    refine loop_ne_timeout_of_reached (fun state => dbg.dbgEhSize - state.dbgEhOffset)
      (fun state _ => fdeAtPcBody_ne_timeout state) ?_ (Nat.lt_succ_self _)
    intro state state' reached round
    have further := lt_of_not_stalls (never state reached) round
    omega

end

/-! ## A length that exceeds the section -/

/-- A section of an entry that is longer than the section. -/
def longEntry : FrameDebug where
  order := .lsb
  mem := .image 0x1000 [0x10, 0, 0, 0, 0, 0, 0, 0] (by decide)
  ds := ⟨0x1000, 8⟩
  dsAddr := 0x1000
  dbgPointerSize := 8
  dbgEhSize := 8
  val _ := 0
  pointer_known := eight_known
  sizes_eq := rfl
  size_lt := by decide

/-- The scan does not get past it, for ever. -/
theorem longEntry_timeout :
    (∀ pc fuel cie, dwarfGetFdeAtPc longEntry fuel 0 pc cie = .timeout) ∧
      ¬ ∀ (dbg : FrameDebug) (pc : Nat) (cie : Cie), Progresses dbg pc ⟨0, .zero, cie⟩ := by
  have runs (pc fuel : Nat) (cie : Cie) : dwarfGetFdeAtPc longEntry fuel 0 pc cie = .timeout := by
    have read : readLength longEntry.order longEntry.mem longEntry.ds 0 = some (16, 4, 4) := by
      decide
    have inside : 0 < longEntry.dbgEhSize := by decide
    exact loop_timeout (.inr (fdeAtPcBody_exceeds inside read (by decide)
      fun covers => Nat.not_lt_zero pc covers.2)) fuel
  refine ⟨runs, fun claim => ?_⟩
  obtain ⟨⟨fuel, ends⟩, -⟩ := claim longEntry 0 ⟨0, 0, 0, 0, 0, 0, 0, 0, 0, 0, 0, 0, 0⟩
  exact ends (runs _ _ _)

end Jos64.Frame
