import Jos64.Dwarf.Die.Entry
import Jos64.Forest.Core

/-!
# The search in an encoded unit

The entries of a unit are a forest, and the search passes over the forest in
front of it: over all the entries at its level and below, and over the entry of
code zero that takes it back up.
-/

namespace Jos64.Dwarf

open Loop Forest

variable {dbg : Debug} {cu : CU}

/-- The entry of code zero behind the children, if there can be any. -/
def Entry.nullBytes (entry : Entry cu) : List Byte :=
  if entry.decl.children then entry.null.bytes else []

/-- The bytes of the entries. -/
def entryBytes (order : Endianness) (forest : Forest (Entry cu)) : List Byte :=
  forest.flat (Entry.bytes order) Entry.nullBytes

/-- Every entry has the property, at its offset. -/
def EachEntry (order : Endianness)
    (p : Nat → Entry cu → Forest (Entry cu) → Forest (Entry cu) → Prop)
    (forest : Forest (Entry cu)) (offset : Nat) : Prop :=
  forest.EachAt (Entry.bytes order) Entry.nullBytes p offset

section

variable {entry : Entry cu} {children rest : Forest (Entry cu)} {offset : Nat}

theorem entryBytes_length_cons (order : Endianness) (entry : Entry cu)
    (children rest : Forest (Entry cu)) (offset : Nat) :
    offset + (entryBytes order (.cons entry children rest)).length =
      offset + (entry.bytes order).length + (entryBytes order children).length +
        entry.nullBytes.length + (entryBytes order rest).length :=
  length_flat_cons entry children rest offset

theorem eachEntry_cons {order : Endianness}
    {p : Nat → Entry cu → Forest (Entry cu) → Forest (Entry cu) → Prop} :
    EachEntry order p (.cons entry children rest) offset ↔
      p offset entry children rest ∧
        EachEntry order p children (offset + (entry.bytes order).length) ∧
        EachEntry order p rest (offset + (entry.bytes order).length +
          (entryBytes order children).length + entry.nullBytes.length) :=
  Iff.rfl

theorem contains_cons
    (contains : dbg.debugInfo.Contains dbg.mem offset
      (entryBytes dbg.order (.cons entry children rest))) :
    dbg.debugInfo.Contains dbg.mem offset (entry.bytes dbg.order) ∧
      dbg.debugInfo.Contains dbg.mem (offset + (entry.bytes dbg.order).length)
        (entryBytes dbg.order children) ∧
      dbg.debugInfo.Contains dbg.mem (offset + (entry.bytes dbg.order).length +
        (entryBytes dbg.order children).length) entry.nullBytes ∧
      dbg.debugInfo.Contains dbg.mem (offset + (entry.bytes dbg.order).length +
        (entryBytes dbg.order children).length + entry.nullBytes.length)
        (entryBytes dbg.order rest) :=
  ⟨contains.left, contains.right.left, contains.right.right.left, contains.right.right.right⟩

end

/-- Nothing more stands at the offset: the unit ends there, or an entry of code
zero follows. -/
def Ends (dbg : Debug) (cu : CU) (offset : Nat) : Prop :=
  cu.cuNextOffset ≤ offset ∨
    ∃ null : Uleb, null.value = 0 ∧ dbg.debugInfo.Contains dbg.mem offset null.bytes

/-- An entry is declared, and has children only where its declaration says so. -/
structure Declared (table : List Decl) (entry : Entry cu) (children : Forest (Entry cu)) :
    Prop where
  declared : lookup table entry.code.value = some entry.decl
  childless : entry.decl.children = false → children = .nil

/-! ## Rounds -/

section

variable (searchSibling : Bool) (state : SearchState)

/-- The search has come to where it looks for an entry. -/
def AtTarget (searchSibling : Bool) (state : SearchState) : Prop :=
  searchSibling = false ∨ state.level = 0

variable (cu) in
theorem searchBody_of_null {null : Uleb} (zero : null.value = 0)
    (contains : dbg.debugInfo.Contains dbg.mem state.offset null.bytes)
    (inside : state.offset < cu.cuNextOffset) :
    searchBody dbg cu searchSibling state =
      if state.level = 0 ∨ searchSibling = false then .done (.stop (dleNoEntry, state.retDie))
      else .done (.again ⟨state.offset + null.bytes.length, state.level - 1, state.retDie⟩) := by
  have null_pos := null.length_pos
  have bound := contains.inside
  have decoded : null.decoded = 0 := by
    rw [Uleb.decoded_of_lt (by rw [zero]; decide), zero]
  have read_eq : readEntry dbg cu state.offset state.retDie =
      some (.null (state.offset + null.bytes.length)) := by
    rw [readEntry, contains.readUleb128, Option.bind_some]
    dsimp only
    rw [if_pos decoded]
  rw [searchBody, if_pos ⟨inside, by omega⟩, read_eq, Exec.ofOption_some, Exec.done_bind]

variable {searchSibling state}

theorem searchBody_of_ends (ends : Ends dbg cu state.offset)
    (target : AtTarget searchSibling state) :
    searchBody dbg cu searchSibling state = .done (.stop (dleNoEntry, state.retDie)) := by
  by_cases inside : state.offset < cu.cuNextOffset
  · obtain ⟨null, zero, contains⟩ := ends.resolve_left (not_le.mpr inside)
    rw [searchBody_of_null cu _ _ zero contains inside, if_pos target.symm]
  · rw [searchBody, if_neg fun both => inside both.1]

variable (standard : cu.Standard) {table : List Decl} (tabled : Tabled dbg cu table)
  {entry : Entry cu} (declared : lookup table entry.code.value = some entry.decl)
  (spanned : entry.Spanned)
  (contains : dbg.debugInfo.Contains dbg.mem state.offset (entry.bytes dbg.order))
  (inside : state.offset < cu.cuNextOffset)

include standard tabled declared spanned contains inside

variable (searchSibling) in
/-- On an entry the search stops at its target, and goes on elsewhere. -/
theorem searchBody_of_entry :
    ∃ die, Found dbg entry state.offset die ∧
      searchBody dbg cu searchSibling state =
        if searchSibling = true ∧ 0 < state.level then
          .done (.again ⟨state.offset + (entry.bytes dbg.order).length,
            if entry.decl.children then state.level + 1 else state.level, die⟩)
        else .done (.stop (dleNone, die)) := by
  have entry_pos := entry.length_pos dbg.order
  have bound := contains.inside
  obtain ⟨die, read_eq, found⟩ :=
    readEntry_eq standard tabled declared spanned contains state.retDie
  refine ⟨die, found, ?_⟩
  rw [searchBody, if_pos ⟨inside, by omega⟩, read_eq, Exec.ofOption_some, Exec.done_bind]
  dsimp only
  rw [found.next_eq, found.children_eq]
  simp only [Decl.childrenFlag_eq_yes_iff]

theorem searchBody_at_entry (target : AtTarget searchSibling state) :
    ∃ die, Found dbg entry state.offset die ∧
      searchBody dbg cu searchSibling state = .done (.stop (dleNone, die)) := by
  obtain ⟨die, found, body_eq⟩ :=
    searchBody_of_entry searchSibling standard tabled declared spanned contains inside
  refine ⟨die, found, ?_⟩
  rw [body_eq, if_neg]
  rintro ⟨sibling, above⟩
  rcases target with single | level
  · rw [single] at sibling
    contradiction
  · omega

end

/-! ## Runs -/

/-- An entry that a search can pass over. -/
def Legible (table : List Decl) (_ : Nat) (entry : Entry cu) (children _ : Forest (Entry cu)) :
    Prop :=
  Declared table entry children ∧ entry.Spanned

/-- The search passes over a forest: the induction is on the forest, and the
level is what it was behind every tree of it. -/
theorem search_over_forest (standard : cu.Standard) {table : List Decl}
    (tabled : Tabled dbg cu table) {forest : Forest (Entry cu)} {offset : Nat}
    (each : EachEntry dbg.order (Legible table) forest offset)
    (contains : dbg.debugInfo.Contains dbg.mem offset (entryBytes dbg.order forest))
    (inside : offset + (entryBytes dbg.order forest).length ≤ cu.cuNextOffset)
    (level : Nat) (die : Die) (fuel : Nat)
    (enough : (entryBytes dbg.order forest).length ≤ fuel) :
    ∃ die' fuel', fuel ≤ fuel' + (entryBytes dbg.order forest).length ∧
      loop (searchBody dbg cu true) fuel ⟨offset, level + 1, die⟩ =
        loop (searchBody dbg cu true) fuel'
          ⟨offset + (entryBytes dbg.order forest).length, level + 1, die'⟩ := by
  induction forest generalizing offset level die fuel with
  | nil => exact ⟨die, fuel, Nat.le_add_right _ _, rfl⟩
  | cons entry children rest children_ih rest_ih =>
      obtain ⟨⟨declared, spanned⟩, below, behind⟩ := eachEntry_cons.mp each
      obtain ⟨entry_here, children_here, null_here, rest_here⟩ := contains_cons contains
      have entry_pos := entry.length_pos dbg.order
      have total := entryBytes_length_cons dbg.order entry children rest offset
      rw [total] at inside ⊢
      obtain ⟨fuel, rfl⟩ : ∃ more, fuel = more + 1 := ⟨fuel - 1, by omega⟩
      -- the entry itself
      have start_here : dbg.debugInfo.Contains dbg.mem
          (⟨offset, level + 1, die⟩ : SearchState).offset (entry.bytes dbg.order) := entry_here
      obtain ⟨die₁, -, first⟩ := searchBody_of_entry true standard tabled declared.declared spanned
        start_here (by dsimp only; omega)
      rw [if_pos ⟨rfl, Nat.succ_pos level⟩] at first
      rw [loop_again first]
      dsimp only
      by_cases opens : entry.decl.children = true
      · -- its children, a level down, and the entry that ends them
        have nulls : entry.nullBytes = entry.null.bytes := if_pos opens
        have null_pos := entry.null.length_pos
        rw [← nulls] at null_pos
        obtain ⟨die₂, fuel₂, used₂, run₂⟩ := children_ih below children_here (by omega) (level + 1)
          die₁ fuel (by omega)
        obtain ⟨fuel₂, rfl⟩ : ∃ more, fuel₂ = more + 1 := ⟨fuel₂ - 1, by omega⟩
        have up := searchBody_of_null cu true ⟨_, level + 1 + 1, die₂⟩ entry.null_eq
          (nulls ▸ null_here) (by dsimp only; omega)
        rw [if_neg (by simp), ← nulls] at up
        obtain ⟨die₃, fuel₃, used₃, run₃⟩ := rest_ih behind rest_here (by omega) level die₂
          fuel₂ (by omega)
        refine ⟨die₃, fuel₃, by omega, ?_⟩
        rw [if_pos opens, run₂, loop_again up]
        exact run₃
      · -- nothing else belongs to the entry
        obtain rfl : children = .nil := declared.childless (by simpa using opens)
        have no_nulls : entry.nullBytes.length = 0 := by
          rw [Entry.nullBytes, if_neg opens, List.length_nil]
        have no_children : (entryBytes dbg.order (.nil : Forest (Entry cu))).length = 0 := rfl
        obtain ⟨die₃, fuel₃, used₃, run₃⟩ := rest_ih behind rest_here (by omega) level die₁
          fuel (by omega)
        refine ⟨die₃, fuel₃, by omega, ?_⟩
        rw [if_neg opens, ← run₃, no_nulls, no_children]
        rfl

/-- At a forest the search finds its first entry, and none if it is empty. -/
theorem search_at_forest (standard : cu.Standard) {table : List Decl}
    (tabled : Tabled dbg cu table) {forest : Forest (Entry cu)} {offset : Nat}
    (each : EachEntry dbg.order (Legible table) forest offset)
    (contains : dbg.debugInfo.Contains dbg.mem offset (entryBytes dbg.order forest))
    (inside : offset + (entryBytes dbg.order forest).length ≤ cu.cuNextOffset)
    (ends : Ends dbg cu (offset + (entryBytes dbg.order forest).length))
    {searchSibling : Bool} {level : Nat} {die : Die}
    (target : AtTarget searchSibling ⟨offset, level, die⟩) (fuel : Nat) :
    ∃ die', match forest with
      | .nil => loop (searchBody dbg cu searchSibling) (fuel + 1) ⟨offset, level, die⟩ =
          .done (dleNoEntry, die')
      | .cons entry _ _ => Found dbg entry offset die' ∧
          loop (searchBody dbg cu searchSibling) (fuel + 1) ⟨offset, level, die⟩ =
            .done (dleNone, die') := by
  cases forest with
  | nil => exact ⟨die, loop_stop (searchBody_of_ends ends target) fuel⟩
  | cons entry children rest =>
      obtain ⟨⟨declared, spanned⟩, -, -⟩ := eachEntry_cons.mp each
      have entry_pos := entry.length_pos dbg.order
      rw [entryBytes_length_cons] at inside
      obtain ⟨die', found, stops⟩ := searchBody_at_entry standard tabled declared.declared spanned
        (contains_cons contains).1 (by dsimp only; omega) target
      exact ⟨die', found, loop_stop stops fuel⟩

/-! ## Searches for a single entry -/

/-- No entry is found at the offset: it is not in the unit, or the code that
stands there is zero or not declared. -/
def Vacant (dbg : Debug) (cu : CU) (offset : Nat) : Prop :=
  ¬ (offset < cu.cuNextOffset ∧ offset < dbg.debugInfo.dsSize) ∨
    ∃ abnum next, readUleb128 dbg.mem dbg.debugInfo offset = some (abnum, next) ∧
      (abnum = 0 ∨ abbrevFind dbg cu.debugAbbrevOffset abnum = some none)

/-- A search that skips nothing looks at one offset. -/
theorem search_single (fuel offset : Nat) (die : Die) :
    searchDieWithinCu dbg cu (fuel + 1) offset die false =
      if offset < cu.cuNextOffset ∧ offset < dbg.debugInfo.dsSize then
        (Exec.ofOption (readEntry dbg cu offset die)).bind fun
          | .null _ => .done (dleNoEntry, die)
          | .failed ret die => .done (ret, die)
          | .entry die => .done (dleNone, die)
      else .done (dleNoEntry, die) := by
  rw [searchDieWithinCu, loop, searchBody]
  dsimp only
  split
  · cases readEntry dbg cu offset die with
    | none => rfl
    | some read =>
        cases read with
        | null next =>
            rw [Exec.ofOption_some, Exec.done_bind]
            dsimp only
            rw [if_pos (.inr rfl)]
            rfl
        | failed ret die => rfl
        | entry die =>
            rw [Exec.ofOption_some, Exec.done_bind]
            dsimp only
            rw [if_neg fun both => Bool.false_ne_true both.1]
            rfl
  · rfl

/-- Such a search reports that there is no entry exactly at a vacant offset. -/
theorem search_single_vacant (fuel offset : Nat) (die : Die) :
    (∃ die', searchDieWithinCu dbg cu (fuel + 1) offset die false = .done (dleNoEntry, die')) ↔
      Vacant dbg cu offset := by
  rw [search_single, Vacant]
  by_cases inside : offset < cu.cuNextOffset ∧ offset < dbg.debugInfo.dsSize
  · rw [if_pos inside]
    constructor
    · rintro ⟨die', ended⟩
      obtain ⟨read, read_eq, result⟩ := Exec.bind_eq_done ended
      cases found : readEntry dbg cu offset die with
      | none =>
          rw [found] at read_eq
          contradiction
      | some read' =>
          rw [found] at read_eq
          cases read_eq
          obtain ⟨abnum, next, code_eq, cases⟩ := readEntry_cases found
          refine .inr ⟨abnum, next, code_eq, ?_⟩
          rcases cases with ⟨zero, -⟩ | ⟨missing, -⟩ | ⟨-, -, -, made, -, rfl | rfl⟩
          · exact .inl zero
          · exact .inr missing
          · cases result
          · cases result
    · rintro (outside | ⟨abnum, next, code_eq, zero | missing⟩)
      · exact absurd inside outside
      · refine ⟨die, ?_⟩
        rw [readEntry, code_eq, Option.bind_some]
        dsimp only
        rw [if_pos zero]
        rfl
      · refine ⟨die, ?_⟩
        rw [readEntry, code_eq, Option.bind_some]
        dsimp only
        split
        · rfl
        · rw [missing]
          rfl
  · rw [if_neg inside]
    exact iff_of_true ⟨die, rfl⟩ (.inl inside)

end Jos64.Dwarf
