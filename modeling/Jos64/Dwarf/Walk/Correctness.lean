import Jos64.Dwarf.Walk.Core

/-!
# Walking through a unit

From the first entry of a unit, `dwarf_child` and `dwarf_siblingof` lead through
its whole forest exactly if its entries are clear: their LEB128 numbers are read
back, and no sibling is missed because its offset is taken for one that counts
from the unit.
-/

namespace Jos64.Dwarf

open Loop Forest

variable {dbg : Debug} {cu : CU}

/-! ## The walk -/

section

variable (standard : cu.Standard) {table : List Decl} (tabled : Tabled dbg cu table)

include standard tabled

/-- A call that searches at a forest finds its first entry. -/
theorem finds_at_forest {forest : Forest (Entry cu)} {offset : Nat}
    (each : EachEntry dbg.order (Legible table) forest offset)
    (contains : dbg.debugInfo.Contains dbg.mem offset (entryBytes dbg.order forest))
    (inside : offset + (entryBytes dbg.order forest).length ≤ cu.cuNextOffset)
    (ends : Ends dbg cu (offset + (entryBytes dbg.order forest).length)) {walks : Die → Prop}
    (walks_first : ∀ entry children rest, forest = .cons entry children rest →
      ∀ die, Found dbg entry offset die → walks die) {call : Nat → Die → Exec (Int × Die)}
    (searches : ∀ fuel, dbg.debugInfo.dsSize < fuel → ∀ retDie, ∃ searchSibling level fuel' die,
      AtTarget searchSibling ⟨offset, level, die⟩ ∧
        call fuel retDie =
          (loop (searchBody dbg cu searchSibling) (fuel' + 1) ⟨offset, level, die⟩).bind
            fun (ret, retDie) => .done (searchStatus ret, retDie)) :
    Finds dbg call forest dlvNoEntry walks := by
  cases forest with
  | nil =>
      intro fuel enough retDie
      obtain ⟨searchSibling, level, fuel', die, target, call_eq⟩ := searches fuel enough retDie
      obtain ⟨die', result⟩ :=
        search_at_forest standard tabled each contains inside ends target fuel'
      refine ⟨die', ?_⟩
      rw [call_eq, result]
      rfl
  | cons entry children rest =>
      intro fuel enough retDie
      obtain ⟨searchSibling, level, fuel', die, target, call_eq⟩ := searches fuel enough retDie
      obtain ⟨die', found, result⟩ :=
        search_at_forest standard tabled each contains inside ends target fuel'
      refine ⟨die', ?_, walks_first entry children rest rfl die' found⟩
      rw [call_eq, result]
      rfl

/-- `dwarf_child` finds the first child. -/
theorem finds_child {entry : Entry cu} {children : Forest (Entry cu)} {offset : Nat} {die : Die}
    (found : Found dbg entry offset die)
    (childless : entry.decl.children = false → children = .nil)
    (each : EachEntry dbg.order (Legible table) children
      (offset + (entry.bytes dbg.order).length))
    (contains : dbg.debugInfo.Contains dbg.mem (offset + (entry.bytes dbg.order).length)
      (entryBytes dbg.order children))
    (inside : offset + (entry.bytes dbg.order).length + (entryBytes dbg.order children).length ≤
      cu.cuNextOffset)
    (ends : entry.decl.children = true → Ends dbg cu
      (offset + (entry.bytes dbg.order).length + (entryBytes dbg.order children).length))
    {walks : Die → Prop}
    (walks_first : ∀ first below behind, children = .cons first below behind →
      ∀ die, Found dbg first (offset + (entry.bytes dbg.order).length) die → walks die) :
    Finds dbg (fun fuel retDie => dwarfChild dbg cu fuel die retDie) children
      (if entry.decl.children then dlvNoEntry else dleNoEntry) walks := by
  by_cases opens : entry.decl.children = true
  · rw [if_pos opens]
    apply finds_at_forest standard tabled each contains inside (ends opens) walks_first
    intro fuel enough retDie
    refine ⟨false, 1, fuel - 1, retDie, .inl rfl, ?_⟩
    have has_children : ¬ die.dieAb.abChildren = childrenNo := by
      rw [found.children_eq, Decl.childrenFlag_eq_no_iff, opens]
      exact nofun
    rw [dwarfChild, if_neg has_children, found.next_eq, searchDieWithinCu,
      Nat.sub_add_cancel (by omega)]
  · rw [Bool.not_eq_true] at opens
    obtain rfl := childless opens
    intro fuel _ retDie
    have no_children : die.dieAb.abChildren = childrenNo := by
      rw [found.children_eq, Decl.childrenFlag_eq_no_iff, opens]
    refine ⟨retDie, ?_⟩
    dsimp only
    rw [dwarfChild, if_pos no_children, opens]
    rfl

/-- The search for a sibling passes over the children to where it begins. -/
theorem search_over_children {entry : Entry cu} {children : Forest (Entry cu)} {offset : Nat}
    (opens : entry.decl.children = true)
    (each : EachEntry dbg.order (Legible table) children offset)
    (contains : dbg.debugInfo.Contains dbg.mem offset (entryBytes dbg.order children))
    (null_here : dbg.debugInfo.Contains dbg.mem (offset + (entryBytes dbg.order children).length)
      entry.nullBytes)
    (inside : offset + (entryBytes dbg.order children).length + entry.nullBytes.length ≤
      cu.cuNextOffset) (die : Die) (fuel : Nat)
    (enough : (entryBytes dbg.order children).length + entry.nullBytes.length < fuel) :
    ∃ die' fuel', loop (searchBody dbg cu true) fuel ⟨offset, 1, die⟩ =
      loop (searchBody dbg cu true) (fuel' + 1)
        ⟨offset + (entryBytes dbg.order children).length + entry.nullBytes.length, 0, die'⟩ := by
  have nulls : entry.nullBytes = entry.null.bytes := if_pos opens
  have null_pos := entry.null.length_pos
  rw [← nulls] at null_pos
  obtain ⟨die', fuel', used, run⟩ := search_over_forest standard tabled each contains (by omega) 0
    die fuel (by omega)
  obtain ⟨fuel', rfl⟩ : ∃ more, fuel' = more + 1 + 1 := ⟨fuel' - 2, by omega⟩
  have up := searchBody_of_null cu true ⟨_, 0 + 1, die'⟩ entry.null_eq (nulls ▸ null_here)
    (by dsimp only; omega)
  rw [if_neg (by simp), ← nulls] at up
  refine ⟨die', fuel', ?_⟩
  rw [run, loop_again up]
  rfl

/-- `dwarf_siblingof` finds the next sibling, whichever of its paths it takes. -/
theorem finds_sibling {entry : Entry cu} {children rest : Forest (Entry cu)} {offset : Nat}
    {die : Die} (found : Found dbg entry offset die)
    (placed : Placed dbg.order table offset entry children rest)
    (passable : Passable dbg offset entry children rest)
    (each_below : EachEntry dbg.order (Legible table) children
      (offset + (entry.bytes dbg.order).length))
    (each_behind : EachEntry dbg.order (Legible table) rest
      (offset + (entry.bytes dbg.order).length + (entryBytes dbg.order children).length +
        entry.nullBytes.length))
    (contains : dbg.debugInfo.Contains dbg.mem offset
      (entryBytes dbg.order (.cons entry children rest)))
    (inside : offset + (entryBytes dbg.order (.cons entry children rest)).length ≤
      cu.cuNextOffset)
    (ends : Ends dbg cu (offset + (entryBytes dbg.order (.cons entry children rest)).length))
    {walks : Die → Prop}
    (walks_first : ∀ next below behind, rest = .cons next below behind → ∀ die,
      Found dbg next (offset + (entry.bytes dbg.order).length +
        (entryBytes dbg.order children).length + entry.nullBytes.length) die → walks die) :
    Finds dbg (fun fuel retDie => dwarfSiblingof dbg cu fuel (some die) retDie) rest dlvNoEntry
      walks := by
  obtain ⟨entry_here, children_here, null_here, rest_here⟩ := contains_cons contains
  have in_section := contains.inside
  have fits := contains.fits
  rw [entryBytes_length_cons] at inside ends in_section
  have start_eq := siblingStart_eq found (by omega) placed.siblings passable.kept
  -- all paths but one lead to the entries behind the children
  have to_rest (searches : ∀ fuel, dbg.debugInfo.dsSize < fuel → ∀ retDie,
      ∃ searchSibling level fuel' die',
        AtTarget searchSibling ⟨offset + (entry.bytes dbg.order).length +
          (entryBytes dbg.order children).length + entry.nullBytes.length, level, die'⟩ ∧
          loop (searchBody dbg cu (siblingStart cu die).2) fuel
              ⟨(siblingStart cu die).1, 1, retDie⟩ =
            loop (searchBody dbg cu searchSibling) (fuel' + 1)
              ⟨offset + (entry.bytes dbg.order).length + (entryBytes dbg.order children).length +
                entry.nullBytes.length, level, die'⟩) :
      Finds dbg (fun fuel retDie => dwarfSiblingof dbg cu fuel (some die) retDie) rest dlvNoEntry
        walks := by
    apply finds_at_forest standard tabled each_behind rest_here inside ends walks_first
    intro fuel enough retDie
    obtain ⟨searchSibling, level, fuel', die', target, run⟩ := searches fuel enough retDie
    refine ⟨searchSibling, level, fuel', die', target, ?_⟩
    rw [← run]
    rfl
  by_cases opens : entry.decl.children = true
  · rw [if_neg (by rw [opens]; exact nofun)] at start_eq
    cases sibling_eq : entry.sibling with
    | none =>
        rw [sibling_eq] at start_eq
        apply to_rest
        intro fuel enough retDie
        rw [start_eq]
        obtain ⟨die', fuel', run⟩ := search_over_children standard tabled opens each_below
          children_here null_here (by omega) retDie fuel (by omega)
        exact ⟨true, 0, fuel', die', .inr rfl, run⟩
    | some attr =>
        rw [sibling_eq] at start_eq
        dsimp only at start_eq
        by_cases astray : attr.Astray
        · obtain ⟨rfl, vacant⟩ := passable.harmless opens attr sibling_eq astray
          rw [if_pos astray] at start_eq
          intro fuel enough retDie
          obtain ⟨die', search⟩ := (search_single_vacant (fuel - 1) _ retDie).mpr vacant
          rw [Nat.sub_add_cancel (by omega)] at search
          refine ⟨die', ?_⟩
          dsimp only
          rw [dwarfSiblingof, start_eq]
          dsimp only
          rw [search]
          rfl
        · rw [if_neg astray] at start_eq
          apply to_rest
          intro fuel enough retDie
          rw [start_eq]
          exact ⟨false, 1, fuel - 1, retDie, .inl rfl, by rw [Nat.sub_add_cancel (by omega)]⟩
  · rw [Bool.not_eq_true] at opens
    obtain rfl := placed.childless opens
    have no_nulls : entry.nullBytes.length = 0 := by
      rw [Entry.nullBytes, opens]
      rfl
    rw [if_pos opens] at start_eq
    apply to_rest
    intro fuel enough retDie
    refine ⟨false, 1, fuel - 1, retDie, .inl rfl, ?_⟩
    rw [start_eq, no_nulls, Nat.sub_add_cancel (by omega)]
    rfl

end

/-! ## Units -/

theorem Encodes.inside {table : List Decl} {forest : Forest (Entry cu)} {tail : List Byte}
    (encodes : Encodes dbg cu table forest tail) :
    cu.cuDieOffset + (entryBytes dbg.order forest).length ≤ cu.cuNextOffset ∧
      cu.cuNextOffset ≤ dbg.debugInfo.dsSize ∧ dbg.debugInfo.dsSize < 2 ^ 64 := by
  have next_eq := encodes.next_eq
  have in_section := encodes.contains.inside
  have fits := encodes.contains.fits
  rw [List.length_append] at next_eq in_section
  omega

theorem Encodes.ends {table : List Decl} {forest : Forest (Entry cu)} {tail : List Byte}
    (encodes : Encodes dbg cu table forest tail) :
    Ends dbg cu (cu.cuDieOffset + (entryBytes dbg.order forest).length) := by
  have next_eq := encodes.next_eq
  have contains := encodes.contains
  rcases encodes.tail_eq with rfl | ⟨null, more, zero, rfl⟩
  · rw [List.append_nil] at next_eq
    exact .inl (by omega)
  · exact .inr ⟨null, zero, contains.right.left⟩

/-- The first entry is looked for like any other. -/
theorem Encodes.first_eq {table : List Decl} {entry : Entry cu}
    {children rest : Forest (Entry cu)} {tail : List Byte}
    (encodes : Encodes dbg cu table (.cons entry children rest) tail) (fuel : Nat) (retDie : Die) :
    dwarfSiblingof dbg cu fuel none retDie =
      searchDieWithinCu dbg cu fuel cu.cuDieOffset retDie false := by
  have inside := encodes.inside.1
  have entry_pos := entry.length_pos dbg.order
  rw [entryBytes_length_cons] at inside
  rw [dwarfSiblingof, dwarfOffdie, if_pos (by omega)]

section

end

/-! ## A unit with a tree -/

section

end

end Jos64.Dwarf
