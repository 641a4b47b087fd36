import Jos64.Dwarf.Walk.Correctness

/-!
# Entries in a row

A row of entries in a unit, each of which the walk passes, is gone through entry
by entry: by `dwarf_child` to the first of it, and by `dwarf_siblingof` from one
to the next.
-/

namespace Jos64.Dwarf

open Loop Forest

/-- Entries that stand in a row in a unit, and can be passed. -/
structure Row (dbg : Debug) (cu : CU) (table : List Decl) (forest : Forest (Entry cu))
    (offset : Nat) : Prop where
  standard : cu.Standard
  tabled : Tabled dbg cu table
  placed : EachEntry dbg.order (Placed dbg.order table) forest offset
  passable : EachEntry dbg.order (Passable dbg) forest offset
  contains : dbg.debugInfo.Contains dbg.mem offset (entryBytes dbg.order forest)
  inside : offset + (entryBytes dbg.order forest).length ≤ cu.cuNextOffset
  ends : Ends dbg cu (offset + (entryBytes dbg.order forest).length)

namespace Row

variable {dbg : Debug} {cu : CU} {table : List Decl} {forest : Forest (Entry cu)} {offset : Nat}

theorem legible (row : Row dbg cu table forest offset) :
    EachEntry dbg.order (Legible table) forest offset :=
  legible_of_passable row.placed row.passable

section

variable {entry : Entry cu} {children rest : Forest (Entry cu)}
  (row : Row dbg cu table (.cons entry children rest) offset)

include row

/-- The entries behind the children. -/
theorem behind : Row dbg cu table rest (offset + (entry.bytes dbg.order).length +
    (entryBytes dbg.order children).length + entry.nullBytes.length) where
  standard := row.standard
  tabled := row.tabled
  placed := (eachEntry_cons.mp row.placed).2.2
  passable := (eachEntry_cons.mp row.passable).2.2
  contains := (contains_cons row.contains).2.2.2
  inside := by
    have inside := row.inside
    rw [entryBytes_length_cons] at inside
    exact inside
  ends := by
    have ends := row.ends
    rw [entryBytes_length_cons] at ends
    exact ends

/-- The children. -/
theorem below (opens : entry.decl.children = true) :
    Row dbg cu table children (offset + (entry.bytes dbg.order).length) where
  standard := row.standard
  tabled := row.tabled
  placed := (eachEntry_cons.mp row.placed).2.1
  passable := (eachEntry_cons.mp row.passable).2.1
  contains := (contains_cons row.contains).2.1
  inside := by
    have inside := row.inside
    rw [entryBytes_length_cons] at inside
    omega
  ends := by
    have null_here := (contains_cons row.contains).2.2.1
    rw [Entry.nullBytes, if_pos opens] at null_here
    exact .inr ⟨entry.null, entry.null_eq, null_here⟩

theorem entry_contains : dbg.debugInfo.Contains dbg.mem offset (entry.bytes dbg.order) :=
  (contains_cons row.contains).1

theorem declared : lookup table entry.code.value = some entry.decl :=
  (eachEntry_cons.mp row.placed).1.declared

variable {die : Die} (found : Found dbg entry offset die)

include found

omit row in
/-- An entry that cannot have children. -/
theorem childless (closed : entry.decl.children = false) (fuel : Nat) (retDie : Die) :
    dwarfChild dbg cu fuel die retDie = .done (dleNoEntry, retDie) := by
  rw [dwarfChild, if_pos]
  rw [found.children_eq, Decl.childrenFlag_eq_no_iff, closed]

/-- The first child is found, if there is one. -/
theorem finds_first :
    Finds dbg (fun fuel retDie => dwarfChild dbg cu fuel die retDie) children
      (if entry.decl.children then dlvNoEntry else dleNoEntry) fun die' =>
        ∀ first inner later, children = .cons first inner later →
          Found dbg first (offset + (entry.bytes dbg.order).length) die' := by
  have placed := (eachEntry_cons.mp row.placed).1
  have inside := row.inside
  rw [entryBytes_length_cons] at inside
  apply finds_child row.standard row.tabled found placed.childless
    (legible_of_passable (eachEntry_cons.mp row.placed).2.1 (eachEntry_cons.mp row.passable).2.1)
    (contains_cons row.contains).2.1 (by omega) fun opens => (row.below opens).ends
  rintro first inner later rfl die' first_found _ _ _ ⟨⟩
  exact first_found

/-- The next entry is found, if there is one. -/
theorem finds_next :
    Finds dbg (fun fuel retDie => dwarfSiblingof dbg cu fuel (some die) retDie) rest dlvNoEntry
      fun die' => ∀ next inner later, rest = .cons next inner later →
        Found dbg next (offset + (entry.bytes dbg.order).length +
          (entryBytes dbg.order children).length + entry.nullBytes.length) die' := by
  obtain ⟨placed, placed_below, -⟩ := eachEntry_cons.mp row.placed
  obtain ⟨passable, passable_below, -⟩ := eachEntry_cons.mp row.passable
  apply finds_sibling row.standard row.tabled found placed passable
    (legible_of_passable placed_below passable_below) row.behind.legible row.contains row.inside
    row.ends
  rintro next inner later rfl die' next_found _ _ _ ⟨⟩
  exact next_found

end

end Row

/-! ## One entry -/

/-- An entry stands at an offset of a unit, and can be read to its end. -/
structure Stands (dbg : Debug) (cu : CU) (table : List Decl) (entry : Entry cu) (offset : Nat) :
    Prop where
  standard : cu.Standard
  tabled : Tabled dbg cu table
  declared : lookup table entry.code.value = some entry.decl
  spanned : entry.Spanned
  contains : dbg.debugInfo.Contains dbg.mem offset (entry.bytes dbg.order)
  inside : offset < cu.cuNextOffset

/-- An entry of a row stands in its unit. -/
theorem Row.stands {dbg : Debug} {cu : CU} {table : List Decl} {entry : Entry cu}
    {children rest : Forest (Entry cu)} {offset : Nat}
    (row : Row dbg cu table (.cons entry children rest) offset) :
    Stands dbg cu table entry offset where
  standard := row.standard
  tabled := row.tabled
  declared := row.declared
  spanned := (eachEntry_cons.mp row.passable).1.spanned
  contains := row.entry_contains
  inside := by
    have inside := row.inside
    have entry_pos := entry.length_pos dbg.order
    rw [entryBytes_length_cons] at inside
    omega

/-- `dwarf_offdie` finds the entry. -/
theorem Stands.dwarfOffdie {dbg : Debug} {cu : CU} {table : List Decl} {entry : Entry cu}
    {offset : Nat} (stands : Stands dbg cu table entry offset) {fuel : Nat} (positive : 0 < fuel)
    (die : Die) :
    ∃ die', Dwarf.dwarfOffdie dbg cu fuel offset die = .done (dleNone, die') ∧
      Found dbg entry offset die' := by
  obtain ⟨die', read_eq, found⟩ := readEntry_eq stands.standard stands.tabled stands.declared
    stands.spanned stands.contains die
  obtain ⟨fuel, rfl⟩ : ∃ more, fuel = more + 1 := ⟨fuel - 1, by omega⟩
  have entry_pos := entry.length_pos dbg.order
  have in_section := stands.contains.inside
  refine ⟨die', ?_, found⟩
  rw [Dwarf.dwarfOffdie, if_pos stands.inside, search_single, if_pos ⟨stands.inside, by omega⟩,
    read_eq]
  rfl

/-! ## Names -/

section

variable {cu : CU}

/-- The value is the text. -/
def Value.Spells (dbg : Debug) (text : List Byte) : Value cu → Prop
  | .string text' _ => text' = text
  | .fixed form _ number _ _ =>
      form = .strp ∧ dbg.debugStr.Contains dbg.mem number (text ++ [0])
  | _ => False

/-- The entry has one name, the text. -/
def Entry.HasName (dbg : Debug) (text : List Byte) (entry : Entry cu) : Prop :=
  (∀ c ∈ text, c ≠ 0) ∧ ∃ attr,
    entry.attrs.filter (fun attr => attr.spec.attrib.value = atName) = [attr] ∧
      attr.value.Spells dbg text

/-- The form of its name is the declared one. -/
def Entry.NameDirect (entry : Entry cu) : Prop :=
  ∀ attr ∈ entry.attrs, attr.spec.attrib.value = atName → attr.links = []

section

variable {dbg : Debug} {text : List Byte}

theorem keepName_string {atref : Attribute} {before : Nat} (isName : atref.atAttrib = atName)
    (string : atref.atForm = Form.string.code) : atref.keepName before = atref.u0 := by
  have not_strp : ¬ atref.atForm = Form.strp.code := by
    rw [string]
    decide
  rw [Attribute.keepName, if_pos isName, if_neg not_strp, if_pos string]

theorem keepName_strp {atref : Attribute} {before : Nat} (isName : atref.atAttrib = atName)
    (strp : atref.atForm = Form.strp.code) : atref.keepName before = atref.u1 := by
  rw [Attribute.keepName, if_pos isName, if_pos strp]

theorem foldl_keepName_others {attrs : List (Attr cu)}
    (others : ∀ attr ∈ attrs, attr.spec.attrib.value ≠ atName) (offset name : Nat) :
    (attributesAt dbg.order (Attr.readAt dbg) offset attrs).foldl
      (fun name atref => atref.keepName name) name = name := by
  induction attrs generalizing offset with
  | nil => rfl
  | cons first attrs ih =>
      have other : ¬ (first.readAt dbg offset).atAttrib = atName := others first List.mem_cons_self
      rw [attributesAt, List.foldl_cons, Attribute.keepName, if_neg other]
      exact ih (fun later later_mem => others later (List.mem_cons_of_mem first later_mem)) _

theorem keepName_of_spells {attr : Attr cu} {offset : Nat}
    (isName : attr.spec.attrib.value = atName) (direct : attr.links = [])
    (spells : attr.value.Spells dbg text)
    (contains : dbg.debugInfo.Contains dbg.mem offset (attr.bytes dbg.order)) (before : Nat) :
    dbg.mem.Holds ((attr.readAt dbg offset).keepName before) (text ++ [0]) := by
  obtain ⟨spec, links, value, chained⟩ := attr
  obtain rfl : links = [] := direct
  have chained_form : spec.form.value = value.form.code := chained
  cases value with
  | string text' nonzero =>
      obtain rfl : text' = text := spells
      rw [keepName_string isName chained_form]
      exact contains.holds_at
  | fixed form width number has small =>
      obtain ⟨rfl, held⟩ := spells
      rw [keepName_strp isName chained_form]
      exact held.holds_at
  | _ => exact absurd spells id

/-- The name that is kept of the attributes is the one that they spell. -/
theorem holds_name {attrs : List (Attr cu)} {attr : Attr cu} {offset : Nat}
    (only : attrs.filter (fun attr => attr.spec.attrib.value = atName) = [attr])
    (direct : attr.links = []) (spells : attr.value.Spells dbg text)
    (contains : dbg.debugInfo.Contains dbg.mem offset (attrsBytes dbg.order attrs))
    (before : Nat) :
    dbg.mem.Holds ((attributesAt dbg.order (Attr.readAt dbg) offset attrs).foldl
      (fun name atref => atref.keepName name) before) (text ++ [0]) := by
  induction attrs generalizing offset before with
  | nil => contradiction
  | cons first attrs ih =>
      rw [attributesAt, List.foldl_cons]
      by_cases isName : first.spec.attrib.value = atName
      · rw [List.filter_cons_of_pos (by simpa using isName)] at only
        obtain ⟨rfl, none⟩ := List.cons.inj only
        have others : ∀ later ∈ attrs, later.spec.attrib.value ≠ atName := by
          intro later later_mem
          simpa using List.filter_eq_nil_iff.mp none later later_mem
        rw [foldl_keepName_others others]
        exact keepName_of_spells isName direct spells contains.left before
      · rw [List.filter_cons_of_neg (by simpa using isName)] at only
        exact ih only contains.right _

/-- The name of an entry that is found. -/
theorem Found.holds_name {entry : Entry cu} {offset : Nat} {die : Die}
    (found : Found dbg entry offset die) (named : entry.HasName dbg text)
    (direct : entry.NameDirect)
    (contains : dbg.debugInfo.Contains dbg.mem offset (entry.bytes dbg.order)) :
    dbg.mem.Holds die.dieName (text ++ [0]) := by
  obtain ⟨-, attr, only, spells⟩ := named
  obtain ⟨before, name_eq⟩ := found.name_eq
  have attr_mem : attr ∈ entry.attrs.filter fun attr => attr.spec.attrib.value = atName := by
    rw [only]
    exact List.mem_singleton_self attr
  obtain ⟨attr_mem, isName⟩ := List.mem_filter.mp attr_mem
  rw [name_eq]
  exact Dwarf.holds_name only (direct attr attr_mem (of_decide_eq_true isName)) spells
    contains.right before

end

end

end Jos64.Dwarf
