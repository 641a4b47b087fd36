import Jos64.Debuginfo.Contents
import Jos64.Loop.Runs

/-!
# The functions that are gone through

The search goes through the units and through the functions of each, and stops at
the first that has the address inside.
-/

namespace Jos64.Debuginfo

open Loop Dwarf Forest

variable {dbg : Debug}

/-! ## The test -/

section

variable {cu : CU} {entry : Entry cu} {offset : Nat} {die : Die}

/-- The address that an attribute of an entry holds is found. -/
theorem attrFind_of_pc (found : Found dbg entry offset die) {name value : Nat}
    (pc_eq : pc name entry = some value) :
    ∃ atref, attrFind die name = some atref ∧ atref.u0 = value := by
  obtain ⟨attr, first, is_address⟩ := Option.bind_eq_some_iff.mp pc_eq
  rcases attrFind_of_found found name with ⟨no_attr, -⟩ | ⟨attr', attrOffset, first', atref⟩
  · rw [no_attr] at first
    contradiction
  · rw [first] at first'
    cases first'
    refine ⟨_, atref, ?_⟩
    obtain ⟨spec, links, attr_value, chained⟩ := attr
    cases attr_value with
    | fixed form width number has small =>
        rw [address] at is_address
        split at is_address
        · cases is_address
          rfl
        · contradiction
    | _ => contradiction

/-- The lookup of the line ends at once from an entry that leads to no lines. -/
theorem lineEnds_of_no_lines {cudie : Die} (found : Found dbg entry offset cudie)
    (none : entry.attrs.find? (fun attr => attr.spec.attrib.value = Lineno.atStmtList) = none)
    (debugLine : Section) (addr : Nat) : LineEnds dbg debugLine cu cudie addr := by
  rcases attrFind_of_found found Lineno.atStmtList with ⟨-, missing⟩ | ⟨attr, _, first, -⟩
  · exact ⟨0, _, by rw [Lineno.dwarfSrclines, missing]⟩
  · cases none.symm.trans first

/-- The test on the entry of a function. -/
theorem covers_of_describes (found : Found dbg entry offset die) {root : Entry cu} {f : Function}
    (describes : Describes dbg root entry f) (addr : Nat) :
    covers die addr ↔ f.Inside addr := by
  obtain ⟨low, low_found, low_eq⟩ := attrFind_of_pc found describes.low
  obtain ⟨high, high_found, high_eq⟩ := attrFind_of_pc found describes.high
  rw [covers, low_found, high_found, found.tag_eq, describes.tag]
  simp [low_eq, high_eq, Function.Inside]

theorem covers_of_other (found : Found dbg entry offset die)
    (other : entry.decl.tag.value ≠ tagSubprogram) (addr : Nat) : ¬ covers die addr := by
  rw [covers, found.tag_eq]
  split
  · simp [other]
  · exact Bool.false_ne_true

end

/-! ## The children of a unit -/

section

variable {cu : CU} {table : List Decl} {root : Entry cu}

/-- A round on an entry that is not the function. -/
theorem childBody_next {fuel addr : Nat} {debugLine : Section} {cudie ret die die2 die' : Die}
    {status : Int} (missed : ¬ covers die addr)
    (ended : dwarfSiblingof dbg cu fuel (some die) die2 = .done (status, die')) :
    childBody dbg fuel debugLine cu cudie ret addr ⟨die, die2⟩ =
      if status < 0 then .done (.stop (.ended ⟨die, die'⟩)) else .done (.again ⟨die', die'⟩) := by
  rw [childBody_of_not_covers missed]
  change (dwarfSiblingof dbg cu fuel (some die) die2).bind _ = _
  rw [ended]
  rfl

/-- The loop over the children ends with what is stored for the first function with the
address inside, or goes to their end. -/
theorem childLoop_ends {forest : Forest (Entry cu)} {offset : Nat}
    (row : Row dbg cu table forest offset)
    (described : ∀ tree ∈ forest.trees, tree.1.decl.tag.value = tagSubprogram →
      ∃ f, Describes dbg root tree.1 f) (nonempty : forest ≠ .nil) {die : Die}
    (found : ∀ entry children rest, forest = .cons entry children rest →
      Found dbg entry offset die) (die2 : Die) {fuel rounds : Nat}
    (enough : dbg.debugInfo.dsSize < fuel) (enough_rounds : forest.trees.length < rounds)
    (debugLine : Section) (cudie ret : Die) (addr : Nat) :
    (∃ tree ∈ forest.trees, ∃ f, Describes dbg root tree.1 f ∧ f.Inside addr ∧
      ∃ die' offset' rest',
        loop (childBody dbg fuel debugLine cu cudie ret addr) rounds ⟨die, die2⟩ =
          (storeFunction dbg fuel debugLine cu cudie ret die' addr).bind
            (fun info => .done (.found info)) ∧
        Found dbg tree.1 offset' die' ∧ Row dbg cu table (.cons tree.1 tree.2 rest') offset') ∨
      ((∀ tree ∈ forest.trees, ∀ f, Describes dbg root tree.1 f → ¬ f.Inside addr) ∧
        ∃ state, loop (childBody dbg fuel debugLine cu cudie ret addr) rounds ⟨die, die2⟩ =
          .done (.ended state)) := by
  induction forest generalizing offset die die2 rounds with
  | nil => exact absurd rfl nonempty
  | cons entry children rest _ rest_ih =>
      have here := found entry children rest rfl
      obtain ⟨rounds, rfl⟩ : ∃ more, rounds = more + 1 := ⟨rounds - 1, by omega⟩
      rw [trees, List.length_cons] at enough_rounds
      by_cases hit : covers die addr
      · have tag : entry.decl.tag.value = tagSubprogram := by
          by_contra other
          exact covers_of_other here other addr hit
        obtain ⟨f, describes⟩ := described _ List.mem_cons_self tag
        exact .inl ⟨_, List.mem_cons_self, f, describes,
          (covers_of_describes here describes addr).mp hit, die, offset, rest,
          loop_last (childBody_of_covers hit) rounds, here, row⟩
      · have missed (f : Function) (describes : Describes dbg root entry f) : ¬ f.Inside addr :=
          mt (covers_of_describes here describes addr).mpr hit
        have next := row.finds_next here
        cases rest with
        | nil =>
            obtain ⟨die', ended⟩ := next fuel enough die2
            have stop : childBody dbg fuel debugLine cu cudie ret addr ⟨die, die2⟩ =
                .done (.stop (.ended ⟨die, die'⟩)) :=
              (childBody_next hit ended).trans (if_pos (by decide))
            refine .inr ⟨?_, _, loop_stop stop rounds⟩
            intro tree tree_mem
            obtain rfl := List.mem_singleton.mp tree_mem
            exact missed
        | cons second inner later =>
            obtain ⟨die', ended, second_found⟩ := next fuel enough die2
            have again : childBody dbg fuel debugLine cu cudie ret addr ⟨die, die2⟩ =
                .done (.again ⟨die', die'⟩) :=
              (childBody_next hit ended).trans (if_neg (by decide))
            rw [loop_again again]
            rcases rest_ih row.behind
              (fun tree tree_mem => described tree (List.mem_cons_of_mem _ tree_mem)) nofun
              second_found die' (Nat.lt_of_succ_lt_succ enough_rounds) with
              ⟨tree, tree_mem, found_there⟩ | ⟨none, ended⟩
            · exact .inl ⟨tree, List.mem_cons_of_mem _ tree_mem, found_there⟩
            · refine .inr ⟨?_, ended⟩
              intro tree tree_mem
              rcases List.mem_cons.mp tree_mem with rfl | later_mem
              · exact missed
              · exact none tree later_mem

end

/-! ## A unit -/

/-- The entries are those of the file and of the function, in the unit. -/
inductive Located (u : FileUnit dbg) (f : Function) : (cudie die : Die) → Prop where
  | intro {entry : Entry (u.unit.cu u.offset)}
      {children rest : Forest (Entry (u.unit.cu u.offset))} {offset : Nat} {cudie die : Die}
      (mem : (entry, children) ∈ u.children.trees) (describes : Describes dbg u.root entry f)
      (root : Found dbg u.root (u.unit.cu u.offset).cuDieOffset cudie)
      (row : Row dbg (u.unit.cu u.offset) u.table (.cons entry children rest) offset)
      (found : Found dbg entry offset die) : Located u f cudie die

section

variable {u : FileUnit dbg}
  (passable : EachEntry dbg.order (Passable dbg) (.cons u.root u.children .nil)
    (u.unit.cu u.offset).cuDieOffset)

include passable

/-- The entry of the file, with all others below it. -/
theorem FileUnit.row : Row dbg (u.unit.cu u.offset) u.table (.cons u.root u.children .nil)
    (u.unit.cu u.offset).cuDieOffset where
  standard := u.encodes.standard
  tabled := u.encodes.tabled
  placed := u.encodes.placed
  passable := passable
  contains := u.encodes.contains.left
  inside := u.encodes.inside.1
  ends := u.encodes.ends

theorem FileUnit.finds_root {fuel : Nat} (enough : dbg.debugInfo.dsSize < fuel) (retDie : Die) :
    ∃ die, dwarfSiblingof dbg (u.unit.cu u.offset) fuel none retDie = .done (dlvOk, die) ∧
      Found dbg u.root (u.unit.cu u.offset).cuDieOffset die := by
  have row := u.row passable
  have target : AtTarget false ⟨(u.unit.cu u.offset).cuDieOffset, 1, retDie⟩ := .inl rfl
  obtain ⟨die, found, search⟩ := search_at_forest row.standard row.tabled row.legible row.contains
    row.inside row.ends target (fuel - 1)
  rw [Nat.sub_add_cancel (by omega)] at search
  exact ⟨die, (u.encodes.first_eq fuel retDie).trans search, found⟩

/-- The loop over the units goes into a unit that has entries below its first, and
passes any other. -/
theorem enterUnit_unit (short : u.unit.length < 2 ^ 32)
    (opens : u.root.decl.children = true → u.children ≠ .nil)
    (inside : u.offset ≤ dbg.debugInfo.dsSize) {fuel : Nat}
    (enough : dbg.debugInfo.dsSize < fuel) (state : UnitState) (here : state.currOff = u.offset) :
    (u.children = .nil ∧ ∃ state', state'.currOff = u.offset + u.unit.size ∧
      enterUnit dbg fuel state = .done (.skip state')) ∨
    ∃ cudie die, u.root.decl.children = true ∧
      Found dbg u.root (u.unit.cu u.offset).cuDieOffset cudie ∧
      (∀ first inner later, u.children = .cons first inner later → Found dbg first
        ((u.unit.cu u.offset).cuDieOffset + (u.root.bytes dbg.order).length) die) ∧
      enterUnit dbg fuel state = .done (.inside
        ⟨u.offset + u.unit.size, u.unit.cu u.offset, cudie, die, state.die2⟩) := by
  have row := u.row passable
  have unit_eq := getNextCu_unit u.unit short inside u.held state.cu
  obtain ⟨cudie, root_eq, root_found⟩ := u.finds_root passable enough state.cudie
  have first := row.finds_first root_found
  have enter_eq {status : Int} {die : Die} (child_eq : dwarfChild dbg (u.unit.cu u.offset) fuel
      cudie state.die = .done (status, die)) :
      enterUnit dbg fuel state =
        if status = dleNoEntry then .done (.skip
          ⟨u.offset + u.unit.size, u.unit.cu u.offset, cudie, die, state.die2⟩)
        else .done (.inside
          ⟨u.offset + u.unit.size, u.unit.cu u.offset, cudie, die, state.die2⟩) := by
    rw [enterUnit, here, unit_eq, Exec.ofOption_some, Exec.done_bind]
    dsimp only
    rw [if_pos rfl, root_eq, Exec.done_bind]
    dsimp only
    rw [if_neg (by decide), child_eq, Exec.done_bind]
  by_cases opens_root : u.root.decl.children = true
  · right
    cases children_eq : u.children with
    | nil => exact absurd children_eq (opens opens_root)
    | cons entry inner later =>
        rw [children_eq] at first
        obtain ⟨die, child_eq, die_found⟩ := first fuel enough state.die
        exact ⟨cudie, die, opens_root, root_found, die_found,
          (enter_eq child_eq).trans (if_neg (by decide))⟩
  · left
    rw [Bool.not_eq_true] at opens_root
    have childless := (eachEntry_cons.mp row.placed).1.childless opens_root
    have child_eq := Row.childless root_found opens_root fuel state.die
    exact ⟨childless, _, rfl, (enter_eq child_eq).trans (if_pos rfl)⟩

/-- A round of the loop over the units ends with what is stored for a function of the unit
with the address inside, or goes on to the next. -/
theorem unitBody_unit (short : u.unit.length < 2 ^ 32)
    (opens : u.root.decl.children = true → u.children ≠ .nil)
    (described : ∀ tree ∈ u.children.trees, tree.1.decl.tag.value = tagSubprogram →
      ∃ f, Describes dbg u.root tree.1 f)
    (inside : u.offset ≤ dbg.debugInfo.dsSize) {fuel : Nat}
    (enough : dbg.debugInfo.dsSize < fuel) (enough_rounds : u.children.trees.length < fuel)
    (debugLine : Section) (ret : Die) (addr : Nat) (state : UnitState)
    (here : state.currOff = u.offset) :
    (∃ f cudie die, f.Inside addr ∧ Located u f cudie die ∧
      unitBody dbg fuel debugLine ret addr state =
        (storeFunction dbg fuel debugLine (u.unit.cu u.offset) cudie ret die addr).bind
          fun info => .done (.stop (some info))) ∨
    ((∀ tree ∈ u.children.trees, ∀ f, Describes dbg u.root tree.1 f → ¬ f.Inside addr) ∧
      ∃ state', state'.currOff = u.offset + u.unit.size ∧
        unitBody dbg fuel debugLine ret addr state = .done (.again state')) := by
  rcases enterUnit_unit passable short opens inside enough state here with
    ⟨empty, state', next, entered⟩ | ⟨cudie, die, opens_root, root_found, die_found, entered⟩
  · refine .inr ⟨?_, state', next, ?_⟩
    · rw [empty]
      exact nofun
    · rw [unitBody, entered, Exec.done_bind]
  · have row := (u.row passable).below opens_root
    rcases childLoop_ends row described (opens opens_root) die_found state.die2 enough
      enough_rounds debugLine cudie ret addr with
      ⟨tree, tree_mem, f, describes, f_inside, die', offset', rest', ended, found', row'⟩ |
        ⟨none, child, ended⟩
    · refine .inl ⟨f, _, _, f_inside, .intro tree_mem describes root_found row' found', ?_⟩
      rw [unitBody, entered, Exec.done_bind]
      dsimp only
      rw [ended]
      cases storeFunction dbg fuel debugLine (u.unit.cu u.offset) cudie ret die' addr with
      | done info => rfl
      | fault => rfl
      | timeout => rfl
    · refine .inr ⟨none, ⟨u.offset + u.unit.size, u.unit.cu u.offset, cudie, child.die,
        child.die2⟩, rfl, ?_⟩
      rw [unitBody, entered, Exec.done_bind]
      dsimp only
      rw [ended, Exec.done_bind]

end

/-! ## The units -/

theorem Located.encloses {u : FileUnit dbg} {f : Function} {cudie die : Die}
    (located : Located u f cudie die) {addr : Nat} (inside : f.Inside addr) : u.Encloses addr := by
  obtain ⟨mem, describes, -⟩ := located
  exact ⟨_, mem, f, describes, inside⟩

theorem firstUnit_of_encloses {u : FileUnit dbg} {addr : Nat} (encloses : u.Encloses addr)
    (units : List (FileUnit dbg)) : firstUnit (u :: units) addr = some u := by
  classical
  exact List.find?_cons_of_pos (decide_eq_true encloses)

theorem firstUnit_of_not_encloses {u : FileUnit dbg} {addr : Nat} (missed : ¬ u.Encloses addr)
    (units : List (FileUnit dbg)) : firstUnit (u :: units) addr = firstUnit units addr := by
  classical
  exact List.find?_cons_of_neg fun hit => missed (of_decide_eq_true hit)

theorem mem_of_firstUnit {units : List (FileUnit dbg)} {addr : Nat} {u : FileUnit dbg}
    (first : firstUnit units addr = some u) : u ∈ units :=
  List.mem_of_find?_eq_some first

theorem encloses_of_firstUnit {units : List (FileUnit dbg)} {addr : Nat} {u : FileUnit dbg}
    (first : firstUnit units addr = some u) : u.Encloses addr := by
  classical
  have hit := List.find?_some (p := fun u : FileUnit dbg => decide (u.Encloses addr)) first
  exact of_decide_eq_true hit

theorem InRow.offset_le {offset : Nat} {units : List (FileUnit dbg)} (laid : InRow offset units) :
    offset ≤ dbg.debugInfo.dsSize := by
  induction units generalizing offset with
  | nil => exact laid.le
  | cons u units ih => exact (Nat.le_add_right offset u.unit.size).trans (ih laid.2)

theorem WellFormed.dsSize_pos {units : List (FileUnit dbg)} (formed : WellFormed units) :
    0 < dbg.debugInfo.dsSize := by
  obtain ⟨nonempty, laid, -, -⟩ := formed
  cases units with
  | nil => contradiction
  | cons u units =>
      have behind := laid.2.offset_le
      rw [CompUnit.size, CompUnit.length] at behind
      omega

/-- The search ends with what is stored for a function with the address inside, in the first
unit that has one, or comes behind the last unit. -/
theorem unitLoop_ends {units : List (FileUnit dbg)} {offset : Nat} (debugLine : Section)
    (ret : Die) (addr : Nat) (laid : InRow offset units)
    (described : ∀ u ∈ units, ∀ tree ∈ u.children.trees,
      tree.1.decl.tag.value = tagSubprogram → ∃ f, Describes dbg u.root tree.1 f)
    (short : ∀ u ∈ units, u.unit.length < 2 ^ 32)
    (passable : ∀ u ∈ units, EachEntry dbg.order (Passable dbg) (.cons u.root u.children .nil)
      (u.unit.cu u.offset).cuDieOffset)
    (opens : ∀ u ∈ units, u.root.decl.children = true → u.children ≠ .nil) {fuel : Nat}
    (enough : dbg.debugInfo.dsSize < fuel)
    (enough_rounds : ∀ u ∈ units, u.children.trees.length < fuel) {rounds : Nat}
    (enough_units : units.length < rounds) (state : UnitState) (here : state.currOff = offset) :
    (∃ u f cudie die, firstUnit units addr = some u ∧ f.Inside addr ∧ Located u f cudie die ∧
      loop (unitBody dbg fuel debugLine ret addr) rounds state =
        (storeFunction dbg fuel debugLine (u.unit.cu u.offset) cudie ret die addr).bind
          fun info => .done (some info)) ∨
    ((∀ f, FunctionOf units f → ¬ f.Inside addr) ∧
      ∃ state' rounds', state'.currOff = dbg.debugInfo.dsSize ∧
        loop (unitBody dbg fuel debugLine ret addr) rounds state =
          loop (unitBody dbg fuel debugLine ret addr) (rounds' + 1) state') := by
  induction units generalizing offset rounds state with
  | nil =>
      obtain ⟨rounds, rfl⟩ : ∃ more, rounds = more + 1 := ⟨rounds - 1, by omega⟩
      refine .inr ⟨?_, state, rounds, here.trans laid, rfl⟩
      rintro f ⟨u, u_mem, -⟩
      exact absurd u_mem List.not_mem_nil
  | cons u units ih =>
      rw [List.length_cons] at enough_units
      obtain ⟨rounds, rfl⟩ : ∃ more, rounds = more + 1 := ⟨rounds - 1, by omega⟩
      obtain ⟨rfl, laid⟩ := laid
      have first_mem : u ∈ u :: units := List.mem_cons_self
      have inside := (Nat.le_add_right u.offset u.unit.size).trans laid.offset_le
      rcases unitBody_unit (passable u first_mem) (short u first_mem) (opens u first_mem)
        (described u first_mem) inside enough (enough_rounds u first_mem) debugLine ret addr
        state here with
        ⟨f, cudie, die, f_inside, located, last⟩ | ⟨none, state', next, again⟩
      · exact .inl ⟨u, f, cudie, die, firstUnit_of_encloses (located.encloses f_inside) units,
          f_inside, located, loop_last last rounds⟩
      · rw [loop_again again]
        rcases ih laid (fun v mem => described v (List.mem_cons_of_mem u mem))
          (fun v mem => short v (List.mem_cons_of_mem u mem))
          (fun v mem => passable v (List.mem_cons_of_mem u mem))
          (fun v mem => opens v (List.mem_cons_of_mem u mem))
          (fun v mem => enough_rounds v (List.mem_cons_of_mem u mem))
          (Nat.lt_of_succ_lt_succ enough_units) state' next with
          ⟨v, f, cudie, die, first, found⟩ | ⟨none_later, ended⟩
        · have missed : ¬ u.Encloses addr := by
            rintro ⟨tree, tree_mem, f, describes, f_inside⟩
            exact none tree tree_mem f describes f_inside
          rw [← firstUnit_of_not_encloses missed] at first
          exact .inl ⟨v, f, cudie, die, first, found⟩
        · refine .inr ⟨?_, ended⟩
          rintro f ⟨v, v_mem, tree, tree_mem, describes⟩
          rcases List.mem_cons.mp v_mem with rfl | later_mem
          · exact none tree tree_mem f describes
          · exact none_later f ⟨v, later_mem, tree, tree_mem, describes⟩

end Jos64.Debuginfo
