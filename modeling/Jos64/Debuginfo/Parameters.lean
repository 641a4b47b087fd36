import Jos64.Debuginfo.Contents

/-!
# The parameters of a function that is found

The types of the parameters are followed, and the loop over the parameters goes to
the end of the children.
-/

namespace Jos64.Debuginfo

open Loop Dwarf Forest

variable {dbg : Debug}

/-! ## The parameters -/

section

variable {cu : CU} {table : List Decl}

theorem Typed.stands {offset : Nat} (typed : Typed dbg cu table offset) :
    ∃ entry, Stands dbg cu table entry offset := by
  cases typed with
  | sized stands => exact ⟨_, stands⟩
  | last stands => exact ⟨_, stands⟩
  | more stands => exact ⟨_, stands⟩

/-- A reference is read as the offset that it refers to. -/
theorem Refers.offset_eq {attr : Attr cu} {target : Nat} (refers : Refers attr target)
    {entry : Entry cu} (stands : Stands dbg cu table entry target) (attrOffset : Nat) :
    u64 (cu.cuOffset + (attr.readAt dbg attrOffset).u0) = target := by
  have inside := stands.contains.inside
  have fits := stands.contains.fits
  have number_eq : (attr.readAt dbg attrOffset).u0 =
      attr.value.number dbg (attrOffset + attr.linkBytes.length) :=
    Value.decoded_of_readBack refers.back _
  have sum := ((number_of_target dbg refers.target_eq
    (attrOffset + attr.linkBytes.length)).resolve_left
      fun absolute => refers.relative absolute.1).2
  rw [number_eq, Nat.add_comm, sum]
  exact u64_of_lt (by omega)

/-- The attribute of the type of an entry that is found. -/
theorem attrFind_type {entry : Entry cu} {offset : Nat} {die : Die}
    (found : Found dbg entry offset die) :
    (typeAttr entry = none ∧ attrFind die atType = none) ∨
      ∃ attr attrOffset, typeAttr entry = some attr ∧
        attrFind die atType = some (attr.readAt dbg attrOffset) :=
  attrFind_of_found found atType

/-- A round of `try_again`. -/
theorem typeBody_stands {entry : Entry cu} {offset : Nat}
    (stands : Stands dbg cu table entry offset) {fuel : Nat} (positive : 0 < fuel) (sib : Die)
    {atref : Attribute} (offset_eq : u64 (cu.cuOffset + atref.u0) = offset) :
    ∃ die, Found dbg entry offset die ∧
      ((∃ size, typeBody dbg fuel cu (sib, some atref) = .done (.stop (some size))) ∨
        attrFind die atByteSize = none ∧
          typeBody dbg fuel cu (sib, some atref) = .done (.again (die, attrFind die atType))) := by
  obtain ⟨die, ended, found⟩ := stands.dwarfOffdie positive sib
  refine ⟨die, found, ?_⟩
  rw [typeBody, offset_eq, ended]
  rw [Exec.done_bind]
  dsimp only
  cases attrFind die atByteSize with
  | none => exact .inr ⟨rfl, rfl⟩
  | some size => exact .inl ⟨_, rfl⟩

/-- A chain of types is followed to its end. -/
theorem typeLoop_ends {offset : Nat} (typed : Typed dbg cu table offset) :
    ∃ depth, ∀ fuel, 0 < fuel → ∀ rounds, depth < rounds → ∀ sib atref,
      u64 (cu.cuOffset + atref.u0) = offset →
        ∃ size, loop (typeBody dbg fuel cu) rounds (sib, some atref) = .done size := by
  induction typed with
  | @sized entry offset stands size =>
      refine ⟨0, fun fuel positive rounds enough sib atref offset_eq => ?_⟩
      obtain ⟨rounds, rfl⟩ : ∃ more, rounds = more + 1 := ⟨rounds - 1, by omega⟩
      obtain ⟨die, found, ⟨size_read, stop⟩ | ⟨no_size, -⟩⟩ :=
        typeBody_stands stands positive sib offset_eq
      · exact ⟨_, loop_stop stop rounds⟩
      · obtain ⟨attr, attr_mem, name⟩ := size
        rcases attrFind_of_found found atByteSize with ⟨no_attr, -⟩ | ⟨_, _, -, atref_eq⟩
        · have other := List.find?_eq_none.mp no_attr attr attr_mem
          exact absurd (decide_eq_true name) other
        · rw [no_size] at atref_eq
          contradiction
  | @last entry offset stands none =>
      refine ⟨1, fun fuel positive rounds enough sib atref offset_eq => ?_⟩
      obtain ⟨rounds, rfl⟩ : ∃ more, rounds = more + 1 + 1 := ⟨rounds - 2, by omega⟩
      obtain ⟨die, found, ⟨size_read, stop⟩ | ⟨-, again⟩⟩ :=
        typeBody_stands stands positive sib offset_eq
      · exact ⟨_, loop_stop stop _⟩
      · rcases attrFind_type found with ⟨-, no_type⟩ | ⟨attr, _, some, -⟩
        · have stop : typeBody dbg fuel cu (die, .none) = .done (.stop .none) := rfl
          rw [no_type] at again
          rw [loop_again again]
          exact ⟨_, loop_stop stop rounds⟩
        · rw [none] at some
          contradiction
  | @more entry attr offset target stands some refers typed ih =>
      obtain ⟨depth, ends⟩ := ih
      obtain ⟨_, target_stands⟩ := typed.stands
      refine ⟨depth + 1, fun fuel positive rounds enough sib atref offset_eq => ?_⟩
      obtain ⟨rounds, rfl⟩ : ∃ more, rounds = more + 1 := ⟨rounds - 1, by omega⟩
      obtain ⟨die, found, ⟨size_read, stop⟩ | ⟨-, again⟩⟩ :=
        typeBody_stands stands positive sib offset_eq
      · exact ⟨_, loop_stop stop rounds⟩
      · rcases attrFind_type found with ⟨none, -⟩ | ⟨attr', attrOffset, some', type_eq⟩
        · rw [none] at some
          contradiction
        · rw [some] at some'
          cases some'
          rw [type_eq] at again
          rw [loop_again again]
          exact ends fuel positive rounds (by omega) die _ (refers.offset_eq target_stands _)

/-- The size of the first parameter is found, or is the default. -/
theorem firstSize_ends {entry : Entry cu} (typed : TypeFollowed dbg table entry) :
    ∃ bound, ∀ fuel, bound ≤ fuel → ∀ offset ret, Found dbg entry offset ret → ∀ die,
      ∃ size, loop (typeBody dbg fuel cu) fuel (die, attrFind ret atType) = .done size := by
  cases has_type : typeAttr entry with
  | none =>
      refine ⟨1, fun fuel enough offset ret found die => ⟨none, ?_⟩⟩
      obtain ⟨fuel, rfl⟩ : ∃ more, fuel = more + 1 := ⟨fuel - 1, by omega⟩
      rcases attrFind_type found with ⟨-, no_type⟩ | ⟨attr, _, some, -⟩
      · rw [no_type]
        exact loop_stop rfl fuel
      · rw [has_type] at some
        contradiction
  | some attr =>
      obtain ⟨target, refers, typed⟩ := typed attr has_type
      obtain ⟨_, stands⟩ := typed.stands
      obtain ⟨depth, ends⟩ := typeLoop_ends typed
      refine ⟨depth + 1, fun fuel enough offset ret found die => ?_⟩
      rcases attrFind_type found with ⟨none, -⟩ | ⟨attr', attrOffset, some, type_eq⟩
      · rw [has_type] at none
        contradiction
      · rw [has_type] at some
        cases some
        rw [type_eq]
        exact ends fuel (by omega) fuel (by omega) die _ (refers.offset_eq stands _)

/-- The size of a further parameter. -/
theorem paramSize_ends {entry : Entry cu} (typed : TypeFollowed dbg table entry) {offset : Nat}
    {ret : Die} (found : Found dbg entry offset ret) {fuel : Nat} (positive : 0 < fuel) (sib : Die)
    (retVal : Nat) : ∃ size, paramSize dbg fuel cu sib ret retVal = .done size := by
  rcases attrFind_type found with ⟨-, no_type⟩ | ⟨attr, attrOffset, some, type_eq⟩
  · rw [paramSize, no_type]
    exact ⟨_, rfl⟩
  · obtain ⟨target, refers, typed⟩ := typed attr some
    obtain ⟨_, stands⟩ := typed.stands
    obtain ⟨die, ended, -⟩ := stands.dwarfOffdie positive sib
    rw [paramSize, type_eq]
    dsimp only
    rw [refers.offset_eq stands, ended, Exec.done_bind]
    dsimp only
    cases attrFind die atByteSize with
    | none => exact ⟨_, rfl⟩
    | some size => exact ⟨_, rfl⟩

/-- A round of the loop over the further parameters. -/
theorem paramBody_next {fuel : Nat} {sib ret die : Die} {status : Int}
    (ended : dwarfSiblingof dbg cu fuel (some sib) ret = .done (status, die)) (retVal : Nat)
    (sizes : List (BitVec 32)) :
    paramBody dbg fuel cu ⟨sib, ret, retVal, sizes⟩ =
      if status ≠ dlvOk ∨ die.dieTag ≠ tagFormalParameter then .done (.stop sizes)
      else (paramSize dbg fuel cu sib die retVal).bind fun size =>
        .done (.again ⟨die, die, size, sizes ++ [BitVec.ofNat 32 size]⟩) := by
  rw [paramBody, ended, Exec.done_bind, ite_or]

/-- The loop over the further parameters goes to the end of the children, or to the
first that is not one. -/
theorem paramLoop_ends {entry : Entry cu} {children rest : Forest (Entry cu)} {offset : Nat}
    (row : Row dbg cu table (.cons entry children rest) offset)
    (typed : ∀ tree ∈ rest.trees, tree.1.decl.tag.value = tagFormalParameter →
      TypeFollowed dbg table tree.1) {sib : Die} (found : Found dbg entry offset sib) {fuel : Nat}
    (enough : dbg.debugInfo.dsSize < fuel) {rounds : Nat}
    (enough_rounds : rest.trees.length < rounds) (ret : Die) (retVal : Nat)
    (sizes : List (BitVec 32)) :
    ∃ sizes', loop (paramBody dbg fuel cu) rounds ⟨sib, ret, retVal, sizes⟩ = .done sizes' := by
  induction rest generalizing entry children offset sib rounds ret retVal sizes with
  | nil =>
      obtain ⟨rounds, rfl⟩ : ∃ more, rounds = more + 1 := ⟨rounds - 1, by omega⟩
      obtain ⟨die, ended⟩ := row.finds_next found fuel enough ret
      have stop : paramBody dbg fuel cu ⟨sib, ret, retVal, sizes⟩ = .done (.stop sizes) :=
        (paramBody_next ended retVal sizes).trans (if_pos (.inl (by decide)))
      exact ⟨sizes, loop_stop stop rounds⟩
  | cons next inner later _ later_ih =>
      rw [trees, List.length_cons] at enough_rounds
      obtain ⟨rounds, rfl⟩ : ∃ more, rounds = more + 1 := ⟨rounds - 1, by omega⟩
      obtain ⟨die, ended, next_found⟩ := row.finds_next found fuel enough ret
      have die_found := next_found next inner later rfl
      by_cases tag : next.decl.tag.value = tagFormalParameter
      · obtain ⟨size, size_eq⟩ := paramSize_ends (typed _ List.mem_cons_self tag) die_found
          (Nat.zero_lt_of_lt enough) sib retVal
        have again : paramBody dbg fuel cu ⟨sib, ret, retVal, sizes⟩ =
            .done (.again ⟨die, die, size, sizes ++ [BitVec.ofNat 32 size]⟩) := by
          rw [paramBody_next ended, if_neg, size_eq, Exec.done_bind]
          rw [die_found.tag_eq, tag]
          decide
        rw [loop_again again]
        exact later_ih row.behind
          (fun tree tree_mem => typed tree (List.mem_cons_of_mem _ tree_mem)) die_found
          (Nat.lt_of_succ_lt_succ enough_rounds) die size _
      · have stop : paramBody dbg fuel cu ⟨sib, ret, retVal, sizes⟩ = .done (.stop sizes) := by
          rw [paramBody_next ended, if_pos]
          rw [die_found.tag_eq]
          exact .inr tag
        exact ⟨sizes, loop_stop stop rounds⟩

/-- The parameters from the first child on. -/
theorem paramSizes_first {fuel : Nat} {die ret die' : Die} {status : Int}
    (ended : dwarfChild dbg cu fuel die ret = .done (status, die')) :
    paramSizes dbg fuel cu die ret =
      if status ≠ dleNoEntry ∧ die'.dieTag = tagFormalParameter then
        (loop (typeBody dbg fuel cu) fuel (die, attrFind die' atType)).bind fun size =>
          loop (paramBody dbg fuel cu) fuel
            ⟨die', die', size.getD 8, [BitVec.ofNat 32 (size.getD 8)]⟩
      else .done [] := by
  rw [paramSizes, ended, Exec.done_bind, ite_and]
  simp only [ite_not]

/-- The sizes of the parameters of a function that can be looked at. -/
theorem paramSizes_ends {entry : Entry cu} {children : Forest (Entry cu)}
    (can_open : entry.decl.children = true → children ≠ .nil)
    (typed : ∀ tree ∈ children.trees, tree.1.decl.tag.value = tagFormalParameter →
      TypeFollowed dbg table tree.1) :
    ∃ bound, ∀ fuel, bound ≤ fuel → ∀ rest offset die,
      Row dbg cu table (.cons entry children rest) offset → Found dbg entry offset die →
        ∀ ret, ∃ sizes, paramSizes dbg fuel cu die ret = .done sizes := by
  by_cases opens : entry.decl.children = true
  · cases children with
    | nil => exact absurd rfl (can_open opens)
    | cons first inner later =>
        by_cases tag : first.decl.tag.value = tagFormalParameter
        · obtain ⟨bound, ends⟩ := firstSize_ends (typed _ List.mem_cons_self tag)
          refine ⟨max bound (max (dbg.debugInfo.dsSize + 1) (later.trees.length + 1)),
            fun fuel enough rest offset die row found ret => ?_⟩
          obtain ⟨die', ended, first_found⟩ := row.finds_first found fuel (by omega) ret
          have die_found := first_found first inner later rfl
          obtain ⟨size, size_eq⟩ := ends fuel (by omega) _ die' die_found die
          rw [paramSizes_first ended, if_pos ⟨by decide, die_found.tag_eq.trans tag⟩, size_eq,
            Exec.done_bind]
          exact paramLoop_ends (row.below opens)
            (fun tree tree_mem => typed tree (List.mem_cons_of_mem _ tree_mem)) die_found
            (by omega) (by omega) die' _ _
        · refine ⟨dbg.debugInfo.dsSize + 1, fun fuel enough rest offset die row found ret => ?_⟩
          obtain ⟨die', ended, first_found⟩ := row.finds_first found fuel (by omega) ret
          have die_tag := (first_found first inner later rfl).tag_eq
          rw [paramSizes_first ended, if_neg fun is_param => tag (die_tag.symm.trans is_param.2)]
          exact ⟨[], rfl⟩
  · refine ⟨0, fun fuel _ rest offset die _ found ret => ⟨[], ?_⟩⟩
    rw [Bool.not_eq_true] at opens
    rw [paramSizes_first (Row.childless found opens fuel ret)]
    exact if_neg fun child => child.1 rfl

end

end Jos64.Debuginfo
