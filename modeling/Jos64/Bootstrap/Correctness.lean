import Jos64.Bootstrap.Tables

/-!
# What the first page tables map

The first 256 MB and the 256 MB from `KERNBASE` on are mapped to the first 256 MB
of physical memory, in writable pages of 2 MB, and nothing else is mapped.
-/

namespace Jos64.Bootstrap

open Loop Machine Paging Store

/-- What is to be mapped. -/
def bootMap (va : Nat) : Option Mapping :=
  if va < 2 ^ 28 then some ⟨va, 2 ^ 21, true⟩
  else if kernbase ≤ va ∧ va < kernbase + 2 ^ 28 then some ⟨va - kernbase, 2 ^ 21, true⟩
  else none

/-! ## Numbers -/

theorem pml4Index_eq (va : Nat) : pml4Index va = va / 2 ^ 39 % 512 := by
  rw [pml4Index, Nat.shiftRight_eq_div_pow]
  exact Nat.and_two_pow_sub_one_eq_mod _ 9

theorem pdpeIndex_eq (va : Nat) : pdpeIndex va = va / 2 ^ 30 % 512 := by
  rw [pdpeIndex, Nat.shiftRight_eq_div_pow]
  exact Nat.and_two_pow_sub_one_eq_mod _ 9

theorem pdxIndex_eq (va : Nat) : pdxIndex va = va / 2 ^ 21 % 512 := by
  rw [pdxIndex, Nat.shiftRight_eq_div_pow]
  exact Nat.and_two_pow_sub_one_eq_mod _ 9

/-- The indexes that the walk takes are those of the macros. -/
theorem index_eq (va : Nat) :
    index 3 va = pml4Index va ∧ index 2 va = pdpeIndex va ∧ index 1 va = pdxIndex va :=
  ⟨(pml4Index_eq va).symm, (pdpeIndex_eq va).symm, (pdxIndex_eq va).symm⟩

/-- The flags are beside the address of a table. -/
theorem toNat_link {table : BitVec 32} {address : Nat} (table_eq : table.toNat = 2 ^ 12 * address) :
    (link table).toNat = 2 ^ 12 * address + 3 := by
  rw [link, BitVec.toNat_or, BitVec.toNat_or, table_eq, Nat.or_assoc]
  exact (Nat.two_pow_add_eq_or_of_lt (by decide) address).symm

theorem toNat_pageEntry {k : Nat} (inside : k < 128) :
    (pageEntry k).toNat = 2 ^ 21 * k + 0x183 := by
  rw [pageEntry, BitVec.toNat_ofNat, Nat.mod_eq_of_lt (by omega)]

/-! ## The walk -/

section

variable {mem : Nat → BitVec 8} {base : Nat} {tableEntries : Nat → Nat → BitVec 32}
  (tables : Tables mem base tableEntries) {level table va : Nat} (table_lt : table < 5)

include tables table_lt

theorem read_eq :
    qword mem (base + 4096 * table + 8 * index level va) =
      (tableEntries table (index level va)).toNat :=
  tables.qword_eq table_lt (Nat.mod_lt _ (by decide))

theorem walk_zero (zero : tableEntries table (index (level + 1) va) = 0) (writable : Bool) :
    walk (qword mem) (level + 1) (base + 4096 * table) va writable = none :=
  walk_absent ((read_eq tables table_lt).trans (congrArg BitVec.toNat zero)) rfl

theorem walk_link {child : BitVec 32} {address : Nat} (child_eq : child.toNat = 2 ^ 12 * address)
    (linked : tableEntries table (index (level + 1) va) = link child) :
    walk (qword mem) (level + 1) (base + 4096 * table) va true =
      walk (qword mem) level child.toNat va true := by
  have small := child.isLt
  have here := (read_eq tables table_lt).trans
    ((congrArg BitVec.toNat linked).trans (toNat_link child_eq))
  rw [child_eq]
  rw [child_eq] at small
  exact walk_entry_table (show 3 < 2 ^ 12 by decide) rfl rfl (small.trans (by decide)) here

theorem walk_page {k : Nat} (inside : k < 128)
    (maps : tableEntries table (index 1 va) = pageEntry k) :
    walk (qword mem) 1 (base + 4096 * table) va true =
      some ⟨2 ^ 21 * k + va % 2 ^ 21, 2 ^ 21, true⟩ := by
  have small : 2 ^ 21 * k < 2 ^ 52 := by omega
  have here := (read_eq tables table_lt).trans
    ((congrArg BitVec.toNat maps).trans (toNat_pageEntry inside))
  exact walk_entry_large (show 0x183 < 2 ^ 12 by decide) rfl rfl (by decide) small here

end

section

variable {pml4 : BitVec 32} {mem : Nat → BitVec 8}
  (tables : Tables mem pml4.toNat (entries pml4 128)) (va : Nat)

include tables

/-- The walk from the table of the first addresses. -/
theorem walk_pde1 : walk (qword mem) 1 (pml4.toNat + 4096 * 3) va true =
    if pdxIndex va < 128 then some ⟨2 ^ 21 * pdxIndex va + va % 2 ^ 21, 2 ^ 21, true⟩
    else none := by
  obtain ⟨-, -, index_eq⟩ := index_eq va
  have entry_eq : entries pml4 128 3 (index 1 va) =
      if index 1 va < 128 then pageEntry (index 1 va) else 0 := rfl
  rw [← index_eq]
  by_cases inside : index 1 va < 128
  · rw [if_pos inside]
    exact walk_page tables (by decide) inside (entry_eq.trans (if_pos inside))
  · rw [if_neg inside]
    exact walk_zero tables (by decide) (entry_eq.trans (if_neg inside)) true

/-- The walk from the table of the addresses from `KERNBASE` on. -/
theorem walk_pde2 : walk (qword mem) 1 (pml4.toNat + 4096 * 4) va true =
    if 32 ≤ pdxIndex va ∧ pdxIndex va < 160 then
      some ⟨2 ^ 21 * (pdxIndex va - 32) + va % 2 ^ 21, 2 ^ 21, true⟩
    else none := by
  obtain ⟨-, -, index_eq⟩ := index_eq va
  have entry_eq : entries pml4 128 4 (index 1 va) =
      if 32 ≤ index 1 va ∧ index 1 va < 160 then pageEntry (index 1 va - 32) else 0 := rfl
  rw [← index_eq]
  by_cases inside : 32 ≤ index 1 va ∧ index 1 va < 160
  · rw [if_pos inside]
    exact walk_page tables (by decide) (by omega) (entry_eq.trans (if_pos inside))
  · rw [if_neg inside]
    exact walk_zero tables (by decide) (entry_eq.trans (if_neg inside)) true

variable (fits : pml4.toNat + 5 * 4096 ≤ 2 ^ 32) (aligned : pml4.toNat % 4096 = 0)

include fits aligned

omit tables in
/-- A table begins at a page. -/
theorem table_toNat {number : Nat} (number_lt : number < 5) {table : BitVec 32}
    (table_eq : table = pml4 + BitVec.ofNat 32 (4096 * number)) :
    table.toNat = pml4.toNat + 4096 * number ∧
      table.toNat = 2 ^ 12 * (pml4.toNat / 4096 + number) := by
  have address := toNat_entry fits number number_lt table_eq 0 (by decide)
  rw [BitVec.add_zero, Nat.add_zero] at address
  omega

/-- An entry that refers to a table. -/
theorem walk_child {number below level : Nat} (number_lt : number < 5) (below_lt : below < 5)
    {child : BitVec 32} (child_eq : child = pml4 + BitVec.ofNat 32 (4096 * below))
    (linked : entries pml4 128 number (index (level + 1) va) = link child) :
    walk (qword mem) (level + 1) (pml4.toNat + 4096 * number) va true =
      walk (qword mem) level (pml4.toNat + 4096 * below) va true := by
  obtain ⟨address_eq, page_eq⟩ := table_toNat fits aligned below_lt child_eq
  rw [walk_link tables number_lt page_eq linked, address_eq]

/-- A table whose first entry refers to another one and whose others are zero. -/
theorem walk_first {number below : Nat} (number_lt : number < 5) (below_lt : below < 5)
    {child : BitVec 32} (child_eq : child = pml4 + BitVec.ofNat 32 (4096 * below))
    (linked : entries pml4 128 number 0 = link child)
    (others : ∀ place, entries pml4 128 number (place + 1) = 0) :
    walk (qword mem) 2 (pml4.toNat + 4096 * number) va true =
      if pdpeIndex va = 0 then walk (qword mem) 1 (pml4.toNat + 4096 * below) va true
      else none := by
  obtain ⟨-, index_eq, -⟩ := index_eq va
  rw [← index_eq]
  cases place : index 2 va with
  | zero =>
      rw [if_pos rfl]
      exact walk_child tables va fits aligned number_lt below_lt child_eq
        ((congrArg (entries pml4 128 number) place).trans linked)
  | succ later =>
      rw [if_neg (Nat.succ_ne_zero later)]
      exact walk_zero tables number_lt
        ((congrArg (entries pml4 128 number) place).trans (others later)) true

/-- The walk by the indexes. -/
theorem translate_eq : translate (qword mem) pml4.toNat va =
    if pml4Index va = 0 then
      if pdpeIndex va = 0 then walk (qword mem) 1 (pml4.toNat + 4096 * 3) va true else none
    else if pml4Index va = 1 then
      if pdpeIndex va = 0 then walk (qword mem) 1 (pml4.toNat + 4096 * 4) va true else none
    else none := by
  obtain ⟨index_eq, -, -⟩ := index_eq va
  have root : translate (qword mem) pml4.toNat va =
      walk (qword mem) 3 (pml4.toNat + 4096 * 0) va true := rfl
  rw [root, ← index_eq]
  rcases place : index 3 va with _ | _ | later
  · rw [if_pos rfl, walk_child tables va fits aligned (by decide) (show 1 < 5 by decide) rfl
      (congrArg (entries pml4 128 0) place)]
    exact walk_first tables va fits aligned (by decide) (by decide) rfl rfl fun _ => rfl
  · rw [if_neg (by decide), if_pos rfl, walk_child tables va fits aligned (by decide)
      (show 2 < 5 by decide) rfl (congrArg (entries pml4 128 0) place)]
    exact walk_first tables va fits aligned (by decide) (by decide) rfl rfl fun _ => rfl
  · rw [if_neg (by omega), if_neg (by omega)]
    exact walk_zero tables (by decide) (congrArg (entries pml4 128 0) place) true

/-- What the walk finds is what is to be mapped. -/
theorem translate_eq_bootMap (va_lt : va < 2 ^ 48) :
    translate (qword mem) pml4.toNat va = bootMap va := by
  rw [translate_eq tables va fits aligned, walk_pde1 tables va, walk_pde2 tables va,
    pml4Index_eq, pdpeIndex_eq, pdxIndex_eq, bootMap, kernbase]
  by_cases first : va < 2 ^ 28
  · have page_eq : 2 ^ 21 * (va / 2 ^ 21 % 512) + va % 2 ^ 21 = va := by omega
    rw [if_pos (by omega), if_pos (by omega), if_pos (by omega), if_pos first, page_eq]
  · rw [if_neg first]
    by_cases high : 0x8004000000 ≤ va ∧ va < 0x8004000000 + 2 ^ 28
    · have page_eq : 2 ^ 21 * (va / 2 ^ 21 % 512 - 32) + va % 2 ^ 21 = va - 0x8004000000 := by
        omega
      rw [if_neg (by omega), if_pos (by omega), if_pos (by omega), if_pos (by omega), if_pos high,
        page_eq]
    · rw [if_neg high]
      split_ifs
      · omega
      · rfl
      · rfl
      · omega
      · rfl
      · rfl
      · rfl

end

/-- The addresses from `KERNBASE` on are mapped like the first ones. -/
theorem bootMap_kernbase {pa : Nat} (inside : pa < 2 ^ 28) :
    bootMap (kernbase + pa) = bootMap pa := by
  unfold bootMap kernbase
  rw [if_neg (by omega), if_pos (by omega), if_pos inside, Nat.add_sub_cancel_left]

/-- When `_head64` comes to the end of its tables, the walk of every address finds
what is to be mapped, and the two ranges are the same physical memory. -/
theorem head64_maps {pml4 : BitVec 32} (aligned : pml4.toNat % 4096 = 0)
    (fits : pml4.toNat + 5 * 4096 ≤ 2 ^ 32) {s : State} (start : s.pc = 0)
    (forward : s.df = false) :
    ∃ t, (∃ bound, ∀ fuel, bound ≤ fuel → run (head64 pml4) fuel s = .done t) ∧
      (∀ va < 2 ^ 48, translate (qword t.mem) pml4.toNat va = bootMap va) ∧
      ∀ pa < 2 ^ 28, translate (qword t.mem) pml4.toNat (kernbase + pa) =
        translate (qword t.mem) pml4.toNat pa := by
  obtain ⟨t, ended, tables⟩ := head64_ends fits start forward
  have maps (va : Nat) (va_lt : va < 2 ^ 48) := translate_eq_bootMap tables va fits aligned va_lt
  refine ⟨t, ended, maps, fun pa inside => ?_⟩
  rw [maps _ (by unfold kernbase; omega), maps pa (by omega), bootMap_kernbase inside]

/-- Registers and memory before the tables are built. -/
def entryState : State where
  pc := 0
  regs _ := 0
  zf := false
  df := false
  mem _ := 0xFF

theorem head64_maps_entry :
    ∃ t, (∃ bound, ∀ fuel, bound ≤ fuel → run (head64 0x120000) fuel entryState = .done t) ∧
      (∀ va < 2 ^ 48, translate (qword t.mem) 0x120000 va = bootMap va) ∧
      ∀ pa < 2 ^ 28, translate (qword t.mem) 0x120000 (kernbase + pa) =
        translate (qword t.mem) 0x120000 pa :=
  head64_maps (by decide) (by decide) rfl rfl

end Jos64.Bootstrap
