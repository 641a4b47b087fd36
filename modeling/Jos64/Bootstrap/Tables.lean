import Jos64.Bootstrap.Core

/-!
# What is in the first page tables

The run of `_head64` comes to its end, and then the five tables hold two entries
in the highest, one in each of the next two, and 128 in each of the lowest, and
zeros elsewhere.
-/

namespace Jos64.Bootstrap

open Loop Machine Store

/-! ## Tables in memory -/

/-- The tables of 512 entries that follow one another, all entries of which are
below 4 GB. -/
structure Tables (mem : Nat → BitVec 8) (base : Nat) (entries : Nat → Nat → BitVec 32) :
    Prop where
  low : ∀ table < 5, ∀ index < 512,
    dword mem (base + 4096 * table + 8 * index) = (entries table index).toNat
  high : ∀ table < 5, ∀ index < 512, dword mem (base + 4096 * table + 8 * index + 4) = 0

section

variable {mem : Nat → BitVec 8} {base : Nat} {entries : Nat → Nat → BitVec 32}

theorem Tables.qword_eq (tables : Tables mem base entries) {table index : Nat}
    (table_lt : table < 5) (index_lt : index < 512) :
    qword mem (base + 4096 * table + 8 * index) = (entries table index).toNat := by
  rw [qword, tables.low table table_lt index index_lt, tables.high table table_lt index index_lt,
    Nat.mul_zero, Nat.add_zero]

/-- Tables that have been cleared. -/
theorem tables_of_laid (laid : Laid mem base 5120 fun _ => 0) :
    Tables mem base fun _ _ => 0 where
  low table table_lt index index_lt := by
    have cleared := laid (1024 * table + 2 * index) (by omega)
    rw [← cleared]
    congr 1
    omega
  high table table_lt index index_lt := by
    have cleared := laid (1024 * table + 2 * index + 1) (by omega)
    change _ = (0 : BitVec 32).toNat
    rw [← cleared]
    congr 1
    omega

/-- The entries with one of them changed. -/
def setEntry (entries : Nat → Nat → BitVec 32) (table index : Nat) (value : BitVec 32) :
    Nat → Nat → BitVec 32 :=
  Function.update entries table (Function.update (entries table) index value)

/-- Storing the lower half of an entry. -/
theorem Tables.put (tables : Tables mem base entries) {table index : Nat} (index_lt : index < 512)
    (value : BitVec 32) :
    Tables (putDword mem (base + 4096 * table + 8 * index) value) base
      (setEntry entries table index value) where
  low other other_lt place place_lt := by
    by_cases same_table : other = table
    · subst same_table
      rw [setEntry, Function.update_self]
      by_cases here : place = index
      · rw [here, dword_putDword_self, Function.update_self]
      · rw [dword_putDword_of_apart (by omega), Function.update_of_ne here]
        exact tables.low other other_lt place place_lt
    · rw [setEntry, Function.update_of_ne same_table, dword_putDword_of_apart (by omega)]
      exact tables.low other other_lt place place_lt
  high other other_lt place place_lt := by
    rw [dword_putDword_of_apart (by omega)]
    exact tables.high other other_lt place place_lt

end

/-! ## The entries -/

/-- What the loop stores in a round. -/
def pageEntry (k : Nat) : BitVec 32 :=
  BitVec.ofNat 32 (2 ^ 21 * k + 0x183)

/-- An entry that refers to a table. -/
def link (table : BitVec 32) : BitVec 32 :=
  table ||| pteP ||| pteW

/-- The entries after so many rounds of the loop. -/
def entries (pml4 : BitVec 32) (rounds : Nat) : (table index : Nat) → BitVec 32
  | 0, 0 => link (pdpt1 pml4)
  | 0, 1 => link (pdpt2 pml4)
  | 1, 0 => link (pde1 pml4)
  | 2, 0 => link (pde2 pml4)
  | 3, index => if index < rounds then pageEntry index else 0
  | 4, index => if 32 ≤ index ∧ index < 32 + rounds then pageEntry (index - 32) else 0
  | _, _ => 0

theorem entries_zero (pml4 : BitVec 32) :
    setEntry (setEntry (setEntry (setEntry (fun _ _ => 0) 0 0 (link (pdpt1 pml4)))
      0 1 (link (pdpt2 pml4))) 1 0 (link (pde1 pml4))) 2 0 (link (pde2 pml4)) =
        entries pml4 0 := by
  funext table index
  rcases table with _ | _ | _ | _ | _ | table
  all_goals rcases index with _ | _ | index
  all_goals simp [setEntry, entries, Function.update]

theorem setEntry_self (entries : Nat → Nat → BitVec 32) (table index place : Nat)
    (value : BitVec 32) : setEntry entries table index value table place =
      if place = index then value else entries table place := by
  rw [setEntry, Function.update_self, Function.update_apply]

theorem setEntry_of_ne {table other : Nat} (ne : other ≠ table)
    (entries : Nat → Nat → BitVec 32) (index : Nat) (value : BitVec 32) :
    setEntry entries table index value other = entries other := by
  rw [setEntry, Function.update_of_ne ne]

/-- The tables above the lowest ones do not change in the loop. -/
theorem entries_of_ne (pml4 : BitVec 32) {table : Nat} (not_first : table ≠ 3)
    (not_second : table ≠ 4) (rounds : Nat) :
    entries pml4 (rounds + 1) table = entries pml4 rounds table := by
  funext index
  unfold entries
  split
  · rfl
  · rfl
  · rfl
  · rfl
  · exact absurd rfl not_first
  · exact absurd rfl not_second
  · rfl

theorem entries_succ (pml4 : BitVec 32) (rounds : Nat) :
    setEntry (setEntry (entries pml4 rounds) 3 rounds (pageEntry rounds)) 4 (32 + rounds)
      (pageEntry rounds) = entries pml4 (rounds + 1) := by
  funext table index
  by_cases second : table = 4
  · subst second
    rw [setEntry_self, setEntry_of_ne (by decide), entries, entries]
    by_cases here : index = 32 + rounds
    · rw [if_pos here, if_pos (by omega), here, Nat.add_sub_cancel_left]
    · rw [if_neg here]
      exact if_congr (by omega) rfl rfl
  · rw [setEntry_of_ne second]
    by_cases first : table = 3
    · subst first
      rw [setEntry_self, entries, entries]
      by_cases here : index = rounds
      · rw [if_pos here, if_pos (by omega), here]
      · rw [if_neg here]
        exact if_congr (by omega) rfl rfl
    · rw [setEntry_of_ne first, entries_of_ne pml4 first second]

/-! ## The run -/

section

variable {pml4 : BitVec 32} (fits : pml4.toNat + 5 * 4096 ≤ 2 ^ 32)

include fits

/-- The tables are cleared. -/
theorem cleared {s : State} (start : s.pc = 0) (forward : s.df = false) :
    ∃ t, Reached (body (head64 pml4)) s t ∧ t.pc = 4 ∧ Tables t.mem pml4.toNat fun _ _ => 0 := by
  have operands : Ends (clearTables pml4) s fun t => t.df = s.df ∧ t.regs .edi = pml4 ∧
      t.regs .eax = 0 ∧ t.regs .ecx = 5120 :=
    .cons rfl (.cons rfl (.cons rfl (ends_nil ⟨rfl, rfl, BitVec.xor_self, rfl⟩)))
  obtain ⟨middle, first, at_rep, df, edi, eax, ecx⟩ := operands.reached
    (show head64 pml4 = [] ++ (clearTables pml4 ++ _) from rfl) rfl start
  have pc : middle.pc = 3 := at_rep
  have fetched : (head64 pml4)[middle.pc]? = some .repStosl := by
    rw [pc]
    rfl
  have words : (5120 : BitVec 32).toNat = 5120 := rfl
  obtain ⟨t, filled, behind, laid⟩ := reached_repStosl fetched (df.trans forward) (by
    rw [edi, ecx, words]
    exact fits)
  rw [edi, eax, ecx, words] at laid
  exact ⟨t, first.trans filled, behind.trans (congrArg (· + 1) pc), tables_of_laid laid⟩

/-! ### The loop -/

/-- What holds after so many rounds of the loop.  The last one does not jump. -/
structure Mapped (pml4 : BitVec 32) (k : Nat) (s : State) : Prop where
  pc : s.pc = if k < 128 then 28 else 36
  edi : s.regs .edi = pde1 pml4 + BitVec.ofNat 32 (8 * k)
  ebx : s.regs .ebx = pde2 pml4 + BitVec.ofNat 32 (256 + 8 * k)
  eax : s.regs .eax = pageEntry k
  ecx : s.regs .ecx = BitVec.ofNat 32 (128 - k)
  tables : Tables s.mem pml4.toNat (entries pml4 k)

/-- The entry of a table has an address. -/
theorem toNat_entry {table : BitVec 32} (number : Nat) (number_lt : number < 5)
    (table_eq : table = pml4 + BitVec.ofNat 32 (4096 * number)) (offset : Nat)
    (offset_lt : offset < 4096) :
    (table + BitVec.ofNat 32 offset).toNat = pml4.toNat + 4096 * number + offset := by
  rw [table_eq]
  bv_omega

/-- The links are stored, and the loop begins. -/
theorem linked {s : State} (start : s.pc = 4)
    (tables : Tables s.mem pml4.toNat fun _ _ => 0) :
    ∃ t, Reached (body (head64 pml4)) s t ∧ Mapped pml4 0 t := by
  have root : (pml4 + 0).toNat = pml4.toNat + 4096 * 0 + 8 * 0 :=
    toNat_entry fits 0 (by decide) (BitVec.add_zero pml4).symm 0 (by decide)
  have second : (pml4 + 0x8).toNat = pml4.toNat + 4096 * 0 + 8 * 1 :=
    toNat_entry fits 0 (by decide) (BitVec.add_zero pml4).symm 8 (by decide)
  have low : (pdpt1 pml4 + 0).toNat = pml4.toNat + 4096 * 1 + 8 * 0 :=
    toNat_entry fits 1 (by decide) rfl 0 (by decide)
  have high : (pdpt2 pml4 + 0).toNat = pml4.toNat + 4096 * 2 + 8 * 0 :=
    toNat_entry fits 2 (by decide) rfl 0 (by decide)
  have links : Ends (linkTables pml4) s fun t => t.regs .edi = pde1 pml4 ∧
      t.regs .ebx = pde2 pml4 + 256 ∧ t.regs .eax = 0x183 ∧ t.regs .ecx = 128 ∧
      t.mem = putDword (putDword (putDword (putDword s.mem
        (pml4 + 0).toNat (link (pdpt1 pml4))) (pml4 + 0x8).toNat (link (pdpt2 pml4)))
        (pdpt1 pml4 + 0).toNat (link (pde1 pml4))) (pdpt2 pml4 + 0).toNat (link (pde2 pml4)) := by
    -- one step for each instruction; the stores have to lie below 4 GB
    iterate 4 refine .cons rfl ?_
    refine .store (pml4 + 0) (link (pdpt1 pml4)) rfl rfl (by omega) ?_
    iterate 3 refine .cons rfl ?_
    refine .store (pml4 + 0x8) (link (pdpt2 pml4)) rfl rfl (by omega) ?_
    iterate 4 refine .cons rfl ?_
    refine .store (pdpt1 pml4 + 0) (link (pde1 pml4)) rfl rfl (by omega) ?_
    iterate 4 refine .cons rfl ?_
    refine .store (pdpt2 pml4 + 0) (link (pde2 pml4)) rfl rfl (by omega) ?_
    iterate 5 refine .cons rfl ?_
    refine ends_nil ⟨rfl, rfl, rfl, rfl, ?_⟩
    simp only [State.next_mem, State.set_mem, State.result_mem]
  obtain ⟨t, reached, behind, edi, ebx, eax, ecx, mem⟩ := links.reached
    (show head64 pml4 = (clearTables pml4 ++ [.repStosl]) ++
      (linkTables pml4 ++ (mapPages ++ [.jne 28])) from rfl) rfl start
  rw [root, second, low, high] at mem
  refine ⟨t, reached, behind, ?_, ebx, eax, ecx, ?_⟩
  · rw [edi]
    exact (BitVec.add_zero _).symm
  · rw [mem, ← entries_zero]
    exact (((tables.put (by decide) _).put (by decide) _).put (by decide) _).put (by decide) _

/-- A round of the loop. -/
theorem Mapped.round {k : Nat} (inside : k < 128) {s : State} (mapped : Mapped pml4 k s) :
    ∃ t, Reached (body (head64 pml4)) s t ∧ Mapped pml4 (k + 1) t := by
  obtain ⟨pc, edi, ebx, eax, ecx, tables⟩ := mapped
  rw [if_pos inside] at pc
  have low : (pde1 pml4 + BitVec.ofNat 32 (8 * k)).toNat = pml4.toNat + 4096 * 3 + 8 * k :=
    toNat_entry fits 3 (by decide) rfl _ (by omega)
  have high : (pde2 pml4 + BitVec.ofNat 32 (256 + 8 * k)).toNat =
      pml4.toNat + 4096 * 4 + 8 * (32 + k) := by
    have address := toNat_entry fits 4 (by decide) (show pde2 pml4 = _ from rfl) (256 + 8 * k)
      (by omega)
    omega
  have stores : Ends mapPages s fun t => t.regs .edi = s.regs .edi + 0x8 ∧
      t.regs .ebx = s.regs .ebx + 0x8 ∧ t.regs .eax = s.regs .eax + 0x00200000 ∧
      t.regs .ecx = s.regs .ecx - 1 ∧ t.zf = decide (s.regs .ecx - 1 = 0) ∧
      t.mem = putDword (putDword s.mem (pde1 pml4 + BitVec.ofNat 32 (8 * k)).toNat (s.regs .eax))
        (pde2 pml4 + BitVec.ofNat 32 (256 + 8 * k)).toNat (s.regs .eax) := by
    refine .store _ _ ((BitVec.add_zero _).trans edi) rfl (by omega) ?_
    refine .store _ _ ((BitVec.add_zero _).trans ebx) rfl (by omega) ?_
    iterate 5 refine .cons rfl ?_
    exact ends_nil ⟨rfl, rfl, rfl, rfl, rfl, rfl⟩
  obtain ⟨t, reached, behind, edi', ebx', eax', ecx', zf, mem⟩ := stores.reached
    (show head64 pml4 = (clearTables pml4 ++ .repStosl :: linkTables pml4) ++
      (mapPages ++ [.jne 28]) from rfl) rfl pc
  have at_jump : t.pc = 35 := behind
  have fetched : (head64 pml4)[t.pc]? = some (.jne 28) := by
    rw [at_jump]
    rfl
  have ecx_eq : t.regs .ecx = BitVec.ofNat 32 (128 - (k + 1)) := by
    rw [ecx', ecx]
    bv_omega
  have zf_eq : t.zf = true ↔ k + 1 = 128 := by
    rw [zf, decide_eq_true_iff, ← ecx', ecx_eq]
    bv_omega
  -- the counter is zero behind the last round only
  have jumped : (if t.zf then t.next else { t with pc := 28 }) =
      { t with pc := if k + 1 < 128 then 28 else 36 } := by
    by_cases last : k + 1 = 128
    · rw [if_pos (zf_eq.mpr last), if_neg last.not_lt, State.next, at_jump]
    · rw [if_neg (mt zf_eq.mp last), if_pos (by omega)]
  refine ⟨_, reached.trans (reached_step fetched (congrArg Exec.done jumped)), rfl, ?_, ?_, ?_,
    ecx_eq, ?_⟩
  · change t.regs .edi = _
    rw [edi', edi]
    bv_omega
  · change t.regs .ebx = _
    rw [ebx', ebx]
    bv_omega
  · change t.regs .eax = _
    rw [eax', eax, pageEntry, pageEntry]
    bv_omega
  · change Tables t.mem _ _
    rw [mem, low, high, eax, ← entries_succ]
    exact (tables.put (by omega) _).put (by omega) _

/-- `_head64` comes to its end with the tables filled. -/
theorem head64_ends {s : State} (start : s.pc = 0) (forward : s.df = false) :
    ∃ t, (∃ bound, ∀ fuel, bound ≤ fuel → run (head64 pml4) fuel s = .done t) ∧
      Tables t.mem pml4.toNat (entries pml4 128) := by
  obtain ⟨first, clear, at_links, zeros⟩ := cleared fits start forward
  obtain ⟨second, link, init⟩ := linked fits at_links zeros
  obtain ⟨t, rounds, mapped⟩ := Reached.counted (Mapped pml4) init fun k inside state mapped =>
    mapped.round fits inside
  exact ⟨t, run_of_reached ((clear.trans link).trans rounds) mapped.pc, mapped.tables⟩

end

end Jos64.Bootstrap
