import Jos64.Elf.Core

/-!
# Reading a segment

`readseg` reads as many whole sectors as the bytes that are asked for would fill,
and one more if they do not end in the first.  Together these are always enough.
-/

namespace Jos64.Elf

open Disk Dwarf Loop

/-- The loop copies sectors and counts them. -/
theorem loop_readsegBody (disk : Sectors) (endPa count pa offset kvoffset : Nat)
    (count_eq : count = (endPa - pa + (sectSize - 1)) / sectSize)
    (pa_lt : pa + count * sectSize < 2 ^ 64) (offset_lt : offset + count < 2 ^ 64)
    (kvoffset_lt : kvoffset < 2 ^ 64) (mem : Nat → Byte) (fuel : Nat) (enough : count < fuel) :
    loop (readsegBody disk endPa) fuel ⟨pa, offset, kvoffset, mem⟩ =
      .done ⟨pa + count * sectSize, offset + count, u64 (kvoffset + count * sectSize),
        copySectors disk mem pa offset count⟩ := by
  unfold sectSize at *
  induction count generalizing pa offset kvoffset mem fuel with
  | zero =>
      obtain ⟨fuel, rfl⟩ : ∃ more, fuel = more + 1 := ⟨fuel - 1, by omega⟩
      rw [copySectors_zero, Nat.zero_mul, Nat.add_zero kvoffset, u64_of_lt kvoffset_lt]
      apply loop_stop
      rw [readsegBody, if_neg (by dsimp only; omega)]
      rfl
  | succ count ih =>
      obtain ⟨fuel, rfl⟩ : ∃ more, fuel = more + 1 := ⟨fuel - 1, by omega⟩
      have round : readsegBody disk endPa ⟨pa, offset, kvoffset, mem⟩ =
          .done (.again ⟨pa + 512, offset + 1, u64 (kvoffset + 512),
            readsect disk mem pa offset⟩) := by
        rw [readsegBody, if_pos (by dsimp only; omega), sectSize, u64_of_lt (by dsimp only; omega),
          u64_of_lt (by dsimp only; omega)]
      have copied := copySectors_succ disk mem pa offset count
      rw [sectSize] at copied
      have counted : u64 (u64 (kvoffset + 512) + count * 512) =
          u64 (kvoffset + (count + 1) * 512) := by
        rw [u64_add_u64]
        congr 1
        omega
      have next_lt : u64 (kvoffset + 512) < 2 ^ 64 := Nat.mod_lt _ (Nat.two_pow_pos 64)
      rw [loop_again round, ih (pa + 512) (offset + 1) (u64 (kvoffset + 512)) (by omega) (by omega)
        (by omega) next_lt _ fuel (by omega), copied, counted]
      congr 2
      · omega
      · omega

/-- The number of sectors that `readseg` reads for a range that ends below 2 ^ 64. -/
def sectorsRead (offset count : Nat) : Nat :=
  (count + (sectSize - 1)) / sectSize + if sectSize < offset % sectSize + count then 1 else 0

/-- They are enough for the bytes that are asked for. -/
theorem sectorsRead_enough (offset count : Nat) (nonempty : 0 < count) :
    offset % sectSize + count ≤ sectorsRead offset count * sectSize := by
  unfold sectorsRead sectSize
  split <;> omega

theorem sectorsRead_le (offset count : Nat) :
    sectorsRead offset count * sectSize ≤ count + 2 * sectSize := by
  unfold sectorsRead sectSize
  split <;> omega

/-- The number that it reads for any range: where the range ends at a lower address
than it begins, the loop makes no round. -/
def sectorsCopied (pa offset count : Nat) : Nat :=
  (if pa + count < 2 ^ 64 then (count + (sectSize - 1)) / sectSize else 0) +
    if sectSize < u64 (offset % sectSize + count) then 1 else 0

/-- The range ends in the last bytes below 2 ^ 64. -/
def EndsLate (pa count : Nat) : Prop :=
  2 ^ 64 - sectSize < pa + count ∧ pa + count < 2 ^ 64

/-- `readseg` copies whole sectors, unless the range ends too late. -/
theorem readseg_eq_copied (disk : Sectors) (mem : Nat → Byte)
    {pa count offset kvoffset fuel : Nat} (pa_aligned : pa % sectSize = 0) (pa_lt : pa < 2 ^ 64)
    (count_lt : count < 2 ^ 64) (early : ¬ EndsLate pa count) (offset_lt : offset < 2 ^ 64)
    (kvoffset_aligned : kvoffset % sectSize = 0) (kvoffset_lt : kvoffset < 2 ^ 64)
    (enough : count < fuel) :
    readseg disk fuel mem pa count offset kvoffset =
      .done (copySectors disk mem pa (offset / sectSize + 1) (sectorsCopied pa offset count),
        u64 (kvoffset + sectorsCopied pa offset count * sectSize)) := by
  obtain ⟨rounds, rounds_eq⟩ : ∃ rounds, rounds =
      if pa + count < 2 ^ 64 then (count + (sectSize - 1)) / sectSize else 0 := ⟨_, rfl⟩
  unfold EndsLate at early
  have rounds_end : rounds = (u64 (pa + count) - pa + (sectSize - 1)) / sectSize := by
    rw [rounds_eq]
    unfold u64 sectSize
    split <;> omega
  have covered : pa + rounds * sectSize < 2 ^ 64 := by
    rw [rounds_eq]
    unfold sectSize at *
    split <;> omega
  have rounds_le : rounds ≤ count := by
    rw [rounds_eq]
    unfold sectSize
    split <;> omega
  have looped := loop_readsegBody disk (u64 (pa + count)) rounds pa (offset / sectSize + 1)
    kvoffset rounds_end covered (by unfold sectSize at *; omega) kvoffset_lt mem fuel
    (by omega)
  rw [readseg, if_neg (by omega), pa_aligned, Nat.sub_zero,
    u64_of_lt (show offset / sectSize + 1 < 2 ^ 64 by unfold sectSize; omega), looped,
    Exec.done_bind, sectorsCopied, ← rounds_eq]
  by_cases more : sectSize < u64 (offset % sectSize + count)
  · rw [if_pos more, if_pos more]
    dsimp only
    rw [u64_add_u64, if_neg (by unfold u64 sectSize at *; omega), copySectors_snoc, Nat.add_mul,
      Nat.one_mul, Nat.add_assoc kvoffset]
  · rw [if_neg more, if_neg more]
    dsimp only
    rw [if_neg (by unfold u64 sectSize at *; omega)]
    rfl

/-- Past the last boundary below 2 ^ 64 the loop begins anew. -/
theorem readseg_ne_done (disk : Sectors) (mem : Nat → Byte) {pa count offset kvoffset : Nat}
    (late : EndsLate pa count) (fuel : Nat) (result : (Nat → Byte) × Nat) :
    readseg disk fuel mem pa count offset kvoffset ≠ .done result := by
  obtain ⟨end_gt, end_lt⟩ := late
  intro ended
  rw [readseg] at ended
  split at ended
  · contradiction
  obtain ⟨state, looped, -⟩ := Exec.bind_eq_done ended
  refine loop_result (fun state => state.pa % sectSize = 0 ∧ state.pa < 2 ^ 64) (fun _ => False)
    ?_ ?_ ?_ looped
  · rintro before after ⟨aligned, pa_lt⟩ round
    rw [readsegBody] at round
    split at round
    · rw [← Next.again.inj (Exec.done.inj round)]
      have moved : u64 (before.pa + sectSize) % sectSize = 0 := by
        unfold u64 sectSize at *
        omega
      exact ⟨moved, Nat.mod_lt _ (by decide)⟩
    · cases round
  · rintro before result ⟨aligned, pa_lt⟩ round
    rw [u64_of_lt end_lt, readsegBody, if_pos (by unfold sectSize at *; omega)] at round
    cases round
  · dsimp only
    unfold sectSize
    omega

/-- `readseg` copies whole sectors. -/
theorem readseg_eq (disk : Sectors) (mem : Nat → Byte) {pa count offset kvoffset fuel : Nat}
    (pa_aligned : pa % sectSize = 0) (kvoffset_aligned : kvoffset % sectSize = 0)
    (kvoffset_lt : kvoffset < 2 ^ 64) (no_wrap : pa + count + sectSize ≤ 2 ^ 64)
    (offset_lt : offset < 2 ^ 64) (enough : count < fuel) :
    readseg disk fuel mem pa count offset kvoffset =
      .done (copySectors disk mem pa (offset / sectSize + 1) (sectorsRead offset count),
        u64 (kvoffset + sectorsRead offset count * sectSize)) := by
  have small : offset % sectSize + count < 2 ^ 64 := by
    unfold sectSize at *
    omega
  have early : ¬ EndsLate pa count := by
    unfold EndsLate
    omega
  have same : sectorsCopied pa offset count = sectorsRead offset count := by
    rw [sectorsCopied, sectorsRead, u64_of_lt small, if_pos (by unfold sectSize at *; omega)]
  rw [readseg_eq_copied disk mem pa_aligned (by unfold sectSize at *; omega) (by omega) early
    offset_lt kvoffset_aligned kvoffset_lt enough, same]

/-- The part of the image that is asked for is behind the position in its first
sector; `readseg` writes the sectors that it adds to `*kvoffset`, which stays a
multiple of their size, and nothing else. -/
theorem readseg_copies (disk : Sectors) (mem : Nat → Byte) {pa count offset kvoffset : Nat}
    (pa_aligned : pa % sectSize = 0) (kvoffset_aligned : kvoffset % sectSize = 0)
    (kvoffset_lt : kvoffset < 2 ^ 64) (no_wrap : pa + count + sectSize ≤ 2 ^ 64)
    (sectors_lt : offset / sectSize + sectorsRead offset count < 2 ^ 28) :
    ∃ mem' amount,
      (∀ fuel, count < fuel → readseg disk fuel mem pa count offset kvoffset =
        .done (mem', u64 (kvoffset + amount))) ∧
      amount < 2 ^ 64 ∧ u64 (kvoffset + amount) % sectSize = 0 ∧
      (∀ j < count, mem' (pa + offset % sectSize + j) =
        disk ((offset + j) / sectSize + 1) ((offset + j) % sectSize)) ∧
      (∀ k < amount, mem' (pa + k) = disk (offset / sectSize + 1 + k / sectSize) (k % sectSize)) ∧
      ∀ address, address < pa ∨ pa + amount ≤ address → mem' address = mem address := by
  have written (k : Nat) (inside : k < sectorsRead offset count * sectSize) :
      copySectors disk mem pa (offset / sectSize + 1) (sectorsRead offset count) (pa + k) =
        disk (offset / sectSize + 1 + k / sectSize) (k % sectSize) := by
    have sector_lt : offset / sectSize + 1 + k / sectSize < 2 ^ 29 := by
      unfold sectSize at *
      omega
    rw [copySectors, if_pos (by omega), Nat.add_sub_cancel_left, portSector,
      Nat.mod_eq_of_lt sector_lt]
  refine ⟨copySectors disk mem pa (offset / sectSize + 1) (sectorsRead offset count),
    sectorsRead offset count * sectSize, ?_, ?_, ?_, ?_, written, ?_⟩
  · intro fuel enough
    exact readseg_eq disk mem pa_aligned kvoffset_aligned kvoffset_lt no_wrap
      (by unfold sectSize at *; omega) enough
  · unfold sectSize at *
    omega
  · unfold u64 sectSize at *
    omega
  · intro j inside
    have enough := sectorsRead_enough offset count (Nat.zero_lt_of_lt inside)
    have sector_eq : offset / sectSize + 1 + (offset % sectSize + j) / sectSize =
        (offset + j) / sectSize + 1 := by
      unfold sectSize
      omega
    have index_eq : (offset % sectSize + j) % sectSize = (offset + j) % sectSize :=
      Nat.mod_add_mod offset sectSize j
    rw [Nat.add_assoc, written _ (by omega), sector_eq, index_eq]
  · intro address outside
    exact copySectors_of_outside outside

/-- A disk each byte of which is the number of its sector. -/
def numberedDisk : Sectors :=
  fun sector _ => BitVec.ofNat 8 sector

/-- Two bytes on either side of the end of a sector. -/
theorem readseg_copies_across :
    ∃ mem' amount,
      (∀ fuel, 2 < fuel → readseg numberedDisk fuel (fun _ => 0) 0x1000 2 511 0 =
        .done (mem', u64 (0 + amount))) ∧
      amount < 2 ^ 64 ∧ u64 (0 + amount) % sectSize = 0 ∧
      (∀ j < 2, mem' (0x1000 + 511 % sectSize + j) =
        numberedDisk ((511 + j) / sectSize + 1) ((511 + j) % sectSize)) ∧
      (∀ k < amount, mem' (0x1000 + k) =
        numberedDisk (511 / sectSize + 1 + k / sectSize) (k % sectSize)) ∧
      ∀ address, address < 0x1000 ∨ 0x1000 + amount ≤ address → mem' address = 0 :=
  readseg_copies numberedDisk (fun _ => 0) (by decide) (by decide) (by decide) (by decide) (by decide)

end Jos64.Elf
