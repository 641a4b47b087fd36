import Jos64.Boot.Core

/-!
# Where the segments are

A segment is copied in whole sectors, from the one that holds its first byte to
the one that holds its last.  A byte of memory is therefore the one that the last
segment with a sector there brings along, which need not be the segment that the
byte belongs to.
-/

namespace Jos64.Boot

open Disk Loop

/-! ## One segment -/

/-- Where `readseg` ends for a header. -/
def endPa (ph : Proghdr) : Nat :=
  u32 (u32 ph.pPa + u32 ph.pMemsz)

/-- Where it begins. -/
def startPa (ph : Proghdr) : Nat :=
  u32 ph.pPa - u32 ph.pPa % sectSize

/-- A block of memory that is read for the header holds the address. -/
def Covers (ph : Proghdr) (address : Nat) : Prop :=
  startPa ph ≤ address ∧ address - address % sectSize < endPa ph

instance (ph : Proghdr) (address : Nat) : Decidable (Covers ph address) :=
  inferInstanceAs (Decidable (_ ∧ _))

/-- The position in the image that is read to the address. -/
def filePosition (ph : Proghdr) (address : Nat) : Nat :=
  u32 ph.pOffset / sectSize * sectSize + (address - startPa ph)

/-- The loop copies the sectors from one boundary on, up to the end. -/
theorem loop_readsegBody (disk : Sectors) {endPa : Nat} (end_le : endPa ≤ 2 ^ 32 - sectSize)
    {count pa offset : Nat} (aligned : pa % sectSize = 0) (pa_lt : pa < 2 ^ 32)
    (count_eq : count = (endPa - pa + (sectSize - 1)) / sectSize)
    (offset_lt : offset + count < 2 ^ 32) (mem : Nat → Byte) {fuel : Nat} (enough : count < fuel) :
    loop (readsegBody disk endPa) fuel ⟨pa, offset, mem⟩ =
      .done (copySectors disk mem pa offset count) := by
  unfold sectSize at end_le aligned count_eq
  induction count generalizing pa offset mem fuel with
  | zero =>
      obtain ⟨fuel, rfl⟩ : ∃ more, fuel = more + 1 := ⟨fuel - 1, by omega⟩
      rw [copySectors_zero]
      apply loop_stop
      rw [readsegBody, if_neg (by dsimp only; omega)]
  | succ count ih =>
      obtain ⟨fuel, rfl⟩ : ∃ more, fuel = more + 1 := ⟨fuel - 1, by omega⟩
      have before : pa < endPa := by omega
      have round : readsegBody disk endPa ⟨pa, offset, mem⟩ =
          .done (.again ⟨pa + 512, offset + 1, readsect disk mem pa offset⟩) := by
        rw [readsegBody, if_pos before, sectSize, u32, u32, Nat.mod_eq_of_lt (by dsimp only; omega),
          Nat.mod_eq_of_lt (by dsimp only; omega)]
      rw [loop_again round, ih (by omega) (by omega) (by omega) (by omega) _ (by omega)]
      exact congrArg Exec.done (copySectors_succ disk mem pa offset count)

/-- Past the last boundary below 2 ^ 32 the loop begins anew. -/
theorem loop_readsegBody_ne_done (disk : Sectors) {endPa : Nat}
    (end_gt : 2 ^ 32 - sectSize < endPa) {state : SegState} (aligned : state.pa % sectSize = 0)
    (pa_lt : state.pa < 2 ^ 32) (fuel : Nat) (mem : Nat → Byte) :
    loop (readsegBody disk endPa) fuel state ≠ .done mem := by
  unfold sectSize at end_gt aligned
  intro ended
  refine loop_result (fun state => state.pa % 512 = 0 ∧ state.pa < 2 ^ 32) (fun _ => False)
    ?_ ?_ ⟨aligned, pa_lt⟩ ended
  · rintro before after ⟨aligned, pa_lt⟩ round
    rw [readsegBody] at round
    split at round
    · rw [← Next.again.inj (Exec.done.inj round)]
      have moved : u32 (before.pa + sectSize) % 512 = 0 := by
        unfold u32 sectSize
        omega
      exact ⟨moved, Nat.mod_lt _ (by decide)⟩
    · cases round
  · rintro before result ⟨aligned, pa_lt⟩ round
    rw [readsegBody, if_pos (by omega)] at round
    cases round

/-- `readseg` for a header: it ends unless the segment does so too close to
2 ^ 32. -/
theorem readseg_eq (disk : Sectors) (mem : Nat → Byte) (ph : Proghdr)
    (end_le : endPa ph ≤ 2 ^ 32 - sectSize) {fuel : Nat} (enough : 2 ^ 23 < fuel) :
    ∃ mem', readseg disk fuel mem (u32 ph.pPa) (u32 ph.pMemsz) (u32 ph.pOffset) = .done mem' ∧
      ∀ address, mem' address =
        if Covers ph address then imageByte disk (filePosition ph address) else mem address := by
  have pa_lt : u32 ph.pPa < 2 ^ 32 := Nat.mod_lt _ (by decide)
  have offset_lt : u32 ph.pOffset < 2 ^ 32 := Nat.mod_lt _ (by decide)
  have start_aligned : startPa ph % sectSize = 0 := by
    unfold startPa sectSize
    omega
  have start_le : startPa ph ≤ u32 ph.pPa := Nat.sub_le _ _
  have sector_eq : u32 (u32 ph.pOffset / sectSize + 1) = u32 ph.pOffset / sectSize + 1 :=
    Nat.mod_eq_of_lt (by unfold sectSize; omega)
  refine ⟨_, loop_readsegBody disk end_le start_aligned (by omega) rfl ?_ mem ?_, ?_⟩
  · rw [sector_eq]
    unfold sectSize at *
    omega
  · unfold sectSize at *
    omega
  intro address
  rw [sector_eq]
  by_cases covered : Covers ph address
  · rw [if_pos covered, copySectors_of_inside]
    · rfl
    · unfold Covers sectSize at covered
      unfold sectSize at *
      omega
  · rw [if_neg covered, copySectors_of_outside]
    unfold Covers sectSize at covered
    unfold sectSize at *
    omega

theorem end_le_of_readseg {disk : Sectors} {mem mem' : Nat → Byte} {ph : Proghdr} {fuel : Nat}
    (ended : readseg disk fuel mem (u32 ph.pPa) (u32 ph.pMemsz) (u32 ph.pOffset) = .done mem') :
    endPa ph ≤ 2 ^ 32 - sectSize := by
  by_contra late
  refine loop_readsegBody_ne_done disk (not_le.mp late) ?_ ?_ fuel mem' ended
  · change (u32 ph.pPa - u32 ph.pPa % sectSize) % sectSize = 0
    unfold sectSize
    omega
  · exact (Nat.sub_le _ _).trans_lt (Nat.mod_lt _ (by decide))

/-! ## All segments -/

/-- The last header for which a block is read that holds the address. -/
def lastCover (phs : List Proghdr) (address : Nat) : Option Proghdr :=
  phs.reverse.find? fun ph => Covers ph address

/-- The byte that the headers bring to an address. -/
def brought (disk : Sectors) (mem : Nat → Byte) (phs : List Proghdr) (address : Nat) : Byte :=
  match lastCover phs address with
  | some ph => imageByte disk (filePosition ph address)
  | none => mem address

theorem brought_cons (disk : Sectors) (mem mem' : Nat → Byte) (ph : Proghdr) (phs : List Proghdr)
    (read : ∀ address, mem' address =
      if Covers ph address then imageByte disk (filePosition ph address) else mem address)
    (address : Nat) : brought disk mem (ph :: phs) address = brought disk mem' phs address := by
  rw [brought, brought, lastCover, lastCover, List.reverse_cons, List.find?_append]
  cases phs.reverse.find? fun ph => Covers ph address with
  | some last => rfl
  | none =>
      rw [Option.none_or]
      dsimp only
      rw [read address, List.find?_singleton]
      by_cases covered : Covers ph address
      · simp only [decide_eq_true covered, if_true, if_pos covered]
      · simp only [decide_eq_false covered, if_neg covered, Bool.false_eq_true, if_false]

/-- The load loop ends if every segment does so in time. -/
theorem loadLoop_eq (disk : Sectors) {phs : List Proghdr}
    (ends : ∀ ph ∈ phs, endPa ph ≤ 2 ^ 32 - sectSize) (mem : Nat → Byte) {fuel : Nat}
    (enough : 2 ^ 23 < fuel) :
    loadLoop disk fuel mem phs = .done (brought disk mem phs) := by
  induction phs generalizing mem with
  | nil => rfl
  | cons ph phs ih =>
      obtain ⟨mem', done, read⟩ := readseg_eq disk mem ph (ends ph List.mem_cons_self) enough
      rw [loadLoop, done, Exec.done_bind,
        ih fun later later_mem => ends later (List.mem_cons_of_mem ph later_mem)]
      congr 1
      funext address
      exact (brought_cons disk mem mem' ph phs read address).symm

theorem ends_of_loadLoop {disk : Sectors} {phs : List Proghdr} {mem mem' : Nat → Byte} {fuel : Nat}
    (ended : loadLoop disk fuel mem phs = .done mem') :
    ∀ ph ∈ phs, endPa ph ≤ 2 ^ 32 - sectSize := by
  induction phs generalizing mem with
  | nil => exact nofun
  | cons ph phs ih =>
      obtain ⟨middle, first, rest⟩ := Exec.bind_eq_done ended
      intro header header_mem
      rcases List.mem_cons.mp header_mem with rfl | header_mem
      · exact end_le_of_readseg first
      · exact ih rest header header_mem

/-- The loop ends, and the bytes of every segment are at their addresses. -/
def Placed (disk : Sectors) (mem : Nat → Byte) (phs : List Proghdr) : Prop :=
  ∃ fuel mem', loadLoop disk fuel mem phs = .done mem' ∧
    ∀ ph ∈ phs, ∀ j < ph.pFilesz, mem' (ph.pPa + j) = imageByte disk (ph.pOffset + j)

/-- The address is in the memory of the segment. -/
def InRange (ph : Proghdr) (address : Nat) : Prop :=
  ph.pPa ≤ address ∧ address < ph.pPa + ph.pMemsz

/-- Program headers in the order of their addresses, whose segments are apart from
one another and from the scratch area. -/
structure Loadable (phs : List Proghdr) : Prop where
  sorted : phs.Pairwise fun ph later => ph.pPa ≤ later.pPa
  disjoint : phs.Pairwise fun ph later => ∀ address, InRange ph address → ¬ InRange later address
  no_wrap : ∀ ph ∈ phs, ph.pPa < 2 ^ 32 ∧ ph.pPa + ph.pMemsz ≤ 2 ^ 32
  no_scratch : ∀ ph ∈ phs, ph.pPa + ph.pMemsz ≤ 0x10000 ∨ 0x11000 ≤ ph.pPa
  congruent : ∀ ph ∈ phs, ph.pPa % sectSize = ph.pOffset % sectSize

/-- The segment ends at 2 ^ 32.  The loader takes this for the address 0, and the
segment is not read. -/
def EndsLast (ph : Proghdr) : Prop :=
  ph.pPa + ph.pMemsz = 2 ^ 32

instance (ph : Proghdr) : Decidable (EndsLast ph) :=
  inferInstanceAs (Decidable (_ = _))

/-- The segment begins in the block of the address.  An empty one at a boundary
is not read. -/
def Begins (ph : Proghdr) (address : Nat) : Prop :=
  ph.pPa / sectSize = address / sectSize ∧ (ph.pMemsz ≠ 0 ∨ ph.pPa % sectSize ≠ 0) ∧ ¬ EndsLast ph

instance (ph : Proghdr) (address : Nat) : Decidable (Begins ph address) :=
  inferInstanceAs (Decidable (_ ∧ _))

/-- The last segment that begins in the block of the address. -/
def lastBegin (phs : List Proghdr) (address : Nat) : Option Proghdr :=
  phs.reverse.find? fun ph => Begins ph address

/-- No segment ends in the last bytes below 2 ^ 32.  Where a later segment begins
in the block of a byte, the image has the same byte in front of that segment.  A
byte in the file for which the segment has no memory, or is not read, comes with
another block, or it has been there before. -/
structure Unspoiled (disk : Sectors) (mem : Nat → Byte) (phs : List Proghdr) : Prop where
  ends : ∀ ph ∈ phs, ph.pPa + ph.pMemsz ≤ 2 ^ 32 - sectSize ∨ EndsLast ph
  shared : ∀ front ph back, phs = front ++ ph :: back → ¬ EndsLast ph →
    ∀ j < ph.pFilesz, j < ph.pMemsz →
      let last := (lastBegin back (ph.pPa + j)).getD ph
      imageByte disk (u32 last.pOffset + (ph.pPa + j) - last.pPa) = imageByte disk (ph.pOffset + j)
  beyond : ∀ ph ∈ phs, ∀ j < ph.pFilesz, EndsLast ph ∨ ph.pMemsz ≤ j →
    match lastCover phs (ph.pPa + j) with
    | some last => imageByte disk (filePosition last (ph.pPa + j)) = imageByte disk (ph.pOffset + j)
    | none => mem (ph.pPa + j) = imageByte disk (ph.pOffset + j)

section

variable {ph later : Proghdr} {address : Nat}

theorem endPa_eq (no_wrap : ph.pPa + ph.pMemsz < 2 ^ 32) : endPa ph = ph.pPa + ph.pMemsz := by
  unfold endPa u32
  omega

theorem not_covers_of_endsLast (last : EndsLast ph) : ¬ Covers ph address := by
  have end_eq : endPa ph = 0 := by
    unfold EndsLast at last
    unfold endPa u32
    omega
  rw [Covers, end_eq]
  omega

theorem startPa_eq (pPa_lt : ph.pPa < 2 ^ 32) : startPa ph = ph.pPa - ph.pPa % sectSize := by
  rw [startPa, u32, Nat.mod_eq_of_lt pPa_lt]

theorem covers_self (no_wrap : ph.pPa + ph.pMemsz < 2 ^ 32) (inside : InRange ph address) :
    Covers ph address := by
  obtain ⟨low, high⟩ := inside
  rw [Covers, endPa_eq no_wrap, startPa_eq (by omega)]
  omega

/-- Of a later segment, only the first block can hold a byte of this one. -/
theorem covers_later_iff (no_wrap : later.pPa < 2 ^ 32 ∧ later.pPa + later.pMemsz ≤ 2 ^ 32)
    (sorted : ph.pPa ≤ later.pPa)
    (disjoint : ∀ address, InRange ph address → ¬ InRange later address)
    (inside : InRange ph address) : Covers later address ↔ Begins later address := by
  obtain ⟨low, high⟩ := inside
  have apart : later.pMemsz = 0 ∨ address < later.pPa := by
    by_contra overlap
    rw [not_or, not_lt] at overlap
    exact disjoint later.pPa ⟨sorted, by omega⟩ ⟨le_refl _, by omega⟩
  by_cases last : EndsLast later
  · exact iff_of_false (not_covers_of_endsLast last) fun begins => begins.2.2 last
  · have below : later.pPa + later.pMemsz < 2 ^ 32 := lt_of_le_of_ne no_wrap.2 last
    rw [Covers, Begins, endPa_eq below, startPa_eq no_wrap.1, and_iff_left last]
    unfold sectSize
    omega

theorem filePosition_eq (pPa_lt : ph.pPa < 2 ^ 32)
    (congruent : ph.pPa % sectSize = ph.pOffset % sectSize)
    (reached : ph.pPa - ph.pPa % sectSize ≤ address) :
    filePosition ph address = u32 ph.pOffset + address - ph.pPa := by
  rw [filePosition, startPa_eq pPa_lt]
  unfold u32 sectSize at *
  omega

end

/-- What is brought to a byte of a segment: the byte itself, unless a later
segment begins in its block. -/
theorem brought_eq (disk : Sectors) (mem : Nat → Byte) {front back : List Proghdr} {ph : Proghdr}
    (loadable : Loadable (front ++ ph :: back)) (read : ¬ EndsLast ph) {address : Nat}
    (inside : InRange ph address) :
    let last := (lastBegin back address).getD ph
    brought disk mem (front ++ ph :: back) address =
      imageByte disk (u32 last.pOffset + address - last.pPa) := by
  intro last
  have member {header : Proghdr} (header_mem : header ∈ ph :: back) :
      header ∈ front ++ ph :: back :=
    List.mem_append_right front header_mem
  have sorted := (List.pairwise_cons.mp (List.pairwise_append.mp loadable.sorted).2.1).1
  have disjoint := (List.pairwise_cons.mp (List.pairwise_append.mp loadable.disjoint).2.1).1
  have later_iff : ∀ later ∈ back, (Covers later address ↔ Begins later address) := by
    intro later later_mem
    exact covers_later_iff (loadable.no_wrap later (member (List.mem_cons_of_mem ph later_mem)))
      (sorted later later_mem) (disjoint later later_mem) inside
  have back_eq : back.reverse.find? (fun ph => Covers ph address) = lastBegin back address := by
    apply List.find?_congr
    intro later later_mem
    exact decide_eq_decide.mpr (later_iff later (List.mem_reverse.mp later_mem))
  have no_wrap : ph.pPa + ph.pMemsz < 2 ^ 32 :=
    lt_of_le_of_ne (loadable.no_wrap ph (member List.mem_cons_self)).2 read
  have itself := covers_self no_wrap inside
  have last_eq : (lastBegin back address = none ∧ last = ph) ∨
      ∃ later ∈ back, lastBegin back address = some later ∧ last = later := by
    change (_ ∧ (lastBegin back address).getD ph = ph) ∨
      ∃ later ∈ back, _ ∧ (lastBegin back address).getD ph = later
    cases found : lastBegin back address with
    | none => exact .inl ⟨rfl, rfl⟩
    | some later =>
        exact .inr ⟨later, List.mem_reverse.mp (List.mem_of_find?_eq_some found), rfl, rfl⟩
  have last_mem : last ∈ ph :: back := by
    rcases last_eq with ⟨-, last_eq⟩ | ⟨later, later_mem, -, last_eq⟩
    · rw [last_eq]
      exact List.mem_cons_self
    · rw [last_eq]
      exact List.mem_cons_of_mem ph later_mem
  have cover_eq : lastCover (front ++ ph :: back) address = some last := by
    rw [lastCover, List.reverse_append, List.reverse_cons, List.append_assoc, List.find?_append,
      List.find?_append, back_eq, List.find?_singleton, if_pos (decide_eq_true itself)]
    rcases last_eq with ⟨found, last_eq⟩ | ⟨later, -, found, last_eq⟩
    · rw [found, last_eq, Option.none_or, Option.some_or]
    · rw [found, last_eq, Option.some_or]
  have last_covers : Covers last address := by
    have holds := List.find?_some cover_eq
    exact of_decide_eq_true holds
  rw [brought, cover_eq]
  dsimp only
  rw [filePosition_eq (loadable.no_wrap last (member last_mem)).1
    (loadable.congruent last (member last_mem))]
  rw [← startPa_eq (loadable.no_wrap last (member last_mem)).1]
  exact last_covers.1

/-- What is brought to an address, said as the condition says it. -/
theorem brought_eq_iff (disk : Sectors) (mem : Nat → Byte) (phs : List Proghdr) (address : Nat)
    (byte : Byte) : brought disk mem phs address = byte ↔
      match lastCover phs address with
      | some last => imageByte disk (filePosition last address) = byte
      | none => mem address = byte := by
  rw [brought]
  cases lastCover phs address with
  | some last => exact Iff.rfl
  | none => exact Iff.rfl

section

variable {disk : Sectors} {mem : Nat → Byte} {phs : List Proghdr}

/-- The file bytes of the segments are in place if no later segment spoils them. -/
theorem Unspoiled.brought_eq (loadable : Loadable phs) (unspoiled : Unspoiled disk mem phs)
    {ph : Proghdr} (ph_mem : ph ∈ phs) {j : Nat} (j_lt : j < ph.pFilesz) :
    brought disk mem phs (ph.pPa + j) = imageByte disk (ph.pOffset + j) := by
  by_cases unread : EndsLast ph ∨ ph.pMemsz ≤ j
  · exact (brought_eq_iff disk mem phs _ _).mpr (unspoiled.beyond ph ph_mem j j_lt unread)
  · obtain ⟨read, inside⟩ := not_or.mp unread
    rw [not_le] at inside
    obtain ⟨front, back, split⟩ := List.append_of_mem ph_mem
    rw [← unspoiled.shared front ph back split read j j_lt inside]
    subst split
    exact Boot.brought_eq disk mem loadable read ⟨Nat.le_add_right _ _, by omega⟩

end

section

/-- An image of zeros and, in front of the segment that is elsewhere, ones. -/
def marked : Sectors := fun sector _ =>
  if sector = 10 then 1 else 0

end

end Jos64.Boot
