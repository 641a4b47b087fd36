import Jos64.Region.Core
import Jos64.Strings.Memory.Core

/-!
# What memory holds after `memmove` and `memset`

`memmove` goes down where the destination begins inside the source, and up
otherwise.  So no item is fetched from one that has been stored before, and the
source is moved as a whole.  `memset` fills as many bytes as it is asked to,
except that the portable version counts them in an `int`.
-/

namespace Jos64.Strings

open Jos64.Region

/-! ## Items -/

theorem moveItem_eq (size : Nat) (rdi rsi : Addr) (mem : Memory) :
    moveItem size rdi rsi mem = move mem (rsi - rdi) (span rdi 0 size) := by
  funext address
  rw [moveItem]
  split
  · rename_i inside
    have source_eq : rsi + (address - rdi) = address + (rsi - rdi) := by abel
    rw [move_of_mem (mem_span.mpr ⟨Nat.zero_le _, inside⟩), source_eq]
  · rename_i outside
    rw [move_of_notMem fun inside => outside (mem_span.mp inside).2]

/-- A pointer that goes up passes the items in order. -/
theorem advance_up (base : Addr) (offset size : Nat) :
    advance false (base + BitVec.ofNat 64 offset) size =
      base + BitVec.ofNat 64 (offset + size) := by
  rw [advance, if_neg Bool.false_ne_true, BitVec.ofNat_add, BitVec.add_assoc]

/-- A pointer that goes down stands at the beginning of the last item left. -/
theorem advance_down (base : Addr) (size count : Nat) :
    advance true (base + BitVec.ofNat 64 (size * (count + 1))) size =
      base + BitVec.ofNat 64 (size * count) := by
  rw [advance, if_pos rfl, Nat.mul_succ, BitVec.ofNat_add]
  abel

/-- The item at an offset into both regions. -/
theorem moveItem_offset (dst src : Addr) {offset size : Nat} (room : offset + size ≤ 2 ^ 64)
    (mem : Memory) :
    moveItem size (dst + BitVec.ofNat 64 offset) (src + BitVec.ofNat 64 offset) mem =
      move mem (src - dst) (span dst offset (offset + size)) := by
  have distance_eq : src + BitVec.ofNat 64 offset - (dst + BitVec.ofNat 64 offset) = src - dst := by
    abel
  rw [moveItem_eq, distance_eq, span_add_ofNat dst room]

/-! ## Runs of items -/

section

variable {dst src : Addr} {n : Nat} (dst_end : dst.toNat + n < 2 ^ 64)

/-- The sources of a piece of the destination are outside of another piece if they
are so as offsets. -/
theorem source_notMem_span {low high low' high' : Nat}
    (apart : ∀ offset : Addr, low ≤ offset.toNat ∧ offset.toNat < high →
      ¬ (low' ≤ (offset + (src - dst)).toNat ∧ (offset + (src - dst)).toNat < high')) :
    ∀ address ∈ span dst low high, address + (src - dst) ∉ span dst low' high' := by
  intro address piece stored
  have shift : address + (src - dst) - dst = (address - dst) + (src - dst) := by abel
  rw [mem_span, shift] at stored
  exact apart (address - dst) (mem_span.mp piece) stored

include dst_end

/-- Going down, an item is fetched from below what has been stored. -/
theorem unread_down (below : src < dst) {low middle : Nat} :
    ∀ address ∈ span dst low middle, address + (src - dst) ∉ span dst middle n := by
  refine source_notMem_span fun offset piece stored => ?_
  bv_omega

/-- Going up, an item is fetched from above what has been stored, or from below
the destination. -/
theorem unread_up (apart : dst ≤ src ∨ src.toNat + n ≤ dst.toNat) (src_end : src.toNat + n < 2 ^ 64)
    {middle high : Nat} (high_le : high ≤ n) :
    ∀ address ∈ span dst middle high, address + (src - dst) ∉ span dst 0 middle := by
  refine source_notMem_span fun offset piece stored => ?_
  bv_omega

theorem moveItems_down (below : src < dst) (mem : Memory) (size count : Nat)
    (inside : size * count ≤ n) :
    moveItems true size (advance true (dst + BitVec.ofNat 64 (size * count)) size)
        (advance true (src + BitVec.ofNat 64 (size * count)) size) count
        (move mem (src - dst) (span dst (size * count) n)) =
      move mem (src - dst) (span dst 0 n) := by
  induction count with
  | zero => rfl
  | succ count ih =>
      rw [Nat.mul_succ] at inside
      rw [moveItems, advance_down, advance_down,
        moveItem_offset dst src (by omega), move_move, Set.union_comm, ← Nat.mul_succ,
        span_union dst (by rw [Nat.mul_succ]; omega) (by rw [Nat.mul_succ]; omega)]
      · exact ih (by omega)
      · rw [Nat.mul_succ]
        exact unread_down dst_end below

theorem moveItems_up (apart : dst ≤ src ∨ src.toNat + n ≤ dst.toNat)
    (src_end : src.toNat + n < 2 ^ 64) (mem : Memory) (size count offset : Nat)
    (inside : offset + size * count ≤ n) :
    moveItems false size (dst + BitVec.ofNat 64 offset) (src + BitVec.ofNat 64 offset) count
        (move mem (src - dst) (span dst 0 offset)) =
      move mem (src - dst) (span dst 0 (offset + size * count)) := by
  induction count generalizing offset with
  | zero => rfl
  | succ count ih =>
      rw [Nat.mul_succ] at inside
      rw [moveItems, advance_up, advance_up,
        moveItem_offset dst src (by omega), move_move,
        span_union dst (Nat.zero_le offset) (Nat.le_add_right offset size)]
      · rw [ih (offset + size) (by omega), Nat.mul_succ, Nat.add_assoc, Nat.add_comm size]
      · exact unread_up dst_end apart src_end (by omega)

end

/-! ## `memmove` -/

theorem update_eq_moveItem (rdi rsi : Addr) (mem : Memory) :
    Function.update mem rdi (mem rsi) = moveItem 1 rdi rsi mem := by
  funext address
  rw [moveItem]
  by_cases here : address = rdi
  · subst here
    rw [Function.update_self, BitVec.sub_self, if_pos (by decide), BitVec.add_zero]
  · have elsewhere : ¬ (address - rdi).toNat < 1 := by bv_omega
    rw [Function.update_of_ne here, if_neg elsewhere]

theorem moveDown_eq (d s : Addr) (n : Nat) (mem : Memory) :
    moveDown d s n mem = moveItems true 1 (d - 1) (s - 1) n mem := by
  induction n generalizing d s mem with
  | zero => rfl
  | succ n ih =>
      rw [moveDown, ih, update_eq_moveItem]
      rfl

theorem moveUp_eq (d s : Addr) (n : Nat) (mem : Memory) :
    moveUp d s n mem = moveItems false 1 d s n mem := by
  induction n generalizing d s mem with
  | zero => rfl
  | succ n ih =>
      rw [moveUp, ih, update_eq_moveItem]
      rfl

/-- The destination holds what the source held, and nothing else has changed. -/
structure Moved (mem mem' : Memory) (dst src : Addr) (n : BitVec 64) : Prop where
  copied : ∀ offset < n, mem' (dst + offset) = mem (src + offset)
  frame : ∀ address, (∀ offset < n, address ≠ dst + offset) → mem' address = mem address

theorem moved_move (mem : Memory) (dst src : Addr) (n : BitVec 64) :
    Moved mem (move mem (src - dst) (span dst 0 n.toNat)) dst src n where
  copied offset inside := by
    have source_eq : dst + offset + (src - dst) = src + offset := by abel
    rw [move_of_mem (add_mem_span.mpr ⟨Nat.zero_le _, inside⟩), source_eq]
  frame address outside := by
    apply move_of_notMem
    intro inside
    have split : address = dst + (address - dst) := by abel
    exact outside (address - dst) (mem_span.mp inside).2 split

section

variable {dst src : Addr} {n : BitVec 64} (src_end : src.toNat + n.toNat < 2 ^ 64)
  (dst_end : dst.toNat + n.toNat < 2 ^ 64)

/-- The items of one size, if they fill the length. -/
theorem size_mul_count {size : BitVec 64} (whole : n % size = 0) :
    size.toNat * (n / size).toNat = n.toNat := by
  have divides := congrArg BitVec.toNat whole
  rw [BitVec.toNat_umod] at divides
  rw [BitVec.toNat_udiv]
  exact Nat.mul_div_cancel' (Nat.dvd_of_mod_eq_zero divides)

theorem n_umod_one : n % 1 = 0 := by
  exact BitVec.umod_one

include dst_end

/-- Downwards, with items of any size that fill the length. -/
theorem repMovs_down (overlap : src < dst ∧ src + n > dst) {size : BitVec 64}
    (whole : n % size = 0) (mem : Memory) :
    moveItems true size.toNat (dst + n - size) (src + n - size) (n / size).toNat mem =
      move mem (src - dst) (span dst 0 n.toNat) := by
  have items := size_mul_count whole
  have run := moveItems_down dst_end overlap.1 mem size.toNat (n / size).toNat items.le
  have first (base : Addr) : base + n - size = advance true (base + BitVec.ofNat 64 n.toNat)
      size.toNat := by
    rw [advance, if_pos rfl, BitVec.ofNat_toNat, BitVec.ofNat_toNat, BitVec.setWidth_eq,
      BitVec.setWidth_eq]
  rw [items, span_self, move_empty] at run
  rw [first, first, run]

include src_end

/-- Upwards. -/
theorem repMovs_up (no_overlap : ¬ (src < dst ∧ src + n > dst)) {size : BitVec 64}
    (whole : n % size = 0) (mem : Memory) :
    moveItems false size.toNat dst src (n / size).toNat mem =
      move mem (src - dst) (span dst 0 n.toNat) := by
  have apart : dst ≤ src ∨ src.toNat + n.toNat ≤ dst.toNat := by bv_omega
  have items := size_mul_count whole
  have run := moveItems_up dst_end apart src_end mem size.toNat (n / size).toNat 0
    (by rw [Nat.zero_add, items])
  rw [span_self, move_empty, Nat.zero_add, items, BitVec.add_zero, BitVec.add_zero] at run
  exact run

theorem memmove_mem (machine : Machine) :
    (memmove dst src n machine).2.mem =
      move machine.mem (src - dst) (span dst 0 n.toNat) := by
  have all (count : BitVec 64) : count / 1 = count := BitVec.udiv_one
  rw [memmove]
  dsimp only
  split
  · rename_i overlap
    split
    · rename_i words
      exact repMovs_down dst_end overlap words.2.2 machine.mem
    · rw [← repMovs_down dst_end overlap n_umod_one machine.mem, all]
      rfl
  · rename_i no_overlap
    split
    · rename_i words
      exact repMovs_up src_end dst_end no_overlap words.2.2 machine.mem
    · rw [← repMovs_up src_end dst_end no_overlap n_umod_one machine.mem, all]
      rfl

theorem memmove_moved (machine : Machine) :
    Moved machine.mem (memmove dst src n machine).2.mem dst src n := by
  rw [memmove_mem src_end dst_end]
  exact moved_move machine.mem dst src n

theorem memmovePortable_mem (mem : Memory) :
    (memmovePortable dst src n mem).2 = move mem (src - dst) (span dst 0 n.toNat) := by
  have all (count : BitVec 64) : count / 1 = count := BitVec.udiv_one
  rw [memmovePortable]
  split
  · rename_i overlap
    rw [← repMovs_down dst_end overlap n_umod_one mem, all, moveDown_eq]
    rfl
  · rename_i no_overlap
    rw [← repMovs_up src_end dst_end no_overlap n_umod_one mem, all, moveUp_eq]
    rfl

end

/-- Both versions of `memmove` move the source, however it overlaps the
destination. -/
theorem memmove_moves (machine : Machine) {dst src : Addr} {n : BitVec 64}
    (src_end : src.toNat + n.toNat < 2 ^ 64) (dst_end : dst.toNat + n.toNat < 2 ^ 64) :
    Moved machine.mem (memmove dst src n machine).2.mem dst src n ∧
      memmovePortable dst src n machine.mem =
        ((memmove dst src n machine).1, (memmove dst src n machine).2.mem) := by
  have returned : (memmove dst src n machine).1 = dst := by
    rw [memmove]
    dsimp only
    repeat' split
    all_goals rfl
  have portable_returned : (memmovePortable dst src n machine.mem).1 = dst := by
    rw [memmovePortable]
    split
    · rfl
    · rfl
  refine ⟨memmove_moved src_end dst_end machine, Prod.ext ?_ ?_⟩
  · rw [portable_returned, returned]
  · rw [memmove_mem src_end dst_end]
    exact memmovePortable_mem src_end dst_end machine.mem

/-- Four words moved up by one, over three of themselves. -/
theorem memmove_moves_overlap :
    Moved (fun address => address.setWidth 8)
      (memmove 0x1004 0x1000 16 ⟨fun address => address.setWidth 8, false⟩).2.mem
      0x1004 0x1000 16 :=
  (memmove_moves ⟨fun address => address.setWidth 8, false⟩ (by decide) (by decide)).1

/-! ## `memset` -/

theorem storeItem_eq {size : Nat} {eax : BitVec 32} {value : Byte}
    (bytes_eq : ∀ index < size, eax.extractLsb' (8 * index) 8 = value) (rdi : Addr)
    (mem : Memory) : storeItem size eax rdi mem = fill mem value (span rdi 0 size) := by
  funext address
  rw [storeItem]
  split
  · rename_i inside
    rw [fill_of_mem (mem_span.mpr ⟨Nat.zero_le _, inside⟩), bytes_eq _ inside]
  · rename_i outside
    rw [fill_of_notMem fun inside => outside (mem_span.mp inside).2]

theorem storeItems_eq {size : Nat} {eax : BitVec 32} {value : Byte}
    (bytes_eq : ∀ index < size, eax.extractLsb' (8 * index) 8 = value) (v : Addr) (mem : Memory)
    (count offset : Nat) (inside : offset + size * count ≤ 2 ^ 64) :
    storeItems false size eax (v + BitVec.ofNat 64 offset) count
        (fill mem value (span v 0 offset)) =
      fill mem value (span v 0 (offset + size * count)) := by
  induction count generalizing offset with
  | zero => rfl
  | succ count ih =>
      rw [Nat.mul_succ] at inside
      rw [storeItems, advance_up, storeItem_eq bytes_eq, span_add_ofNat v (by omega), fill_fill,
        span_union v (Nat.zero_le offset) (Nat.le_add_right offset size),
        ih (offset + size) (by omega), Nat.mul_succ, Nat.add_assoc, Nat.add_comm size]

theorem low_byte (c : BitVec 32) : c &&& 0xFF = (c.setWidth 8).setWidth 32 := by
  apply BitVec.eq_of_toNat_eq
  have mask : c.toNat &&& 0xFF = c.toNat % 2 ^ 8 := Nat.and_two_pow_sub_one_eq_mod c.toNat 8
  have bound : c.toNat % 2 ^ 8 < 2 ^ 32 := (Nat.mod_lt _ (by decide)).trans (by decide)
  rw [BitVec.toNat_and, BitVec.toNat_setWidth, BitVec.toNat_setWidth, Nat.mod_eq_of_lt bound]
  exact mask

/-- The word that the fast path stores has the byte in each of its places. -/
theorem replicated_byte (c : BitVec 32) {index : Nat} (index_lt : index < 4) :
    ((c &&& 0xFF) <<< 24 ||| (c &&& 0xFF) <<< 16 ||| (c &&& 0xFF) <<< 8 |||
      (c &&& 0xFF)).extractLsb' (8 * index) 8 = c.setWidth 8 := by
  rw [low_byte]
  generalize c.setWidth 8 = value
  revert value
  interval_cases index
  all_goals decide

/-- Each byte of the region holds the low byte of `c`, and nothing else has
changed. -/
structure Filled (mem mem' : Memory) (v : Addr) (c : BitVec 32) (n : BitVec 64) : Prop where
  stored : ∀ offset < n, mem' (v + offset) = c.setWidth 8
  frame : ∀ address, (∀ offset < n, address ≠ v + offset) → mem' address = mem address

theorem filled_fill (mem : Memory) (v : Addr) (c : BitVec 32) (n : BitVec 64) :
    Filled mem (fill mem (c.setWidth 8) (span v 0 n.toNat)) v c n where
  stored offset inside := fill_of_mem (add_mem_span.mpr ⟨Nat.zero_le _, inside⟩)
  frame address outside := by
    apply fill_of_notMem
    intro inside
    have split : address = v + (address - v) := by abel
    exact outside (address - v) (mem_span.mp inside).2 split

/-- With string instructions, whatever the length. -/
theorem memset_fills (v : Addr) (c : BitVec 32) (n : BitVec 64) (machine : Machine) :
    Filled machine.mem (memset v c n machine).2.mem v c n := by
  have run {size : BitVec 64} {eax : BitVec 32} (whole : n % size = 0)
      (bytes_eq : ∀ index < size.toNat, eax.extractLsb' (8 * index) 8 = c.setWidth 8) :
      storeItems false size.toNat eax v (n / size).toNat machine.mem =
        fill machine.mem (c.setWidth 8) (span v 0 n.toNat) := by
    have items := size_mul_count whole
    have stored := storeItems_eq bytes_eq v machine.mem (n / size).toNat 0 (by omega)
    rw [span_self, fill_empty, Nat.zero_add, items, BitVec.add_zero] at stored
    exact stored
  suffices mem_eq : (memset v c n machine).2.mem =
      fill machine.mem (c.setWidth 8) (span v 0 n.toNat) by
    rw [mem_eq]
    exact filled_fill machine.mem v c n
  rw [memset]
  split
  · rename_i empty
    rw [empty]
    exact (span_self v 0 ▸ fill_empty machine.mem _).symm
  · split
    · rename_i words
      exact run words.2 fun index index_lt => replicated_byte c index_lt
    · have all : n / 1 = n := BitVec.udiv_one
      rw [← run n_umod_one, all]
      · rfl
      · intro index index_lt
        obtain rfl : index = 0 := Nat.lt_one_iff.mp index_lt
        exact (BitVec.setWidth_eq_extractLsb' (by decide : 8 ≤ 32)).symm

/-- The number of rounds of the portable loop: none for a negative count, except
that the decrement of the least one wraps. -/
def rounds (m : BitVec 32) : Nat :=
  if m.toNat ≤ 2 ^ 31 then m.toNat else 0

theorem rounds_le (m : BitVec 32) : rounds m ≤ 2 ^ 31 := by
  rw [rounds]
  split
  · assumption
  · exact Nat.zero_le _

theorem slt_zero_iff (m : BitVec 32) : m.slt 0 ↔ 2 ^ 31 ≤ m.toNat := by
  change m.slt 0#32 ↔ _
  rw [BitVec.slt_zero_iff_msb_cond, BitVec.msb_eq_decide, decide_eq_true_iff]

theorem rounds_of_stop {m : BitVec 32} (stop : (m - 1).slt 0) : rounds m = 0 := by
  rw [slt_zero_iff] at stop
  rw [rounds]
  split
  · bv_omega
  · rfl

theorem rounds_of_more {m : BitVec 32} (more : ¬ (m - 1).slt 0) :
    rounds m = rounds (m - 1) + 1 ∧ (m - 1).toNat < m.toNat := by
  rw [slt_zero_iff] at more
  have m_le : m.toNat ≤ 2 ^ 31 := by bv_omega
  have fewer : (m - 1).toNat + 1 = m.toNat := by bv_omega
  rw [rounds, rounds, if_pos m_le, if_pos (by omega), fewer]
  exact ⟨rfl, by omega⟩

theorem update_eq_fill (mem : Memory) (p : Addr) (value : Byte) :
    Function.update mem p value = fill mem value (span p 0 1) := by
  funext address
  by_cases here : address = p
  · subst here
    have first : address ∈ span address 0 1 := by
      rw [mem_span, BitVec.sub_self]
      decide
    rw [Function.update_self, fill_of_mem first]
  · have elsewhere : address ∉ span p 0 1 := by
      rw [mem_span]
      bv_omega
    rw [Function.update_of_ne here, fill_of_notMem elsewhere]

theorem memsetLoop_eq (v : Addr) (c m : BitVec 32) (mem : Memory) (offset : Nat)
    (inside : offset + m.toNat < 2 ^ 64) :
    memsetLoop c m (v + BitVec.ofNat 64 offset) (fill mem (c.setWidth 8) (span v 0 offset)) =
      fill mem (c.setWidth 8) (span v 0 (offset + rounds m)) := by
  induction count_eq : m.toNat using Nat.strong_induction_on generalizing m offset with
  | _ count ih =>
      rw [memsetLoop]
      split
      · rename_i stop
        rw [rounds_of_stop stop, Nat.add_zero]
      · rename_i more
        obtain ⟨step, fewer⟩ := rounds_of_more more
        have next : v + BitVec.ofNat 64 offset + 1 = v + BitVec.ofNat 64 (offset + 1) := by
          rw [BitVec.ofNat_add, BitVec.add_assoc]
          rfl
        rw [update_eq_fill, span_add_ofNat v (by omega), fill_fill,
          span_union v (Nat.zero_le offset) (Nat.le_add_right offset 1), next,
          ih (m - 1).toNat (by omega) (m - 1) (offset + 1) (by omega) rfl, step, Nat.add_assoc,
          Nat.add_comm 1]

theorem memsetPortable_mem (v : Addr) (c : BitVec 32) (n : BitVec 64) (mem : Memory) :
    (memsetPortable v c n mem).2 =
      fill mem (c.setWidth 8) (span v 0 (rounds (n.setWidth 32))) := by
  have bound := (n.setWidth 32).isLt
  have run := memsetLoop_eq v c (n.setWidth 32) mem 0 (by omega)
  rw [span_self, fill_empty, Nat.zero_add, BitVec.add_zero] at run
  exact run

/-- The portable version fills the region, whatever memory held before, exactly
if an `int` can count it down. -/
theorem memsetPortable_fills_iff (v : Addr) (c : BitVec 32) (n : BitVec 64) :
    (∀ mem, Filled mem (memsetPortable v c n mem).2 v c n) ↔ n.toNat ≤ 2 ^ 31 := by
  constructor
  · intro fills
    by_contra large
    have count_le := rounds_le (n.setWidth 32)
    have count_lt : BitVec.ofNat 64 (rounds (n.setWidth 32)) < n := by
      rw [BitVec.lt_def, BitVec.toNat_ofNat, Nat.mod_eq_of_lt (by omega)]
      omega
    -- the first byte that is left keeps what it held
    have stored := (fills fun _ => c.setWidth 8 + 1).stored _ count_lt
    rw [memsetPortable_mem, fill_of_notMem] at stored
    · bv_omega
    · rw [add_mem_span, BitVec.toNat_ofNat, Nat.mod_eq_of_lt (by omega)]
      exact fun inside => inside.2.false
  · intro small mem
    have count_eq : rounds (n.setWidth 32) = n.toNat := by
      have kept : (n.setWidth 32).toNat = n.toNat := by
        rw [BitVec.toNat_setWidth]
        exact Nat.mod_eq_of_lt (by omega)
      rw [rounds, kept, if_pos small]
    rw [memsetPortable_mem, count_eq]
    exact filled_fill mem v c n

/-- Both versions of `memset` fill the region, whatever memory held before,
exactly if it has at most as many bytes as an `int` can count down. -/
theorem memset_both_fill_iff (v : Addr) (c : BitVec 32) (n : BitVec 64) :
    (∀ machine : Machine, Filled machine.mem (memset v c n machine).2.mem v c n ∧
        Filled machine.mem (memsetPortable v c n machine.mem).2 v c n) ↔
      n.toNat ≤ 2 ^ 31 := by
  rw [← memsetPortable_fills_iff v c n]
  constructor
  · exact fun fills mem => (fills ⟨mem, false⟩).2
  · exact fun fills machine => ⟨memset_fills v c n machine, fills machine.mem⟩

/-- The portable version loses a length that is a multiple of `2 ^ 32`. -/
theorem memsetPortable_stores_nothing :
    ¬ Filled (fun _ => 0) (memsetPortable 0x1000 1 (2 ^ 32) fun _ => 0).2 0x1000 1 (2 ^ 32) := by
  intro filled
  have stored := filled.stored 0 (by decide)
  rw [memsetPortable_mem, fill_of_notMem] at stored
  · revert stored
    decide
  · rw [add_mem_span]
    decide

end Jos64.Strings
