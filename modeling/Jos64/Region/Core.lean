import Mathlib.Tactic
import Mathlib.Data.BitVec

/-!
# Regions of a memory

A memory maps addresses to cells, and addresses can be added.  Moving a region
fetches each of its cells from the same distance away, and filling it stores one
value everywhere.  A region moved in pieces is moved as a whole if no piece is
fetched from a piece before it.

The addresses of a machine are words, which wrap; a span is the set of the words
whose offsets from a base are in an interval.
-/

namespace Jos64.Region

open scoped Classical

/-- The memory after each cell of the region has been fetched from `distance`
away. -/
noncomputable def move {A β : Type*} [Add A] (memory : A → β) (distance : A) (region : Set A) :
    A → β :=
  region.piecewise (fun address => memory (address + distance)) memory

/-- The memory after the value has been stored everywhere in the region. -/
noncomputable def fill {A β : Type*} (memory : A → β) (value : β) (region : Set A) : A → β :=
  region.piecewise (fun _ => value) memory

/-! ## Pieces -/

section Move

variable {A β : Type*} [Add A] {memory : A → β} {distance : A} {region : Set A} {address : A}

theorem move_of_mem (inside : address ∈ region) :
    move memory distance region address = memory (address + distance) :=
  Set.piecewise_eq_of_mem region _ _ inside

theorem move_of_notMem (outside : address ∉ region) :
    move memory distance region address = memory address :=
  Set.piecewise_eq_of_notMem region _ _ outside

variable (memory distance) in
theorem move_empty : move memory distance ∅ = memory := by
  funext address
  exact move_of_notMem (Set.notMem_empty address)

/-- A piece that is fetched from outside the region moved so far. -/
theorem move_move {done piece : Set A} (unread : ∀ address ∈ piece, address + distance ∉ done) :
    move (move memory distance done) distance piece = move memory distance (done ∪ piece) := by
  funext address
  by_cases in_piece : address ∈ piece
  · rw [move_of_mem in_piece, move_of_notMem (unread address in_piece),
      move_of_mem (Set.mem_union_right done in_piece)]
  · rw [move_of_notMem in_piece]
    by_cases in_done : address ∈ done
    · rw [move_of_mem in_done, move_of_mem (Set.mem_union_left piece in_done)]
    · rw [move_of_notMem in_done, move_of_notMem (fun either => either.elim in_done in_piece)]

end Move

section Fill

variable {A β : Type*} {memory : A → β} {value : β} {region : Set A} {address : A}

theorem fill_of_mem (inside : address ∈ region) : fill memory value region address = value :=
  Set.piecewise_eq_of_mem region _ _ inside

theorem fill_of_notMem (outside : address ∉ region) :
    fill memory value region address = memory address :=
  Set.piecewise_eq_of_notMem region _ _ outside

variable (memory value) in
theorem fill_empty : fill memory value ∅ = memory := by
  funext address
  exact fill_of_notMem (Set.notMem_empty address)

theorem fill_fill (done piece : Set A) :
    fill (fill memory value done) value piece = fill memory value (done ∪ piece) := by
  funext address
  by_cases in_piece : address ∈ piece
  · rw [fill_of_mem in_piece, fill_of_mem (Set.mem_union_right done in_piece)]
  · rw [fill_of_notMem in_piece]
    by_cases in_done : address ∈ done
    · rw [fill_of_mem in_done, fill_of_mem (Set.mem_union_left piece in_done)]
    · rw [fill_of_notMem in_done, fill_of_notMem (fun either => either.elim in_done in_piece)]

end Fill

/-! ## Spans -/

/-- The addresses whose offsets from the base are at least `low` and below
`high`. -/
def span {w : Nat} (base : BitVec w) (low high : Nat) : Set (BitVec w) :=
  { address | low ≤ (address - base).toNat ∧ (address - base).toNat < high }

section Span

variable {w : Nat} {base address : BitVec w} {low middle high : Nat}

theorem mem_span :
    address ∈ span base low high ↔
      low ≤ (address - base).toNat ∧ (address - base).toNat < high :=
  Iff.rfl

variable (base) in
theorem span_self (low : Nat) : span base low low = ∅ := by
  ext address
  simp only [mem_span, Set.mem_empty_iff_false, iff_false]
  omega

/-- Of two spans in a row, the second begins where the first ends. -/
theorem span_union (base : BitVec w) (low_le : low ≤ middle) (le_high : middle ≤ high) :
    span base low middle ∪ span base middle high = span base low high := by
  ext address
  simp only [Set.mem_union, mem_span]
  omega

theorem toNat_sub_add_ofNat (address base : BitVec w) {offset size : Nat}
    (room : offset + size ≤ 2 ^ w) :
    (address - (base + BitVec.ofNat w offset)).toNat < size ↔
      offset ≤ (address - base).toNat ∧ (address - base).toNat < offset + size := by
  have bound := (address - base).isLt
  have split : address - (base + BitVec.ofNat w offset) =
      (address - base) - BitVec.ofNat w offset := by abel
  rw [split]
  by_cases whole : offset = 2 ^ w
  · omega
  · generalize address - base = distance at bound ⊢
    have offset_lt : offset < 2 ^ w := by omega
    rw [BitVec.toNat_sub, BitVec.toNat_ofNat, Nat.mod_eq_of_lt offset_lt]
    by_cases before : distance.toNat < offset
    · rw [Nat.mod_eq_of_lt (by omega)]
      omega
    · have wraps : 2 ^ w - offset + distance.toNat = (distance.toNat - offset) + 2 ^ w := by omega
      rw [wraps, Nat.add_mod_right, Nat.mod_eq_of_lt (by omega)]
      omega

/-- A span from a later base. -/
theorem span_add_ofNat (base : BitVec w) {offset size : Nat} (room : offset + size ≤ 2 ^ w) :
    span (base + BitVec.ofNat w offset) 0 size = span base offset (offset + size) := by
  ext address
  rw [mem_span, mem_span, ← toNat_sub_add_ofNat address base room]
  exact and_iff_right (Nat.zero_le _)

theorem add_mem_span {offset : BitVec w} :
    base + offset ∈ span base low high ↔ low ≤ offset.toNat ∧ offset.toNat < high := by
  have cancel : base + offset - base = offset := by abel
  rw [mem_span, cancel]

end Span

end Jos64.Region
