import Mathlib.Data.List.Infix
import Mathlib.Logic.Function.Basic

/-!
# Circular buffers without an overflow check

A circular buffer is a block of slots together with a read and a write
position.  The producer studied here never compares the two positions: it
always stores and always advances.  What survives an overrun is therefore not
the queue of unread items but a fact about recency, namely that the slots
behind the write position hold the most recent items.  Every statement about
the visible contents, with or without an overrun, is derived from that fact.
-/

namespace Jos64

universe u

/-- The slots and the two positions of a circular buffer. -/
structure Ring (α : Type u) where
  slots : Nat → α
  rpos : Nat
  wpos : Nat

namespace Ring

variable {α : Type u}

/-- The position `offset` slots after `pos`, for `offset` at most one full
turn. -/
def slot (size pos offset : Nat) : Nat :=
  if pos + offset < size then pos + offset else pos + offset - size

/-- Advance a position by one slot. -/
def advance (size pos : Nat) : Nat :=
  if pos + 1 = size then 0 else pos + 1

/-- Store an item at the write position and advance it. -/
def push (size : Nat) (ring : Ring α) (item : α) : Ring α :=
  { ring with
    slots := Function.update ring.slots ring.wpos item
    wpos := advance size ring.wpos }

/-- Advance the read position. -/
def skip (size : Nat) (ring : Ring α) : Ring α :=
  { ring with rpos := advance size ring.rpos }

/-- The number of slots from the read position up to the write position. -/
def used (size : Nat) (ring : Ring α) : Nat :=
  if ring.rpos ≤ ring.wpos then ring.wpos - ring.rpos
  else ring.wpos + size - ring.rpos

/-- Store items in order. -/
def pushAll (size : Nat) (ring : Ring α) (items : List α) : Ring α :=
  items.foldl (push size) ring

/-- The items from the read position up to the write position. -/
def contents (size : Nat) (ring : Ring α) : List α :=
  (List.range (ring.used size)).map fun offset => ring.slots (slot size ring.rpos offset)

/-- Both positions address one of the slots. -/
structure InBounds (size : Nat) (ring : Ring α) : Prop where
  rpos_lt : ring.rpos < size
  wpos_lt : ring.wpos < size

/-- The slots behind the write position hold the items of `newest`, a
newest-first list, as far back as one full turn. -/
def Recent (size : Nat) (ring : Ring α) (newest : List α) : Prop :=
  ∀ ⦃age item⦄, age < size → newest[age]? = some item →
    ring.slots (slot size ring.wpos (size - 1 - age)) = item

/-! ## Positions -/

theorem advance_lt {size pos : Nat} (pos_lt : pos < size) : advance size pos < size := by
  unfold advance
  split <;> omega

theorem advance_eq_mod {size pos : Nat} (pos_lt : pos < size) :
    advance size pos = (pos + 1) % size := by
  unfold advance
  split
  · rename_i wrapped
    rw [wrapped, Nat.mod_self]
  · exact (Nat.mod_eq_of_lt (by omega)).symm

theorem slot_advance {size pos offset : Nat} (offset_lt : offset < size) :
    slot size (advance size pos) offset = slot size pos (offset + 1) := by
  unfold slot advance
  split <;> split <;> split <;> omega

/-! ## What one operation does to the fill level -/

theorem used_lt {size : Nat} {ring : Ring α} (bounds : ring.InBounds size) :
    ring.used size < size := by
  have rpos_lt := bounds.rpos_lt
  have wpos_lt := bounds.wpos_lt
  unfold used
  split <;> omega

theorem used_eq_zero_iff {size : Nat} {ring : Ring α} (bounds : ring.InBounds size) :
    ring.used size = 0 ↔ ring.rpos = ring.wpos := by
  have rpos_lt := bounds.rpos_lt
  have wpos_lt := bounds.wpos_lt
  unfold used
  split <;> omega

theorem InBounds.push {size : Nat} {ring : Ring α} (bounds : ring.InBounds size) (item : α) :
    (ring.push size item).InBounds size :=
  ⟨bounds.rpos_lt, advance_lt bounds.wpos_lt⟩

theorem InBounds.skip {size : Nat} {ring : Ring α} (bounds : ring.InBounds size) :
    (ring.skip size).InBounds size :=
  ⟨advance_lt bounds.rpos_lt, bounds.wpos_lt⟩

/-- Storing raises the fill level by one, except that the last free slot turns
the level back to zero. -/
theorem used_push {size : Nat} {ring : Ring α} (bounds : ring.InBounds size) (item : α) :
    (ring.push size item).used size = (ring.used size + 1) % size := by
  have rpos_lt := bounds.rpos_lt
  have wpos_lt := bounds.wpos_lt
  have level_lt := used_lt bounds
  rw [← advance_eq_mod level_lt]
  unfold used advance Ring.push advance
  dsimp only
  split_ifs <;> omega

theorem used_skip {size : Nat} {ring : Ring α} (bounds : ring.InBounds size)
    (nonempty : ring.rpos ≠ ring.wpos) :
    (ring.skip size).used size + 1 = ring.used size := by
  have rpos_lt := bounds.rpos_lt
  have wpos_lt := bounds.wpos_lt
  unfold used Ring.skip advance
  dsimp only
  split_ifs <;> omega

/-! ## Recency -/

theorem recent_nil (size : Nat) (ring : Ring α) : ring.Recent size [] := by
  intro age item _ found
  simp at found

/-- The producer's step: storing makes the new item the newest one, whatever
it overwrites. -/
theorem Recent.push {size : Nat} {ring : Ring α} {newest : List α}
    (recent : ring.Recent size newest) (bounds : ring.InBounds size) (item : α) :
    (ring.push size item).Recent size (item :: newest) := by
  have wpos_lt := bounds.wpos_lt
  intro age found age_lt hit
  cases age with
  | zero =>
      have here : slot size (advance size ring.wpos) (size - 1 - 0) = ring.wpos := by
        unfold slot advance
        split <;> split <;> omega
      simp only [Ring.push, here, Function.update_self]
      simpa using hit
  | succ age =>
      have back : slot size (advance size ring.wpos) (size - 1 - (age + 1)) =
          slot size ring.wpos (size - 1 - age) := by
        unfold slot advance
        split <;> split <;> split <;> omega
      have away : slot size ring.wpos (size - 1 - age) ≠ ring.wpos := by
        unfold slot
        split <;> omega
      simp only [Ring.push, back, Function.update_of_ne away]
      exact recent (by omega) (by simpa using hit)

theorem Recent.skip {size : Nat} {ring : Ring α} {newest : List α}
    (recent : ring.Recent size newest) : (ring.skip size).Recent size newest :=
  recent

/-! ## The visible contents -/

@[simp]
theorem length_contents (size : Nat) (ring : Ring α) :
    (ring.contents size).length = ring.used size := by
  simp [contents]

/-- What a reader can still see is the most recent part of the history. -/
theorem contents_eq_of_recent {size : Nat} {ring : Ring α} {newest : List α}
    (recent : ring.Recent size newest) (bounds : ring.InBounds size)
    (enough : ring.used size ≤ newest.length) :
    ring.contents size = (newest.take (ring.used size)).reverse := by
  have level_lt := used_lt bounds
  apply List.ext_getElem
  · simp [enough]
  · intro offset offset_lt _
    rw [length_contents] at offset_lt
    have age_lt : ring.used size - 1 - offset < newest.length := by omega
    have same : slot size ring.rpos offset =
        slot size ring.wpos (size - 1 - (ring.used size - 1 - offset)) := by
      have rpos_lt := bounds.rpos_lt
      have wpos_lt := bounds.wpos_lt
      unfold used at *
      unfold slot
      split_ifs at * <;> omega
    have hit := recent (show ring.used size - 1 - offset < size by omega)
      (List.getElem?_eq_getElem age_lt)
    simp only [contents, List.getElem_map, List.getElem_range, List.getElem_reverse,
      List.getElem_take, same, hit]
    congr 1
    simp only [List.length_take]
    omega

theorem contents_skip {size : Nat} {ring : Ring α} (bounds : ring.InBounds size)
    (nonempty : ring.rpos ≠ ring.wpos) :
    ring.contents size = ring.slots ring.rpos :: (ring.skip size).contents size := by
  have level_lt := used_lt bounds
  have level := used_skip bounds nonempty
  unfold contents
  rw [← level, List.range_succ_eq_map, List.map_cons, List.map_map]
  congr 1
  · simp [slot, bounds.rpos_lt]
  · apply List.map_congr_left
    intro offset offset_mem
    have offset_lt := List.mem_range.mp offset_mem
    simp only [Function.comp_apply, Nat.succ_eq_add_one, Ring.skip]
    rw [slot_advance (by omega)]

theorem contents_eq_nil_iff {size : Nat} {ring : Ring α} (bounds : ring.InBounds size) :
    ring.contents size = [] ↔ ring.rpos = ring.wpos := by
  rw [← List.length_eq_zero_iff, length_contents, used_eq_zero_iff bounds]

/-- Below capacity a store is visible at the end of the contents. -/
theorem contents_push {size : Nat} {ring : Ring α} (bounds : ring.InBounds size) (item : α)
    (room : ring.used size + 1 < size) :
    (ring.push size item).contents size = ring.contents size ++ [item] := by
  have rpos_lt := bounds.rpos_lt
  have wpos_lt := bounds.wpos_lt
  have level : (ring.push size item).used size = ring.used size + 1 := by
    rw [used_push bounds, Nat.mod_eq_of_lt room]
  have end_eq : slot size ring.rpos (ring.used size) = ring.wpos := by
    unfold slot used
    split <;> split <;> omega
  unfold contents
  rw [level, List.range_succ, List.map_append, List.map_singleton]
  congr 1
  · apply List.map_congr_left
    intro offset offset_mem
    have offset_lt := List.mem_range.mp offset_mem
    have away : slot size ring.rpos offset ≠ ring.wpos := by
      unfold used at offset_lt room
      unfold slot
      split_ifs at * <;> omega
    simp only [Ring.push, Function.update_of_ne away]
  · simp only [Ring.push, end_eq, Function.update_self]

/-! ## Bursts -/

@[simp]
theorem pushAll_nil (size : Nat) (ring : Ring α) : ring.pushAll size [] = ring :=
  rfl

@[simp]
theorem pushAll_cons (size : Nat) (ring : Ring α) (item : α) (items : List α) :
    ring.pushAll size (item :: items) = (ring.push size item).pushAll size items :=
  rfl

theorem InBounds.pushAll {size : Nat} {ring : Ring α} (bounds : ring.InBounds size)
    (items : List α) : (ring.pushAll size items).InBounds size := by
  induction items generalizing ring with
  | nil => exact bounds
  | cons item items ih => exact ih (bounds.push item)

theorem Recent.pushAll {size : Nat} {ring : Ring α} {newest : List α}
    (recent : ring.Recent size newest) (bounds : ring.InBounds size) (items : List α) :
    (ring.pushAll size items).Recent size (items.reverse ++ newest) := by
  induction items generalizing ring newest with
  | nil => exact recent
  | cons item items ih =>
      simpa using ih (recent.push bounds item) (bounds.push item)

/-- The fill level after a burst, whether or not the burst overran. -/
theorem used_pushAll {size : Nat} {ring : Ring α} (bounds : ring.InBounds size)
    (items : List α) :
    (ring.pushAll size items).used size = (ring.used size + items.length) % size := by
  induction items generalizing ring with
  | nil => exact (Nat.mod_eq_of_lt (used_lt bounds)).symm
  | cons item items ih =>
      rw [pushAll_cons, ih (bounds.push item), used_push bounds, Nat.mod_add_mod,
        List.length_cons, Nat.add_assoc, Nat.add_comm 1]

/-- A burst that fits is appended to the contents. -/
theorem contents_pushAll {size : Nat} {ring : Ring α} (bounds : ring.InBounds size)
    (items : List α) (room : ring.used size + items.length < size) :
    (ring.pushAll size items).contents size = ring.contents size ++ items := by
  induction items generalizing ring with
  | nil => simp
  | cons item items ih =>
      rw [List.length_cons] at room
      have level : (ring.push size item).used size = ring.used size + 1 := by
        rw [used_push bounds, Nat.mod_eq_of_lt (by omega)]
      rw [pushAll_cons, ih (bounds.push item) (by omega), contents_push bounds item (by omega),
        List.append_assoc, List.singleton_append]

end Ring

end Jos64
