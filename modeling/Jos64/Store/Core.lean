import Mathlib.Tactic

/-!
# Stores

A store maps addresses to cells.  A list can be written to it from an address
on, and an address can hold a list.  Appending one cell after another is
writing the list of them.
-/

namespace Jos64.Store

variable {α : Type*}

/-- The store after the items have been written from `base` on. -/
def write (store : Nat → α) (base : Nat) (items : List α) : Nat → α := fun address =>
  if base ≤ address then items[address - base]?.getD (store address) else store address

@[simp]
theorem write_nil (store : Nat → α) (base : Nat) : write store base [] = store := by
  funext address
  simp [write]

/-- Nothing changes before the first item and after the last. -/
theorem write_of_outside {base address : Nat} {items : List α} (store : Nat → α)
    (outside : address < base ∨ base + items.length ≤ address) :
    write store base items address = store address := by
  unfold write
  rcases outside with before | after
  · rw [if_neg (by omega)]
  · rw [if_pos (by omega), List.getElem?_eq_none (by omega), Option.getD_none]

theorem write_append (store : Nat → α) (base : Nat) (items more : List α) :
    write (write store base items) (base + items.length) more =
      write store base (items ++ more) := by
  funext address
  by_cases early : address < base + items.length
  · rw [write_of_outside _ (.inl early)]
    unfold write
    split
    · rw [List.getElem?_append_left (by omega)]
    · rfl
  · rw [not_lt] at early
    have shift : address - base - items.length = address - (base + items.length) := by omega
    rw [write, if_pos early, write_of_outside _ (.inr early), write, if_pos (by omega),
      List.getElem?_append_right (by omega), shift]

theorem write_singleton (store : Nat → α) (base : Nat) (item : α) :
    write store base [item] = Function.update store base item := by
  funext address
  by_cases here : address = base
  · subst here
    simp [write]
  · rw [Function.update_of_ne here, write_of_outside _ (by simp; omega)]

/-- The items stand in the store from `base` on. -/
def Holds (store : Nat → α) (base : Nat) (items : List α) : Prop :=
  ∀ index, (bound : index < items.length) → store (base + index) = items[index]

theorem Holds.nil (store : Nat → α) (base : Nat) : Holds store base [] := by
  intro index bound
  exact absurd bound (Nat.not_lt_zero index)

theorem holds_write (store : Nat → α) (base : Nat) (items : List α) :
    Holds (write store base items) base items := by
  intro index bound
  rw [write, if_pos (Nat.le_add_right base index), Nat.add_sub_cancel_left,
    List.getElem?_eq_getElem bound, Option.getD_some]

/-- What is held depends on its own addresses only. -/
theorem holds_congr {store store' : Nat → α} {base : Nat} {items : List α}
    (held : Holds store base items)
    (same : ∀ index < items.length, store' (base + index) = store (base + index)) :
    Holds store' base items := by
  intro index bound
  rw [same index bound, held index bound]

/-- Of two lists in a row, each stands where it should. -/
theorem holds_append {store : Nat → α} {base : Nat} {items more : List α} :
    Holds store base (items ++ more) ↔
      Holds store base items ∧ Holds store (base + items.length) more := by
  constructor
  · intro held
    refine ⟨fun index bound => ?_, fun index bound => ?_⟩
    · rw [held index (by simp; omega), List.getElem_append_left bound]
    · rw [Nat.add_assoc, held (items.length + index) (by simp; omega),
        List.getElem_append_right (Nat.le_add_right _ _)]
      simp
  · rintro ⟨held, more_held⟩ index bound
    by_cases early : index < items.length
    · rw [held index early, List.getElem_append_left early]
    · rw [not_lt] at early
      have inside : index - items.length < more.length := by
        rw [List.length_append] at bound
        omega
      have shift : base + items.length + (index - items.length) = base + index := by omega
      rw [List.getElem_append_right early, ← more_held _ inside, shift]

theorem holds_cons {store : Nat → α} {base : Nat} {item : α} {items : List α} :
    Holds store base (item :: items) ↔ store base = item ∧ Holds store (base + 1) items := by
  have head : Holds store base [item] ↔ store base = item := by
    constructor
    · exact fun held => held 0 (Nat.zero_lt_one)
    · intro first index bound
      obtain rfl : index = 0 := Nat.lt_one_iff.mp bound
      exact first
  rw [← List.singleton_append, holds_append, head, List.length_singleton]

/-- A prefix of what a store holds is held as well. -/
theorem Holds.of_append {store : Nat → α} {base : Nat} {items more : List α}
    (held : Holds store base (items ++ more)) : Holds store base items :=
  (holds_append.mp held).1

/-- Storing one more item behind the others. -/
theorem Holds.update {store : Nat → α} {base : Nat} {items : List α}
    (held : Holds store base items) (item : α) :
    Holds (Function.update store (base + items.length) item) base (items ++ [item]) := by
  intro index bound
  rcases Nat.lt_succ_iff_lt_or_eq.mp (by simpa using bound) with early | last
  · rw [Function.update_of_ne (by omega), held index early, List.getElem_append_left early]
  · subst last
    simp

/-- Of two lists behind which the same terminator stands, neither ends inside
the other. -/
theorem Holds.length_le_of_terminated {store : Nat → α} {base : Nat} {items other : List α}
    {terminator : α} (held : Holds store base (items ++ [terminator]))
    (other_held : Holds store base (other ++ [terminator])) (absent : terminator ∉ items) :
    items.length ≤ other.length := by
  by_contra longer
  rw [not_le] at longer
  have inside := held other.length (by simp; omega)
  rw [other_held other.length (by simp), List.getElem_concat_length rfl,
    List.getElem_append_left longer] at inside
  exact absent (inside ▸ List.getElem_mem longer)

/-- A terminated list is determined by the store. -/
theorem Holds.eq_of_terminated {store : Nat → α} {base : Nat} {items other : List α}
    {terminator : α} (held : Holds store base (items ++ [terminator]))
    (other_held : Holds store base (other ++ [terminator])) (absent : terminator ∉ items)
    (other_absent : terminator ∉ other) : items = other := by
  apply List.ext_getElem
  · exact le_antisymm (held.length_le_of_terminated other_held absent)
      (other_held.length_le_of_terminated held other_absent)
  · intro index bound other_bound
    rw [← held.of_append index bound, ← other_held.of_append index other_bound]

end Jos64.Store
