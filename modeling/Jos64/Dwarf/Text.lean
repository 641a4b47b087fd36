import Jos64.Dwarf.Memory
import Jos64.Strings.Search

/-!
# Strings in the sections

A string in a section goes on to its NUL, wherever the section ends.  Its length is
counted by `strlen` in an `int`, as that of any other string.
-/

namespace Jos64.Dwarf

namespace Memory

/-- The bytes from an address on, as far as they are mapped. -/
def suffixLoop (mem : Memory) : (address room : Nat) → List Byte
  | _, 0 => []
  | address, room + 1 =>
      match mem.byte address with
      | some c => c :: mem.suffixLoop (address + 1) room
      | none => []

/-- What a pointer to the address points to. -/
def suffix (mem : Memory) (address : Nat) : List Byte :=
  mem.suffixLoop address (mem.room address)

variable {mem : Memory} {address : Nat}

theorem holds_suffixLoop (room : Nat) : mem.Holds address (mem.suffixLoop address room) := by
  induction room generalizing address with
  | zero => exact nofun
  | succ room ih =>
      rw [suffixLoop]
      cases mapped : mem.byte address with
      | none => exact nofun
      | some c => exact holds_cons.mpr ⟨mapped, ih⟩

theorem Holds.suffixLoop_eq {bytes : List Byte} (held : mem.Holds address bytes) {room : Nat}
    (enough : bytes.length ≤ room) : ∃ behind, mem.suffixLoop address room = bytes ++ behind := by
  induction bytes generalizing address room with
  | nil => exact ⟨_, rfl⟩
  | cons c bytes ih =>
      rw [List.length_cons] at enough
      obtain ⟨room, rfl⟩ : ∃ rest, room = rest + 1 := ⟨room - 1, by omega⟩
      obtain ⟨mapped, rest⟩ := holds_cons.mp held
      obtain ⟨behind, suffix_eq⟩ := ih rest (Nat.le_of_succ_le_succ enough)
      refine ⟨behind, ?_⟩
      rw [suffixLoop, mapped]
      dsimp only
      rw [suffix_eq, List.cons_append]

end Memory

/-- `strlen` -/
def strlen (mem : Memory) (address : Nat) : Option Int :=
  Strings.strlen (mem.suffix address)

section

variable {mem : Memory} {address : Nat}

/-- The length of a string is the number of the bytes before its NUL, as an `int`. -/
theorem strlen_eq {text : List Byte} (nonzero : ∀ c ∈ text, c ≠ 0)
    (held : mem.Holds address (text ++ [0])) :
    strlen mem address = some (wrap32 text.length) := by
  obtain ⟨behind, suffix_eq⟩ := held.suffixLoop_eq held.length_le_room
  rw [strlen, Memory.suffix, suffix_eq, List.append_assoc, List.singleton_append, Strings.strlen,
    Strings.strlenLoop_terminated nonzero (by decide), zero_add]

/-- Bytes whose length is counted have a NUL. -/
theorem terminated_of_strlenLoop {s : List Byte} {n length : Int}
    (counted : Strings.strlenLoop n s = some length) :
    ∃ text behind, (∀ c ∈ text, c ≠ 0) ∧ s = text ++ 0 :: behind := by
  induction s generalizing n with
  | nil => contradiction
  | cons c s ih =>
      rw [Strings.strlenLoop] at counted
      split at counted
      case isTrue nonzero =>
        obtain ⟨text, behind, rest, rfl⟩ := ih counted
        exact ⟨c :: text, behind, List.forall_mem_cons.mpr ⟨nonzero, rest⟩, rfl⟩
      case isFalse zero =>
        rw [not_not] at zero
        have empty : ∀ c ∈ ([] : List Byte), c ≠ 0 := List.forall_mem_nil _
        exact ⟨[], s, empty, by rw [zero, List.nil_append]⟩

/-- What has a length is a string. -/
theorem strlen_cases {length : Int} (counted : strlen mem address = some length) :
    ∃ text, (∀ c ∈ text, c ≠ 0) ∧ mem.Holds address (text ++ [0]) ∧
      length = wrap32 text.length := by
  obtain ⟨text, behind, nonzero, suffix_eq⟩ := terminated_of_strlenLoop counted
  have held : mem.Holds address (mem.suffix address) := Memory.holds_suffixLoop _
  rw [suffix_eq, ← List.singleton_append, ← List.append_assoc] at held
  have held := (Memory.holds_append.mp held).1
  refine ⟨text, nonzero, held, ?_⟩
  rw [strlen_eq nonzero held] at counted
  exact (Option.some.inj counted).symm

end

end Jos64.Dwarf
