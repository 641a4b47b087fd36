import Jos64.Console.Keyboard
import Jos64.Keys.Core

/-!
# What the shift state says about the keys

The keys of one kind share a bit, and nothing counts how many of them are down:
releasing one clears the bit whether or not another is held.  So a bit is set
exactly when the last stroke of a key of its kind was a press.
-/

namespace Jos64.Console

open Jos64.Keys

/-! ## Keys -/

/-- A key, by whether an E0 escape stands before its codes and by its make code. -/
structure Key where
  extended : Bool
  code : Byte
  deriving DecidableEq

inductive Modifier where
  | shift
  | ctl
  | alt

inductive Lock where
  | caps
  | num
  | scroll

/-- The left and the right key. -/
def Modifier.keys : Modifier → List Key
  | .shift => [⟨false, 0x2A⟩, ⟨false, 0x36⟩]
  | .ctl => [⟨false, 0x1D⟩, ⟨true, 0x1D⟩]
  | .alt => [⟨false, 0x38⟩, ⟨true, 0x38⟩]

def Modifier.bit : Modifier → BitVec 32
  | .shift => shiftBit
  | .ctl => Console.ctl
  | .alt => Console.alt

def Lock.key : Lock → Key
  | .caps => ⟨false, 0x3A⟩
  | .num => ⟨false, 0x45⟩
  | .scroll => ⟨false, 0x46⟩

def Lock.bit : Lock → BitVec 32
  | .caps => capslock
  | .num => numlock
  | .scroll => scrolllock

/-- What has been typed, and whether an escape has just been received. -/
structure Typed where
  escaped : Bool
  log : List (Stroke Key)

/-- One scan code: an escape, or a make or break code. -/
def Typed.receive (typed : Typed) (data : Byte) : Typed :=
  if data = 0xE0 then { typed with escaped := true }
  else ⟨false, typed.log ++ [⟨⟨typed.escaped, data &&& 0x7F⟩, data &&& 0x80 = 0⟩]⟩

def typed (codes : List Byte) : Typed :=
  codes.foldl Typed.receive ⟨false, []⟩

/-- The state once all scan codes have been processed, from the beginning. -/
def processed (codes : List Byte) : Kbd :=
  (fun kbd => (kbdProcData kbd).2)^[codes.length] ⟨codes, 0, 0⟩

theorem typed_escaped (codes : List Byte) :
    (typed codes).escaped ↔ codes.getLast? = some 0xE0 := by
  induction codes using List.reverseRecOn with
  | nil => exact iff_of_false Bool.false_ne_true nofun
  | append_singleton codes data =>
      rw [List.getLast?_concat, Option.some_inj, typed, List.foldl_append]
      change (Typed.receive _ data).escaped ↔ _
      rw [Typed.receive]
      split
      · rename_i escape
        exact iff_of_true rfl escape
      · rename_i other
        exact iff_of_false Bool.false_ne_true other

/-! ## Bits -/

def Modifier.position : Modifier → Nat
  | .shift => 0
  | .ctl => 1
  | .alt => 2

def Lock.position : Lock → Nat
  | .caps => 3
  | .num => 4
  | .scroll => 5

theorem and_ne_zero_iff (shift : BitVec 32) {bit : BitVec 32} {position : Nat}
    (bit_eq : bit = BitVec.twoPow 32 position) (bound : position < 32) :
    shift &&& bit ≠ 0 ↔ shift.getLsbD position := by
  rw [bit_eq, BitVec.and_twoPow]
  have nonzero : BitVec.twoPow 32 position ≠ 0 := by
    intro zero
    have value := congrArg BitVec.toNat zero
    rw [BitVec.toNat_twoPow_of_lt bound] at value
    exact (Nat.two_pow_pos position).ne' value
  split
  · rename_i set
    exact iff_of_true nonzero set
  · rename_i clear
    exact iff_of_false (fun set => set rfl) clear

theorem Modifier.and_bit_ne_zero (shift : BitVec 32) (modifier : Modifier) :
    shift &&& modifier.bit ≠ 0 ↔ shift.getLsbD modifier.position := by
  cases modifier <;> exact and_ne_zero_iff shift (by decide) (by decide)

theorem Lock.and_bit_ne_zero (shift : BitVec 32) (lock : Lock) :
    shift &&& lock.bit ≠ 0 ↔ shift.getLsbD lock.position := by
  cases lock <;> exact and_ne_zero_iff shift (by decide) (by decide)

theorem and_e0esc_ne_zero (shift : BitVec 32) : shift &&& e0esc ≠ 0 ↔ shift.getLsbD 6 :=
  and_ne_zero_iff shift (by decide) (by decide)

/-! ## The tables -/

/-- Where the tables have their entries for a key. -/
def Key.index (key : Key) : Byte :=
  if key.extended then key.code ||| 0x80 else key.code

/-- The key of a make or break code. -/
def Typed.key (typed : Typed) (data : Byte) : Key :=
  ⟨typed.escaped, data &&& 0x7F⟩

/-- The code of a key leaves the bit free that tells press from release. -/
theorem code_lt (data : Byte) : data &&& 0x7F < 0x80 := by
  revert data
  decide

section

variable (typed : Typed) (data : Byte)

theorem Typed.shiftcode_modifier (modifier : Modifier) :
    (shiftcode (typed.key data).index).getLsbD modifier.position =
      decide (typed.key data ∈ modifier.keys) := by
  have small := code_lt data
  rw [Typed.key]
  generalize typed.escaped = extended
  generalize data &&& 0x7F = code at small ⊢
  cases modifier <;> revert extended code <;> decide

theorem Typed.shiftcode_lock (lock : Lock) :
    (shiftcode (typed.key data).index).getLsbD lock.position = false := by
  generalize (typed.key data).index = index
  cases lock <;> revert index <;> decide

theorem Typed.togglecode_lock (lock : Lock) :
    (togglecode (typed.key data).index).getLsbD lock.position =
      decide (typed.key data = lock.key) := by
  have small := code_lt data
  rw [Typed.key]
  generalize typed.escaped = extended
  generalize data &&& 0x7F = code at small ⊢
  cases lock <;> revert extended code <;> decide

end

theorem togglecode_modifier (key : Key) (modifier : Modifier) :
    (togglecode key.index).getLsbD modifier.position = false := by
  generalize key.index = data
  cases modifier <;> revert data <;> decide

theorem tables_escape (data : Byte) :
    (shiftcode data).getLsbD 6 = false ∧ (togglecode data).getLsbD 6 = false := by
  revert data
  decide

theorem e0esc_bits (modifier : Modifier) (lock : Lock) :
    e0esc.getLsbD modifier.position = false ∧ e0esc.getLsbD lock.position = false ∧
      e0esc.getLsbD 6 := by
  cases modifier <;> cases lock <;> decide

theorem position_lt (modifier : Modifier) (lock : Lock) :
    modifier.position < 32 ∧ lock.position < 32 := by
  cases modifier <;> cases lock <;> decide

theorem e0esc_eq : e0esc = BitVec.twoPow 32 6 := by
  decide

theorem and_not_e0esc {shift : BitVec 32} (clear : ¬ shift.getLsbD 6) :
    shift &&& ~~~e0esc = shift := by
  apply BitVec.eq_of_getLsbD_eq
  intro position bound
  rw [BitVec.getLsbD_and, BitVec.getLsbD_not, e0esc_eq, BitVec.getLsbD_twoPow]
  by_cases at_escape : 6 = position
  · subst at_escape
    rw [Bool.eq_false_iff.mpr clear, Bool.false_and]
  · simp [bound, at_escape]

/-! ## One scan code -/

/-- What the bits of the shift state say. -/
structure Reflects (shift : BitVec 32) (typed : Typed) : Prop where
  escape : shift.getLsbD 6 = typed.escaped
  modifier : ∀ modifier : Modifier, shift.getLsbD modifier.position =
    lastPressed (fun key => key ∈ modifier.keys) typed.log
  lock : ∀ lock : Lock, shift.getLsbD lock.position = decide (Odd (presses lock.key typed.log))

theorem index_of_released {data : Byte} (released : data &&& 0x80 ≠ 0) (extended : Bool) :
    Key.index ⟨extended, data &&& 0x7F⟩ = if extended then data else data &&& 0x7F := by
  revert extended data
  decide

theorem index_of_pressed {data : Byte} (pressed : ¬ data &&& 0x80 ≠ 0) (extended : Bool) :
    Key.index ⟨extended, data &&& 0x7F⟩ = if extended then data ||| 0x80 else data := by
  revert extended data
  decide

section

variable {kbd : Kbd} {data : Byte} {rest : List Byte}

theorem kbdProcData_escape (pending_eq : kbd.pending = data :: rest) (escape : data = 0xE0) :
    (kbdProcData kbd).2 = { kbd with pending := rest, shift := kbd.shift ||| e0esc } := by
  rw [kbdProcData, pending_eq]
  exact congrArg Prod.snd (if_pos escape)

theorem kbdProcData_released {typed : Typed} (pending_eq : kbd.pending = data :: rest)
    (other : data ≠ 0xE0) (released : data &&& 0x80 ≠ 0)
    (escape : kbd.shift.getLsbD 6 = typed.escaped) :
    (kbdProcData kbd).2 = { kbd with
      pending := rest
      shift := kbd.shift &&& ~~~(shiftcode (typed.key data).index ||| e0esc) } := by
  rw [kbdProcData, pending_eq]
  dsimp only
  rw [if_neg other, if_pos released, Typed.key, index_of_released released, ← escape]
  simp only [and_e0esc_ne_zero]

theorem kbdProcData_pressed {typed : Typed} (pending_eq : kbd.pending = data :: rest)
    (other : data ≠ 0xE0) (pressed : ¬ data &&& 0x80 ≠ 0)
    (escape : kbd.shift.getLsbD 6 = typed.escaped) :
    (kbdProcData kbd).2.pending = rest ∧ (kbdProcData kbd).2.shift =
      ((kbd.shift &&& ~~~e0esc) ||| shiftcode (typed.key data).index) ^^^
        togglecode (typed.key data).index := by
  rw [kbdProcData, pending_eq]
  dsimp only
  rw [if_neg other, if_neg pressed, Typed.key, index_of_pressed pressed, ← escape]
  simp only [and_e0esc_ne_zero]
  by_cases escaped : kbd.shift.getLsbD 6
  · rw [if_pos escaped, if_pos escaped]
    exact ⟨rfl, rfl⟩
  · rw [if_neg escaped, if_neg escaped, and_not_e0esc escaped]
    exact ⟨rfl, rfl⟩

end

/-! ## What a scan code changes -/

section

variable {shift : BitVec 32} {typed : Typed}

theorem Reflects.escaped (reflects : Reflects shift typed) :
    Reflects (shift ||| e0esc) { typed with escaped := true } where
  escape := by
    rw [BitVec.getLsbD_or, (e0esc_bits .shift .caps).2.2, Bool.or_true]
  modifier modifier := by
    rw [BitVec.getLsbD_or, (e0esc_bits modifier .caps).1, Bool.or_false, reflects.modifier]
  lock lock := by
    rw [BitVec.getLsbD_or, (e0esc_bits .shift lock).2.1, Bool.or_false, reflects.lock]

theorem Reflects.released (reflects : Reflects shift typed) (data : Byte) :
    Reflects (shift &&& ~~~(shiftcode (typed.key data).index ||| e0esc))
      ⟨false, typed.log ++ [⟨typed.key data, false⟩]⟩ where
  escape := by
    rw [BitVec.getLsbD_and, BitVec.getLsbD_not, BitVec.getLsbD_or,
      (e0esc_bits .shift .caps).2.2]
    simp
  modifier modifier := by
    rw [BitVec.getLsbD_and, BitVec.getLsbD_not, BitVec.getLsbD_or,
      (e0esc_bits modifier .caps).1, reflects.modifier, lastPressed_append_singleton,
      typed.shiftcode_modifier]
    have bound := (position_lt modifier .caps).1
    generalize typed.key data = key
    by_cases member : key ∈ modifier.keys
    · simp [member, bound]
    · simp [member, bound]
  lock lock := by
    rw [BitVec.getLsbD_and, BitVec.getLsbD_not, BitVec.getLsbD_or,
      (e0esc_bits .shift lock).2.1, reflects.lock, presses_append_singleton,
      typed.shiftcode_lock]
    have bound := (position_lt .shift lock).2
    simp [bound]

theorem Reflects.pressed (reflects : Reflects shift typed) (data : Byte) :
    Reflects (((shift &&& ~~~e0esc) ||| shiftcode (typed.key data).index) ^^^
        togglecode (typed.key data).index)
      ⟨false, typed.log ++ [⟨typed.key data, true⟩]⟩ where
  escape := by
    rw [BitVec.getLsbD_xor, BitVec.getLsbD_or, BitVec.getLsbD_and, BitVec.getLsbD_not,
      (e0esc_bits .shift .caps).2.2, (tables_escape _).1, (tables_escape _).2]
    simp
  modifier modifier := by
    rw [BitVec.getLsbD_xor, BitVec.getLsbD_or, BitVec.getLsbD_and, BitVec.getLsbD_not,
      (e0esc_bits modifier .caps).1, togglecode_modifier, reflects.modifier,
      lastPressed_append_singleton, typed.shiftcode_modifier]
    have bound := (position_lt modifier .caps).1
    generalize typed.key data = key
    by_cases member : key ∈ modifier.keys
    · simp [member]
    · simp [member, bound]
  lock lock := by
    rw [BitVec.getLsbD_xor, BitVec.getLsbD_or, BitVec.getLsbD_and, BitVec.getLsbD_not,
      (e0esc_bits .shift lock).2.1, reflects.lock, presses_append_singleton,
      typed.shiftcode_lock, typed.togglecode_lock]
    have bound := (position_lt .shift lock).2
    generalize typed.key data = key
    by_cases same : key = lock.key
    · simp [same, bound, Nat.odd_add_one, -Nat.not_odd_iff_even]
    · simp [same, bound]

/-- Each call takes one scan code, and the shift state goes on saying what it
says. -/
theorem kbdProcData_reflects {kbd : Kbd} {data : Byte} {rest : List Byte}
    (reflects : Reflects kbd.shift typed) (pending_eq : kbd.pending = data :: rest) :
    (kbdProcData kbd).2.pending = rest ∧
      Reflects (kbdProcData kbd).2.shift (typed.receive data) := by
  rw [Typed.receive]
  by_cases escape : data = 0xE0
  · rw [kbdProcData_escape pending_eq escape, if_pos escape]
    exact ⟨rfl, reflects.escaped⟩
  · rw [if_neg escape]
    by_cases released : data &&& 0x80 ≠ 0
    · rw [kbdProcData_released pending_eq escape released reflects.escape,
        decide_eq_false released]
      exact ⟨rfl, reflects.released data⟩
    · obtain ⟨pending, shift_eq⟩ :=
        kbdProcData_pressed pending_eq escape released reflects.escape
      rw [shift_eq, decide_eq_true (not_not.mp released)]
      exact ⟨pending, reflects.pressed data⟩

end

theorem iterate_reflects {typed : Typed} {kbd : Kbd} {codes : List Byte}
    (reflects : Reflects kbd.shift typed) (pending_eq : kbd.pending = codes) :
    Reflects ((fun kbd => (kbdProcData kbd).2)^[codes.length] kbd).shift
      (codes.foldl Typed.receive typed) := by
  induction codes generalizing kbd typed with
  | nil => exact reflects
  | cons data codes ih =>
      obtain ⟨pending, next⟩ := kbdProcData_reflects reflects pending_eq
      exact ih next pending

theorem initial_reflects : Reflects 0 ⟨false, []⟩ where
  escape := rfl
  modifier _ := BitVec.getLsbD_zero
  lock lock := by
    rw [presses_nil]
    exact BitVec.getLsbD_zero

theorem processed_reflects (codes : List Byte) : Reflects (processed codes).shift (typed codes) :=
  iterate_reflects initial_reflects rfl

/-- The escape bit is set when the last scan code was an escape, a modifier's when
the last stroke of one of its two keys was a press (one of them is held then), and
a lock's when its key has been pressed an odd number of times. -/
theorem processed_shift (codes : List Byte) :
    ((processed codes).shift &&& e0esc ≠ 0 ↔ codes.getLast? = some 0xE0) ∧
      (∀ modifier : Modifier,
        ((processed codes).shift &&& modifier.bit ≠ 0 ↔
            lastPressed (fun key => key ∈ modifier.keys) (typed codes).log) ∧
          ((processed codes).shift &&& modifier.bit ≠ 0 →
            ∃ key ∈ modifier.keys, held key (typed codes).log)) ∧
      ∀ lock : Lock, (processed codes).shift &&& lock.bit ≠ 0 ↔
        Odd (presses lock.key (typed codes).log) := by
  have reflects := processed_reflects codes
  refine ⟨?_, fun modifier => ⟨?_, fun set => ?_⟩, fun lock => ?_⟩
  · rw [and_e0esc_ne_zero, reflects.escape, typed_escaped]
  · rw [modifier.and_bit_ne_zero, reflects.modifier]
  · rw [modifier.and_bit_ne_zero, reflects.modifier] at set
    obtain ⟨key, member, key_held⟩ := exists_held_of_lastPressed set
    exact ⟨key, of_decide_eq_true member, key_held⟩
  · rw [lock.and_bit_ne_zero, reflects.lock, decide_eq_true_iff]

/-- Both shift keys are pressed, and the left one is released. -/
theorem released_while_held :
    ¬ ∀ (codes : List Byte) (modifier : Modifier),
      (processed codes).shift &&& modifier.bit ≠ 0 ↔
        ∃ key ∈ modifier.keys, held key (typed codes).log := by
  intro claim
  have right_held : held ⟨false, 0x36⟩ (typed [0x2A, 0x36, 0xAA]).log := by decide
  have set := (claim [0x2A, 0x36, 0xAA] .shift).mpr ⟨_, by decide, right_held⟩
  exact set (by decide)

end Jos64.Console
