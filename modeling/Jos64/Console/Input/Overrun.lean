import Jos64.Console.Input.Correctness

/-!
# Overrun of the console input buffer

`cons_intr` never compares `wpos` with `rpos`.  After a burst the fill level is
therefore the number of outstanding characters modulo the size of the buffer,
and the whole content disappears when that number is a multiple of the size.
The characters that remain readable are always the most recent ones.
-/

namespace Jos64.Console

namespace Session

/-- The event does not read from the buffer. -/
def NoRead (event : Event) : Prop :=
  event ≠ .consGetc

theorem noRead_serialBurst (bytes : List Byte) :
    ∀ event ∈ [Event.serialArrives bytes, Event.serialIntr], NoRead event := by
  simp [NoRead]

/-- The fill level counts the stored characters modulo the buffer size. -/
def Level (session next : Session) : Prop :=
  session.delivered.length ≤ next.delivered.length ∧
    next.input.cons.ring.used consBufSize =
      (session.input.cons.ring.used consBufSize +
        (next.delivered.length - session.delivered.length)) % consBufSize

theorem Level.refl {session : Session} (inv : session.Inv) : session.Level session := by
  refine ⟨le_rfl, ?_⟩
  rw [Nat.sub_self, Nat.add_zero, Nat.mod_eq_of_lt (Ring.used_lt inv.bounds)]

theorem Level.trans {first second third : Session} (left : first.Level second)
    (right : second.Level third) : first.Level third := by
  refine ⟨left.1.trans right.1, ?_⟩
  rw [right.2, left.2, Nat.mod_add_mod, Nat.add_assoc]
  congr 2
  have := left.1
  have := right.1
  omega

theorem level_of_store {session next : Session} (inv : session.Inv) {items : List Byte}
    (ring_eq : next.input.cons.ring = session.input.cons.ring.pushAll consBufSize items)
    (delivered_eq : next.delivered = session.delivered ++ items) : session.Level next := by
  unfold Level
  rw [ring_eq, delivered_eq, Ring.used_pushAll inv.bounds, List.length_append]
  refine ⟨Nat.le_add_right _ _, ?_⟩
  rw [Nat.add_sub_cancel_left]

/-- One event without a read. -/
theorem level_step {session : Session} (inv : session.Inv) {event : Event}
    (noRead : NoRead event) : session.Level (session.step event) := by
  cases event with
  | serialArrives bytes => exact Level.refl inv
  | kbdArrives codes => exact Level.refl inv
  | serialIntr => exact level_of_store inv (ring_serialIntr _) rfl
  | kbdIntr => exact level_of_store inv (ring_kbdIntr _) rfl
  | consGetc => exact absurd rfl noRead

/-- A whole burst without a read. -/
theorem level_run {session : Session} (inv : session.Inv) (burst : List Event)
    (noRead : ∀ event ∈ burst, NoRead event) : session.Level (session.run burst) := by
  induction burst generalizing session with
  | nil => exact Level.refl inv
  | cons event burst ih =>
      have first := level_step inv (noRead event List.mem_cons_self)
      exact first.trans (ih (inv.step event) fun later later_mem =>
        noRead later (List.mem_cons_of_mem event later_mem))

theorem length_readable {session : Session} (inv : session.Inv) :
    session.input.cons.readable.length = session.input.cons.ring.used consBufSize := by
  rw [Cons.readable_eq_unread inv.bounds inv.unread_ne_zero, Cons.unread, Ring.length_contents]

theorem readable_suffix {session : Session} (inv : session.Inv) :
    session.input.cons.readable <:+ session.delivered := by
  rw [Cons.readable_eq_unread inv.bounds inv.unread_ne_zero]
  exact inv.unread_suffix

/-- With `r` characters readable in a reachable state, a burst that delivers
`k` more before the next read leaves at least `min (r + k) 511` of them
readable, as a contiguous run of what was delivered, exactly when `r + k` is
below the buffer size or one short of a multiple of it. -/
theorem burst_readable_iff (serialExists : Bool) (serial : Serial) (kbd : Kbd)
    (before burst : List Event) (noRead : ∀ event ∈ burst, NoRead event) :
    let state := (boot serialExists serial kbd).run before
    let after := state.run burst
    let r := state.input.cons.readable.length
    let k := after.delivered.length - state.delivered.length
    (min (r + k) (consBufSize - 1) ≤ after.input.cons.readable.length ∧
        after.input.cons.readable <:+: after.delivered) ↔
      (r + k < consBufSize ∨ (r + k) % consBufSize = consBufSize - 1) := by
  intro state after r k
  have state_inv : state.Inv := (inv_boot serialExists serial kbd).run before
  have after_inv : after.Inv := state_inv.run burst
  have level : after.input.cons.readable.length = (r + k) % consBufSize := by
    rw [length_readable after_inv, (level_run state_inv burst noRead).2,
      ← length_readable state_inv]
  have contiguous : after.input.cons.readable <:+: after.delivered :=
    (readable_suffix after_inv).isInfix
  rw [level]
  have wraps : (r + k) % consBufSize < consBufSize := Nat.mod_lt _ (Nat.zero_lt_succ 511)
  constructor
  · rintro ⟨enough, -⟩
    unfold consBufSize at *
    omega
  · intro fits
    refine ⟨?_, contiguous⟩
    unfold consBufSize at *
    omega

/-- One character is read back from a buffer that held one and received one. -/
theorem burst_readable_one :
    let state := (boot true ⟨[]⟩ ⟨[], 0, 0⟩).run [.serialArrives [0x41], .serialIntr]
    let after := state.run [.serialArrives [0x42], .serialIntr]
    let r := state.input.cons.readable.length
    let k := after.delivered.length - state.delivered.length
    (min (r + k) (consBufSize - 1) ≤ after.input.cons.readable.length ∧
        after.input.cons.readable <:+: after.delivered) ↔
      (r + k < consBufSize ∨ (r + k) % consBufSize = consBufSize - 1) := by
  exact burst_readable_iff true ⟨[]⟩ ⟨[], 0, 0⟩ [.serialArrives [0x41], .serialIntr]
    [.serialArrives [0x42], .serialIntr] (noRead_serialBurst [0x42])

/-- A burst of 512 characters into an empty buffer leaves nothing readable. -/
theorem full_turn_lost :
    let state := boot true ⟨[]⟩ ⟨[], 0, 0⟩
    let after := state.run [.serialArrives (List.replicate 512 0x41), .serialIntr]
    after.delivered.length = 512 ∧ after.input.cons.readable.length = 0 ∧
      ¬ min (state.input.cons.readable.length + 512) (consBufSize - 1) ≤
        after.input.cons.readable.length := by
  intro state after
  have state_inv : state.Inv := inv_boot true ⟨[]⟩ ⟨[], 0, 0⟩
  have after_inv : after.Inv := state_inv.run _
  have delivered : after.delivered = List.replicate 512 0x41 := by
    change [] ++ chars (deliveries serialDevice ⟨[] ++ List.replicate 512 0x41⟩) = _
    rw [List.nil_append, List.nil_append, deliveries_serialDevice, chars, List.map_replicate,
      List.filter_replicate_of_pos (by decide), List.map_replicate]
    rfl
  have empty : state.input.cons.readable.length = 0 := length_readable state_inv
  have level := (level_run state_inv [.serialArrives (List.replicate 512 0x41), .serialIntr]
    (noRead_serialBurst _)).2
  have lost : after.input.cons.readable.length = 0 := by
    rw [length_readable after_inv, level, ← length_readable state_inv, empty]
    change (0 + (after.delivered.length - 0)) % consBufSize = 0
    rw [delivered, List.length_replicate]
    rfl
  refine ⟨by rw [delivered, List.length_replicate], lost, ?_⟩
  rw [lost, empty]
  decide

end Session

end Jos64.Console
