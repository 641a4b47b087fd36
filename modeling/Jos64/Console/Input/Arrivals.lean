import Jos64.Console.Input.Core

/-!
# What comes to the devices

A byte at a device becomes one character at most.  In a run to whose devices fewer bytes come
than the buffer has places the backlog stays within it.
-/

namespace Jos64.Console

/-! ## A device is emptied -/

section

variable {δ : Type} (dev : DeviceProc δ)

/-- There are no more deliveries than there is waiting. -/
theorem length_deliveries_le (device : δ) :
    (deliveries dev device).length ≤ dev.pending device := by
  induction device using deliveries.induct dev with
  | case1 device done =>
      rw [deliveries, dif_pos done]
      exact Nat.zero_le _
  | case2 device delivered ih =>
      rw [deliveries, dif_neg delivered, List.length_cons]
      exact ih.trans_lt (dev.pending_lt delivered)

theorem length_chars_le (delivered : List Int) : (chars delivered).length ≤ delivered.length := by
  rw [chars, List.length_map]
  exact List.length_filter_le _ _

/-- The last call reports -1. -/
theorem consIntr_last (cons : Cons) (device : δ) :
    ∃ last, (dev.proc last).1 = -1 ∧ (consIntr dev cons device).2 = (dev.proc last).2 := by
  induction cons, device using consIntr.induct dev with
  | case1 cons device done => exact ⟨device, done, by rw [consIntr, dif_pos done]⟩
  | case2 cons device delivered zero ih =>
      rw [consIntr, dif_neg delivered, if_pos zero]
      exact ih
  | case3 cons device delivered nonzero ih =>
      rw [consIntr, dif_neg delivered, if_neg nonzero]
      exact ih

end

theorem deliveries_serialDevice (bytes : List Byte) :
    deliveries serialDevice ⟨bytes⟩ = bytes.map fun byte => (byte.toNat : Int) := by
  induction bytes with
  | nil =>
      have done : (serialDevice.proc ⟨[]⟩).1 = -1 := rfl
      rw [deliveries, dif_pos done]
      rfl
  | cons byte bytes ih =>
      have delivered : (serialDevice.proc ⟨byte :: bytes⟩).1 ≠ -1 := by
        change (byte.toNat : Int) ≠ -1
        omega
      rw [deliveries, dif_neg delivered]
      exact congrArg (List.cons _) ih

theorem serial_emptied (cons : Cons) (serial : Serial) :
    (consIntr serialDevice cons serial).2.rx = [] := by
  obtain ⟨last, done, left⟩ := consIntr_last serialDevice cons serial
  rw [left]
  change (serialProcData last).1 = -1 at done
  change (serialProcData last).2.rx = []
  unfold serialProcData at done ⊢
  cases waiting : last.rx with
  | nil => exact waiting
  | cons byte rx =>
      rw [waiting] at done
      exact absurd done (by dsimp only; omega)

theorem kbdProcData_nonneg {kbd : Kbd} {data : Byte} {pending : List Byte}
    (waiting : kbd.pending = data :: pending) : 0 ≤ (kbdProcData kbd).1 := by
  unfold kbdProcData
  rw [waiting]
  dsimp only
  split_ifs
  all_goals first
    | exact le_refl _
    | exact (keyPressed_range _ _).1

theorem kbd_emptied (cons : Cons) (kbd : Kbd) : (consIntr kbdDevice cons kbd).2.pending = [] := by
  obtain ⟨last, done, left⟩ := consIntr_last kbdDevice cons kbd
  rw [left]
  change (kbdProcData last).1 = -1 at done
  change (kbdProcData last).2.pending = []
  cases waiting : last.pending with
  | nil =>
      unfold kbdProcData
      rw [waiting]
      exact waiting
  | cons data pending =>
      have delivers := kbdProcData_nonneg waiting
      omega

namespace Session

/-! ## The characters of a run -/

/-- The bytes that wait at the devices. -/
def waiting (session : Session) : Nat :=
  session.input.serial.rx.length + session.input.kbd.pending.length

/-- The bytes that come to the devices in an event. -/
def arriving : Event → Nat
  | .serialArrives bytes => bytes.length
  | .kbdArrives codes => codes.length
  | .serialIntr | .kbdIntr | .consGetc => 0

/-- What has been delivered and what waits. -/
def supplied (session : Session) : Nat :=
  session.delivered.length + session.waiting

theorem supplied_serialIntr (session : Session) :
    session.serialIntr.supplied ≤ session.supplied := by
  have count := length_deliveries_le serialDevice session.input.serial
  have stored := length_chars_le (deliveries serialDevice session.input.serial)
  unfold supplied waiting serialIntr Input.serialIntr serialChars
  dsimp only
  rw [List.length_append]
  split
  · rw [serial_emptied]
    change _ ≤ session.input.serial.rx.length at count
    dsimp only [List.length_nil]
    omega
  · rw [List.length_nil, Nat.add_zero]

theorem supplied_kbdIntr (session : Session) : session.kbdIntr.supplied ≤ session.supplied := by
  have count := length_deliveries_le kbdDevice session.input.kbd
  have stored := length_chars_le (deliveries kbdDevice session.input.kbd)
  unfold supplied waiting kbdIntr Input.kbdIntr kbdChars
  dsimp only
  rw [List.length_append, kbd_emptied]
  change _ ≤ session.input.kbd.pending.length at count
  dsimp only [List.length_nil]
  omega

theorem supplied_poll (session : Session) : session.poll.supplied ≤ session.supplied :=
  (supplied_kbdIntr _).trans (supplied_serialIntr session)

/-- A step adds what arrives, at most. -/
theorem supplied_step (session : Session) (event : Event) :
    (session.step event).supplied ≤ session.supplied + arriving event := by
  cases event with
  | serialArrives bytes =>
      unfold supplied waiting step arriving
      dsimp only
      rw [List.length_append]
      omega
  | kbdArrives codes =>
      unfold supplied waiting step arriving
      dsimp only
      rw [List.length_append]
      omega
  | serialIntr => exact supplied_serialIntr session
  | kbdIntr => exact supplied_kbdIntr session
  | consGetc => exact supplied_poll session

theorem supplied_peak (session : Session) (event : Event) :
    (session.peak event).supplied ≤ session.supplied + arriving event := by
  cases event with
  | consGetc => exact supplied_poll session
  | _ => exact supplied_step session _

/-- A run adds what arrives in it, at most. -/
theorem supplied_run (session : Session) (events : List Event) :
    (session.run events).supplied ≤ session.supplied + (events.map arriving).sum := by
  induction events generalizing session with
  | nil => exact Nat.le_add_right _ _
  | cons event events ih =>
      have first := supplied_step session event
      have rest := ih (session.step event)
      rw [List.map_cons, List.sum_cons]
      exact rest.trans (by omega)

/-- No more is delivered than that. -/
theorem length_delivered_le (session : Session) (events : List Event) :
    (session.run events).delivered.length ≤ session.supplied + (events.map arriving).sum :=
  (Nat.le_add_right _ _).trans (supplied_run session events)

/-- The backlog stays within the buffer where no more arrives than it can hold. -/
theorem within_of_supplied {session : Session} {events : List Event}
    (few : session.supplied + (events.map arriving).sum ≤ consBufSize - 1) :
    session.Within events := by
  induction events generalizing session with
  | nil => trivial
  | cons event events ih =>
      rw [List.map_cons, List.sum_cons] at few
      have peak_le := supplied_peak session event
      have step_le := supplied_step session event
      refine ⟨?_, ih (by omega)⟩
      have backlog_le : (session.peak event).backlog ≤ (session.peak event).supplied :=
        (Nat.sub_le _ _).trans (Nat.le_add_right _ _)
      omega

/-- Where nothing waits at the devices a call of `cons_getc` delivers nothing. -/
theorem consGetc_of_waiting {session : Session} (quiet : session.waiting = 0) :
    session.consGetc.delivered = session.delivered ∧ session.consGetc.waiting = 0 := by
  have supplied_le : session.consGetc.supplied ≤ session.supplied := supplied_poll session
  have delivered_eq : session.consGetc.delivered = session.delivered ++
      (serialChars session.input ++ kbdChars session.serialIntr.input) :=
    List.append_assoc _ _ _
  rw [supplied, supplied, quiet, delivered_eq, List.length_append] at supplied_le
  have nothing : serialChars session.input ++ kbdChars session.serialIntr.input = [] :=
    List.eq_nil_of_length_eq_zero (by omega)
  rw [delivered_eq, nothing, List.append_nil]
  exact ⟨rfl, by omega⟩

/-- Then so do all calls after it. -/
theorem delivered_of_waiting {session : Session} (quiet : session.waiting = 0) (calls : Nat) :
    (session.run (List.replicate calls .consGetc)).delivered = session.delivered := by
  induction calls generalizing session with
  | zero => rfl
  | succ calls ih =>
      obtain ⟨delivered_eq, still⟩ := consGetc_of_waiting quiet
      exact (ih still).trans delivered_eq

end Session

end Jos64.Console
