import Jos64.Console.Input.Arrivals

/-!
# The console input buffer as a queue

The producer loop of `consIntr` is a burst of unchecked stores, so the generic
results on circular buffers apply to it.  The invariant of every run says that
the characters still readable are the most recent ones delivered; as long as
the backlog stays below one full turn they are also all that is outstanding,
which is the queue property.
-/

namespace Jos64.Console

/-! ## The buffer operations as ring operations -/

theorem ofInt_eq_zero_iff {c : Int} (low : 0 ≤ c) (high : c < 256) :
    BitVec.ofInt 8 c = 0 ↔ c = 0 := by
  constructor
  · intro zero
    have toNat_zero := congrArg BitVec.toNat zero
    simp only [BitVec.toNat_ofInt, BitVec.ofNat_eq_ofNat, BitVec.toNat_ofNat] at toNat_zero
    omega
  · rintro rfl
    rfl

namespace Cons

@[simp]
theorem ring_store (cons : Cons) (c : Int) :
    (cons.store c).ring = cons.ring.push consBufSize (BitVec.ofInt 8 c) :=
  rfl

theorem grab_of_empty {cons : Cons} (empty : cons.rpos = cons.wpos) : cons.grab = (0, cons) := by
  simp [grab, empty]

theorem grab_fst {cons : Cons} (nonempty : cons.rpos ≠ cons.wpos) :
    cons.grab.1 = (cons.buf cons.rpos).toNat := by
  simp [grab, nonempty]

theorem ring_grab {cons : Cons} (nonempty : cons.rpos ≠ cons.wpos) :
    cons.grab.2.ring = cons.ring.skip consBufSize := by
  simp only [grab, if_pos nonempty]
  rfl

/-- A successful grab takes the first unread character. -/
theorem unread_eq_cons {cons : Cons} (bounds : cons.ring.InBounds consBufSize)
    (nonempty : cons.rpos ≠ cons.wpos) :
    cons.unread = BitVec.ofInt 8 cons.grab.1 :: cons.grab.2.unread := by
  rw [grab_fst nonempty, unread, Ring.contents_skip bounds nonempty, ← ring_grab nonempty]
  simp [unread, ring]

theorem grab_fst_ne_zero {cons : Cons} (bounds : cons.ring.InBounds consBufSize)
    (nonempty : cons.rpos ≠ cons.wpos) (nonzero : ∀ c ∈ cons.unread, c ≠ 0) :
    cons.grab.1 ≠ 0 := by
  have head_ne := nonzero _ (by rw [unread_eq_cons bounds nonempty]; exact List.mem_cons_self)
  intro zero
  rw [zero] at head_ne
  exact head_ne rfl

theorem inBounds_grab {cons : Cons} (bounds : cons.ring.InBounds consBufSize) :
    cons.grab.2.ring.InBounds consBufSize := by
  by_cases empty : cons.rpos = cons.wpos
  · rw [grab_of_empty empty]
    exact bounds
  · rw [ring_grab empty]
    exact bounds.skip

/-- Reading out returns the unread characters in order. -/
theorem readOut_eq_take {cons : Cons} (bounds : cons.ring.InBounds consBufSize)
    (nonzero : ∀ c ∈ cons.unread, c ≠ 0) (count : Nat) :
    cons.readOut count = cons.unread.take count := by
  induction count generalizing cons with
  | zero => rfl
  | succ count ih =>
      by_cases empty : cons.rpos = cons.wpos
      · have none_left : cons.unread = [] := (Ring.contents_eq_nil_iff bounds).mpr empty
        have rest := ih bounds nonzero
        rw [none_left, List.take_nil] at rest ⊢
        rw [readOut, grab_of_empty empty, if_pos rfl]
        exact rest
      · have head_ne := grab_fst_ne_zero bounds empty nonzero
        rw [readOut, if_neg head_ne, unread_eq_cons bounds empty, List.take_succ_cons]
        rw [ih (inBounds_grab bounds)]
        intro c c_mem
        apply nonzero
        rw [unread_eq_cons bounds empty]
        exact List.mem_cons_of_mem _ c_mem

theorem readable_eq_unread {cons : Cons} (bounds : cons.ring.InBounds consBufSize)
    (nonzero : ∀ c ∈ cons.unread, c ≠ 0) : cons.readable = cons.unread := by
  rw [readable, readOut_eq_take bounds nonzero, List.take_of_length_le]
  rw [unread, Ring.length_contents]
  exact (Ring.used_lt bounds).le

end Cons

/-! ## The producer loop -/

section Producer

variable {δ : Type} (dev : DeviceProc δ)

theorem mem_deliveries_range (device : δ) :
    ∀ c ∈ deliveries dev device, 0 ≤ c ∧ c < 256 := by
  induction device using deliveries.induct dev with
  | case1 device done =>
      rw [deliveries, dif_pos done]
      simp
  | case2 device delivered ih =>
      rw [deliveries, dif_neg delivered]
      intro c c_mem
      rcases List.mem_cons.mp c_mem with rfl | c_mem
      · exact dev.range delivered
      · exact ih c c_mem

theorem mem_chars_ne_zero (device : δ) : ∀ c ∈ chars (deliveries dev device), c ≠ 0 := by
  intro c c_mem
  obtain ⟨code, code_mem, rfl⟩ := List.mem_map.mp c_mem
  obtain ⟨delivered, nonzero⟩ := List.mem_filter.mp code_mem
  obtain ⟨low, high⟩ := mem_deliveries_range dev device code delivered
  rw [Ne, ofInt_eq_zero_iff low high]
  simpa using nonzero

/-- The loop of `cons_intr` stores the nonzero deliveries in order. -/
theorem ring_consIntr (cons : Cons) (device : δ) :
    (consIntr dev cons device).1.ring =
      cons.ring.pushAll consBufSize (chars (deliveries dev device)) := by
  induction cons, device using consIntr.induct dev with
  | case1 cons device done =>
      rw [consIntr, deliveries, dif_pos done, dif_pos done]
      rfl
  | case2 cons device delivered zero ih =>
      rw [consIntr, deliveries, dif_neg delivered, dif_neg delivered, if_pos zero, ih]
      simp [chars, zero]
  | case3 cons device delivered nonzero ih =>
      rw [consIntr, deliveries, dif_neg delivered, dif_neg delivered, if_neg nonzero, ih]
      simp [chars, nonzero]

end Producer

theorem ring_serialIntr (input : Input) :
    input.serialIntr.cons.ring =
      input.cons.ring.pushAll consBufSize (Session.serialChars input) := by
  unfold Input.serialIntr Session.serialChars
  split
  · exact ring_consIntr serialDevice input.cons input.serial
  · rfl

theorem ring_kbdIntr (input : Input) :
    input.kbdIntr.cons.ring = input.cons.ring.pushAll consBufSize (Session.kbdChars input) :=
  ring_consIntr kbdDevice input.cons input.kbd

theorem mem_serialChars_ne_zero (input : Input) : ∀ c ∈ Session.serialChars input, c ≠ 0 := by
  unfold Session.serialChars
  split
  · exact mem_chars_ne_zero serialDevice input.serial
  · simp

theorem mem_kbdChars_ne_zero (input : Input) : ∀ c ∈ Session.kbdChars input, c ≠ 0 :=
  mem_chars_ne_zero kbdDevice input.kbd

/-! ## The invariant of every run -/

namespace Session

/-- What holds in every state, overrun or not: the slots behind the write
position hold the latest deliveries, and nothing is readable that was not
delivered. -/
structure Inv (session : Session) : Prop where
  bounds : session.input.cons.ring.InBounds consBufSize
  recent : session.input.cons.ring.Recent consBufSize session.delivered.reverse
  used_le : session.input.cons.ring.used consBufSize ≤ session.delivered.length
  nonzero : ∀ c ∈ session.delivered, c ≠ 0

/-- The queue property: what was returned and what is still unread make up
what was delivered. -/
def Fifo (session : Session) : Prop :=
  session.returned ++ session.input.cons.unread = session.delivered

theorem inv_boot (serialExists : Bool) (serial : Serial) (kbd : Kbd) :
    (boot serialExists serial kbd).Inv where
  bounds := ⟨Nat.zero_lt_succ 511, Nat.zero_lt_succ 511⟩
  recent := Ring.recent_nil _ _
  used_le := Nat.zero_le _
  nonzero := by simp [boot]

theorem fifo_boot (serialExists : Bool) (serial : Serial) (kbd : Kbd) :
    (boot serialExists serial kbd).Fifo :=
  rfl

/-- Storing a burst of nonzero characters keeps the invariant. -/
theorem Inv.store {session next : Session} (inv : session.Inv) {items : List Byte}
    (nonzero : ∀ c ∈ items, c ≠ 0)
    (ring_eq : next.input.cons.ring = session.input.cons.ring.pushAll consBufSize items)
    (delivered_eq : next.delivered = session.delivered ++ items) : next.Inv where
  bounds := by
    rw [ring_eq]
    exact inv.bounds.pushAll items
  recent := by
    rw [ring_eq, delivered_eq, List.reverse_append]
    exact inv.recent.pushAll inv.bounds items
  used_le := by
    rw [ring_eq, delivered_eq, Ring.used_pushAll inv.bounds, List.length_append]
    exact (Nat.mod_le _ _).trans (Nat.add_le_add_right inv.used_le _)
  nonzero := by
    rw [delivered_eq]
    intro c c_mem
    rcases List.mem_append.mp c_mem with old | new
    · exact inv.nonzero c old
    · exact nonzero c new

/-- What is unread are the last characters delivered. -/
theorem Inv.unread_suffix {session : Session} (inv : session.Inv) :
    session.input.cons.unread <:+ session.delivered := by
  rw [Cons.unread, Ring.contents_eq_of_recent inv.recent inv.bounds (by simpa using inv.used_le)]
  rw [← List.reverse_prefix, List.reverse_reverse]
  exact List.take_prefix _ _

theorem Inv.unread_ne_zero {session : Session} (inv : session.Inv) :
    ∀ c ∈ session.input.cons.unread, c ≠ 0 :=
  fun c c_mem => inv.nonzero c (inv.unread_suffix.subset c_mem)

theorem Inv.serialIntr {session : Session} (inv : session.Inv) : session.serialIntr.Inv :=
  inv.store (mem_serialChars_ne_zero _) (ring_serialIntr _) rfl

theorem Inv.kbdIntr {session : Session} (inv : session.Inv) : session.kbdIntr.Inv :=
  inv.store (mem_kbdChars_ne_zero _) (ring_kbdIntr _) rfl

theorem Inv.poll {session : Session} (inv : session.Inv) : session.poll.Inv :=
  inv.serialIntr.kbdIntr

/-- The consumer's step: it returns 0 and changes nothing when the buffer is
empty after polling, and otherwise returns the first unread character. -/
theorem Inv.consGetc_cases {session : Session} (inv : session.Inv) :
    (session.poll.input.cons.unread = [] ∧ session.input.consGetc.1 = 0 ∧
        session.consGetc = session.poll) ∨
      (session.input.consGetc.1 ≠ 0 ∧
        session.consGetc.input.cons.ring.InBounds consBufSize ∧
        session.consGetc.input.cons.ring.Recent consBufSize session.poll.delivered.reverse ∧
        ∃ c, session.poll.input.cons.unread = c :: session.consGetc.input.cons.unread ∧
          session.consGetc.returned = session.returned ++ [c]) := by
  have polled := inv.poll
  have bounds := polled.bounds
  by_cases empty : session.poll.input.cons.rpos = session.poll.input.cons.wpos
  · left
    have unchanged : session.input.poll.cons.grab = (0, session.input.poll.cons) :=
      Cons.grab_of_empty empty
    refine ⟨(Ring.contents_eq_nil_iff bounds).mpr empty, ?_, ?_⟩
    · simp [Input.consGetc, unchanged]
    · simp only [Session.consGetc, Input.consGetc, unchanged, if_pos, List.append_nil]
      rfl
  · right
    have nonzero : session.input.consGetc.1 ≠ 0 :=
      Cons.grab_fst_ne_zero bounds empty polled.unread_ne_zero
    have ring_eq : session.consGetc.input.cons.ring =
        session.poll.input.cons.ring.skip consBufSize := Cons.ring_grab empty
    refine ⟨nonzero, ?_, ?_, _, Cons.unread_eq_cons bounds empty, ?_⟩
    · rw [ring_eq]
      exact bounds.skip
    · rw [ring_eq]
      exact polled.recent.skip
    · change session.returned ++ (if session.input.consGetc.1 = 0 then [] else _) = _
      rw [if_neg nonzero]
      rfl

theorem Inv.consGetc {session : Session} (inv : session.Inv) : session.consGetc.Inv := by
  rcases inv.consGetc_cases with ⟨-, -, same⟩ | ⟨-, bounds, recent, c, unread_eq, -⟩
  · rw [same]
    exact inv.poll
  · refine ⟨bounds, recent, ?_, inv.poll.nonzero⟩
    have shorter := congrArg List.length unread_eq
    simp only [Cons.unread, Ring.length_contents, List.length_cons] at shorter
    have used_le := inv.poll.used_le
    change _ ≤ session.poll.delivered.length
    omega

/-- Every event keeps the invariant. -/
theorem Inv.step {session : Session} (inv : session.Inv) (event : Event) :
    (session.step event).Inv := by
  cases event with
  | serialArrives bytes => exact ⟨inv.bounds, inv.recent, inv.used_le, inv.nonzero⟩
  | kbdArrives codes => exact ⟨inv.bounds, inv.recent, inv.used_le, inv.nonzero⟩
  | serialIntr => exact inv.serialIntr
  | kbdIntr => exact inv.kbdIntr
  | consGetc => exact inv.consGetc

/-- Every run keeps the invariant. -/
theorem Inv.run {session : Session} (inv : session.Inv) (events : List Event) :
    (session.run events).Inv := by
  induction events generalizing session with
  | nil => exact inv
  | cons event events ih => exact ih (inv.step event)

/-! ## The queue below capacity -/

theorem Fifo.backlog_eq {session : Session} (fifo : session.Fifo) :
    session.backlog = session.input.cons.ring.used consBufSize := by
  have lengths := congrArg List.length fifo
  simp only [List.length_append, Cons.unread, Ring.length_contents] at lengths
  unfold backlog
  omega

theorem Fifo.store {session next : Session} (fifo : session.Fifo) (inv : session.Inv)
    (items : List Byte)
    (ring_eq : next.input.cons.ring = session.input.cons.ring.pushAll consBufSize items)
    (delivered_eq : next.delivered = session.delivered ++ items)
    (returned_eq : next.returned = session.returned)
    (room : next.backlog ≤ consBufSize - 1) : next.Fifo := by
  have level := fifo.backlog_eq
  have lengths := congrArg List.length fifo
  simp only [List.length_append, Cons.unread, Ring.length_contents] at lengths
  have fits : session.input.cons.ring.used consBufSize + items.length < consBufSize := by
    unfold backlog at room level
    rw [delivered_eq, returned_eq, List.length_append] at room
    unfold consBufSize at *
    omega
  unfold Fifo
  rw [returned_eq, delivered_eq, Cons.unread, ring_eq, Ring.contents_pushAll inv.bounds _ fits,
    ← List.append_assoc]
  exact congrArg (· ++ items) fifo

theorem Fifo.poll {session : Session} (fifo : session.Fifo) (inv : session.Inv)
    (room : session.poll.backlog ≤ consBufSize - 1) : session.poll.Fifo := by
  apply fifo.store inv (serialChars session.input ++ kbdChars session.serialIntr.input)
  · rw [Ring.pushAll, List.foldl_append]
    exact (ring_kbdIntr _).trans (congrArg (Ring.pushAll consBufSize · _) (ring_serialIntr _))
  · exact List.append_assoc _ _ _
  · rfl
  · exact room

theorem Fifo.consGetc {session : Session} (fifo : session.poll.Fifo) (inv : session.Inv) :
    session.consGetc.Fifo := by
  rcases inv.consGetc_cases with ⟨-, -, same⟩ | ⟨-, -, -, c, unread_eq, returned_eq⟩
  · rw [same]
    exact fifo
  · unfold Fifo at fifo ⊢
    rw [unread_eq] at fifo
    rw [returned_eq, List.append_assoc]
    exact fifo

/-- Every event that respects the capacity keeps the queue property. -/
theorem Fifo.step {session : Session} (fifo : session.Fifo) (inv : session.Inv) {event : Event}
    (room : (session.peak event).backlog ≤ consBufSize - 1) : (session.step event).Fifo := by
  cases event with
  | serialArrives bytes => exact fifo
  | kbdArrives codes => exact fifo
  | serialIntr => exact fifo.store inv _ (ring_serialIntr _) rfl rfl room
  | kbdIntr => exact fifo.store inv _ (ring_kbdIntr _) rfl rfl room
  | consGetc => exact Fifo.consGetc (fifo.poll inv room) inv

/-- Every run that respects the capacity keeps the queue property. -/
theorem Fifo.run {session : Session} (fifo : session.Fifo) (inv : session.Inv)
    {events : List Event} (within : session.Within events) : (session.run events).Fifo := by
  induction events generalizing session with
  | nil => exact fifo
  | cons event events ih => exact ih (fifo.step inv within.1) (inv.step event) within.2

theorem consGetc_eq_zero_iff {session : Session} (inv : session.Inv) :
    session.input.consGetc.1 = 0 ↔ session.input.poll.cons.unread = [] := by
  rcases inv.consGetc_cases with ⟨empty, zero, -⟩ | ⟨nonzero, -, -, c, unread_eq, -⟩
  · exact iff_of_true zero empty
  · exact iff_of_false nonzero (by
      change session.poll.input.cons.unread ≠ []
      rw [unread_eq]
      exact List.cons_ne_nil _ _)

/-- Console input is a queue: in every run whose backlog stays within the
buffer, the characters returned followed by those still buffered are the
characters delivered, and `cons_getc` returns 0 exactly when polling leaves
nothing buffered. -/
theorem run_fifo (serialExists : Bool) (serial : Serial) (kbd : Kbd) (events : List Event)
    (within : (boot serialExists serial kbd).Within events) :
    let session := (boot serialExists serial kbd).run events
    session.input.cons.rpos < consBufSize ∧
      session.input.cons.wpos < consBufSize ∧
      session.returned ++ session.input.cons.unread = session.delivered ∧
      ∀ before after, events = before ++ .consGetc :: after →
        let earlier := (boot serialExists serial kbd).run before
        (earlier.input.consGetc.1 = 0 ↔ earlier.input.poll.cons.unread = []) := by
  have inv := inv_boot serialExists serial kbd
  have bounds := (inv.run events).bounds
  refine ⟨bounds.rpos_lt, bounds.wpos_lt, ?_, ?_⟩
  · exact (fifo_boot serialExists serial kbd).run inv within
  · intro before after _
    exact consGetc_eq_zero_iff (inv.run before)

/-- Three bytes at the serial port and two keys, which come in between and are read by turns. -/
def bothDevices : List Event :=
  [.serialArrives [0x41, 0x42], .serialIntr, .kbdArrives [0x1E, 0x9E, 0x30], .consGetc,
    .serialArrives [0x43], .consGetc, .kbdIntr, .consGetc, .consGetc, .consGetc, .consGetc]

theorem run_fifo_both_devices :
    let session := (boot true ⟨[]⟩ ⟨[], 0, 0⟩).run bothDevices
    session.input.cons.rpos < consBufSize ∧
      session.input.cons.wpos < consBufSize ∧
      session.returned ++ session.input.cons.unread = session.delivered ∧
      ∀ before after, bothDevices = before ++ .consGetc :: after →
        let earlier := (boot true ⟨[]⟩ ⟨[], 0, 0⟩).run before
        (earlier.input.consGetc.1 = 0 ↔ earlier.input.poll.cons.unread = []) :=
  run_fifo true ⟨[]⟩ ⟨[], 0, 0⟩ bothDevices (within_of_supplied (by decide))

end Session

end Jos64.Console
