import Jos64.Console.Input.Getchar
import Jos64.Monitor.Session

/-!
# The monitor at its devices

The characters of a session come from the serial port and the keyboard, through the input
buffer of the console.
-/

namespace Jos64.Monitor

open Jos64.Console Jos64.Loop

/-! ## Lines in a row -/

/-- The characters of a line with the one that ends it. -/
def Typed.chars (typed : Typed) : List Byte :=
  typed.keys ++ [typed.last]

theorem flatMap_input (lines : List Typed) :
    lines.flatMap Typed.input = (lines.flatMap Typed.chars).map keyCode := by
  rw [List.map_flatMap]
  congr 1
  funext typed
  rw [Typed.input, Typed.chars, List.map_append, List.map_singleton]

/-- Some characters are lines that have ended, and the beginning of one that has not. -/
theorem exists_typed (codes : List Byte) :
    ∃ (lines : List Typed) (keys : List Byte),
      lines.flatMap Typed.chars ++ keys = codes ∧ lines.length ≤ codes.length ∧
      ∀ c ∈ keys, ¬ IsEnd c := by
  induction codes with
  | nil => exact ⟨[], [], rfl, le_rfl, fun c member => by cases member⟩
  | cons c codes ih =>
      obtain ⟨lines, keys, rfl, length_le, inside⟩ := ih
      by_cases ends : IsEnd c
      · exact ⟨⟨[], c, fun d member => (by cases member), ends⟩ :: lines, keys, rfl,
          Nat.succ_le_succ length_le, inside⟩
      · cases lines with
        | nil =>
            exact ⟨[], c :: keys, rfl, Nat.zero_le _, List.forall_mem_cons.mpr ⟨ends, inside⟩⟩
        | cons typed lines =>
            exact ⟨⟨c :: typed.keys, typed.last, List.forall_mem_cons.mpr ⟨ends, typed.inside⟩,
              typed.ends⟩ :: lines, keys, rfl, length_le.trans (Nat.le_succ _), inside⟩

/-! ## The monitor -/

section

variable {image : Image} {context : Context} {fuel : Nat} {frames : List Frame}

/-- In whatever order the devices interrupt and are polled, the monitor answers the lines that
they deliver, in their order; what it has not read is in the buffer. -/
theorem monitor_devices (walks : Walks image context fuel frames)
    (enough : frames.length < fuel) (long : bufLen ≤ fuel) (serialExists : Bool)
    (serial : Serial) (kbd : Kbd) (events : List Event)
    (within : (Console.Session.boot serialExists serial kbd).Within events)
    (enough_chars : ((Console.Session.boot serialExists serial kbd).run
      events).delivered.length < fuel) (store : Nat → Byte) (log : Log) (round : Nat) :
    let start := Console.Session.boot serialExists serial kbd
    ∃ (lines : List Typed) (keys : List Byte) (store' : Nat → Byte),
      lines.flatMap Typed.chars ++ keys ++ (start.run events).input.cons.unread =
        (start.run events).delivered ∧
      (∀ c ∈ keys, ¬ IsEnd c) ∧
      monitor image context fuel ⟨store, log, start.input.getchars events, round⟩ =
        .done (.waiting ⟨store', transcript image context frames log lines keys, [],
          round + lines.length⟩) ∧
      ∀ address, ¬ InBuffer image.buf address → store' address = store address := by
  intro start
  have fifo : (start.run events).Fifo :=
    (Console.Session.fifo_boot serialExists serial kbd).run
      (Console.Session.inv_boot serialExists serial kbd) within
  obtain ⟨codes, chars_eq, returned_eq⟩ := start.returned_run events
  have delivered_eq : codes ++ (start.run events).input.cons.unread =
      (start.run events).delivered := by
    rw [← fifo, returned_eq]
    rfl
  obtain ⟨lines, keys, codes_eq, length_le, inside⟩ := exists_typed codes
  have enough_lines : lines.length < fuel := by
    have length_eq := congrArg List.length delivered_eq
    rw [List.length_append] at length_eq
    change (start.run events).delivered.length < fuel at enough_chars
    omega
  obtain ⟨store', run, kept⟩ := monitor_loop walks enough long lines inside enough_lines store
    (log.text greeting) round
  refine ⟨lines, keys, store', by rw [codes_eq, delivered_eq], inside, ?_, kept⟩
  rw [monitor_greets, chars_eq, ← codes_eq, List.map_append, ← flatMap_input]
  exact run

end

/-! ### A line from the serial port, and a key -/

def deviceStart : Console.Session :=
  .boot true ⟨[]⟩ ⟨[], 0, 0⟩

/-- The devices are emptied by their interrupts. -/
def deviceInterrupts : List Event :=
  [.serialArrives (str "help\r"), .serialIntr, .kbdArrives [0x25, 0xA5], .kbdIntr]

/-- `help`, which ends, and the beginning of another line. -/
def deviceEvents : List Event :=
  deviceInterrupts ++ List.replicate 7 .consGetc

theorem device_delivers : (deviceStart.run deviceEvents).delivered = str "help\rk" := by
  have line : chars (deliveries serialDevice ⟨str "help\r"⟩) = str "help\r" := by
    rw [deliveries_serialDevice]
    decide
  have key : chars (deliveries kbdDevice ⟨[0x25, 0xA5], 0, 0⟩) = str "k" := by
    rw [deliveries, dif_neg (by decide), deliveries, dif_neg (by decide), deliveries,
      dif_pos (by decide)]
    decide
  have quiet : (deviceStart.run deviceInterrupts).waiting = 0 := by
    change (consIntr serialDevice _ _).2.rx.length + (consIntr kbdDevice _ _).2.pending.length = 0
    rw [serial_emptied, kbd_emptied]
    rfl
  have interrupts : (deviceStart.run deviceInterrupts).delivered = str "help\r" ++ str "k" := by
    change [] ++ chars (deliveries serialDevice ⟨str "help\r"⟩) ++
      chars (deliveries kbdDevice ⟨[0x25, 0xA5], 0, 0⟩) = _
    rw [line, key, List.nil_append]
  rw [deviceEvents, Console.Session.run, List.foldl_append]
  exact (Console.Session.delivered_of_waiting quiet 7).trans interrupts

/-- The line is answered, and the key is echoed. -/
theorem monitor_devices_help :
    (deviceStart.run deviceEvents).delivered = str "help\rk" ∧
    ∃ (lines : List Typed) (keys : List Byte) (store' : Nat → Byte),
      lines.flatMap Typed.chars ++ keys ++ (deviceStart.run deviceEvents).input.cons.unread =
        (deviceStart.run deviceEvents).delivered ∧
      (∀ c ∈ keys, ¬ IsEnd c) ∧
      monitor sessionImage sessionContext 1024
          ⟨fun _ => 0xCC, ⟨[], .init⟩, deviceStart.input.getchars deviceEvents, 0⟩ =
        .done (.waiting ⟨store', transcript sessionImage sessionContext [frame] ⟨[], .init⟩
          lines keys, [], 0 + lines.length⟩) ∧
      ∀ address, ¬ InBuffer 0x8004003000 address → store' address = 0xCC := by
  have walks : Walks sessionImage sessionContext 1024 [frame] := fun _ => frame_chain
  refine ⟨device_delivers, ?_⟩
  exact monitor_devices walks (by decide) le_rfl true ⟨[]⟩ ⟨[], 0, 0⟩ deviceEvents
    (Console.Session.within_of_supplied (by decide))
    ((Console.Session.length_delivered_le _ _).trans_lt (by decide)) (fun _ => 0xCC) ⟨[], .init⟩ 0

end Jos64.Monitor
