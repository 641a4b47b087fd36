import Jos64.Console.Keyboard
import Jos64.Ring.Core

/-!
# The console input buffer

Characters from the serial port and the keyboard are stored by `consIntr` in
one circular buffer and taken out by `consGetc`.  A device procedure is a
function on the state of its device that is called until it reports -1; the
structure `DeviceProc` records why that loop ends.

A run of the input side is a list of events.  Bytes that reach a device while
its own drain loop is running are the same, for everything that can be
observed here, as bytes that reached it before the loop started, so arrivals
are events of their own.
-/

namespace Jos64.Console

/-! ## Device procedures -/

/-- A device procedure `int (*proc)(void)`.  Each call that delivers something
uses up a part of what is pending, and what it delivers is a byte. -/
structure DeviceProc (δ : Type) where
  proc : δ → Int × δ
  pending : δ → Nat
  pending_lt : ∀ {device}, (proc device).1 ≠ -1 → pending (proc device).2 < pending device
  range : ∀ {device}, (proc device).1 ≠ -1 → 0 ≤ (proc device).1 ∧ (proc device).1 < 256

/-- The receiving half of the serial port: the line status register reports
data while `rx` is nonempty, and the receive buffer takes its head. -/
structure Serial where
  rx : List Byte

def serialProcData (serial : Serial) : Int × Serial :=
  match serial.rx with
  | [] => (-1, serial)
  | byte :: rx => (byte.toNat, { rx })

theorem serialProcData_rx {serial : Serial} (delivered : (serialProcData serial).1 ≠ -1) :
    (serialProcData serial).2.rx.length < serial.rx.length := by
  unfold serialProcData at delivered ⊢
  cases waiting : serial.rx with
  | nil => simp [waiting] at delivered
  | cons byte rx => simp

theorem serialProcData_range {serial : Serial} (delivered : (serialProcData serial).1 ≠ -1) :
    0 ≤ (serialProcData serial).1 ∧ (serialProcData serial).1 < 256 := by
  unfold serialProcData at delivered ⊢
  cases waiting : serial.rx with
  | nil => simp [waiting] at delivered
  | cons byte rx =>
      dsimp only
      exact ⟨Int.natCast_nonneg _, by exact_mod_cast byte.isLt⟩

def serialDevice : DeviceProc Serial where
  proc := serialProcData
  pending serial := serial.rx.length
  pending_lt := serialProcData_rx
  range := serialProcData_range

def kbdDevice : DeviceProc Kbd where
  proc := kbdProcData
  pending kbd := kbd.pending.length
  pending_lt := kbdProcData_pending
  range := kbdProcData_range

/-! ## The circular buffer -/

/-- `CONSBUFSIZE` -/
def consBufSize : Nat := 512

/-- The static structure `cons`. -/
structure Cons where
  buf : Nat → Byte
  rpos : Nat
  wpos : Nat

namespace Cons

/-- The statically initialised buffer. -/
def init : Cons :=
  ⟨fun _ => 0, 0, 0⟩

/-- The body of the loop of `cons_intr` for a nonzero character. -/
def store (cons : Cons) (c : Int) : Cons :=
  let wpos := cons.wpos + 1
  { cons with
    buf := Function.update cons.buf cons.wpos (BitVec.ofInt 8 c)
    wpos := if wpos = consBufSize then 0 else wpos }

/-- The second half of `cons_getc`: grab the next character from the input
buffer. -/
def grab (cons : Cons) : Int × Cons :=
  if cons.rpos ≠ cons.wpos then
    let rpos := cons.rpos + 1
    ((cons.buf cons.rpos).toNat,
      { cons with rpos := if rpos = consBufSize then 0 else rpos })
  else (0, cons)

/-- The nonzero results of `count` successive grabs. -/
def readOut : Nat → Cons → List Byte
  | 0, _ => []
  | count + 1, cons =>
      if cons.grab.1 = 0 then readOut count cons.grab.2
      else BitVec.ofInt 8 cons.grab.1 :: readOut count cons.grab.2

/-- All that can be read before the buffer reports that it is empty; one full
turn of grabs is enough. -/
def readable (cons : Cons) : List Byte :=
  readOut consBufSize cons

/-- The buffer as a generic circular buffer. -/
def ring (cons : Cons) : Ring Byte :=
  ⟨cons.buf, cons.rpos, cons.wpos⟩

/-- The characters still buffered: those from `rpos` up to `wpos`. -/
def unread (cons : Cons) : List Byte :=
  cons.ring.contents consBufSize

end Cons

/-! ## Producers and consumer -/

/-- Call a device procedure until it reports -1 and store every nonzero
character.  The buffer's own positions are never compared. -/
def consIntr {δ : Type} (dev : DeviceProc δ) (cons : Cons) (device : δ) : Cons × δ :=
  if _delivered : (dev.proc device).1 = -1 then (cons, (dev.proc device).2)
  else if (dev.proc device).1 = 0 then consIntr dev cons (dev.proc device).2
  else consIntr dev (cons.store (dev.proc device).1) (dev.proc device).2
termination_by dev.pending device
decreasing_by all_goals exact dev.pending_lt _delivered

/-- What the device procedure returns before it reports -1, in order. -/
def deliveries {δ : Type} (dev : DeviceProc δ) (device : δ) : List Int :=
  if _delivered : (dev.proc device).1 = -1 then []
  else (dev.proc device).1 :: deliveries dev (dev.proc device).2
termination_by dev.pending device
decreasing_by exact dev.pending_lt _delivered

/-- The nonzero characters among some deliveries. -/
def chars (delivered : List Int) : List Byte :=
  (delivered.filter (· ≠ 0)).map (BitVec.ofInt 8)

/-- The input side of the console. -/
structure Input where
  cons : Cons
  serialExists : Bool
  serial : Serial
  kbd : Kbd

namespace Input

def serialIntr (input : Input) : Input :=
  if input.serialExists then
    let drained := consIntr serialDevice input.cons input.serial
    { input with cons := drained.1, serial := drained.2 }
  else input

def kbdIntr (input : Input) : Input :=
  let drained := consIntr kbdDevice input.cons input.kbd
  { input with cons := drained.1, kbd := drained.2 }

/-- The first half of `cons_getc`: poll for any pending input characters. -/
def poll (input : Input) : Input :=
  input.serialIntr.kbdIntr

/-- The next input character from the console, or 0 if none is waiting. -/
def consGetc (input : Input) : Int × Input :=
  let polled := input.poll
  (polled.cons.grab.1, { polled with cons := polled.cons.grab.2 })

end Input

/-! ## Runs -/

inductive Event where
  | serialArrives (bytes : List Byte)
  | kbdArrives (codes : List Byte)
  | serialIntr
  | kbdIntr
  | consGetc

/-- A run so far: the state, and the two character sequences that were
observed at the boundary of the buffer. -/
structure Session where
  input : Input
  delivered : List Byte
  returned : List Byte

namespace Session

/-- The run that starts at boot, with an empty buffer and nothing observed. -/
def boot (serialExists : Bool) (serial : Serial) (kbd : Kbd) : Session :=
  ⟨⟨Cons.init, serialExists, serial, kbd⟩, [], []⟩

/-- The nonzero characters a serial interrupt delivers in this state. -/
def serialChars (input : Input) : List Byte :=
  if input.serialExists then chars (deliveries serialDevice input.serial) else []

/-- The nonzero characters a keyboard interrupt delivers in this state. -/
def kbdChars (input : Input) : List Byte :=
  chars (deliveries kbdDevice input.kbd)

def serialIntr (session : Session) : Session :=
  { session with
    input := session.input.serialIntr
    delivered := session.delivered ++ serialChars session.input }

def kbdIntr (session : Session) : Session :=
  { session with
    input := session.input.kbdIntr
    delivered := session.delivered ++ kbdChars session.input }

def poll (session : Session) : Session :=
  session.serialIntr.kbdIntr

def consGetc (session : Session) : Session :=
  let c := session.input.consGetc.1
  { session.poll with
    input := session.input.consGetc.2
    returned := session.returned ++ if c = 0 then [] else [BitVec.ofInt 8 c] }

def step (session : Session) : Event → Session
  | .serialArrives bytes =>
      { session with input.serial.rx := session.input.serial.rx ++ bytes }
  | .kbdArrives codes =>
      { session with input.kbd.pending := session.input.kbd.pending ++ codes }
  | .serialIntr => session.serialIntr
  | .kbdIntr => session.kbdIntr
  | .consGetc => session.consGetc

def run (session : Session) (events : List Event) : Session :=
  events.foldl step session

/-- The state in which an event has stored its characters and not yet taken
one out: the fullest moment of that event. -/
def peak (session : Session) : Event → Session
  | .consGetc => session.poll
  | event => session.step event

/-- The number of characters delivered and not yet returned. -/
def backlog (session : Session) : Nat :=
  session.delivered.length - session.returned.length

/-- The backlog never exceeds `CONSBUFSIZE - 1` in the run. -/
def Within (session : Session) : List Event → Prop
  | [] => True
  | event :: events =>
      (session.peak event).backlog ≤ consBufSize - 1 ∧ (session.step event).Within events

end Session

end Jos64.Console
