import Jos64.Console.Input.Correctness
import Jos64.Console.Readline.Correctness

/-!
# Waiting for characters

`getchar` calls `cons_getc` until there is a character.  While it waits, and between its
calls, the devices go on.  What happens is a list of events, in which a `consGetc` is the next
call that `getchar` makes.
-/

namespace Jos64.Console

namespace Input

def step (input : Input) (event : Event) : Input :=
  (Session.step ⟨input, [], []⟩ event).input

/-- `getchar`: the character, the input side and the events that are left, unless it still
waits where the events end. -/
def getchar (input : Input) : List Event → Option (Int × Input × List Event)
  | [] => none
  | .consGetc :: events =>
      let (c, input) := input.consGetc
      if c = 0 then getchar input events else some (c, input, events)
  | .serialArrives bytes :: events => getchar (input.step (.serialArrives bytes)) events
  | .kbdArrives codes :: events => getchar (input.step (.kbdArrives codes)) events
  | .serialIntr :: events => getchar (input.step .serialIntr) events
  | .kbdIntr :: events => getchar (input.step .kbdIntr) events

/-- A call uses up the events that it waits in. -/
theorem length_of_getchar {input : Input} {events : List Event} {result : Int × Input × List Event}
    (ended : input.getchar events = some result) : result.2.2.length < events.length := by
  induction events generalizing input with
  | nil => cases ended
  | cons event events ih =>
      cases event with
      | consGetc =>
          rw [getchar] at ended
          dsimp only at ended
          split at ended
          · exact (ih ended).trans (Nat.lt_succ_self _)
          · cases ended
            exact Nat.lt_succ_self _
      | serialArrives bytes => exact (ih ended).trans (Nat.lt_succ_self _)
      | kbdArrives codes => exact (ih ended).trans (Nat.lt_succ_self _)
      | serialIntr => exact (ih ended).trans (Nat.lt_succ_self _)
      | kbdIntr => exact (ih ended).trans (Nat.lt_succ_self _)

/-- What a call of `getchar` after the other returns. -/
def getchars (input : Input) (events : List Event) : List Int :=
  match _ended : input.getchar events with
  | none => []
  | some (c, input, rest) => c :: getchars input rest
termination_by events.length
decreasing_by exact length_of_getchar _ended

theorem getchars_eq (input : Input) (events : List Event) :
    input.getchars events = match input.getchar events with
      | none => []
      | some (c, input, rest) => c :: input.getchars rest := by
  rw [getchars]
  split
  · rename_i waits
    rw [waits]
  · rename_i ended
    rw [ended]

theorem getchars_nil (input : Input) : input.getchars [] = [] := by
  rw [getchars_eq, getchar]

/-- The zeros of `cons_getc` are passed over. -/
theorem getchars_consGetc (input : Input) (events : List Event) :
    input.getchars (.consGetc :: events) =
      if input.consGetc.1 = 0 then input.consGetc.2.getchars events
      else input.consGetc.1 :: input.consGetc.2.getchars events := by
  rw [getchars_eq, getchar]
  dsimp only
  by_cases empty : input.consGetc.1 = 0
  · rw [if_pos empty, if_pos empty, ← getchars_eq]
  · rw [if_neg empty, if_neg empty]

theorem getchars_step (input : Input) {event : Event} (other : event ≠ .consGetc)
    (events : List Event) :
    input.getchars (event :: events) = (input.step event).getchars events := by
  have waits : input.getchar (event :: events) = (input.step event).getchar events := by
    cases event with
    | consGetc => exact absurd rfl other
    | _ => rfl
  rw [getchars_eq, waits, ← getchars_eq]

/-- A character of the buffer is a byte. -/
theorem consGetc_byte (input : Input) : ∃ c : Byte, input.consGetc.1 = keyCode c := by
  by_cases empty : input.poll.cons.rpos = input.poll.cons.wpos
  · exact ⟨0, congrArg Prod.fst (Cons.grab_of_empty empty)⟩
  · exact ⟨_, Cons.grab_fst empty⟩

end Input

theorem keyCode_ofInt (c : Byte) : BitVec.ofInt 8 (keyCode c) = c := by
  rw [keyCode, BitVec.ofInt_natCast, BitVec.ofNat_toNat, BitVec.setWidth_eq]

namespace Session

theorem input_step (session : Session) (event : Event) :
    (session.step event).input = session.input.step event := by
  cases event with
  | _ => rfl

theorem returned_step (session : Session) {event : Event} (other : event ≠ .consGetc) :
    (session.step event).returned = session.returned := by
  cases event with
  | consGetc => exact absurd rfl other
  | _ => rfl

/-- The calls of `getchar` see the characters that `cons_getc` returns, and not the zeros. -/
theorem returned_run (session : Session) (events : List Event) :
    ∃ codes : List Byte, session.input.getchars events = codes.map keyCode ∧
      (session.run events).returned = session.returned ++ codes := by
  induction events generalizing session with
  | nil => exact ⟨[], Input.getchars_nil _, (List.append_nil _).symm⟩
  | cons event events ih =>
      obtain ⟨codes, chars_eq, returned_eq⟩ := ih (session.step event)
      by_cases reads : event = .consGetc
      · subst reads
        change (session.consGetc.run events).returned = session.returned ++ _ ++ codes
          at returned_eq
        change session.input.consGetc.2.getchars events = codes.map keyCode at chars_eq
        obtain ⟨c, code_eq⟩ := session.input.consGetc_byte
        rw [Input.getchars_consGetc]
        by_cases empty : session.input.consGetc.1 = 0
        · refine ⟨codes, ?_, ?_⟩
          · rw [if_pos empty, chars_eq]
          · rw [if_pos empty, List.append_nil] at returned_eq
            exact returned_eq
        · refine ⟨c :: codes, ?_, ?_⟩
          · rw [if_neg empty, chars_eq, code_eq, List.map_cons]
          · rw [if_neg empty, code_eq, keyCode_ofInt, List.append_assoc] at returned_eq
            exact returned_eq
      · refine ⟨codes, ?_, ?_⟩
        · rw [Input.getchars_step _ reads, ← input_step]
          exact chars_eq
        · rw [returned_step session reads] at returned_eq
          exact returned_eq

end Session

end Jos64.Console
