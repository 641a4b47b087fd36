import Jos64.Console.Output.Correctness
import Jos64.Console.Transcript.Core

/-!
# What the ports take

Each driver sends a character to its own device, but the screen driver hands a tab
back to `cons_putc` as five spaces, which go to the ports as well.
-/

namespace Jos64.Console

open Jos64.Format

namespace Output

/-- The bytes that one call of `cons_putc` writes to each of the ports. -/
def portBytes (call : Call) : List Byte :=
  if call.color.parsing = false ∧ lowByte call.ch = 0x09 then
    lowByte call.ch :: List.replicate 5 0x20
  else [lowByte call.ch]

/-- The bytes have been written to both ports between two states. -/
structure Sends (out last : Output) (bytes : List Byte) : Prop where
  serial : last.serial = out.serial ++ bytes
  lpt : last.lpt = out.lpt ++ bytes

theorem Sends.trans {out next last : Output} {bytes more : List Byte}
    (first : Sends out next bytes) (second : Sends next last more) :
    Sends out last (bytes ++ more) where
  serial := by rw [second.serial, first.serial, List.append_assoc]
  lpt := by rw [second.lpt, first.lpt, List.append_assoc]

variable {out next : Output}

theorem onScreen_sends {op : Screen → Option Screen} (done : out.onScreen op = some next) :
    Sends out next [] := by
  obtain ⟨screen, -, rfl⟩ := Option.map_eq_some_iff.mp done
  exact ⟨(List.append_nil _).symm, (List.append_nil _).symm⟩

/-- Of all characters but a tab the screen driver sends nothing to the ports. -/
theorem cgaPutc_sends {color : Color} {c : BitVec 32} (not_tab : lowByte c ≠ 0x09)
    (done : cgaPutc color c out = some next) : Sends out next [] := by
  have same : out.withPorts out.serial out.lpt = out := rfl
  rw [← same, cgaPutc_withPorts color not_tab] at done
  obtain ⟨last, -, rfl⟩ := Option.map_eq_some_iff.mp done
  exact ⟨(List.append_nil _).symm, (List.append_nil _).symm⟩

theorem consPutc_eq (color : Color) (c : BitVec 32) (out : Output) :
    consPutc color c out = cgaPutc color c ((out.serialPutc c).lptPutc c) := by
  rw [consPutc]

/-- A call of `cons_putc` whose screen driver has sent some bytes. -/
theorem sends_cons {c : BitVec 32} {bytes : List Byte}
    (rest : Sends ((out.serialPutc c).lptPutc c) next bytes) :
    Sends out next (lowByte c :: bytes) where
  serial := rest.serial.trans (List.append_assoc _ _ _)
  lpt := rest.lpt.trans (List.append_assoc _ _ _)

theorem consPutc_space_sends {color : Color} (done : consPutc color 0x20 out = some next) :
    Sends out next [0x20] := by
  rw [consPutc_eq] at done
  exact sends_cons (cgaPutc_sends (by decide) done)

/-- A tab outside an escape sequence. -/
theorem cgaPutc_tab_sends {flag c : BitVec 32} (is_tab : lowByte c = 0x09)
    (done : cgaPutc ⟨flag, false⟩ c out = some next) :
    Sends out next (List.replicate 5 0x20) := by
  rw [cgaPutc] at done
  simp only [Bool.false_eq_true, if_false, lowByte_attributed, is_tab, dite_true,
    Option.bind_eq_bind, show ¬ (0x09 : Byte) = 0x08 by decide,
    show ¬ (0x09 : Byte) = 0x0A by decide, show ¬ (0x09 : Byte) = 0x0D by decide] at done
  obtain ⟨first, first_done, done⟩ := Option.bind_eq_some_iff.mp done
  obtain ⟨second, second_done, done⟩ := Option.bind_eq_some_iff.mp done
  obtain ⟨third, third_done, done⟩ := Option.bind_eq_some_iff.mp done
  obtain ⟨fourth, fourth_done, done⟩ := Option.bind_eq_some_iff.mp done
  obtain ⟨fifth, fifth_done, done⟩ := Option.bind_eq_some_iff.mp done
  have two := (consPutc_space_sends first_done).trans (consPutc_space_sends second_done)
  have four := (two.trans (consPutc_space_sends third_done)).trans
    (consPutc_space_sends fourth_done)
  exact (four.trans (consPutc_space_sends fifth_done)).trans (onScreen_sends done)

/-- One call of `cputchar`. -/
theorem consPutc_sends {call : Call} (done : consPutc call.color call.ch out = some next) :
    Sends out next (portBytes call) := by
  obtain ⟨c, ⟨flag, parsing⟩⟩ := call
  rw [consPutc_eq] at done
  rw [portBytes]
  dsimp only at done ⊢
  by_cases is_tab : lowByte c = 0x09
  · cases parsing with
    | true =>
        rw [if_neg (by simp)]
        rw [cgaPutc, if_pos rfl] at done
        cases done
        exact sends_cons ⟨(List.append_nil _).symm, (List.append_nil _).symm⟩
    | false =>
        rw [if_pos ⟨rfl, is_tab⟩]
        exact sends_cons (cgaPutc_tab_sends is_tab done)
  · rw [if_neg fun tab => is_tab tab.2]
    exact sends_cons (cgaPutc_sends is_tab done)

/-- Any sequence of calls. -/
theorem puts_sends {calls : List Call} {last : Output} (done : puts calls out = some last) :
    Sends out last (calls.flatMap portBytes) := by
  induction calls generalizing out with
  | nil =>
      cases done
      exact ⟨(List.append_nil _).symm, (List.append_nil _).symm⟩
  | cons call calls ih =>
      rw [puts, List.foldlM_cons] at done
      obtain ⟨next, first, rest⟩ := Option.bind_eq_some_iff.mp done
      exact (consPutc_sends first).trans (ih rest)

/-! ## Tabs -/

/-- No call hands the screen driver a tab. -/
def NoTab (calls : List Call) : Prop :=
  ∀ call ∈ calls, call.color.parsing = false → lowByte call.ch ≠ 0x09

theorem length_sent_le (calls : List Call) :
    (sent calls).length ≤ (calls.flatMap portBytes).length := by
  induction calls with
  | nil => exact Nat.le_refl _
  | cons call calls ih =>
      have first : 1 ≤ (portBytes call).length := by
        rw [portBytes]
        split
        · exact Nat.succ_le_succ (Nat.zero_le _)
        · exact Nat.le_refl _
      rw [sent_cons, List.flatMap_cons, List.length_cons, List.length_append]
      omega

theorem flatMap_portBytes_iff (calls : List Call) :
    calls.flatMap portBytes = sent calls ↔ NoTab calls := by
  induction calls with
  | nil => exact iff_of_true rfl fun call call_mem => absurd call_mem List.not_mem_nil
  | cons call calls ih =>
      rw [NoTab, List.forall_mem_cons, ← NoTab, ← ih, List.flatMap_cons, sent_cons, portBytes]
      by_cases tab : call.color.parsing = false ∧ lowByte call.ch = 0x09
      · rw [if_pos tab]
        refine iff_of_false (fun same => ?_) fun none => none.1 tab.1 tab.2
        have lengths := congrArg List.length same
        have rest := length_sent_le calls
        rw [List.length_append, List.length_cons, List.length_cons, List.length_replicate]
          at lengths
        omega
      · rw [if_neg tab, List.singleton_append, List.cons.injEq]
        exact and_congr (iff_of_true rfl fun outside is_tab => tab ⟨outside, is_tab⟩) Iff.rfl

/-! ## The result -/

/-- With the cursor on the screen every sequence of calls is carried out. -/
theorem puts_isSome (calls : List Call) {page : Page (BitVec 16)}
    (shown : Shown out.screen page) : ∃ last, puts calls out = some last := by
  induction calls generalizing out page with
  | nil => exact ⟨out, rfl⟩
  | cons call calls ih =>
      obtain ⟨c, ⟨flag, parsing⟩⟩ := call
      have first : ∃ next, consPutc ⟨flag, parsing⟩ c out = some next ∧
          ∃ page', Shown next.screen page' := by
        rw [consPutc_eq]
        cases parsing with
        | true =>
            rw [cgaPutc, if_pos rfl]
            exact ⟨_, rfl, page, shown⟩
        | false =>
            have sent_shown : Shown ((out.serialPutc c).lptPutc c).screen page := shown
            obtain ⟨next, done, shown⟩ := cgaPutc_shown sent_shown (flag, c)
            exact ⟨next, done, _, shown⟩
      obtain ⟨next, done, page', shown⟩ := first
      obtain ⟨last, rest⟩ := ih shown
      refine ⟨last, ?_⟩
      rw [puts, List.foldlM_cons, done]
      exact rest

/-- Each port takes the characters that are passed to `cputchar`, one byte for
each call, exactly if none of them is a tab that the screen takes. -/
theorem ports_take_sent_iff (calls : List Call) (out : Output) :
    (∀ last, puts calls out = some last →
      ((last.serial = out.serial ++ sent calls ∧ last.lpt = out.lpt ++ sent calls) ↔
        NoTab calls)) ∧
      (out.screen.crtPos < crtSize → ∃ last, puts calls out = some last) := by
  constructor
  · intro last done
    have sends := puts_sends done
    rw [sends.serial, sends.lpt, List.append_cancel_left_eq, List.append_cancel_left_eq, and_self,
      flatMap_portBytes_iff]
  · intro start
    exact puts_isSome calls ⟨start, Page.shows_ofBuffer (by decide) start⟩

/-- After a tab there are five spaces in both ports. -/
theorem tab_sent_as_spaces :
    ¬ ∀ (calls : List Call) (out last : Output), puts calls out = some last →
      last.serial = out.serial ++ sent calls ∧ last.lpt = out.lpt ++ sent calls := by
  intro claim
  let tab : Call := ⟨0x09, .init⟩
  let out : Output := ⟨[], [], ⟨fun _ => 0, 0, 0⟩⟩
  obtain ⟨last, done⟩ : ∃ last, puts [tab] out = some last :=
    puts_isSome [tab] ⟨by decide, Page.shows_ofBuffer (by decide) (by decide)⟩
  have taken := (claim [tab] out last done).1
  rw [(puts_sends done).serial] at taken
  exact absurd taken (by decide)

end Output

end Jos64.Console
