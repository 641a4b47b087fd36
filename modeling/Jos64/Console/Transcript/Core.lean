import Jos64.Console.Output.Core
import Jos64.Console.Printf

/-!
# What the console shows of a log

`cputchar` hands each character of the log to `cons_putc`.  The two ports take
them all; the screen takes those that were printed outside an escape sequence.
-/

namespace Jos64.Console

open Jos64.Format

namespace Output

/-- The calls of `cons_putc` that some calls of `cputchar` make. -/
def puts (calls : List Call) (out : Output) : Option Output :=
  calls.foldlM (fun out call => consPutc call.color call.ch out) out

/-- The console with other bytes written to its ports. -/
def withPorts (serial lpt : List Byte) (out : Output) : Output :=
  { out with serial, lpt }

/-- The characters that the screen takes, each with its `color_flag`. -/
def shown (calls : List Call) : List (BitVec 32 × BitVec 32) :=
  (calls.filter fun call => !call.color.parsing).map fun call => (call.color.flag, call.ch)

/-- The bytes that the ports take. -/
def sent (calls : List Call) : List Byte :=
  calls.map fun call => lowByte call.ch

theorem sent_cons (call : Call) (calls : List Call) :
    sent (call :: calls) = lowByte call.ch :: sent calls :=
  rfl

variable {out : Output} {serial lpt : List Byte}

theorem withPorts_screen (out : Output) : (out.withPorts serial lpt).screen = out.screen :=
  rfl

theorem onScreen_withPorts (op : Screen → Option Screen) (out : Output) :
    (out.withPorts serial lpt).onScreen op = (out.onScreen op).map (withPorts serial lpt) := by
  rw [onScreen, onScreen, Option.map_map]
  rfl

theorem onScreen_bind (out : Output) (op op' : Screen → Option Screen) :
    ((out.onScreen op).bind fun out => out.onScreen op') =
      out.onScreen fun screen => (op screen).bind op' := by
  rw [onScreen, onScreen]
  cases done : op out.screen with
  | none => rw [Option.map_none, Option.bind_none, Option.bind_none, Option.map_none]
  | some screen => rw [Option.map_some, Option.bind_some, Option.bind_some, onScreen]

/-- The screen driver does not look at the ports, and writes to them only for a
tab. -/
theorem cgaPutc_withPorts (color : Color) {c : BitVec 32} (not_tab : lowByte c ≠ 0x09)
    (out : Output) :
    cgaPutc color c (out.withPorts serial lpt) =
      (cgaPutc color c out).map (withPorts serial lpt) := by
  rw [cgaPutc, cgaPutc]
  simp only [lowByte_attributed, Option.bind_eq_bind, onScreen_bind, withPorts_screen]
  split
  · rfl
  split
  · split
    · exact onScreen_withPorts _ out
    · exact onScreen_withPorts _ out
  split
  · exact onScreen_withPorts _ { out with screen.crtPos := _ }
  split
  · exact onScreen_withPorts _ { out with screen.crtPos := _ }
  · exact onScreen_withPorts _ out

/-- The screen driver alone, over several characters. -/
theorem cgaRun_withPorts {calls : List (BitVec 32 × BitVec 32)}
    (no_tab : ∀ call ∈ calls, lowByte call.2 ≠ 0x09) (out : Output) :
    cgaRun calls (out.withPorts serial lpt) =
      (cgaRun calls out).map (withPorts serial lpt) := by
  induction calls generalizing out with
  | nil => rfl
  | cons call calls ih =>
      have rest := ih fun later later_mem => no_tab later (List.mem_cons_of_mem call later_mem)
      rw [cgaRun, cgaRun, List.foldlM_cons, List.foldlM_cons,
        cgaPutc_withPorts _ (no_tab call List.mem_cons_self)]
      cases cgaPutc ⟨call.1, false⟩ call.2 out with
      | none => rfl
      | some next => exact rest next

/-- Without a tab the ports take the whole log, and the screen takes what it is
shown. -/
theorem puts_eq_cgaRun {calls : List Call}
    (no_tab : ∀ call ∈ shown calls, lowByte call.2 ≠ 0x09) (out : Output) :
    puts calls out = (cgaRun (shown calls) out).map
      (withPorts (out.serial ++ sent calls) (out.lpt ++ sent calls)) := by
  induction calls generalizing out with
  | nil =>
      change some out = some (out.withPorts (out.serial ++ []) (out.lpt ++ []))
      rw [List.append_nil, List.append_nil]
      rfl
  | cons call calls ih =>
      let serial := out.serial ++ [lowByte call.ch]
      let lpt := out.lpt ++ [lowByte call.ch]
      have rest (visible : ∀ later ∈ shown calls, lowByte later.2 ≠ 0x09) (next : Output) :
          puts calls (next.withPorts serial lpt) =
            (cgaRun (shown calls) next).map (withPorts (out.serial ++ sent (call :: calls))
              (out.lpt ++ sent (call :: calls))) := by
        rw [ih visible, cgaRun_withPorts visible, Option.map_map, sent_cons,
          List.append_cons out.serial, List.append_cons out.lpt]
        rfl
      have first : consPutc call.color call.ch out =
          cgaPutc call.color call.ch (out.withPorts serial lpt) := by
        rw [consPutc]
        rfl
      rw [puts, List.foldlM_cons, first]
      by_cases parsing : call.color.parsing
      · -- the screen takes nothing
        have hidden : shown (call :: calls) = shown calls := by
          rw [shown, List.filter_cons_of_neg (by simp [parsing])]
          rfl
        rw [hidden] at no_tab ⊢
        rw [cgaPutc, if_pos parsing]
        exact rest no_tab out
      · have seen : shown (call :: calls) = (call.color.flag, call.ch) :: shown calls := by
          rw [shown, List.filter_cons_of_pos (by simp [parsing])]
          rfl
        have color_eq : call.color = ⟨call.color.flag, false⟩ := by
          rw [← Bool.eq_false_of_not_eq_true parsing]
        rw [seen] at no_tab ⊢
        rw [cgaPutc_withPorts _ (no_tab _ List.mem_cons_self), cgaRun, List.foldlM_cons, color_eq]
        cases cgaPutc ⟨call.color.flag, false⟩ call.ch out with
        | none => rfl
        | some next =>
            exact rest (fun later later_mem => no_tab later (List.mem_cons_of_mem _ later_mem)) next

end Output

end Jos64.Console
