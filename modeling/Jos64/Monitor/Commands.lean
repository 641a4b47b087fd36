import Jos64.Console.Readline.Core
import Jos64.Monitor.Backtrace
import Jos64.Monitor.Core

/-!
# The commands

What the commands of the table print, and what the monitor prints for a command line
that names none of them.
-/

namespace Jos64.Monitor

open Loop Format Console

/-! ## The kernel in memory -/

/-- The address lies in the buffer of `readline`. -/
def InBuffer (buf address : Nat) : Prop :=
  buf ≤ address ∧ address < buf + bufLen

instance (buf address : Nat) : Decidable (InBuffer buf address) :=
  inferInstanceAs (Decidable (_ ∧ _))

namespace Func

def name : Func → List Byte
  | monHelp => str "help"
  | monKerninfo => str "kerninfo"
  | monBacktrace => str "backtrace"

/-- The field `desc` of the table. -/
def desc : Func → List Byte
  | monHelp => str "Display this list of commands"
  | monKerninfo => str "Display information about the kernel"
  | monBacktrace => str "Backtrace"

end Func

/-- The functions in the order of the table. -/
def funcs : List Func :=
  [.monHelp, .monKerninfo, .monBacktrace]

theorem commands_eq : commands = funcs.map fun func => ⟨func.name, func⟩ :=
  rfl

/-- The strings outside the buffer of `readline`, where that is, the pointers to the prompt
and to the strings of the table, and the symbols of the linker. -/
structure Image where
  mem : Mem
  buf : Nat
  buf_pos : 0 < buf
  buf_le : buf + bufLen ≤ 2 ^ 64
  apart : ∀ err message, errorText err = some message →
    ¬ InBuffer buf (mem.errorString err).toNat
  prompt : BitVec 64
  prompt_text : pointed mem prompt = str "K> "
  name : Func → BitVec 64
  name_text : ∀ func, pointed mem (name func) = func.name
  desc : Func → BitVec 64
  desc_text : ∀ func, pointed mem (desc func) = func.desc
  start : BitVec 64
  entry : BitVec 64
  etext : BitVec 64
  edata : BitVec 64
  limit : BitVec 64
  size_small : (limit - entry).toNat < 2 ^ 63 - 1024

/-! ## `mon_help` -/

section

variable (image : Image)

/-- `for (i = 0; i < NCOMMANDS; i++)`, over the commands that are left. -/
def helpLoop : List Command → Log → Exec Log
  | [], log => .done log
  | command :: more, log =>
      (print image.mem log (str "%s - %s\n")
        [image.name command.func, image.desc command.func]).bind fun log => helpLoop more log

def monHelp (log : Log) : Exec (Int × Log) :=
  (helpLoop image commands log).bind fun log => .done (0, log)

/-- A line for each command. -/
def helpText : List Byte :=
  funcs.flatMap fun func => func.name ++ str " - " ++ func.desc ++ str "\n"

theorem helpLoop_eq (functions : List Func) (log : Log) :
    helpLoop image (functions.map fun func => ⟨func.name, func⟩) log =
      .done (log.text (functions.flatMap fun func =>
        func.name ++ str " - " ++ func.desc ++ str "\n")) := by
  induction functions generalizing log with
  | nil => rfl
  | cons func more ih =>
      have short : ∀ func : Func, func.name.length < 2 ^ 31 ∧ func.desc.length < 2 ^ 31 := by
        intro func
        cases func with
        | _ => decide
      have line : print image.mem log (str "%s - %s\n") [image.name func, image.desc func] =
          .done (log.text (func.name ++ str " - " ++ func.desc ++ str "\n")) := by
        have spelled : str "%s - %s\n" = str "%s" ++ str " - " ++ str "%s" ++ str "\n" := by
          simp only [← str_append, String.reduceAppend]
        rw [spelled, ← image.name_text func, ← image.desc_text func]
        exact print_eq ((((printsHere_s (by
          change (pointed image.mem (image.name func)).length < _
          rw [image.name_text]
          exact (short func).1)).append (printsHere_str (by decide))).append (printsHere_s (by
          change (pointed image.mem (image.desc func)).length < _
          rw [image.desc_text]
          exact (short func).2))).append (printsHere_str (by decide)))
      rw [List.map_cons, helpLoop, line, Exec.done_bind, ih, ← State.text_append, List.flatMap_cons]

theorem monHelp_eq (log : Log) : monHelp image log = .done (0, log.text helpText) := by
  rw [monHelp, commands_eq, helpLoop_eq, Exec.done_bind]
  rfl

/-! ## `mon_kerninfo` -/

/-- `KERNBASE` as a number of 64 bits. -/
def base64 : BitVec 64 :=
  BitVec.ofNat 64 Debuginfo.kernbase

/-- `ROUNDUP(size, 1024) / 1024`, where the size is signed and rounded as if it were not. -/
def kilobytes (size : BitVec 64) : BitVec 64 :=
  let above := size + 1024 - 1
  (above - above % 1024).sdiv 1024

/-- The size in units of 1024 bytes, rounded up. -/
theorem kilobytes_eq {size : BitVec 64} (small : size.toNat < 2 ^ 63 - 1024) :
    (kilobytes size).toInt = ((size.toNat + 1023) / 1024 : Nat) := by
  have above_eq : (size + 1024 - 1).toNat = size.toNat + 1023 := by
    rw [BitVec.toNat_sub, BitVec.toNat_add]
    change (2 ^ 64 - 1 + (size.toNat + 1024) % 2 ^ 64) % 2 ^ 64 = _
    omega
  have rounded_eq : (size + 1024 - 1 - (size + 1024 - 1) % 1024).toNat =
      size.toNat + 1023 - (size.toNat + 1023) % 1024 := by
    have remainder_eq : ((size + 1024 - 1) % 1024).toNat = (size.toNat + 1023) % 1024 := by
      rw [BitVec.toNat_umod, above_eq]
      rfl
    have remainder_le : (size + 1024 - 1) % 1024 ≤ size + 1024 - 1 := by
      rw [BitVec.le_def, remainder_eq, above_eq]
      exact Nat.mod_le _ _
    rw [BitVec.toNat_sub_of_le remainder_le, above_eq, remainder_eq]
  have unsigned : (size + 1024 - 1 - (size + 1024 - 1) % 1024).toInt =
      (size.toNat + 1023 - (size.toNat + 1023) % 1024 : Nat) := by
    rw [BitVec.toInt_eq_toNat_of_lt (by rw [rounded_eq]; omega), rounded_eq]
  have unit_eq : (1024 : BitVec 64).toInt = (1024 : Nat) := by decide
  have exact_div : (size.toNat + 1023 - (size.toNat + 1023) % 1024) / 1024 =
      (size.toNat + 1023) / 1024 := by omega
  rw [kilobytes, BitVec.toInt_sdiv_of_ne_or_ne _ _ (.inr (by decide)), unsigned, unit_eq,
    ← Int.ofNat_tdiv, exact_div]

/-- The calls of `cprintf` in `mon_kerninfo`. -/
def monKerninfo (log : Log) : Exec (Int × Log) :=
  (print image.mem log (str "Special kernel symbols:\n") []).bind fun log =>
  (print image.mem log (str "  _start                  %08x (phys)\n") [image.start]).bind
    fun log =>
  (print image.mem log (str "  entry  %08x (virt)  %08x (phys)\n")
    [image.entry, image.entry - base64]).bind fun log =>
  (print image.mem log (str "  etext  %08x (virt)  %08x (phys)\n")
    [image.etext, image.etext - base64]).bind fun log =>
  (print image.mem log (str "  edata  %08x (virt)  %08x (phys)\n")
    [image.edata, image.edata - base64]).bind fun log =>
  (print image.mem log (str "  end    %08x (virt)  %08x (phys)\n")
    [image.limit, image.limit - base64]).bind fun log =>
  (print image.mem log (str "Kernel executable memory footprint: %dKB\n")
    [kilobytes (image.limit - image.entry)]).bind fun log =>
  .done (0, log)

/-- The line of a symbol. -/
def symbolText (title : List Byte) (address : BitVec 64) : List Byte :=
  title ++ hexDigits 8 address ++ str " (virt)  " ++ hexDigits 8 (address - base64) ++
    str " (phys)\n"

def kerninfoText : List Byte :=
  str "Special kernel symbols:\n" ++
  (str "  _start                  " ++ hexDigits 8 image.start ++ str " (phys)\n") ++
  symbolText (str "  entry  ") image.entry ++ symbolText (str "  etext  ") image.etext ++
  symbolText (str "  edata  ") image.edata ++ symbolText (str "  end    ") image.limit ++
  (str "Kernel executable memory footprint: " ++
    numeral 10 (((image.limit - image.entry).toNat + 1023) / 1024) ++ str "KB\n")

variable {image}

theorem print_symbol {mem : Mem} {log : Log} {fmt : String} {address : BitVec 64}
    (title : String) (plain : title.toList.all isPlain)
    (spelled : fmt = title ++ "%08x" ++ " (virt)  " ++ "%08x" ++ " (phys)\n") :
    print mem log (str fmt) [address, address - base64] =
      .done (log.text (symbolText (str title) address)) := by
  rw [spelled]
  simp only [str_append]
  exact print_eq (((((printsHere_str plain).append printsHere_hex8).append
    (printsHere_str (by decide))).append printsHere_hex8).append (printsHere_str (by decide)))

theorem monKerninfo_eq (log : Log) :
    monKerninfo image log = .done (0, log.text (kerninfoText image)) := by
  have start_line (log : Log) :
      print image.mem log (str "  _start                  %08x (phys)\n") [image.start] =
        .done (log.text (str "  _start                  " ++ hexDigits 8 image.start ++
          str " (phys)\n")) := by
    have spelled : str "  _start                  %08x (phys)\n" =
      str "  _start                  " ++ str "%08x" ++ str " (phys)\n" := by
      simp only [← str_append, String.reduceAppend]
    rw [spelled]
    exact print_eq (((printsHere_str (by decide)).append printsHere_hex8).append
      (printsHere_str (by decide)))
  have footprint (log : Log) :
      print image.mem log (str "Kernel executable memory footprint: %dKB\n")
        [kilobytes (image.limit - image.entry)] =
        .done (log.text (str "Kernel executable memory footprint: " ++
          numeral 10 (((image.limit - image.entry).toNat + 1023) / 1024) ++ str "KB\n")) := by
    have spelled : str "Kernel executable memory footprint: %dKB\n" =
      str "Kernel executable memory footprint: " ++ str "%d" ++ str "KB\n" := by
      simp only [← str_append, String.reduceAppend]
    rw [← signedNumeral_natCast, ← kilobytes_eq image.size_small, spelled]
    exact print_eq (((printsHere_str (by decide)).append (printsHere_d _ _ _)).append
      (printsHere_str (by decide)))
  rw [monKerninfo, print_str (by decide), Exec.done_bind, start_line, Exec.done_bind,
    print_symbol "  entry  " (by decide) (by decide), Exec.done_bind,
    print_symbol "  etext  " (by decide) (by decide), Exec.done_bind,
    print_symbol "  edata  " (by decide) (by decide), Exec.done_bind,
    print_symbol "  end    " (by decide) (by decide), Exec.done_bind, footprint,
    Exec.done_bind]
  simp only [kerninfoText, State.text_append]

end

end Jos64.Monitor
