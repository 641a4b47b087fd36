import Jos64.Boot.Main
import Jos64.Bootstrap.Correctness
import Jos64.Console.Input.Overrun
import Jos64.Console.Keyboard.Shift
import Jos64.Console.Output.Memory
import Jos64.Console.Printf.Count
import Jos64.Console.Readline.Echo
import Jos64.Console.Transcript.Correctness
import Jos64.Console.Transcript.Ports
import Jos64.Debuginfo.Lines
import Jos64.Debuginfo.Overrun
import Jos64.Dwarf.Abbrev.Overrun
import Jos64.Dwarf.Abbrev.Tables
import Jos64.Dwarf.Die.Indirect
import Jos64.Dwarf.FixedWidth
import Jos64.Dwarf.Lookup.Leftover
import Jos64.Dwarf.Unit.Iteration
import Jos64.Dwarf.Walk.Correctness
import Jos64.Elf.Bounds
import Jos64.Format.Echo
import Jos64.Format.EscapeColors
import Jos64.Format.Field
import Jos64.Frame.Unwind
import Jos64.Leb.Roundtrip
import Jos64.Lineno.Cursor
import Jos64.Lineno.Division
import Jos64.Lineno.Skipped
import Jos64.Monitor.Devices
import Jos64.Monitor.Init
import Jos64.Strings.Compare
import Jos64.Strings.Copy
import Jos64.Strings.Memory.Correctness
import Jos64.Strings.Search
import Jos64.Strings.Strtol.Grammar
