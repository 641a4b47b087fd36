import Jos64.Format.Compose
import Jos64.Loop.Core

/-!
# Messages

The kernel prints its messages with `cprintf` calls whose arguments are in order.  What
such a call prints is given for the directives that the messages are made of.
-/

namespace Jos64.Console

open Format Loop

/-! ## Arguments -/

/-- The slots of the arguments that a call passes. -/
def slots (values : List (BitVec 64)) : Args :=
  fun n => values.getD n 0

/-- An argument of 32 bits, whose register it fills up with zeros. -/
def slot32 (value : BitVec 32) : BitVec 64 :=
  value.setWidth 64

/-- A call of `cprintf` whose value is not used. -/
def print (mem : Mem) (log : Log) (fmt : List Byte) (values : List (BitVec 64)) : Exec Log :=
  (Exec.ofOption (cprintf mem log fmt (slots values))).bind fun (_, log) => .done log

theorem print_eq {mem : Mem} {values : List (BitVec 64)} {ap : Nat} {fmt text : List Byte}
    {log : Log} (prints : PrintsHere mem (slots values) 0 ap fmt text) :
    print mem log fmt values = .done (log.text text) := by
  rw [print, cprintf_of_printsHere prints]
  rfl

/-- A message without directives. -/
theorem print_str {mem : Mem} {values : List (BitVec 64)} {s : String} {log : Log}
    (plain : s.toList.all isPlain) : print mem log (str s) values = .done (log.text (str s)) :=
  print_eq (printsHere_str plain)

/-! ## Numbers -/

/-- Hexadecimal digits, with zeros in front up to a width. -/
def hexDigits (w : Nat) (value : BitVec 64) : List Byte :=
  List.replicate (w - (numeral 16 value.toNat).length) (chr '0') ++ numeral 16 value.toNat

section

variable {mem : Mem} {args : Args} {ap : Nat}

/-- The directive `%0wx`. -/
theorem printsHere_hex {w : Nat} (pos : 1 ≤ w) (small : w < 2 ^ 31) :
    PrintsHere mem args ap (ap + 1) (chr '%' :: chr '0' :: (numeral 10 w ++ [chr 'x']))
      (hexDigits w (args ap)) := by
  have missing : ((w : Int) - (numeral 16 (args ap).toNat).length).toNat =
      w - (numeral 16 (args ap).toNat).length := by omega
  have printed_eq : padded ⟨chr '0', w, -1, 0, false⟩ .x (args ap) = hexDigits w (args ap) := by
    change [] ++ (List.replicate ((w : Int) - (numeral 16 (args ap).toNat).length).toNat
      (chr '0') ++ numeral 16 (args ap).toNat) = _
    rw [missing]
    rfl
  have given : Spelling.decimal.Given w args ap := ⟨pos, small⟩
  rw [← printed_eq]
  exact printsHere_number .zero given small 0 .x

theorem printsHere_hex8 : PrintsHere mem args ap (ap + 1) (str "%08x") (hexDigits 8 (args ap)) := by
  have spelled : str "%08x" = chr '%' :: chr '0' :: (numeral 10 8 ++ [chr 'x']) := by
    rw [numeral_of_lt (by decide)]
    decide
  rw [spelled]
  exact printsHere_hex (by decide) (by decide)

theorem printsHere_hex16 :
    PrintsHere mem args ap (ap + 1) (str "%016x") (hexDigits 16 (args ap)) := by
  have spelled : str "%016x" = chr '%' :: chr '0' :: (numeral 10 16 ++ [chr 'x']) := by
    rw [numeral, Numeral.digits_of_le (by decide) (by decide), Numeral.digits_of_lt (by decide)]
    decide
  rw [spelled]
  exact printsHere_hex (by decide) (by decide)

/-- An `int` that is not negative. -/
theorem printsHere_int {n : Nat} (small : n < 2 ^ 31)
    (slot_eq : args ap = slot32 (BitVec.ofNat 32 n)) :
    PrintsHere mem args ap (ap + 1) (str "%d") (numeral 10 n) := by
  have value_eq : (args ap).toInt = n := by
    rw [slot_eq, slot32, BitVec.toInt_eq_toNat_of_lt, BitVec.toNat_setWidth, BitVec.toNat_ofNat]
    · omega
    · rw [BitVec.toNat_setWidth, BitVec.toNat_ofNat]
      omega
  rw [← signedNumeral_natCast, ← value_eq]
  exact printsHere_d mem args ap

end

end Jos64.Console
