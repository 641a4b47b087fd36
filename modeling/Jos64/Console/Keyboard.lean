import Jos64.Byte

/-!
# The keyboard driver

`kbdProcData` turns one scan code into a character.  The two input ports of the
controller are represented by the list of scan codes that wait behind them: the
status port reports data while the list is nonempty, and the data port takes
its head.  The shift state is the function's static variable.
-/

namespace Jos64.Console

/-! ## Special keycodes and shift bits -/

def no : Byte := 0
def keyHome : Byte := 0xE0
def keyEnd : Byte := 0xE1
def keyUp : Byte := 0xE2
def keyDn : Byte := 0xE3
def keyLf : Byte := 0xE4
def keyRt : Byte := 0xE5
def keyPgup : Byte := 0xE6
def keyPgdn : Byte := 0xE7
def keyIns : Byte := 0xE8
def keyDel : Byte := 0xE9

def shiftBit : BitVec 32 := 1 <<< 0
def ctl : BitVec 32 := 1 <<< 1
def alt : BitVec 32 := 1 <<< 2
def capslock : BitVec 32 := 1 <<< 3
def numlock : BitVec 32 := 1 <<< 4
def scrolllock : BitVec 32 := 1 <<< 5
def e0esc : BitVec 32 := 1 <<< 6

/-! ## Tables -/

def shiftcode (data : Byte) : BitVec 32 :=
  match data.toNat with
  | 0x1D => ctl
  | 0x2A => shiftBit
  | 0x36 => shiftBit
  | 0x38 => alt
  | 0x9D => ctl
  | 0xB8 => alt
  | _ => 0

def togglecode (data : Byte) : BitVec 32 :=
  match data.toNat with
  | 0x3A => capslock
  | 0x45 => numlock
  | 0x46 => scrolllock
  | _ => 0

/-- The designated entries that all three maps share. -/
def arrowKeys (data : Byte) : Byte :=
  match data.toNat with
  | 0xC8 => keyUp
  | 0xC9 => keyPgup
  | 0xCB => keyLf
  | 0xCD => keyRt
  | 0xCF => keyEnd
  | 0xD0 => keyDn
  | 0xD1 => keyPgdn
  | 0xD2 => keyIns
  | 0xD3 => keyDel
  | _ => no

/-- The entries of `normalmap` before its designated ones. -/
def normalRow : List Byte :=
  [no,       0x1B,     chr '1',  chr '2',  chr '3',  chr '4',  chr '5',  chr '6',
   chr '7',  chr '8',  chr '9',  chr '0',  chr '-',  chr '=',  0x08,     0x09,
   chr 'q',  chr 'w',  chr 'e',  chr 'r',  chr 't',  chr 'y',  chr 'u',  chr 'i',
   chr 'o',  chr 'p',  chr '[',  chr ']',  0x0A,     no,       chr 'a',  chr 's',
   chr 'd',  chr 'f',  chr 'g',  chr 'h',  chr 'j',  chr 'k',  chr 'l',  chr ';',
   0x27,     0x60,     no,       0x5C,     chr 'z',  chr 'x',  chr 'c',  chr 'v',
   chr 'b',  chr 'n',  chr 'm',  chr ',',  chr '.',  chr '/',  no,       chr '*',
   no,       chr ' ',  no,       no,       no,       no,       no,       no,
   no,       no,       no,       no,       no,       no,       no,       chr '7',
   chr '8',  chr '9',  chr '-',  chr '4',  chr '5',  chr '6',  chr '+',  chr '1',
   chr '2',  chr '3',  chr '0',  chr '.']

/-- The entries of `shiftmap` before its designated ones. -/
def shiftRow : List Byte :=
  [no,       0x1B,     chr '!',  chr '@',  chr '#',  chr '$',  chr '%',  chr '^',
   chr '&',  chr '*',  chr '(',  chr ')',  chr '_',  chr '+',  0x08,     0x09,
   chr 'Q',  chr 'W',  chr 'E',  chr 'R',  chr 'T',  chr 'Y',  chr 'U',  chr 'I',
   chr 'O',  chr 'P',  0x7B,     0x7D,     0x0A,     no,       chr 'A',  chr 'S',
   chr 'D',  chr 'F',  chr 'G',  chr 'H',  chr 'J',  chr 'K',  chr 'L',  chr ':',
   0x22,     chr '~',  no,       chr '|',  chr 'Z',  chr 'X',  chr 'C',  chr 'V',
   chr 'B',  chr 'N',  chr 'M',  chr '<',  chr '>',  chr '?',  no,       chr '*',
   no,       chr ' ',  no,       no,       no,       no,       no,       no,
   no,       no,       no,       no,       no,       no,       no,       chr '7',
   chr '8',  chr '9',  chr '-',  chr '4',  chr '5',  chr '6',  chr '+',  chr '1',
   chr '2',  chr '3',  chr '0',  chr '.']

/-- The macro `C(x)`, stored in a `uint8_t`. -/
def control (c : Char) : Byte := chr c - chr '@'

/-- The entries of `ctlmap` before its designated ones. -/
def ctlRow : List Byte :=
  [no,           no,           no,           no,
   no,           no,           no,           no,
   no,           no,           no,           no,
   no,           no,           no,           no,
   control 'Q',  control 'W',  control 'E',  control 'R',
   control 'T',  control 'Y',  control 'U',  control 'I',
   control 'O',  control 'P',  no,           no,
   0x0D,         no,           control 'A',  control 'S',
   control 'D',  control 'F',  control 'G',  control 'H',
   control 'J',  control 'K',  control 'L',  no,
   no,           no,           no,           chr '\\' - chr '@',
   control 'Z',  control 'X',  control 'C',  control 'V',
   control 'B',  control 'N',  control 'M',  no,
   no,           control '/',  no,           no]

def normalmap (data : Byte) : Byte :=
  match data.toNat with
  | 0xC7 => keyHome
  | 0x9C => 0x0A
  | 0xB5 => chr '/'
  | code => normalRow.getD code (arrowKeys data)

def shiftmap (data : Byte) : Byte :=
  match data.toNat with
  | 0xC7 => keyHome
  | 0x9C => 0x0A
  | 0xB5 => chr '/'
  | code => shiftRow.getD code (arrowKeys data)

def ctlmap (data : Byte) : Byte :=
  match data.toNat with
  | 0x97 => keyHome
  | 0xB5 => control '/'
  | code => ctlRow.getD code (arrowKeys data)

/-- The table `charcode`, indexed by the two low shift bits. -/
def charcode (index : BitVec 32) : Byte → Byte :=
  match index.toNat with
  | 0 => normalmap
  | 1 => shiftmap
  | _ => ctlmap

/-! ## One scan code -/

/-- The keyboard controller together with the static state of its driver.
`reboots` counts the Ctrl-Alt-Del sequences acted on, each of which prints
"Rebooting!" and asks the controller for a reset. -/
structure Kbd where
  pending : List Byte
  shift : BitVec 32
  reboots : Nat

/-- Swap the case of a letter, as `kbdProcData` does under Caps Lock. -/
def swapCase (c : Int) : Int :=
  if 0x61 ≤ c ∧ c ≤ 0x7A then c + (0x41 - 0x61)
  else if 0x41 ≤ c ∧ c ≤ 0x5A then c + (0x61 - 0x41)
  else c

/-- The character of a pressed key, with its effect on the shift state.
`data` is the make code after the treatment of a preceding E0 escape. -/
def keyPressed (kbd : Kbd) (data : Byte) : Int × Kbd :=
  let shift := (kbd.shift ||| shiftcode data) ^^^ togglecode data
  let c : Int := (charcode (shift &&& (ctl ||| shiftBit)) data).toNat
  let c := if shift &&& capslock ≠ 0 then swapCase c else c
  -- Ctrl-Alt-Del: reboot.
  let reboot := ~~~shift &&& (ctl ||| alt) = 0 ∧ c = keyDel.toNat
  (c, { kbd with shift, reboots := kbd.reboots + if reboot then 1 else 0 })

/-- Get data from the keyboard: the finished character if there is one, else
0, and -1 if no data is waiting. -/
def kbdProcData (kbd : Kbd) : Int × Kbd :=
  match kbd.pending with
  | [] => (-1, kbd)
  | data :: pending =>
      if data = 0xE0 then
        (0, { kbd with pending, shift := kbd.shift ||| e0esc })
      else if data &&& 0x80 ≠ 0 then
        -- Key released.
        let data := if kbd.shift &&& e0esc ≠ 0 then data else data &&& 0x7F
        (0, { kbd with pending, shift := kbd.shift &&& ~~~(shiftcode data ||| e0esc) })
      else if kbd.shift &&& e0esc ≠ 0 then
        -- Last character was an E0 escape.
        keyPressed { kbd with pending, shift := kbd.shift &&& ~~~e0esc } (data ||| 0x80)
      else
        keyPressed { kbd with pending } data

theorem swapCase_range {c : Int} (low : 0 ≤ c) (high : c < 256) :
    0 ≤ swapCase c ∧ swapCase c < 256 := by
  unfold swapCase
  split
  · omega
  · split <;> omega

@[simp]
theorem keyPressed_pending (kbd : Kbd) (data : Byte) :
    (keyPressed kbd data).2.pending = kbd.pending :=
  rfl

theorem keyPressed_range (kbd : Kbd) (data : Byte) :
    0 ≤ (keyPressed kbd data).1 ∧ (keyPressed kbd data).1 < 256 := by
  have table_range (index : BitVec 32) :
      (0 : Int) ≤ (charcode index data).toNat ∧ ((charcode index data).toNat : Int) < 256 :=
    ⟨Int.natCast_nonneg _, by exact_mod_cast (charcode index data).isLt⟩
  simp only [keyPressed]
  split
  · exact swapCase_range (table_range _).1 (table_range _).2
  · exact table_range _

/-- Every delivery consumes a scan code. -/
theorem kbdProcData_pending {kbd : Kbd} (delivered : (kbdProcData kbd).1 ≠ -1) :
    (kbdProcData kbd).2.pending.length < kbd.pending.length := by
  unfold kbdProcData at delivered ⊢
  cases waiting : kbd.pending with
  | nil => simp [waiting] at delivered
  | cons data pending =>
      simp only [List.length_cons]
      split_ifs <;> simp

/-- Every delivery is a character code of one byte. -/
theorem kbdProcData_range {kbd : Kbd} (delivered : (kbdProcData kbd).1 ≠ -1) :
    0 ≤ (kbdProcData kbd).1 ∧ (kbdProcData kbd).1 < 256 := by
  unfold kbdProcData at delivered ⊢
  cases waiting : kbd.pending with
  | nil => simp [waiting] at delivered
  | cons data pending =>
      dsimp only
      split_ifs
      all_goals first
        | exact ⟨le_refl _, by norm_num⟩
        | exact keyPressed_range _ _

end Jos64.Console
