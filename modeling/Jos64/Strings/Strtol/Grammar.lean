import Jos64.Strings.Core
import Jos64.Strings.Strtol

/-!
# The grammar of numbers

A number is an optional sign and digits, perhaps behind `0x`, with blanks in
front of it.  `strtol` takes a `0x` for a prefix whether a digit follows or not,
and if there are no digits at all it says that the number ends behind the blanks
and the sign instead of before them.
-/

namespace Jos64.Strings

open Jos64.Console Jos64.Format

/-! ## Reading through a pointer -/

/-- The loop over the blanks. -/
def skipBlanks : List Byte → Option (List Byte)
  | [] => none
  | c :: s => if c = chr ' ' ∨ c = chr '\t' then skipBlanks s else some (c :: s)

def readSign : List Byte → Option (Bool × List Byte)
  | [] => none
  | c :: s =>
      if c = chr '+' then some (false, s)
      else if c = chr '-' then some (true, s)
      else some (false, c :: s)

/-- `s[0] == '0' && s[1] == 'x'` -/
def atHexPrefix (s : List Byte) : Option Bool :=
  s[0]?.bind fun first =>
    if first = chr '0' then s[1]?.map fun second => decide (second = chr 'x') else some false

def readBase (base : Int) (s : List Byte) : Option (Int × List Byte) :=
  (if base = 0 ∨ base = 16 then atHexPrefix s else some false).bind fun hex =>
    if hex then some (16, s.drop 2)
    else if base = 0 then
      s[0]?.map fun first => if first = chr '0' then (8, s.drop 1) else (10, s)
    else some (base, s)

/-- The loop over the digits. -/
def readDigits (base : Int) (val : BitVec 64) : List Byte → Option (BitVec 64 × List Byte)
  | [] => none
  | c :: s =>
      match digitOf c with
      | none => some (val, c :: s)
      | some dig =>
          if base ≤ dig then some (val, c :: s)
          else readDigits base (val * BitVec.ofInt 64 base + BitVec.ofNat 64 dig) s

/-- `strtol` through a pointer: the value, and where `*endptr` points. -/
def strtolAt (s : List Byte) (base : Int) : Option (BitVec 64 × List Byte) :=
  (skipBlanks s).bind fun s =>
    (readSign s).bind fun (neg, s) =>
      (readBase base s).bind fun (base, s) =>
        (readDigits base 0 s).map fun (val, s) => (if neg then -val else val, s)

/-! ## The bytes that are read -/

theorem skipBlanks_terminated (s : List Byte) :
    skipBlanks (s ++ [0]) =
      some ((s.dropWhile fun c => c = chr ' ' ∨ c = chr '\t') ++ [0]) := by
  induction s with
  | nil => rfl
  | cons c s ih =>
      rw [List.cons_append, skipBlanks, List.dropWhile_cons]
      by_cases blank : c = chr ' ' ∨ c = chr '\t'
      · rw [if_pos blank, if_pos (by simpa using blank), ih]
      · rw [if_neg blank, if_neg (by simpa using blank)]
        rfl

theorem readSign_terminated (s : List Byte) :
    readSign (s ++ [0]) = some ((strtolSign s).1, (strtolSign s).2 ++ [0]) := by
  cases s with
  | nil => rfl
  | cons c s =>
      have plus : str "+" = [chr '+'] := by decide
      have minus : str "-" = [chr '-'] := by decide
      by_cases positive : c = chr '+'
      · subst positive
        rfl
      · by_cases negative : c = chr '-'
        · subst negative
          rfl
        · simp [readSign, strtolSign, plus, minus, positive, negative]

theorem atHexPrefix_terminated (s : List Byte) :
    atHexPrefix (s ++ [0]) = some (decide (s.take 2 = str "0x")) := by
  have text : str "0x" = [chr '0', chr 'x'] := by decide
  rw [text]
  cases s with
  | nil => rfl
  | cons first s =>
      cases s with
      | nil =>
          by_cases zero : first = chr '0'
          · subst zero
            rfl
          · simp [atHexPrefix, zero]
      | cons second s =>
          by_cases zero : first = chr '0'
          · simp [atHexPrefix, zero]
          · simp [atHexPrefix, zero]

theorem readBase_terminated (base : Int) (s : List Byte) :
    readBase base (s ++ [0]) = some ((strtolBase base s).1, (strtolBase base s).2 ++ [0]) := by
  rw [readBase, strtolBase, atHexPrefix_terminated]
  by_cases hex : (base = 0 ∨ base = 16) ∧ s.take 2 = str "0x"
  · have two_le : 2 ≤ s.length := by
      have taken := congrArg List.length hex.2
      have text : (str "0x").length = 2 := by decide
      rw [List.length_take, text] at taken
      omega
    rw [if_pos hex.1, Option.bind_some, decide_eq_true hex.2, if_pos rfl, if_pos hex,
      List.drop_append_of_le_length two_le]
  · have no_mark : (if base = 0 ∨ base = 16 then some (decide (s.take 2 = str "0x"))
        else some false) = some false := by
      by_cases either : base = 0 ∨ base = 16
      · rw [if_pos either, decide_eq_false fun taken => hex ⟨either, taken⟩]
      · rw [if_neg either]
    rw [no_mark, Option.bind_some, if_neg Bool.false_ne_true, if_neg hex]
    by_cases octal : base = 0
    · have zero : str "0" = [chr '0'] := by decide
      cases s with
      | nil => simp [octal, zero, chr]
      | cons first s =>
          by_cases leading : first = chr '0'
          · simp [octal, zero, leading]
          · simp [octal, zero, leading]
    · rw [if_neg octal, if_neg (fun either => octal either.1), if_neg octal]

theorem readDigits_terminated (base : Int) (val : BitVec 64) (s : List Byte) :
    readDigits base val (s ++ [0]) =
      some ((strtolLoop base val s).1, (strtolLoop base val s).2 ++ [0]) := by
  induction s generalizing val with
  | nil => rfl
  | cons c s ih =>
      rw [List.cons_append, readDigits, strtolLoop]
      cases digitOf c with
      | none => rfl
      | some dig =>
          dsimp only
          by_cases large : base ≤ dig
          · rw [if_pos large, if_pos large]
            rfl
          · rw [if_neg large, if_neg large, ih]

/-- Up to the NUL, and no further, `strtol` reads what the string says. -/
theorem strtolAt_terminated (s : List Byte) (base : Int) :
    strtolAt (s ++ [0]) base = some ((strtol s base).1, (strtol s base).2 ++ [0]) := by
  rw [strtolAt, skipBlanks_terminated, Option.bind_some, readSign_terminated, Option.bind_some]
  dsimp only
  rw [readBase_terminated, Option.bind_some]
  dsimp only
  rw [readDigits_terminated]
  rfl

/-! ## The grammar -/

def isBlank (c : Byte) : Bool :=
  c = chr ' ' ∨ c = chr '\t'

/-- The character is a digit of the base. -/
def isDigit (base : Nat) (c : Byte) : Bool :=
  (digitOf c).any fun digit => decide (digit < base)

/-- The number that digits stand for. -/
def digitsValue (base : Nat) (ds : List Byte) : Nat :=
  Numeral.valueFrom base 0 (ds.map fun c => (digitOf c).getD 0)

/-- The sign of a number, and what stands behind it. -/
def signed (s : List Byte) : Bool × List Byte :=
  match s with
  | [] => (false, [])
  | c :: s => if c = chr '-' then (true, s) else if c = chr '+' then (false, s) else (false, c :: s)

/-- What stands behind the blanks and the sign. -/
def unsigned (s : List Byte) : List Byte :=
  (signed (s.dropWhile isBlank)).2

/-- A `0x` with a hexadecimal digit behind it. -/
def HexNumber (s : List Byte) : Prop :=
  ∃ c rest, s = chr '0' :: chr 'x' :: c :: rest ∧ isDigit 16 c

/-- The base that an argument of zero stands for, by the first character. -/
def autoBase (s : List Byte) : Nat :=
  if s.head? = some (chr '0') then 8 else 10

open scoped Classical in
/-- The base of a number, and its digits with what stands behind them. -/
noncomputable def based (base : Nat) (s : List Byte) : Nat × List Byte :=
  if (base = 0 ∨ base = 16) ∧ HexNumber s then (16, s.drop 2)
  else if base = 0 then (autoBase s, s)
  else (base, s)

/-- What a string is to be read as: the value of its digits with the sign, and
what stands behind them, or the whole string if there are none. -/
noncomputable def number (base : Nat) (s : List Byte) : BitVec 64 × List Byte :=
  let read := based base (unsigned s)
  let ds := read.2.takeWhile (isDigit read.1)
  if ds = [] then (0, s)
  else
    let val := BitVec.ofNat 64 (digitsValue read.1 ds)
    (if (signed (s.dropWhile isBlank)).1 then -val else val, read.2.dropWhile (isDigit read.1))

/-- Every `0x` has a digit behind it, and nothing stands before a number
without digits. -/
def Regular (base : Nat) (s : List Byte) : Prop :=
  let t := unsigned s
  (base = 0 ∨ base = 16 → t.take 2 = str "0x" → HexNumber t) ∧
    ((∀ c ∈ t.head?, ¬ isDigit (if base = 0 then 10 else base) c) → t = s)

theorem strtolLoop_eq (b start : Nat) (s : List Byte) :
    strtolLoop b (BitVec.ofNat 64 start) s =
      (BitVec.ofNat 64 (Numeral.valueFrom b start
        ((s.takeWhile (isDigit b)).map fun c => (digitOf c).getD 0)),
        s.dropWhile (isDigit b)) := by
  induction s generalizing start with
  | nil => rfl
  | cons c s ih =>
      rw [List.takeWhile_cons, List.dropWhile_cons]
      cases digit_eq : digitOf c with
      | none =>
          have no_digit : isDigit b c = false := by rw [isDigit, digit_eq]; rfl
          rw [strtolLoop, digit_eq, no_digit, if_neg Bool.false_ne_true,
            if_neg Bool.false_ne_true]
          rfl
      | some digit =>
          by_cases small : digit < b
          · have is_digit : isDigit b c = true := by
              rw [isDigit, digit_eq, Option.any_some, decide_eq_true (by omega)]
            rw [strtolLoop_digit digit_eq small, ih, is_digit, if_pos rfl, if_pos rfl,
              List.map_cons, digit_eq]
            rfl
          · have no_digit : isDigit b c = false := by
              rw [isDigit, digit_eq, Option.any_some, decide_eq_false (by omega)]
            rw [strtolLoop, digit_eq, no_digit, if_neg Bool.false_ne_true,
              if_neg Bool.false_ne_true]
            exact if_pos (by omega)

/-! ## When the grammar is met -/

theorem strtolSign_eq (s : List Byte) : strtolSign s = signed s := by
  have plus : str "+" = [chr '+'] := by decide
  have minus : str "-" = [chr '-'] := by decide
  cases s with
  | nil => rfl
  | cons c s =>
      by_cases negative : c = chr '-'
      · subst negative
        rfl
      · by_cases positive : c = chr '+'
        · subst positive
          rfl
        · simp [strtolSign, signed, plus, minus, positive, negative]

/-- `strtol` behind the blanks and the sign. -/
theorem strtol_eq (base : Int) (s : List Byte) :
    strtol s base =
      let read := strtolBase base (unsigned s)
      let result := strtolLoop read.1 0 read.2
      (if (signed (s.dropWhile isBlank)).1 then -result.1 else result.1, result.2) := by
  rw [strtol, strtolSign_eq]
  rfl

section

variable {base : Nat} {s : List Byte}

theorem takeWhile_eq_nil_iff (p : Byte → Bool) (t : List Byte) :
    t.takeWhile p = [] ↔ ∀ c ∈ t.head?, ¬ p c := by
  cases t with
  | nil => simp
  | cons c t =>
      by_cases digit : p c
      · simp [digit]
      · simp [digit]

theorem dropWhile_of_takeWhile {p : Byte → Bool} {t : List Byte} (empty : t.takeWhile p = []) :
    t.dropWhile p = t := by
  have whole := List.takeWhile_append_dropWhile (p := p) (l := t)
  rwa [empty, List.nil_append] at whole

/-- A number whose digits are looked for where the grammar does. -/
theorem strtol_eq_number_iff_of_read {b : Nat} {t : List Byte}
    (based_eq : based base (unsigned s) = (b, t))
    (read_eq : strtolLoop (strtolBase base (unsigned s)).1 0 (strtolBase base (unsigned s)).2 =
      strtolLoop b 0 t) :
    strtol s base = number base s ↔ (t.takeWhile (isDigit b) = [] → t = s) := by
  have loop_eq : strtolLoop b 0 t = _ := strtolLoop_eq b 0 t
  rw [strtol_eq, number, based_eq]
  dsimp only
  rw [read_eq, loop_eq]
  by_cases empty : t.takeWhile (isDigit b) = []
  · rw [if_pos empty, empty, dropWhile_of_takeWhile empty]
    simp [Numeral.valueFrom]
  · rw [if_neg empty]
    exact iff_of_true rfl (fun no_digits => absurd no_digits empty)

theorem hex_text : str "0x" = [chr '0', chr 'x'] := by
  decide

/-- Behind `0x`, a digit. -/
theorem strtol_of_hexNumber (hex_base : base = 0 ∨ base = 16) (hex : HexNumber (unsigned s)) :
    strtol s base = number base s := by
  have grammar := hex
  obtain ⟨c, rest, t_eq, digit⟩ := hex
  have int_base : (base : Int) = 0 ∨ (base : Int) = 16 := by omega
  have based_eq : based base (unsigned s) = (16, c :: rest) := by
    rw [based, if_pos ⟨hex_base, grammar⟩, t_eq]
    rfl
  have read_eq : strtolBase base (unsigned s) = (16, c :: rest) := by
    rw [strtolBase, if_pos ⟨int_base, by rw [t_eq, hex_text]; rfl⟩, t_eq]
    rfl
  rw [strtol_eq_number_iff_of_read based_eq (by rw [read_eq]; rfl)]
  intro no_digits
  exact absurd digit ((takeWhile_eq_nil_iff _ _).mp no_digits c rfl)

/-- Behind `0x`, no digit. -/
theorem strtol_ne_number (hex_base : base = 0 ∨ base = 16)
    (marked : (unsigned s).take 2 = str "0x") (no_hex : ¬ HexNumber (unsigned s)) :
    strtol s base ≠ number base s := by
  have int_base : (base : Int) = 0 ∨ (base : Int) = 16 := by omega
  have t_eq : unsigned s = chr '0' :: chr 'x' :: (unsigned s).drop 2 := by
    have whole := List.take_append_drop 2 (unsigned s)
    rw [marked, hex_text] at whole
    exact whole.symm
  have read_eq : strtolBase base (unsigned s) = (16, (unsigned s).drop 2) := by
    rw [strtolBase, if_pos ⟨int_base, marked⟩]
  have no_digits : ((unsigned s).drop 2).takeWhile (isDigit 16) = [] := by
    rw [takeWhile_eq_nil_iff]
    intro c c_head digit
    obtain ⟨rest, rest_eq⟩ := List.head?_eq_some_iff.mp c_head
    exact no_hex ⟨c, rest, by rw [t_eq, rest_eq], digit⟩
  -- the zero is the number, and the `x` stands behind it
  have behind : (strtol s base).2 = (unsigned s).drop 2 := by
    have loop_eq : strtolLoop (16 : Nat) 0 ((unsigned s).drop 2) = _ := strtolLoop_eq 16 0 _
    rw [strtol_eq, read_eq]
    exact (congrArg Prod.snd loop_eq).trans (dropWhile_of_takeWhile no_digits)
  obtain ⟨b, based_eq, b_eq⟩ : ∃ b, based base (unsigned s) = (b, unsigned s) ∧
      (b = 8 ∨ b = 16) := by
    rcases hex_base with rfl | rfl
    · refine ⟨8, ?_, .inl rfl⟩
      rw [based, if_neg fun hex => no_hex hex.2, if_pos rfl, autoBase, t_eq]
      rfl
    · exact ⟨16, by rw [based, if_neg fun hex => no_hex hex.2, if_neg (by decide)], .inr rfl⟩
  have zero_digit : isDigit b (chr '0') = true := by
    rcases b_eq with rfl | rfl
    · decide
    · decide
  have no_x : isDigit b (chr 'x') = false := by
    rcases b_eq with rfl | rfl
    · decide
    · decide
  have number_behind : (number base s).2 = chr 'x' :: (unsigned s).drop 2 := by
    rw [number, based_eq]
    dsimp only
    rw [t_eq, List.takeWhile_cons_of_pos zero_digit, if_neg (List.cons_ne_nil _ _),
      List.dropWhile_cons_of_pos zero_digit, List.dropWhile_cons_of_neg (by simp [no_x])]
    rfl
  intro same
  rw [same, number_behind] at behind
  exact List.cons_ne_self _ _ behind

/-- Without `0x`. -/
theorem strtol_eq_number_iff_of_unmarked
    (unmarked : ¬ ((base = 0 ∨ base = 16) ∧ (unsigned s).take 2 = str "0x")) :
    strtol s base = number base s ↔
      ((∀ c ∈ (unsigned s).head?, ¬ isDigit (if base = 0 then 10 else base) c) →
        unsigned s = s) := by
  have no_mark : ¬ (((base : Int) = 0 ∨ (base : Int) = 16) ∧
      (unsigned s).take 2 = str "0x") := fun prefixed =>
    unmarked ⟨by omega, prefixed.2⟩
  have no_hex : ¬ ((base = 0 ∨ base = 16) ∧ HexNumber (unsigned s)) := by
    rintro ⟨hex_base, c, rest, t_eq, -⟩
    exact unmarked ⟨hex_base, by rw [t_eq, hex_text]; rfl⟩
  rw [← takeWhile_eq_nil_iff]
  by_cases auto : base = 0
  · subst auto
    have zero_text : str "0" = [chr '0'] := by decide
    by_cases octal : (unsigned s).head? = some (chr '0')
    · -- the leading zero is a digit of the octal number
      obtain ⟨rest, t_eq⟩ := List.head?_eq_some_iff.mp octal
      have based_eq : based 0 (unsigned s) = (8, unsigned s) := by
        rw [based, if_neg no_hex, if_pos rfl, autoBase, if_pos octal]
      have read_eq : strtolBase (0 : Nat) (unsigned s) = (8, rest) := by
        rw [strtolBase, if_neg no_mark, if_pos ⟨rfl, by rw [t_eq, zero_text]; rfl⟩, t_eq]
        rfl
      have zero_digit (b : Nat) (b_eq : b = 8 ∨ b = 10) : isDigit b (chr '0') = true := by
        rcases b_eq with rfl | rfl
        · decide
        · decide
      have skip : strtolLoop (8 : Nat) 0 rest = strtolLoop (8 : Nat) 0 (unsigned s) := by
        rw [t_eq]
        rfl
      rw [strtol_eq_number_iff_of_read based_eq (by rw [read_eq]; exact skip), if_pos rfl, t_eq,
        List.takeWhile_cons_of_pos (zero_digit 8 (.inl rfl)),
        List.takeWhile_cons_of_pos (zero_digit 10 (.inr rfl))]
      exact iff_of_true (fun empty => absurd empty (List.cons_ne_nil _ _))
        (fun empty => absurd empty (List.cons_ne_nil _ _))
    · have based_eq : based 0 (unsigned s) = (10, unsigned s) := by
        rw [based, if_neg no_hex, if_pos rfl, autoBase, if_neg octal]
      have no_zero : (unsigned s).take 1 ≠ str "0" := by
        rw [zero_text]
        intro taken
        cases t_eq : unsigned s with
        | nil =>
            rw [t_eq] at taken
            exact absurd taken (List.cons_ne_nil _ _).symm
        | cons c rest =>
            rw [t_eq] at taken octal
            exact octal (congrArg some (List.cons.inj taken).1)
      have read_eq : strtolBase (0 : Nat) (unsigned s) = (10, unsigned s) := by
        rw [strtolBase, if_neg no_mark, if_neg fun zero => no_zero zero.2]
        rfl
      rw [strtol_eq_number_iff_of_read based_eq (by rw [read_eq]; rfl), if_pos rfl]
  · have based_eq : based base (unsigned s) = (base, unsigned s) := by
      rw [based, if_neg no_hex, if_neg auto]
    have read_eq : strtolBase base (unsigned s) = ((base : Int), unsigned s) := by
      rw [strtolBase, if_neg no_mark, if_neg (by omega), if_neg (by omega)]
    rw [strtol_eq_number_iff_of_read based_eq (by rw [read_eq]), if_neg auto]

end

/-- `strtol` reads a string as the grammar says exactly if every `0x` has a
digit behind it and nothing stands before a number without digits. -/
theorem strtol_eq_number_iff (base : Nat) (s : List Byte) :
    strtol s base = number base s ↔ Regular base s := by
  rw [Regular]
  by_cases marked : (base = 0 ∨ base = 16) ∧ (unsigned s).take 2 = str "0x"
  · by_cases hex : HexNumber (unsigned s)
    · refine iff_of_true (strtol_of_hexNumber marked.1 hex) ⟨fun _ _ => hex, fun no_digit => ?_⟩
      obtain ⟨c, rest, t_eq, -⟩ := hex
      have zero_digit : isDigit (if base = 0 then 10 else base) (chr '0') := by
        rcases marked.1 with rfl | rfl
        · decide
        · decide
      exact absurd zero_digit (no_digit (chr '0') (by rw [t_eq]; rfl))
    · exact iff_of_false (strtol_ne_number marked.1 marked.2 hex)
        (fun regular => hex (regular.1 marked.1 marked.2))
  · rw [strtol_eq_number_iff_of_unmarked marked]
    constructor
    · exact fun nothing => ⟨fun hex_base taken => absurd ⟨hex_base, taken⟩ marked, nothing⟩
    · exact fun regular => regular.2

theorem strtolAt_eq_number_iff (base : Nat) (s : List Byte) :
    strtolAt (s ++ [0]) base = some ((number base s).1, (number base s).2 ++ [0]) ↔
      Regular base s := by
  rw [strtolAt_terminated, ← strtol_eq_number_iff, Option.some.injEq, Prod.mk.injEq,
    List.append_cancel_right_eq]
  exact Prod.ext_iff.symm

/-- `strtol` never reads behind the NUL, and returns the number of the grammar with
the place where it ends exactly if the string is regular. -/
theorem strtolAt_number_iff (base : Nat) (s : CString) :
    (strtolAt s.terminated base).isSome ∧
      (strtolAt s.terminated base =
          some ((number base s.bytes).1, (number base s.bytes).2 ++ [0]) ↔
        Regular base s.bytes) := by
  refine ⟨?_, strtolAt_eq_number_iff base s.bytes⟩
  rw [CString.terminated, strtolAt_terminated]
  rfl

/-- A prefix without a digit is passed over, and so is a sign alone. -/
theorem strtolAt_lone :
    strtolAt (str "0xg" ++ [0]) 16 ≠
        some ((number 16 (str "0xg")).1, (number 16 (str "0xg")).2 ++ [0]) ∧
      strtolAt (str " -" ++ [0]) 10 ≠
        some ((number 10 (str " -")).1, (number 10 (str " -")).2 ++ [0]) := by
  constructor
  · intro same
    have regular : Regular 16 (str "0xg") := (strtolAt_eq_number_iff 16 _).mp same
    obtain ⟨c, rest, t_eq, digit⟩ := regular.1 (.inr rfl) (by decide)
    have place : unsigned (str "0xg") = [chr '0', chr 'x', chr 'g'] := by decide
    rw [place] at t_eq
    cases t_eq
    exact absurd digit (by decide)
  · intro same
    have regular : Regular 10 (str " -") := (strtolAt_eq_number_iff 10 _).mp same
    have place : unsigned (str " -") = [] := by decide
    have kept := regular.2 (by rw [place]; exact nofun)
    rw [place] at kept
    exact absurd kept (by decide)

end Jos64.Strings
