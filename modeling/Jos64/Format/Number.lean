import Jos64.Format.Returns
import Jos64.Numeral.Core

/-!
# Number directives

A number directive is a `%`, a flag, a width, any number of `l` and the letter
of the conversion.  It prints a sign or prefix, padding, and the numeral of the
number, in this order.
-/

namespace Jos64.Format

/-! ## Printing a list of characters -/

theorem State.putchs_append (st : State) (chs more : List (BitVec 32)) :
    st.putchs (chs ++ more) = (st.putchs chs).putchs more :=
  List.foldl_append

theorem State.putchs_calls (st : State) (chs : List (BitVec 32)) :
    (st.putchs chs).calls = st.calls ++ chs.map fun ch => ⟨ch, st.color⟩ := by
  induction chs generalizing st with
  | nil => exact (List.append_nil _).symm
  | cons ch chs ih =>
      have rest := ih (st.putch ch)
      rw [List.map_cons, List.append_cons]
      exact rest

theorem State.putchs_inj {st : State} {chs other : List (BitVec 32)} :
    st.putchs chs = st.putchs other ↔ chs = other := by
  constructor
  · intro same
    have calls_eq := congrArg State.calls same
    rw [State.putchs_calls, State.putchs_calls, List.append_cancel_left_eq] at calls_eq
    exact List.map_injective_iff.mpr (fun ch ch' same => congrArg Call.ch same) calls_eq
  · rintro rfl
    rfl

theorem signedChar_injective : Function.Injective signedChar := by
  have back : ∀ byte : Byte, (signedChar byte).setWidth 8 = byte := by decide
  intro byte byte' same
  rw [← back byte, same, back]

/-- The bytes of a text, printed in order. -/
def State.text (st : State) (bytes : List Byte) : State :=
  st.putchs (bytes.map signedChar)

theorem State.text_append (st : State) (bytes more : List Byte) :
    st.text (bytes ++ more) = (st.text bytes).text more := by
  rw [text, List.map_append, putchs_append]
  rfl

theorem State.text_inj {st : State} {bytes other : List Byte} :
    st.text bytes = st.text other ↔ bytes = other := by
  rw [text, text, putchs_inj]
  exact (List.map_injective_iff.mpr signedChar_injective).eq_iff

/-! ## Numerals -/

/-- The characters of a numeral. -/
def numeral (base n : Nat) : List Byte :=
  (Numeral.digits base n).map digitChar

theorem length_numeral (base n : Nat) : (numeral base n).length = (Numeral.digits base n).length :=
  List.length_map _

theorem numeral_of_lt {base n : Nat} (small : n < base) : numeral base n = [digitChar n] := by
  rw [numeral, Numeral.digits_of_lt small]
  rfl

theorem length_numeral_pos (base n : Nat) : 0 < (numeral base n).length := by
  rw [length_numeral]
  exact Numeral.length_digits_pos base n

theorem length_numeral_le {base : Nat} (two_le : 2 ≤ base) (num : BitVec 64) :
    (numeral base num.toNat).length ≤ 64 := by
  rw [length_numeral]
  exact Numeral.length_digits_le two_le num.isLt

/-- `while (--width > 0) putch(padc, putdat)`, one round after the other. -/
def padLoop (padc : Byte) (width : Int) : List (BitVec 32) :=
  if 0 < wrap32 (width - 1) then signedChar padc :: padLoop padc (wrap32 (width - 1)) else []
termination_by (wrap32 (width - 1)).toNat
decreasing_by
  have high := wrap32_high (width - 1)
  rw [wrap32_of_range (x := wrap32 (width - 1) - 1) (by omega) (by omega)]
  omega

theorem padLoop_eq (padc : Byte) (width : Int) :
    padLoop padc width = List.replicate (wrap32 (width - 1)).toNat (signedChar padc) := by
  induction width using padLoop.induct with
  | case1 width more ih =>
      have low := wrap32_low (width - 1)
      have high := wrap32_high (width - 1)
      have count : (wrap32 (width - 1)).toNat =
          (wrap32 (wrap32 (width - 1) - 1)).toNat + 1 := by
        rw [wrap32_of_range (x := wrap32 (width - 1) - 1) (by omega) (by omega)]
        omega
      rw [padLoop, if_pos more, ih, count, List.replicate_succ]
  | case2 width done =>
      rw [padLoop, if_neg done, Int.toNat_of_nonpos (not_lt.mp done), List.replicate_zero]

/-- The two branches of `printnum` and the digit after them. -/
theorem printnum_unfold {base : Nat} (two_le : 2 ≤ base) (num : Nat) (width : Int)
    (padc : Byte) :
    printnum num base width padc =
      (if base ≤ num then printnum (num / base) base (wrap32 (width - 1)) padc
        else padLoop padc width) ++ [signedChar (digitChar (num % base))] := by
  rw [printnum, padLoop_eq]
  by_cases large : base ≤ num
  · rw [dif_pos ⟨two_le, large⟩, if_pos large]
  · rw [dif_neg fun more => large more.2, if_neg large]

/-- The padding and the numeral that `printnum` prints: the width is counted down
with the digits, and what is left of it at the first of them is padded. -/
theorem printnum_eq {base : Nat} (two_le : 2 ≤ base) {num : Nat} {width : Int} (padc : Byte)
    (low : (numeral base num).length - 2 ^ 31 ≤ width) (high : width < 2 ^ 31) :
    printnum num base width padc =
      (List.replicate (width - (numeral base num).length).toNat padc ++
        numeral base num).map signedChar := by
  induction num using Nat.strong_induction_on generalizing width with
  | _ num ih =>
      have length_pos := length_numeral_pos base num
      have count : wrap32 (width - 1) = width - 1 := wrap32_of_range (by omega) (by omega)
      rw [printnum_unfold two_le, padLoop_eq, count]
      by_cases large : base ≤ num
      · have split : numeral base num = numeral base (num / base) ++ [digitChar (num % base)] := by
          rw [numeral, Numeral.digits_of_le two_le large, List.map_append]
          rfl
        have length_eq : (numeral base num).length = (numeral base (num / base)).length + 1 := by
          rw [split, List.length_append, List.length_singleton]
        have room : width - 1 - (numeral base (num / base)).length =
            width - (numeral base num).length := by
          rw [length_eq]
          omega
        rw [if_pos large,
          ih (num / base) (Nat.div_lt_self (by omega) two_le) (by omega) (by omega), room, split,
          ← List.append_assoc, List.map_append, List.map_append, List.map_append]
        rfl
      · rw [not_le] at large
        rw [if_neg (by omega), numeral_of_lt large, Nat.mod_eq_of_lt large, List.map_append,
          List.map_replicate]
        rfl

/-- `printnum` pads a number to its width with the digits of its canonical numeral
behind the padding. -/
theorem printnum_canonical (num : BitVec 64) {base : Nat} (two_le : 2 ≤ base)
    (base_le : base ≤ 16) (padc : Byte) (width : BitVec 32)
    (low : -(2 ^ 31) + 64 < width.toInt) :
    ∃ ds : List Nat, Numeral.Canonical base num.toNat ds ∧ (num = 0 → ds = [0]) ∧
      (∀ digit ∈ ds, (str "0123456789abcdef")[digit]? = some (digitChar digit)) ∧
      printnum num.toNat base width.toInt padc =
        List.replicate (max 0 (width.toInt - ds.length)).toNat (signedChar padc) ++
          ds.map fun digit => signedChar (digitChar digit) := by
  have known : ∀ digit < 16, (str "0123456789abcdef")[digit]? = some (digitChar digit) := by
    decide
  have length_le := length_numeral_le two_le num
  refine ⟨Numeral.digits base num.toNat, Numeral.canonical_digits two_le _, ?_, ?_, ?_⟩
  · rintro rfl
    exact Numeral.digits_of_lt (two_le.trans_lt' Nat.zero_lt_two)
  · intro digit digit_mem
    exact known digit ((Numeral.digits_lt two_le _ digit digit_mem).trans_le base_le)
  · have count : (max 0 (width.toInt - (Numeral.digits base num.toNat).length)).toNat =
        (width.toInt - (numeral base num.toNat).length).toNat := by
      rw [length_numeral]
      omega
    rw [printnum_eq two_le padc (by omega) BitVec.toInt_lt, count, List.map_append,
      List.map_replicate, numeral, List.map_map]
    rfl

/-- A byte in hexadecimal digits, padded with zeros to four characters. -/
theorem printnum_canonical_byte :
    ∃ ds : List Nat, Numeral.Canonical 16 0xAB ds ∧ ((0xAB : BitVec 64) = 0 → ds = [0]) ∧
      (∀ digit ∈ ds, (str "0123456789abcdef")[digit]? = some (digitChar digit)) ∧
      printnum 0xAB 16 4 (chr '0') =
        List.replicate (max 0 ((4 : Int) - ds.length)).toNat (signedChar (chr '0')) ++
          ds.map fun digit => signedChar (digitChar digit) :=
  printnum_canonical 0xAB (by decide) (by decide) (chr '0') 4 (by decide)

/-! ## Conversions -/

/-- The conversions of numbers. -/
inductive Conversion where
  | d
  | u
  | o
  | x
  | p
  deriving DecidableEq

namespace Conversion

def letter : Conversion → Byte
  | d => chr 'd'
  | u => chr 'u'
  | o => chr 'o'
  | x => chr 'x'
  | p => chr 'p'

def base : Conversion → Nat
  | d | u => 10
  | o => 8
  | x | p => 16

/-- The sign or the prefix. -/
def lead (value : BitVec 64) : Conversion → List Byte
  | d | o => if value.slt 0 then str "-" else []
  | u | x => []
  | p => str "0x"

/-- The number of which the digits are printed. -/
def magnitude (value : BitVec 64) : Conversion → BitVec 64
  | d | o => if value.slt 0 then -value else value
  | u | x | p => value

/-- The digits. -/
def body (value : BitVec 64) (conv : Conversion) : List Byte :=
  numeral conv.base (conv.magnitude value).toNat

/-- What is printed without a width. -/
def plain (value : BitVec 64) (conv : Conversion) : List Byte :=
  conv.lead value ++ conv.body value

theorem two_le_base (conv : Conversion) : 2 ≤ conv.base := by
  cases conv with
  | _ => decide

theorem length_body_pos (value : BitVec 64) (conv : Conversion) :
    0 < (conv.body value).length :=
  length_numeral_pos _ _

theorem length_body_le (value : BitVec 64) (conv : Conversion) :
    (conv.body value).length ≤ 64 :=
  length_numeral_le conv.two_le_base _

theorem isConversion_letter (conv : Conversion) : isConversion conv.letter := by
  cases conv with
  | _ => decide

end Conversion

/-- The sign or prefix, the padding and the digits that a directive prints. -/
def padded (d : Directive) (conv : Conversion) (value : BitVec 64) : List Byte :=
  conv.lead value ++
    (List.replicate (d.width - (conv.body value).length).toNat d.padc ++ conv.body value)

/-- A width that the counting of `printnum` keeps in an `int`. -/
def Directive.Counted (d : Directive) : Prop :=
  64 - 2 ^ 31 ≤ d.width ∧ d.width < 2 ^ 31

section

variable {d : Directive} (counted : d.Counted)

include counted

theorem number_eq (st : State) {base : Nat} (two_le : 2 ≤ base) (num : BitVec 64) :
    st.number num base d =
      st.text (List.replicate (d.width - (numeral base num.toNat).length).toNat d.padc ++
        numeral base num.toNat) := by
  have length_le := length_numeral_le two_le num
  have low := counted.1
  rw [State.number, State.text, printnum_eq two_le d.padc (by omega) counted.2]

omit counted in
theorem signedNumber_eq (st : State) (num : BitVec 64) (base : Nat) (d : Directive) :
    st.signedNumber num base d =
      (st.text (if num.slt 0 then str "-" else [])).number (if num.slt 0 then -num else num) base
        d := by
  rw [State.signedNumber]
  split
  · rfl
  · rfl

/-- A number conversion. -/
theorem convert_number (printfmt : Printfmt) (mem : Mem) (args : Args) (conv : Conversion)
    (ap : Nat) (st : State) :
    convert printfmt mem args d conv.letter ap st =
      some (st.text (padded d conv (args ap)), ap + 1) := by
  have long_unsigned (slot : BitVec 64) : getuint slot 3 = slot := rfl
  have long_signed (slot : BitVec 64) : getint slot 3 = slot := rfl
  rw [padded, State.text_append, Conversion.body]
  cases conv with
  | d =>
      change some (st.signedNumber (getint (args ap) 3) 10 d, ap + 1) = _
      rw [long_signed, signedNumber_eq, number_eq counted _ (by decide)]
      rfl
  | u =>
      change some (st.number (getuint (args ap) 3) 10 d, ap + 1) = _
      rw [long_unsigned, number_eq counted _ (by decide)]
      rfl
  | o =>
      change some (st.signedNumber (getint (args ap) 3) 8 d, ap + 1) = _
      rw [long_signed, signedNumber_eq, number_eq counted _ (by decide)]
      rfl
  | x =>
      change some (st.number (getuint (args ap) 3) 16 d, ap + 1) = _
      rw [long_unsigned, number_eq counted _ (by decide)]
      rfl
  | p =>
      change some (((st.putch 0x30).putch (unsignedChar (chr 'x'))).number (args ap) 16 d,
        ap + 1) = _
      rw [number_eq counted _ (by decide)]
      rfl

end

/-! ## Flags and widths -/

/-- The flags that say how to pad. -/
inductive Flag where
  | none
  | zero
  | minus
  deriving DecidableEq

namespace Flag

def bytes : Flag → List Byte
  | none => []
  | zero => [chr '0']
  | minus => [chr '-']

def padc : Flag → Byte
  | none => chr ' '
  | zero => chr '0'
  | minus => chr '-'

end Flag

/-- How a width is given: not at all, by its numeral, or by an argument. -/
inductive Spelling where
  | absent
  | decimal
  | star
  deriving DecidableEq

namespace Spelling

def bytes (w : Nat) : Spelling → List Byte
  | absent => []
  | decimal => numeral 10 w
  | star => [chr '*']

/-- The number of arguments that the width takes. -/
def slots : Spelling → Nat
  | absent | decimal => 0
  | star => 1

/-- The width that a directive has. -/
def width (w : Nat) : Spelling → Int
  | absent => -1
  | decimal | star => w

/-- The width is the one that the argument gives. -/
def Given (w : Nat) (args : Args) (ap : Nat) : Spelling → Prop
  | absent => True
  | decimal => 1 ≤ w ∧ w < 2 ^ 31
  | star => intArg (args ap) = w

end Spelling

/-- The bytes of a directive behind its `%`. -/
def directiveBytes (flag : Flag) (spelling : Spelling) (w longs : Nat) (conv : Conversion) :
    List Byte :=
  flag.bytes ++ (spelling.bytes w ++ (List.replicate longs (chr 'l') ++ [conv.letter]))

theorem digitChar_range : ∀ digit < 10, ¬ ((signedChar (digitChar digit)).slt 0x30 ∨
    (0x39 : BitVec 32).slt (signedChar (digitChar digit))) := by
  decide

theorem digitChar_toNat : ∀ digit < 10, (digitChar digit).toNat = 0x30 + digit := by
  decide

theorem digitChar_nonzero : ∀ digit < 10, digit ≠ 0 →
    0x31 ≤ digitChar digit ∧ digitChar digit ≤ 0x39 := by
  decide

/-- The number grows with each digit. -/
theorem le_valueFrom (start : Nat) (ds : List Nat) : start ≤ Numeral.valueFrom 10 start ds := by
  induction ds generalizing start with
  | nil => exact le_refl _
  | cons digit ds ih =>
      calc
        start ≤ start * 10 + digit := by omega
        _ ≤ Numeral.valueFrom 10 (start * 10 + digit) ds := ih _

/-- The loop over the digits of a width, up to a byte that is no digit. -/
theorem digits_numeral (precision : Nat) {digit : Nat} {ds : List Nat} {stop : Byte}
    (fmt : List Byte) (digit_lt : digit < 10) (ds_lt : ∀ digit ∈ ds, digit < 10)
    (stops : (signedChar stop).slt 0x30 ∨ (0x39 : BitVec 32).slt (signedChar stop))
    (small : Numeral.valueFrom 10 precision (digit :: ds) < 2 ^ 31) (seen : List Byte) :
    ∃ seen', Format.digits precision (digitChar digit) seen (ds.map digitChar ++ stop :: fmt) =
      ((Numeral.valueFrom 10 precision (digit :: ds) : Int), seen', stop :: fmt) := by
  induction ds generalizing precision digit seen with
  | nil =>
      have small' : precision * 10 + digit < 2 ^ 31 := small
      refine ⟨seen, ?_⟩
      rw [List.map_nil, List.nil_append, Format.digits]
      rw [if_pos stops, digitChar_toNat digit digit_lt,
        wrap32_of_range (show -(2 ^ 31) ≤ (precision : Int) * 10 by omega) (by omega),
        wrap32_of_range (by omega) (by omega)]
      congr 1
      change _ = ((precision * 10 + digit : Nat) : Int)
      omega
  | cons next ds ih =>
      have next_lt := ds_lt next List.mem_cons_self
      have grows : precision * 10 + digit ≤ Numeral.valueFrom 10 precision (digit :: next :: ds) :=
        le_valueFrom _ _
      obtain ⟨seen', rest⟩ := ih (precision * 10 + digit) next_lt
        (fun later later_mem => ds_lt later (List.mem_cons_of_mem next later_mem))
        (show Numeral.valueFrom 10 (precision * 10 + digit) (next :: ds) < 2 ^ 31 from small)
        (digitChar next :: seen)
      refine ⟨seen', ?_⟩
      rw [List.map_cons, List.cons_append, Format.digits]
      rw [if_neg (digitChar_range next next_lt), digitChar_toNat digit digit_lt,
        wrap32_of_range (show -(2 ^ 31) ≤ (precision : Int) * 10 by omega) (by omega),
        wrap32_of_range (by omega) (by omega),
        show (precision : Int) * 10 + ((0x30 + digit : Nat) : Int) - 0x30 =
          ((precision * 10 + digit : Nat) : Int) by omega, rest]
      rfl

/-! ## Scanning a directive -/

section

variable {args : Args} {ap : Nat} (d : Directive) (seen rest : List Byte) (conv : Conversion)

theorem reswitch_flag {d d' : Directive} {ap' : Nat} {ch : Byte}
    (not_width : ¬ (0x31 ≤ ch ∧ ch ≤ 0x39)) (flag : flagCase args d ap ch = some (d', ap'))
    (seen fmt : List Byte) :
    reswitch args d seen ap (ch :: fmt) = reswitch args d' (ch :: seen) ap' fmt := by
  rw [reswitch, if_neg not_width, flag]

variable (args ap) in
/-- The `l`s and the letter. -/
theorem reswitch_longs (longs : Nat) :
    ∃ seen', reswitch args d seen ap (List.replicate longs (chr 'l') ++ conv.letter :: rest) =
      ⟨{ d with lflag := d.lflag + longs }, seen', ap, conv.letter :: rest⟩ := by
  induction longs generalizing d seen with
  | zero =>
      obtain ⟨range, stop⟩ := flagCase_of_isConversion args ap d conv.isConversion_letter
      refine ⟨seen, ?_⟩
      rw [List.replicate_zero, List.nil_append, reswitch, if_neg range, stop]
      rfl
  | succ longs ih =>
      have long : flagCase args d ap (chr 'l') = some ({ d with lflag := d.lflag + 1 }, ap) := by
        rfl
      obtain ⟨seen', scan⟩ := ih { d with lflag := d.lflag + 1 } (chr 'l' :: seen)
      refine ⟨seen', ?_⟩
      rw [List.replicate_succ, List.cons_append, reswitch_flag (by decide) long, scan,
        Nat.add_assoc, Nat.add_comm 1 longs]

/-- No digit stands behind a width. -/
theorem longs_stop (longs : Nat) :
    ∃ stop more, List.replicate longs (chr 'l') ++ conv.letter :: rest = stop :: more ∧
      ((signedChar stop).slt 0x30 ∨ (0x39 : BitVec 32).slt (signedChar stop)) := by
  cases longs with
  | zero =>
      refine ⟨conv.letter, rest, rfl, ?_⟩
      cases conv with
      | _ => decide
  | succ longs => exact ⟨chr 'l', _, rfl, by decide⟩

/-- The first digit of a positive number is not zero. -/
theorem digits_head {w : Nat} (positive : 1 ≤ w) :
    ∃ digit ds, Numeral.digits 10 w = digit :: ds ∧ digit ≠ 0 := by
  induction w using Nat.strong_induction_on with
  | _ w ih =>
      by_cases large : 10 ≤ w
      · obtain ⟨digit, ds, digits_eq, nonzero⟩ :=
          ih (w / 10) (Nat.div_lt_self (by omega) (by decide)) (by omega)
        refine ⟨digit, ds ++ [w % 10], ?_, nonzero⟩
        rw [Numeral.digits_of_le (by decide) large, digits_eq, List.cons_append]
      · exact ⟨w, [], Numeral.digits_of_lt (not_le.mp large), by omega⟩

variable (args ap) in
/-- A width or a precision. -/
theorem reswitch_numeral (d : Directive) (seen : List Byte) {n : Nat} (positive : 1 ≤ n)
    (small : n < 2 ^ 31) {stop : Byte}
    (stops : (signedChar stop).slt 0x30 ∨ (0x39 : BitVec 32).slt (signedChar stop))
    (fmt : List Byte) :
    ∃ seen', reswitch args d seen ap (numeral 10 n ++ stop :: fmt) =
      reswitch args (d.processPrecision n) seen' ap (stop :: fmt) := by
  obtain ⟨digit, ds, digits_eq, nonzero⟩ := digits_head positive
  have all_lt : ∀ digit ∈ Numeral.digits 10 n, digit < 10 :=
    Numeral.digits_lt (by decide) n
  have value_eq : Numeral.valueFrom 10 0 (Numeral.digits 10 n) = n :=
    Numeral.valueFrom_digits (by decide) n
  rw [digits_eq] at all_lt value_eq
  have digit_lt := all_lt digit List.mem_cons_self
  obtain ⟨seen', read⟩ := digits_numeral 0 fmt digit_lt
    (fun later later_mem => all_lt later (List.mem_cons_of_mem digit later_mem)) stops
    (by rw [value_eq]; exact small) (digitChar digit :: seen)
  refine ⟨seen', ?_⟩
  rw [numeral, digits_eq, List.map_cons, List.cons_append, reswitch,
    if_pos (digitChar_nonzero digit digit_lt nonzero)]
  dsimp only
  rw [Nat.cast_zero] at read
  rw [read, value_eq]

/-- The width, the `l`s and the letter. -/
theorem reswitch_width (d : Directive) (no_width : d.width = -1) (no_precision : d.precision = -1)
    (spelling : Spelling) {w : Nat} (given : spelling.Given w args ap) (longs : Nat) :
    ∃ seen', reswitch args d seen ap
        (spelling.bytes w ++ (List.replicate longs (chr 'l') ++ conv.letter :: rest)) =
      ⟨{ d with width := spelling.width w, lflag := d.lflag + longs }, seen',
        ap + spelling.slots, conv.letter :: rest⟩ := by
  have process (number : Int) :
      d.processPrecision number = { d with width := number, precision := -1 } := by
    rw [Directive.processPrecision, if_pos (by rw [no_width]; decide)]
  have kept (number : Int) : ({ d with width := number, precision := -1 } : Directive) =
      { d with width := number } := by
    rw [← no_precision]
  cases spelling with
  | absent =>
      obtain ⟨seen', scan⟩ := reswitch_longs args ap d seen rest conv longs
      refine ⟨seen', ?_⟩
      rw [Spelling.bytes, List.nil_append, scan, Spelling.width, ← no_width]
      rfl
  | decimal =>
      obtain ⟨positive, small⟩ := given
      obtain ⟨stop, more, behind, stops⟩ := longs_stop rest conv longs
      obtain ⟨seen', read⟩ := reswitch_numeral args ap d seen positive small stops more
      obtain ⟨seen'', scan⟩ := reswitch_longs args ap
        { d with width := (w : Int) } seen' rest conv longs
      refine ⟨seen'', ?_⟩
      rw [Spelling.bytes, behind, read, process, kept, ← behind, scan]
      rfl
  | star =>
      have number : intArg (args ap) = w := given
      have star_flag : flagCase args d ap (chr '*') =
          some (d.processPrecision (intArg (args ap)), ap + 1) := by
        rfl
      rw [number, process, kept] at star_flag
      obtain ⟨seen', scan⟩ := reswitch_longs args (ap + 1)
        { d with width := (w : Int) } (chr '*' :: seen) rest conv longs
      refine ⟨seen', ?_⟩
      rw [Spelling.bytes, List.singleton_append, reswitch_flag (by decide) star_flag, scan]
      rfl

/-- The whole directive. -/
theorem reswitch_directive (flag : Flag) (spelling : Spelling) {w : Nat}
    (given : spelling.Given w args ap) (longs : Nat) :
    ∃ seen', reswitch args .init seen ap (directiveBytes flag spelling w longs conv ++ rest) =
      ⟨⟨flag.padc, spelling.width w, -1, longs, false⟩, seen', ap + spelling.slots,
        conv.letter :: rest⟩ := by
  have order : directiveBytes flag spelling w longs conv ++ rest =
      flag.bytes ++ (spelling.bytes w ++
        (List.replicate longs (chr 'l') ++ conv.letter :: rest)) := by
    rw [directiveBytes, List.append_assoc, List.append_assoc, List.append_assoc,
      List.singleton_append]
  have flag_read : ∃ seen',
      reswitch args .init seen ap (directiveBytes flag spelling w longs conv ++ rest) =
      reswitch args { Directive.init with padc := flag.padc } seen' ap
        (spelling.bytes w ++ (List.replicate longs (chr 'l') ++ conv.letter :: rest)) := by
    rw [order]
    cases flag with
    | none => exact ⟨seen, rfl⟩
    | zero =>
        have zero_flag : flagCase args .init ap (chr '0') =
            some ({ Directive.init with padc := chr '0' }, ap) := by
          rfl
        exact ⟨chr '0' :: seen, reswitch_flag (by decide) zero_flag seen _⟩
    | minus =>
        have minus_flag : flagCase args .init ap (chr '-') =
            some ({ Directive.init with padc := chr '-' }, ap) := by
          rfl
        exact ⟨chr '-' :: seen, reswitch_flag (by decide) minus_flag seen _⟩
  obtain ⟨seen', flag_read⟩ := flag_read
  obtain ⟨seen'', scan⟩ := reswitch_width seen' rest conv
    { Directive.init with padc := flag.padc } rfl rfl spelling given longs
  refine ⟨seen'', ?_⟩
  rw [flag_read, scan]
  simp [Directive.init]

end

/-- A number directive prints its padded number. -/
theorem directive_number (printfmt : Printfmt) (mem : Mem) {args : Args} {ap : Nat} (flag : Flag)
    (spelling : Spelling) {w : Nat} (given : spelling.Given w args ap) (small : w < 2 ^ 31)
    (longs : Nat) (conv : Conversion) (st : State) (rest : List Byte) :
    directive printfmt mem args ap st (directiveBytes flag spelling w longs conv ++ rest) =
      some (st.text (padded ⟨flag.padc, spelling.width w, -1, longs, false⟩ conv
        (args (ap + spelling.slots))), ap + spelling.slots + 1, rest) := by
  have counted : (⟨flag.padc, spelling.width w, -1, longs, false⟩ : Directive).Counted := by
    rw [Directive.Counted]
    cases spelling with
    | absent | decimal | star =>
        dsimp only [Spelling.width]
        omega
  obtain ⟨seen', scan⟩ := reswitch_directive [chr '%'] rest conv flag spelling given longs
  rw [directive, scan]
  dsimp only
  rw [if_pos conv.isConversion_letter, convert_number counted]
  rfl

end Jos64.Format
