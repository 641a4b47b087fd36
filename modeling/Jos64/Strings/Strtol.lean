import Jos64.Format.Width
import Jos64.Format.Snprintf

/-!
# Reading numbers

`strtol` reads an optional sign, an optional prefix and digits.  The numbers that
the formatter prints, with or without zeros in front, are read back.
-/

namespace Jos64.Strings

open Jos64.Console Jos64.Format

/-! ## `strtol` -/

/-- The value of a digit or letter. -/
def digitOf (c : Byte) : Option Nat :=
  if 0x30 ≤ c ∧ c ≤ 0x39 then some (c.toNat - 0x30)
  else if 0x61 ≤ c ∧ c ≤ 0x7A then some (c.toNat - 0x61 + 10)
  else if 0x41 ≤ c ∧ c ≤ 0x5A then some (c.toNat - 0x41 + 10)
  else none

/-- The loop over the digits: the value and what is left of the string. -/
def strtolLoop (base : Int) (val : BitVec 64) : List Byte → BitVec 64 × List Byte
  | [] => (val, [])
  | c :: s =>
      match digitOf c with
      | none => (val, c :: s)
      | some dig =>
          if base ≤ dig then (val, c :: s)
          else strtolLoop base (val * BitVec.ofInt 64 base + BitVec.ofNat 64 dig) s

/-- The step over a hex or octal prefix, and the base behind it. -/
def strtolBase (base : Int) (s : List Byte) : Int × List Byte :=
  if (base = 0 ∨ base = 16) ∧ s.take 2 = str "0x" then (16, s.drop 2)
  else if base = 0 ∧ s.take 1 = str "0" then (8, s.drop 1)
  else if base = 0 then (10, s)
  else (base, s)

/-- The step over a sign, and whether it is a minus. -/
def strtolSign (s : List Byte) : Bool × List Byte :=
  if s.take 1 = str "+" then (false, s.drop 1)
  else if s.take 1 = str "-" then (true, s.drop 1)
  else (false, s)

/-- `strtol` on a string given by its bytes before the NUL: the value, and the
string that `*endptr` is set to. -/
def strtol (s : List Byte) (base : Int) : BitVec 64 × List Byte :=
  let s := s.dropWhile fun c => c = chr ' ' ∨ c = chr '\t'
  let (neg, s) := strtolSign s
  let (base, s) := strtolBase base s
  let (val, s) := strtolLoop base 0 s
  (if neg then -val else val, s)

/-! ## Numerals -/

theorem digitOf_digitChar : ∀ digit < 16, digitOf (digitChar digit) = some digit := by
  decide

/-- A digit goes behind those that have been read. -/
theorem strtolLoop_digit {base digit : Nat} {c : Byte} (digit_eq : digitOf c = some digit)
    (small : digit < base) (start : Nat) (s : List Byte) :
    strtolLoop base (BitVec.ofNat 64 start) (c :: s) =
      strtolLoop base (BitVec.ofNat 64 (start * base + digit)) s := by
  have step : BitVec.ofNat 64 start * BitVec.ofInt 64 base + BitVec.ofNat 64 digit =
      BitVec.ofNat 64 (start * base + digit) := by
    rw [BitVec.ofInt_natCast, BitVec.ofNat_add, BitVec.ofNat_mul]
  rw [strtolLoop, digit_eq]
  dsimp only
  rw [if_neg (by omega), step]

/-- The loop reads digits below the base to their end. -/
theorem strtolLoop_digits {base : Nat} (base_le : base ≤ 16) {ds : List Nat}
    (ds_lt : ∀ digit ∈ ds, digit < base) (start : Nat) :
    strtolLoop base (BitVec.ofNat 64 start) (ds.map digitChar) =
      (BitVec.ofNat 64 (Numeral.valueFrom base start ds), []) := by
  induction ds generalizing start with
  | nil => rfl
  | cons digit ds ih =>
      have digit_lt := ds_lt digit List.mem_cons_self
      rw [List.map_cons,
        strtolLoop_digit (digitOf_digitChar digit (digit_lt.trans_le base_le)) digit_lt,
        ih (fun later later_mem => ds_lt later (List.mem_cons_of_mem digit later_mem))]
      rfl

theorem digitChar_plain : ∀ digit < 16,
    ¬ (digitChar digit = chr ' ' ∨ digitChar digit = chr '\t') ∧
      [digitChar digit] ≠ str "+" ∧ [digitChar digit] ≠ str "-" ∧ digitChar digit ≠ chr 'x' := by
  decide

section

variable {base : Nat} (two_le : 2 ≤ base) (base_le : base ≤ 16) {first : Nat} {more : List Nat}
  (ds_lt : ∀ digit ∈ first :: more, digit < base)

include base_le ds_lt

/-- Blanks and signs are looked for in vain where digits begin. -/
theorem strtolSign_digits (neg : Bool) :
    strtolSign (((if neg then str "-" else []) ++ (first :: more).map digitChar).dropWhile
        fun c => c = chr ' ' ∨ c = chr '\t') = (neg, (first :: more).map digitChar) := by
  obtain ⟨no_blank, no_plus, no_minus, -⟩ :=
    digitChar_plain first ((ds_lt first List.mem_cons_self).trans_le base_le)
  cases neg with
  | false =>
      have first_taken : ((first :: more).map digitChar).take 1 = [digitChar first] := rfl
      rw [if_neg Bool.false_ne_true, List.nil_append, List.map_cons,
        List.dropWhile_cons_of_neg (by simpa using no_blank), ← List.map_cons, strtolSign,
        first_taken, if_neg no_plus, if_neg no_minus]
  | true =>
      rw [if_pos rfl]
      rfl

include two_le

theorem strtolBase_digits :
    strtolBase base ((first :: more).map digitChar) =
      ((base : Int), (first :: more).map digitChar) := by
  have no_mark : ¬ (((base : Int) = 0 ∨ (base : Int) = 16) ∧
      ((first :: more).map digitChar).take 2 = str "0x") := by
    rintro ⟨-, taken⟩
    cases more with
    | nil => exact absurd (List.cons.inj taken).2 nofun
    | cons second more =>
        have second_lt := ds_lt second (List.mem_cons_of_mem first List.mem_cons_self)
        exact (digitChar_plain second (second_lt.trans_le base_le)).2.2.2
          (List.cons.inj (List.cons.inj taken).2).1
  rw [strtolBase, if_neg no_mark, if_neg (by omega), if_neg (by omega)]

/-- `strtol` reads an optional minus sign and digits to their end. -/
theorem strtol_digits (neg : Bool) :
    strtol ((if neg then str "-" else []) ++ (first :: more).map digitChar) base =
      let val := BitVec.ofNat 64 (Numeral.valueFrom base 0 (first :: more))
      (if neg then -val else val, []) := by
  have read : strtolLoop base 0 ((first :: more).map digitChar) = _ :=
    strtolLoop_digits base_le ds_lt 0
  rw [strtol, strtolSign_digits base_le ds_lt neg]
  dsimp only
  rw [strtolBase_digits two_le base_le ds_lt]
  dsimp only
  rw [read]

end

/-- Zeros in front of a numeral do not change what is read. -/
theorem strtol_numeral {base : Nat} (two_le : 2 ≤ base) (base_le : base ≤ 16) (neg : Bool)
    (zeros num : Nat) :
    strtol ((if neg then str "-" else []) ++ (List.replicate zeros (chr '0') ++ numeral base num))
        base =
      (if neg then -BitVec.ofNat 64 num else BitVec.ofNat 64 num, []) := by
  have digits_lt : ∀ digit ∈ List.replicate zeros 0 ++ Numeral.digits base num, digit < base := by
    intro digit digit_mem
    rcases List.mem_append.mp digit_mem with zero | digit_mem
    · rw [(List.mem_replicate.mp zero).2]
      omega
    · exact Numeral.digits_lt two_le num digit digit_mem
  have value_eq : Numeral.valueFrom base 0 (List.replicate zeros 0 ++ Numeral.digits base num) =
      num := by
    rw [Numeral.valueFrom_zeros, Numeral.valueFrom_digits two_le]
  have text_eq : List.replicate zeros (chr '0') ++ numeral base num =
      (List.replicate zeros 0 ++ Numeral.digits base num).map digitChar := by
    rw [List.map_append, List.map_replicate]
    rfl
  have nonempty : List.replicate zeros 0 ++ Numeral.digits base num ≠ [] :=
    List.append_ne_nil_of_right_ne_nil _ (Numeral.digits_ne_nil base num)
  obtain ⟨first, more, digits_eq⟩ := List.exists_cons_of_ne_nil nonempty
  rw [digits_eq] at digits_lt value_eq
  rw [text_eq, digits_eq, strtol_digits two_le base_le digits_lt, value_eq]

/-! ## Printed numbers -/

/-- The sign is the negation of the number behind it. -/
theorem negated_magnitude {conv : Conversion} (ne_pointer : conv ≠ .p) (value : BitVec 64) :
    ∃ neg : Bool, conv.lead value = (if neg then str "-" else []) ∧
      (if neg then -conv.magnitude value else conv.magnitude value) = value := by
  cases conv with
  | d | o =>
      refine ⟨value.slt 0, rfl, ?_⟩
      rw [Conversion.magnitude]
      split
      · exact BitVec.neg_neg
      · rfl
  | u | x => exact ⟨false, rfl, rfl⟩
  | p => exact absurd rfl ne_pointer

/-- The numeral with its zeros is read as the number that was printed. -/
theorem strtol_padded {conv : Conversion} (ne_pointer : conv ≠ .p) {d : Directive}
    (zeros : d.padc = chr '0' ∨ d.width < 0) (value : BitVec 64) :
    strtol (padded d conv value) conv.base = (value, []) := by
  have padding : List.replicate (d.width - (conv.body value).length).toNat d.padc =
      List.replicate (d.width - (conv.body value).length).toNat (chr '0') := by
    rcases zeros with zero | negative
    · rw [zero]
    · have none_missing : (d.width - (conv.body value).length).toNat = 0 := by omega
      rw [none_missing]
      rfl
  have base_le : conv.base ≤ 16 := by
    cases conv with
    | _ => decide
  obtain ⟨neg, lead_eq, value_eq⟩ := negated_magnitude ne_pointer value
  rw [padded, padding, lead_eq, Conversion.body,
    strtol_numeral conv.two_le_base base_le neg, BitVec.ofNat_toNat, BitVec.setWidth_eq, value_eq]

theorem emitted_text (color : Color) (text : List Byte) :
    emitted ((⟨[], color⟩ : State).text text).calls = text := by
  have back : ∀ byte : Byte, (signedChar byte).setWidth 8 = byte := by decide
  rw [State.text, State.putchs_calls, List.nil_append, emitted, List.map_map, List.map_map]
  exact (List.map_congr_left fun byte _ => back byte).trans (List.map_id text)

theorem padded_no_nul {d : Directive} (padc : d.padc ≠ 0) (conv : Conversion)
    (value : BitVec 64) : 0 ∉ padded d conv value := by
  have known : ∀ digit < 16, digitChar digit ≠ 0 := by decide
  have base_le : conv.base ≤ 16 := by
    cases conv with
    | _ => decide
  rw [padded, List.mem_append, List.mem_append]
  rintro (led | padding | digit)
  · revert led
    cases conv with
    | d | o =>
        rw [Conversion.lead]
        split
        · decide
        · exact List.not_mem_nil
    | u | x => exact List.not_mem_nil
    | p =>
        rw [Conversion.lead]
        decide
  · exact padc (List.mem_replicate.mp padding).2.symm
  · obtain ⟨digit, digit_mem, zero⟩ := List.mem_map.mp digit
    exact known digit ((Numeral.digits_lt conv.two_le_base _ digit digit_mem).trans_le base_le) zero

/-- A number that `snprintf` has printed with two `l`s, without a width or with
zeros in front, is read back by `strtol`, up to the terminating NUL. -/
theorem strtol_snprintf (mem : Mem) (color : Color) (args : Args) (conv : Conversion)
    (ne_pointer : conv ≠ .p) (flag : Flag) (spelling : Spelling)
    (unpadded : flag = .zero ∨ flag = .none ∧ spelling = .absent) {w : Nat} (w_lt : w < 2 ^ 31)
    (given : spelling.Given w args 0) (store : Nat → Byte) {buf : Nat} (buf_pos : buf ≠ 0)
    {n : Int} (n_lt : n < 2 ^ 31)
    (fits : ∀ text, Prints mem (chr '%' :: directiveBytes flag spelling w 2 conv) args text →
      text.length < n) :
    ∃ text printed,
      snprintf mem color store buf n (chr '%' :: directiveBytes flag spelling w 2 conv) args =
          some printed ∧
        Store.Holds printed.store buf (text ++ [0]) ∧ 0 ∉ text ∧
        strtol text conv.base = (args spelling.slots, []) := by
  have prints := prints_number mem args flag spelling given w_lt 2 conv
  have zeros : flag.padc = chr '0' ∨ spelling.width w < 0 := by
    rcases unpadded with rfl | ⟨-, rfl⟩
    · exact .inl rfl
    · exact .inr (Int.negSucc_lt_zero 0)
  have padc : flag.padc ≠ 0 := by
    cases flag with
    | none | zero | minus => decide
  have room := fits _ prints
  have calls_eq := emitted_text color
    (padded ⟨flag.padc, spelling.width w, -1, 2, false⟩ conv (args spelling.slots))
  have count := congrArg List.length calls_eq
  rw [emitted, List.length_map] at count
  have whole := vsnprintf_of_valid (prints ⟨[], color⟩) (by omega) store buf_pos (n := n) (by omega)
  rw [calls_eq, List.take_of_length_le (by omega)] at whole
  exact ⟨_, _, whole, Store.holds_write store buf _, padded_no_nul padc conv _,
    strtol_padded ne_pointer zeros _⟩

/-- The least number is its own negation. -/
theorem strtol_snprintf_least :
    let least : BitVec 64 := BitVec.intMin 64
    ∃ text printed,
      snprintf .bare .init (fun _ => 0x2A) 16 80
          (chr '%' :: directiveBytes .none .absent 0 2 .d) (fun _ => least) = some printed ∧
        Store.Holds printed.store 16 (text ++ [0]) ∧ 0 ∉ text ∧ strtol text 10 = (least, []) := by
  refine strtol_snprintf .bare .init (fun _ => BitVec.intMin 64) .d nofun .none .absent
    (.inr ⟨rfl, rfl⟩) (by decide) trivial (fun _ => 0x2A) (by decide) (by decide) ?_
  intro text prints
  have printed := prints_number .bare (fun _ => BitVec.intMin 64) .none .absent
    (w := 0) trivial (by decide) 2 .d
  have length_le := Conversion.length_body_le (BitVec.intMin 64) .d
  have lead_eq : Conversion.d.lead (BitVec.intMin 64) = str "-" := by decide
  have dash : (str "-").length = 1 := by decide
  rw [← (prints_iff_of printed text).mp prints]
  change ((padded ⟨chr ' ', -1, -1, 2, false⟩ .d (BitVec.intMin 64)).length : Int) < 80
  rw [padded_absent, Conversion.plain, lead_eq, List.length_append, dash]
  omega

end Jos64.Strings
