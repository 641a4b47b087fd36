import Jos64.Format.Width

/-!
# The value of a number directive

The number conversions fetch the whole slot of their argument, whatever the
number of `l`s, and `%o` splits off a sign like `%d`.  So `%d` shows an `int` only
if the caller has sign-extended it to its slot, and `%o` an unsigned number only
up to the greatest signed one.
-/

namespace Jos64.Format

open Jos64.Console

/-! ## Directives inside a format -/

/-- Wherever the directive stands in a format, it prints the text and leaves
the argument index at `ap'`. -/
def PrintsHere (mem : Mem) (args : Args) (ap ap' : Nat) (bytes text : List Byte) : Prop :=
  ∀ st rest, vprintfmtWith (printfmt mem) mem args ap st (bytes ++ rest) =
    vprintfmtWith (printfmt mem) mem args ap' (st.text text) rest

section

variable {mem : Mem} {args : Args} {ap ap' : Nat}

theorem printsHere_iff_of {bytes printed : List Byte}
    (prints : PrintsHere mem args ap ap' bytes printed) (text : List Byte) :
    PrintsHere mem args ap ap' bytes text ↔ printed = text := by
  constructor
  · intro same
    have twice := (prints ⟨[], .init⟩ []).symm.trans (same ⟨[], .init⟩ [])
    rw [vprintfmtWith_nil, vprintfmtWith_nil] at twice
    exact State.text_inj.mp (Option.some.inj twice)
  · rintro rfl
    exact prints

theorem printsHere_of_directive {bytes text : List Byte}
    (step : ∀ st rest, directive (printfmt mem) mem args ap st (bytes ++ rest) =
      some (st.text text, ap', rest)) :
    PrintsHere mem args ap ap' (chr '%' :: bytes) text := by
  intro st rest
  rw [List.cons_append, vprintfmtWith_directive (step st rest)]

end

/-- A number conversion without flags and width. -/
theorem printsHere_plain (mem : Mem) (args : Args) (ap longs : Nat) (conv : Conversion) :
    PrintsHere mem args ap (ap + 1) (chr '%' :: directiveBytes .none .absent 0 longs conv)
      (conv.plain (args ap)) := by
  apply printsHere_of_directive
  intro st rest
  rw [← padded_absent conv (args ap) longs]
  exact directive_number (printfmt mem) mem .none .absent trivial (by decide) longs conv st rest

/-! ## Numerals of numbers -/

/-- The text is the numeral of the number: a minus sign if it is negative, and
digits without zeros in front. -/
def IsNumeral (base : Nat) (x : Int) (text : List Byte) : Prop :=
  ∃ ds, Numeral.Canonical base x.natAbs ds ∧
    text = (if x < 0 then str "-" else []) ++ ds.map digitChar

/-- The numeral of a number. -/
def signedNumeral (base : Nat) (x : Int) : List Byte :=
  (if x < 0 then str "-" else []) ++ numeral base x.natAbs

theorem isNumeral_iff {base : Nat} (two_le : 2 ≤ base) {x : Int} {text : List Byte} :
    IsNumeral base x text ↔ text = signedNumeral base x := by
  constructor
  · rintro ⟨ds, canonical, rfl⟩
    rw [(Numeral.canonical_iff two_le).mp canonical]
    rfl
  · rintro rfl
    exact ⟨_, Numeral.canonical_digits two_le _, rfl⟩

theorem signedNumeral_natCast (base n : Nat) : signedNumeral base n = numeral base n := by
  rw [signedNumeral, if_neg (Int.not_lt.mpr (Int.natCast_nonneg n)), List.nil_append,
    Int.natAbs_natCast]

section

variable {base : Nat} (two_le : 2 ≤ base) (small : base ≤ 16)

include two_le small

theorem numeral_injective : Function.Injective (numeral base) := by
  have known : ∀ digit < 16, ∀ other < 16, digitChar digit = digitChar other → digit = other := by
    decide
  intro n m same
  apply Numeral.digits_injective two_le
  have digit_lt (n digit : Nat) (digit_mem : digit ∈ Numeral.digits base n) : digit < 16 :=
    (Numeral.digits_lt two_le n digit digit_mem).trans_le small
  have lengths : (Numeral.digits base n).length = (Numeral.digits base m).length := by
    rw [← length_numeral, ← length_numeral, same]
  apply List.ext_getElem lengths
  intro index bound other_bound
  apply known _ (digit_lt n _ (List.getElem_mem bound)) _
    (digit_lt m _ (List.getElem_mem other_bound))
  have digit_eq : (numeral base n)[index]? = (numeral base m)[index]? := by rw [same]
  rw [numeral, numeral, List.getElem?_map, List.getElem?_map, List.getElem?_eq_getElem bound,
    List.getElem?_eq_getElem other_bound] at digit_eq
  exact Option.some.inj digit_eq

/-- A numeral with a minus sign is not one without. -/
theorem minus_numeral_ne (n m : Nat) : str "-" ++ numeral base n ≠ numeral base m := by
  intro same
  have dash : chr '-' ∈ numeral base m := same ▸ List.mem_append_left _ List.mem_cons_self
  exact numeral_no_minus two_le small m _ dash rfl

theorem signedNumeral_inj {x y : Int} : signedNumeral base x = signedNumeral base y ↔ x = y := by
  constructor
  · intro same
    by_cases x_neg : x < 0
    · by_cases y_neg : y < 0
      · rw [signedNumeral, signedNumeral, if_pos x_neg, if_pos y_neg] at same
        have magnitudes := numeral_injective two_le small (List.append_cancel_left same)
        omega
      · rw [signedNumeral, signedNumeral, if_pos x_neg, if_neg y_neg] at same
        exact absurd same (minus_numeral_ne two_le small _ _)
    · by_cases y_neg : y < 0
      · rw [signedNumeral, signedNumeral, if_neg x_neg, if_pos y_neg] at same
        exact absurd same.symm (minus_numeral_ne two_le small _ _)
      · rw [signedNumeral, signedNumeral, if_neg x_neg, if_neg y_neg] at same
        have magnitudes := numeral_injective two_le small same
        omega
  · rintro rfl
    rfl

end

/-- What `%d` and `%o` print is the numeral of a signed number. -/
theorem plain_signed {conv : Conversion} (signed : conv = .d ∨ conv = .o) (value : BitVec 64) :
    conv.plain value = signedNumeral conv.base value.toInt := by
  have lead_eq : conv.lead value = if value.toInt < 0 then str "-" else [] := by
    rcases signed with rfl | rfl
    · simp [Conversion.lead, BitVec.slt_iff_toInt_lt]
    · simp [Conversion.lead, BitVec.slt_iff_toInt_lt]
  have magnitude_eq : (conv.magnitude value).toNat = value.toInt.natAbs := by
    have cases : conv.magnitude value = if value.slt 0 then -value else value := by
      rcases signed with rfl | rfl
      · rfl
      · rfl
    rw [cases]
    split
    · rename_i negative
      rw [BitVec.slt_iff_toInt_lt] at negative
      rw [BitVec.toNat_neg]
      rw [BitVec.toInt_eq_toNat_cond] at negative ⊢
      have bound := value.isLt
      change _ < (0 : Int) at negative
      split at negative
      · omega
      · rw [if_neg ‹_›]
        omega
    · rename_i positive
      rw [BitVec.slt_iff_toInt_lt] at positive
      rw [BitVec.toInt_eq_toNat_cond] at positive ⊢
      have bound := value.isLt
      change ¬ _ < (0 : Int) at positive
      split at positive
      · rw [if_pos ‹_›]
        omega
      · omega
  rw [Conversion.plain, Conversion.body, lead_eq, magnitude_eq]
  rfl

/-- Of the texts with a property, a directive prints the one it prints. -/
theorem exists_printsHere_iff {mem : Mem} {args : Args} {ap ap' : Nat}
    {bytes printed : List Byte} (prints : PrintsHere mem args ap ap' bytes printed)
    (spec : List Byte → Prop) :
    (∃ text, spec text ∧ PrintsHere mem args ap ap' bytes text) ↔ spec printed := by
  constructor
  · rintro ⟨text, shown, same⟩
    rw [(printsHere_iff_of prints text).mp same]
    exact shown
  · exact fun shown => ⟨printed, shown, prints⟩

/-! ## Numbers of 32 bits -/

theorem append_eq_signExtend_iff (upper v : BitVec 32) :
    upper ++ v = v.signExtend 64 ↔ upper = if v.msb then BitVec.allOnes 32 else 0 := by
  have upper_half (x y : BitVec 32) : (x ++ y).extractLsb' 32 32 = x := by
    rw [BitVec.extractLsb'_append_eq_of_le (by decide), BitVec.extractLsb'_eq_self]
  rw [BitVec.signExtend_eq_append_of_le (by decide)]
  constructor
  · intro same
    have halves := congrArg (BitVec.extractLsb' 32 32) same
    rw [upper_half] at halves
    rw [halves]
    exact upper_half _ _
  · rintro rfl
    rfl

theorem toInt_append_eq_iff (upper v : BitVec 32) :
    (upper ++ v).toInt = v.toInt ↔ upper = if v.msb then BitVec.allOnes 32 else 0 := by
  rw [← append_eq_signExtend_iff, ← BitVec.toInt_inj, BitVec.toInt_signExtend_of_le (by decide)]

theorem printsHere_d (mem : Mem) (args : Args) (ap : Nat) :
    PrintsHere mem args ap (ap + 1) (str "%d") (signedNumeral 10 (args ap).toInt) := by
  have plain_eq : Conversion.d.plain (args ap) = signedNumeral 10 (args ap).toInt :=
    plain_signed (.inl rfl) (args ap)
  rw [← plain_eq]
  exact printsHere_plain mem args ap 0 .d

/-- `%d` prints the numeral of an `int` exactly if the upper half of its slot
repeats the sign. -/
theorem int_numeral_iff (mem : Mem) (args : Args) (ap : Nat) (upper v : BitVec 32) :
    (∃ text, IsNumeral 10 v.toInt text ∧
        PrintsHere mem (Function.update args ap (upper ++ v)) ap (ap + 1) (str "%d") text) ↔
      upper = if v.msb then BitVec.allOnes 32 else 0 := by
  rw [exists_printsHere_iff (printsHere_d mem _ ap), Function.update_self,
    isNumeral_iff (by decide), signedNumeral_inj (by decide) (by decide), toInt_append_eq_iff]

/-- The number -1 in a slot with an empty upper half. -/
theorem minus_one_int_not_printed :
    ¬ ∃ text, IsNumeral 10 (-1 : BitVec 32).toInt text ∧
      PrintsHere .bare (Function.update (fun _ => 0) 0 ((0 : BitVec 32) ++ (-1 : BitVec 32))) 0 1
        (str "%d") text := by
  rw [exists_printsHere_iff (printsHere_d .bare _ 0), Function.update_self,
    isNumeral_iff (by decide), signedNumeral_inj (by decide) (by decide), toInt_append_eq_iff]
  decide

/-! ## Numbers of 64 bits -/

/-- The text shows the number: signed for `%d`, and unsigned for the others,
which for `%p` stand behind `0x`. -/
def Conversion.Shows (value : BitVec 64) : Conversion → List Byte → Prop
  | d, text => IsNumeral 10 value.toInt text
  | u, text => IsNumeral 10 value.toNat text
  | o, text => IsNumeral 8 value.toNat text
  | x, text => IsNumeral 16 value.toNat text
  | p, text => ∃ digits, IsNumeral 16 value.toNat digits ∧ text = str "0x" ++ digits

theorem toInt_eq_toNat_iff (value : BitVec 64) :
    value.toInt = value.toNat ↔ value.toNat < 2 ^ 63 := by
  have bound := value.isLt
  rw [BitVec.toInt_eq_toNat_cond]
  split
  · omega
  · omega

/-- What is printed shows the number, except for an octal number with a sign. -/
theorem shows_plain_iff (conv : Conversion) (value : BitVec 64) :
    conv.Shows value (conv.plain value) ↔ (conv = .o → value.toNat < 2 ^ 63) := by
  cases conv with
  | d =>
      rw [Conversion.Shows, isNumeral_iff (by decide), plain_signed (.inl rfl)]
      exact iff_of_true rfl nofun
  | u =>
      rw [Conversion.Shows, isNumeral_iff (by decide), signedNumeral_natCast]
      exact iff_of_true rfl nofun
  | o =>
      rw [Conversion.Shows, isNumeral_iff (by decide), plain_signed (.inr rfl),
        ← toInt_eq_toNat_iff, Conversion.base, signedNumeral_inj (by decide) (by decide)]
      exact ⟨fun same _ => same, fun same => same rfl⟩
  | x =>
      rw [Conversion.Shows, isNumeral_iff (by decide), signedNumeral_natCast]
      exact iff_of_true rfl nofun
  | p =>
      refine iff_of_true ⟨_, (isNumeral_iff (by decide)).mpr rfl, ?_⟩ nofun
      rw [signedNumeral_natCast]
      rfl

/-- Without flags and width, a number conversion prints the canonical numeral of
its number exactly if it is not `%o` or the number has no sign bit. -/
theorem number_shown_iff (mem : Mem) (args : Args) (ap longs : Nat) (conv : Conversion) :
    (∃ text, conv.Shows (args ap) text ∧ PrintsHere mem args ap (ap + 1)
        (chr '%' :: directiveBytes .none .absent 0 longs conv) text) ↔
      (conv = .o → (args ap).toNat < 2 ^ 63) := by
  rw [exists_printsHere_iff (printsHere_plain mem args ap longs conv), shows_plain_iff]

/-- The greatest number is printed in octal as `-1`. -/
theorem greatest_octal_not_shown :
    ¬ ∃ text, Conversion.o.Shows (-1) text ∧
      PrintsHere .bare (fun _ => -1) 0 1 (str "%o") text := by
  have prints : PrintsHere .bare (fun _ => -1) 0 1 (str "%o") (Conversion.o.plain (-1)) :=
    printsHere_plain .bare (fun _ => -1) 0 0 .o
  rw [exists_printsHere_iff prints, shows_plain_iff]
  decide

end Jos64.Format
