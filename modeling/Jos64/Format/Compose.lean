import Jos64.Console.Printf
import Jos64.Format.ErrorCode

/-!
# Formats piece by piece

A format is a sequence of texts and directives.  Each directive takes its arguments
where the ones in front of it have left off, and what the whole prints is what the
pieces print, in order.
-/

namespace Jos64.Format

open Jos64.Console

/-- A byte that is printed as it stands. -/
def Plain (ch : Byte) : Prop :=
  Passable ch ∧ ch < 0x80

instance : DecidablePred Plain := fun _ => inferInstanceAs (Decidable (_ ∧ _))

/-- The test on a character of a literal. -/
def isPlain (c : Char) : Bool :=
  c.toNat < 0x80 && c.toNat != 0x25 && c.toNat != 0x1B

theorem plain_str {s : String} (plain : s.toList.all isPlain) : ∀ ch ∈ str s, Plain ch := by
  intro ch member
  obtain ⟨c, c_mem, rfl⟩ := List.mem_map.mp member
  have tested := List.all_eq_true.mp plain c c_mem
  simp only [isPlain, Bool.and_eq_true, decide_eq_true_eq, bne_iff_ne] at tested
  obtain ⟨⟨ascii, not_percent⟩, not_esc⟩ := tested
  have value_eq : (chr c).toNat = c.toNat := by
    rw [chr, BitVec.toNat_ofNat]
    omega
  refine ⟨⟨fun same => not_percent ?_, fun same => not_esc ?_⟩, ?_⟩
  · rw [← value_eq, same]
    rfl
  · rw [← value_eq, same]
    rfl
  · rw [BitVec.lt_def, value_eq]
    exact ascii

theorem str_append (a b : String) : str (a ++ b) = str a ++ str b := by
  rw [str, String.toList_append, List.map_append]
  rfl

/-! ## Putting directives together -/

section

variable {mem : Mem} {args : Args} {ap ap' ap'' : Nat}

theorem PrintsHere.append {bytes bytes' text text' : List Byte}
    (front : PrintsHere mem args ap ap' bytes text)
    (behind : PrintsHere mem args ap' ap'' bytes' text') :
    PrintsHere mem args ap ap'' (bytes ++ bytes') (text ++ text') := by
  intro st rest
  rw [List.append_assoc, front, behind, State.text_append]

theorem unsignedChar_eq_signedChar : ∀ ch : Byte, ch < 0x80 → unsignedChar ch = signedChar ch := by
  decide

theorem printsHere_text {bytes : List Byte} (plain : ∀ ch ∈ bytes, Plain ch) :
    PrintsHere mem args ap ap bytes bytes := by
  intro st rest
  rw [vprintfmtWith_append fun ch member => (plain ch member).1, State.text]
  congr 2
  exact List.map_congr_left fun ch member => unsignedChar_eq_signedChar ch (plain ch member).2

theorem printsHere_str {s : String} (plain : s.toList.all isPlain) :
    PrintsHere mem args ap ap (str s) (str s) :=
  printsHere_text (plain_str plain)

theorem printsHere_percent : PrintsHere mem args ap ap (str "%%") (str "%") := by
  rw [show str "%%" = chr '%' :: [chr '%'] by decide]
  apply printsHere_of_directive
  intro st rest
  rw [List.singleton_append, directive_conversion (by decide)]
  rfl

theorem printsHere_c {c : Byte} (promoted : (args ap).setWidth 32 = signedChar c) :
    PrintsHere mem args ap (ap + 1) (str "%c") [c] := by
  rw [show str "%c" = chr '%' :: [chr 'c'] by decide]
  apply printsHere_of_directive
  intro st rest
  rw [List.singleton_append, directive_conversion (by decide)]
  change some (st.putch ((args ap).setWidth 32), ap + 1, rest) = _
  rw [promoted]
  rfl

theorem printsHere_s (length_lt : (pointed mem (args ap)).length < 2 ^ 31) :
    PrintsHere mem args ap (ap + 1) (str "%s") (pointed mem (args ap)) := by
  rw [show str "%s" = chr '%' :: [chr 's'] by decide]
  apply printsHere_of_directive
  intro st rest
  rw [List.singleton_append, directive_conversion (by decide)]
  change some (convertString mem .init (args ap) st, ap + 1, rest) = _
  rw [convertString_init mem length_lt]

theorem printsHere_number (flag : Flag) {spelling : Spelling} {w : Nat}
    (given : spelling.Given w args ap) (small : w < 2 ^ 31) (longs : Nat) (conv : Conversion) :
    PrintsHere mem args ap (ap + (spelling.slots + 1))
      (chr '%' :: directiveBytes flag spelling w longs conv)
      (padded ⟨flag.padc, spelling.width w, -1, longs, false⟩ conv
        (args (ap + spelling.slots))) := by
  apply printsHere_of_directive
  intro st rest
  rw [← Nat.add_assoc]
  exact directive_number (printfmt mem) mem flag spelling given small longs conv st rest

end

/-! ## Pieces -/

/-- A piece of a format: text, `%%`, `%c`, `%s`, `%s` in a field, a number, or `%e`. -/
inductive Item where
  | text (bytes : List Byte)
  | percent
  | char
  | string
  | field (spec : Field)
  | number (flag : Flag) (spelling : Spelling) (w longs : Nat) (conv : Conversion)
  | error

namespace Item

def bytes : Item → List Byte
  | text bytes => bytes
  | percent => str "%%"
  | char => str "%c"
  | string => str "%s"
  | field spec => chr '%' :: spec.bytes
  | number flag spelling w longs conv => chr '%' :: directiveBytes flag spelling w longs conv
  | error => str "%e"

/-- The number of arguments that it takes. -/
def slots : Item → Nat
  | text _ | percent => 0
  | char | string | field _ | error => 1
  | number _ spelling _ _ _ => spelling.slots + 1

section

variable (mem : Mem) (args : Args) (ap : Nat)

/-- The argument is one for the directive: a character, a string whose length is an `int`,
a width as it is spelled, or a code that has a magnitude. -/
def Fits : Item → Prop
  | text bytes => ∀ ch ∈ bytes, Plain ch
  | percent => True
  | char => (args ap).setWidth 32 = signedChar ((args ap).setWidth 8)
  | string | field _ => (pointed mem (args ap)).length < 2 ^ 31
  | number _ spelling w _ _ => spelling.Given w args ap ∧ w < 2 ^ 31
  | error => (args ap).setWidth 32 ≠ BitVec.intMin 32

/-- What it prints. -/
def printed : Item → List Byte
  | text bytes => bytes
  | percent => str "%"
  | char => [(args ap).setWidth 8]
  | string => pointed mem (args ap)
  | field spec => stringText spec.directive spec.width (pointed mem (args ap))
  | number flag spelling w longs conv =>
      padded ⟨flag.padc, spelling.width w, -1, longs, false⟩ conv (args (ap + spelling.slots))
  | error => errorShown (intArg (args ap)).natAbs

variable {mem args ap} in
theorem printsHere {item : Item} (fits : item.Fits mem args ap) :
    PrintsHere mem args ap (ap + item.slots) item.bytes (item.printed mem args ap) := by
  cases item with
  | text bytes => exact printsHere_text fits
  | percent => exact printsHere_percent
  | char => exact printsHere_c fits
  | string => exact printsHere_s fits
  | field spec => exact spec.printsHere_bytes mem args ap fits
  | number flag spelling w longs conv => exact printsHere_number flag fits.1 fits.2 longs conv
  | error => exact printsHere_e (errorIndex_eq fits rfl) (natAbs_lt fits)

end

end Item

/-! ## Formats -/

section

variable (mem : Mem) (args : Args)

def itemBytes (items : List Item) : List Byte :=
  items.flatMap Item.bytes

/-- The number of arguments that the pieces take. -/
def itemSlots (items : List Item) : Nat :=
  (items.map Item.slots).sum

/-- Each piece finds its arguments behind those of the pieces in front of it. -/
def ItemsFit : (ap : Nat) → List Item → Prop
  | _, [] => True
  | ap, item :: items => item.Fits mem args ap ∧ ItemsFit (ap + item.slots) items

/-- What the pieces print. -/
def itemsPrinted : (ap : Nat) → List Item → List Byte
  | _, [] => []
  | ap, item :: items => item.printed mem args ap ++ itemsPrinted (ap + item.slots) items

variable {mem args}

theorem printsHere_items {ap : Nat} {items : List Item} (fit : ItemsFit mem args ap items) :
    PrintsHere mem args ap (ap + itemSlots items) (itemBytes items)
      (itemsPrinted mem args ap items) := by
  induction items generalizing ap with
  | nil =>
      intro st rest
      rfl
  | cons item items ih =>
      have behind := ih fit.2
      have slots_eq : ap + itemSlots (item :: items) = ap + item.slots + itemSlots items := by
        rw [itemSlots, List.map_cons, List.sum_cons, ← Nat.add_assoc]
        rfl
      rw [slots_eq]
      exact (Item.printsHere fit.1).append behind

theorem cprintf_of_printsHere {log : Log} {fmt text : List Byte} {ap : Nat}
    (prints : PrintsHere mem args 0 ap fmt text) :
    cprintf mem log fmt args = some (0, log.text text) := by
  have run := prints log []
  rw [List.append_nil, vprintfmtWith_nil] at run
  rw [cprintf, vcprintf, vprintfmt, run, Option.map_some, foldl_putch]

/-- A format that is made of pieces prints what they print, in their order. -/
theorem cprintf_items {items : List Item} (fit : ItemsFit mem args 0 items) (log : Log) :
    cprintf mem log (itemBytes items) args =
      some (0, log.text (itemsPrinted mem args 0 items)) :=
  cprintf_of_printsHere (printsHere_items fit)

end

/-- A number that is padded with zeros, and a percent sign behind it. -/
theorem cprintf_items_padded :
    cprintf .bare ⟨[], .init⟩ (str "rip %08x%%") (fun _ => 7) =
      some (0, State.text ⟨[], .init⟩ (str "rip 00000007%")) := by
  let items : List Item := [.text (str "rip "), .number .zero .decimal 8 0 .x, .percent]
  have width_eq : numeral 10 8 = [chr '8'] := numeral_of_lt (by decide)
  have value_eq : numeral 16 7 = [chr '7'] := numeral_of_lt (by decide)
  have bytes_eq : itemBytes items = str "rip %08x%%" := by
    change str "rip " ++ ((chr '%' :: ([chr '0'] ++ (numeral 10 8 ++ ([] ++ [chr 'x'])))) ++ _) = _
    rw [width_eq]
    decide
  have printed_eq : itemsPrinted .bare (fun _ => 7) 0 items = str "rip 00000007%" := by
    change str "rip " ++ (([] ++ (List.replicate ((8 : Int) - (numeral 16 7).length).toNat _ ++
      numeral 16 7)) ++ _) = _
    rw [value_eq]
    decide
  have rip_plain : ∀ ch ∈ str "rip ", Plain ch := by decide
  have fit : ItemsFit .bare (fun _ => 7) 0 items :=
    ⟨rip_plain, ⟨⟨by decide, by decide⟩, by decide⟩, trivial, trivial⟩
  rw [← bytes_eq, ← printed_eq]
  exact cprintf_items fit ⟨[], .init⟩

end Jos64.Format
