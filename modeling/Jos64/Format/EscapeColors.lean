import Jos64.Format.Escape
import Mathlib.Data.List.DropRight

/-!
# What colour escapes compose to

The code and the documentation each fold a list of parameters into the flag.
The two folds are compared bit by bit: a parameter writes some bits of the flag
and keeps the others, and a bit ends as its last writer leaves it.
-/

namespace Jos64.Format

open Jos64.Console

/-! ## The documented meaning -/

def IsForeground (p : Nat) : Prop :=
  30 ≤ p ∧ p ≤ 37

def IsBackground (p : Nat) : Prop :=
  40 ≤ p ∧ p ≤ 47

instance : DecidablePred IsForeground := fun _ => inferInstanceAs (Decidable (_ ∧ _))

instance : DecidablePred IsBackground := fun _ => inferInstanceAs (Decidable (_ ∧ _))

/-- The colour number of the screen for one of the terminal: red, green and
blue are bits 0 to 2 there and bits 2 to 0 here. -/
def cgaColor (ansi : Nat) : BitVec 32 :=
  BitVec.ofNat 32
    (4 * (ansi.testBit 0).toNat + 2 * (ansi.testBit 1).toNat + (ansi.testBit 2).toNat)

/-- The documented effect of one parameter. -/
def documentedColor (flag : BitVec 32) (p : Nat) : BitVec 32 :=
  if p = 0 then 0x07
  else if IsForeground p then flag &&& ~~~(0x07 : BitVec 32) ||| cgaColor (p - 30)
  else if IsBackground p then flag &&& ~~~(0x70 : BitVec 32) ||| cgaColor (p - 40) <<< 4
  else flag

/-- The four kinds of parameter. -/
theorem param_cases (p : Nat) :
    p = 0 ∨ (∃ ansi : Fin 8, p = 30 + ansi) ∨ (∃ ansi : Fin 8, p = 40 + ansi) ∨
      (p ≠ 0 ∧ ¬ IsForeground p ∧ ¬ IsBackground p) := by
  by_cases foreground : IsForeground p
  · obtain ⟨low, high⟩ := foreground
    exact .inr (.inl ⟨⟨p - 30, by omega⟩, by simp; omega⟩)
  by_cases background : IsBackground p
  · obtain ⟨low, high⟩ := background
    exact .inr (.inr (.inl ⟨⟨p - 40, by omega⟩, by simp; omega⟩))
  by_cases reset : p = 0
  · exact .inl reset
  · exact .inr (.inr (.inr ⟨reset, foreground, background⟩))

section Kinds

variable (ansi : Fin 8) {p : Nat}

theorem isForeground_add : IsForeground (30 + ansi) :=
  ⟨by omega, by omega⟩

theorem isBackground_add : IsBackground (40 + ansi) :=
  ⟨by omega, by omega⟩

theorem not_isForeground_add : ¬ IsForeground (40 + ansi) := by
  unfold IsForeground
  omega

theorem IsForeground.ne_zero (foreground : IsForeground p) : p ≠ 0 := by
  have := foreground.1
  omega

theorem IsBackground.ne_zero (background : IsBackground p) : p ≠ 0 := by
  have := background.1
  omega

theorem IsBackground.not_isForeground (background : IsBackground p) : ¬ IsForeground p := by
  intro foreground
  have := background.1
  have := foreground.2
  omega

end Kinds

/-! ## One parameter, one bit -/

theorem cgaColor_getLsbD : ∀ (ansi : Fin 8) (i : Fin 32),
    3 ≤ i.val → (cgaColor ansi).getLsbD i = false := by
  decide

theorem documentedColor_getLsbD (flag : BitVec 32) (p : Nat) (i : Fin 32) :
    (documentedColor flag p).getLsbD i =
      if p = 0 then decide (i.val < 3)
      else if IsForeground p ∧ i.val < 3 then (cgaColor (p - 30)).getLsbD i
      else if IsBackground p ∧ 4 ≤ i.val ∧ i.val < 7 then (cgaColor (p - 40)).getLsbD (i - 4)
      else flag.getLsbD i := by
  rcases param_cases p with rfl | ⟨ansi, rfl⟩ | ⟨ansi, rfl⟩ | ⟨reset, foreground, background⟩
  · have bits : ∀ i : Fin 32, (0x07#32).getLsbD i = decide (i.val < 3) := by decide
    exact bits i
  · have kept : ∀ i : Fin 32, (~~~(0x07 : BitVec 32)).getLsbD i = decide (3 ≤ i.val) := by decide
    have not_background : ¬ IsBackground (30 + ansi) :=
      fun background => background.not_isForeground (isForeground_add ansi)
    rw [documentedColor, if_neg (by omega), if_pos (isForeground_add ansi), BitVec.getLsbD_or,
      BitVec.getLsbD_and, kept, if_neg (by omega)]
    by_cases low : i.val < 3
    · simp [low, isForeground_add]
    · rw [Nat.add_sub_cancel_left, cgaColor_getLsbD ansi i (by omega)]
      simp [low, not_background, show 3 ≤ i.val by omega]
  · have kept : ∀ i : Fin 32,
        (~~~(0x70 : BitVec 32)).getLsbD i = !decide (4 ≤ i.val ∧ i.val < 7) := by decide
    have shifted : ∀ (ansi : Fin 8) (i : Fin 32), (cgaColor ansi <<< 4).getLsbD i =
        (decide (4 ≤ i.val ∧ i.val < 7) && (cgaColor ansi).getLsbD (i - 4)) := by decide
    rw [documentedColor, if_neg (by omega), if_neg (not_isForeground_add ansi),
      if_pos (isBackground_add ansi), BitVec.getLsbD_or, BitVec.getLsbD_and, kept,
      Nat.add_sub_cancel_left, shifted, if_neg (by omega)]
    by_cases middle : 4 ≤ i.val ∧ i.val < 7
    · simp [middle, not_isForeground_add, isBackground_add]
    · simp [middle, not_isForeground_add]
  · simp [documentedColor, reset, foreground, background]

theorem interpretColor_getLsbD (flag : BitVec 32) (p : Nat) (i : Fin 32) :
    (interpretColor flag p).getLsbD i =
      if p = 0 then decide (i.val < 3)
      else if IsForeground p then
        if i.val < 3 then (cgaColor (p - 30)).getLsbD i else decide (i.val < 8) && flag.getLsbD i
      else if IsBackground p then
        if i.val < 2 then flag.getLsbD i || (cgaColor (p - 40)).getLsbD i
        else if i.val = 6 then (cgaColor (p - 40)).getLsbD 2
        else !decide (i.val = 4 ∨ i.val = 5 ∨ 8 ≤ i.val) && flag.getLsbD i
      else flag.getLsbD i := by
  rcases param_cases p with rfl | ⟨ansi, rfl⟩ | ⟨ansi, rfl⟩ | ⟨reset, foreground, background⟩
  · have bits : ∀ i : Fin 32, (0x07#32).getLsbD i = decide (i.val < 3) := by decide
    exact bits i
  · have kept : ∀ i : Fin 32,
        (0xF8 : BitVec 32).getLsbD i = decide (3 ≤ i.val ∧ i.val < 8) := by decide
    have color_eq : ∀ ansi : Fin 8, colorFun (BitVec.ofNat 32 ansi) = cgaColor ansi := by decide
    have offset : ((30 + ansi : Nat) : Int) - 30 = (ansi : Nat) := by omega
    rw [interpretColor, if_neg (by omega), if_pos (by omega), offset, BitVec.ofInt_natCast,
      color_eq, BitVec.getLsbD_or, BitVec.getLsbD_and, kept, if_neg (by omega),
      if_pos (isForeground_add ansi), Nat.add_sub_cancel_left]
    by_cases low : i.val < 3
    · simp [low]
    · rw [cgaColor_getLsbD ansi i (by omega)]
      simp [low, show 3 ≤ i.val by omega, Bool.and_comm]
  · have kept : ∀ i : Fin 32, (0x8F : BitVec 32).getLsbD i = decide (i.val < 4 ∨ i.val = 7) := by
      decide
    have shifted : ∀ (ansi : Fin 8) (i : Fin 32),
        (colorFunShl4 (BitVec.ofNat 32 ansi)).getLsbD i =
          if i.val < 2 then (cgaColor ansi).getLsbD i
          else decide (i.val = 6) && (cgaColor ansi).getLsbD 2 := by decide
    have offset : ((40 + ansi : Nat) : Int) - 40 = (ansi : Nat) := by omega
    rw [interpretColor, if_neg (by omega), if_neg (by omega), if_pos (by omega), offset,
      BitVec.ofInt_natCast, BitVec.getLsbD_or, BitVec.getLsbD_and, kept, shifted,
      if_neg (show 40 + (ansi : Nat) ≠ 0 by omega), if_neg (not_isForeground_add ansi),
      if_pos (isBackground_add ansi), Nat.add_sub_cancel_left]
    by_cases low : i.val < 2
    · simp [low, show i.val < 4 by omega]
    by_cases red : i.val = 6
    · simp [red]
    · have same : decide (i.val < 4 ∨ i.val = 7) = !decide (i.val = 4 ∨ i.val = 5 ∨ 8 ≤ i.val) := by
        rw [← decide_not, decide_eq_decide]
        omega
      rw [same, if_neg low, if_neg low, if_neg red, decide_eq_false red, Bool.false_and,
        Bool.or_false, Bool.and_comm]
  · have not_foreground : ¬ ((p : Int) ≥ 30 ∧ (p : Int) ≤ 37) := by
      unfold IsForeground at foreground
      omega
    have not_background : ¬ ((p : Int) ≥ 40 ∧ (p : Int) ≤ 47) := by
      unfold IsBackground at background
      omega
    rw [interpretColor, if_neg (by omega), if_neg not_foreground, if_neg not_background,
      if_neg reset, if_neg foreground, if_neg background]

/-! ## All parameters, one bit -/

/-- The documented effect of several parameters. -/
def documentedParams (flag : BitVec 32) (params : List Nat) : BitVec 32 :=
  params.foldl documentedColor flag

theorem documentedParams_concat (flag : BitVec 32) (params : List Nat) (p : Nat) :
    documentedParams flag (params ++ [p]) = documentedColor (documentedParams flag params) p :=
  List.foldl_concat _ _ _ _

theorem interpretParams_concat (flag : BitVec 32) (params : List Nat) (p : Nat) :
    interpretParams flag (params ++ [p]) = interpretColor (interpretParams flag params) p :=
  interpretParams_append flag params [p]

/-- A parameter that sets the foreground, or all attributes. -/
def SetsForeground (p : Nat) : Prop :=
  p = 0 ∨ IsForeground p

/-- A parameter that sets the background, or all attributes. -/
def SetsBackground (p : Nat) : Prop :=
  p = 0 ∨ IsBackground p

instance : DecidablePred SetsForeground := fun _ => inferInstanceAs (Decidable (_ ∨ _))

instance : DecidablePred SetsBackground := fun _ => inferInstanceAs (Decidable (_ ∨ _))

/-- The parameter that the background comes from. -/
def lastBackground (params : List Nat) : Option Nat :=
  (params.filter SetsBackground).getLast?

/-- A flag with the foreground that the last parameter to set it asks for. -/
def lastForeground (flag : BitVec 32) (params : List Nat) : BitVec 32 :=
  (params.filter SetsForeground).getLast?.elim flag (documentedColor 0)

/-- The parameters after the last one that sets the foreground. -/
def sinceForeground (params : List Nat) : List Nat :=
  params.rtakeWhile fun p => ¬ SetsForeground p

theorem lastBackground_concat_pos (params : List Nat) {p : Nat} (sets : SetsBackground p) :
    lastBackground (params ++ [p]) = some p := by
  rw [lastBackground, List.filter_append, List.filter_singleton, decide_eq_true sets, cond_true,
    List.getLast?_concat]

theorem lastBackground_concat_neg (params : List Nat) {p : Nat} (keeps : ¬ SetsBackground p) :
    lastBackground (params ++ [p]) = lastBackground params := by
  rw [lastBackground, List.filter_append, List.filter_singleton, decide_eq_false keeps, cond_false,
    List.append_nil, lastBackground]

theorem lastForeground_concat_pos (flag : BitVec 32) (params : List Nat) {p : Nat}
    (sets : SetsForeground p) : lastForeground flag (params ++ [p]) = documentedColor 0 p := by
  rw [lastForeground, List.filter_append, List.filter_singleton, decide_eq_true sets, cond_true,
    List.getLast?_concat, Option.elim_some]

theorem lastForeground_concat_neg (flag : BitVec 32) (params : List Nat) {p : Nat}
    (keeps : ¬ SetsForeground p) :
    lastForeground flag (params ++ [p]) = lastForeground flag params := by
  rw [lastForeground, List.filter_append, List.filter_singleton, decide_eq_false keeps, cond_false,
    List.append_nil, lastForeground]

theorem sinceForeground_concat_pos (params : List Nat) {p : Nat} (sets : SetsForeground p) :
    sinceForeground (params ++ [p]) = [] :=
  List.rtakeWhile_concat_neg _ _ _ (by simpa using sets)

theorem sinceForeground_concat_neg (params : List Nat) {p : Nat} (keeps : ¬ SetsForeground p) :
    sinceForeground (params ++ [p]) = sinceForeground params ++ [p] :=
  List.rtakeWhile_concat_pos _ _ _ (by simpa using keeps)

section Bits

variable (flag : BitVec 32) (params : List Nat)

/-- Red, the intensity and the blinking are right. -/
theorem interpretParams_same_bits (i : Fin 32)
    (same : i.val = 2 ∨ i.val = 3 ∨ i.val = 6 ∨ i.val = 7) :
    (interpretParams flag params).getLsbD i = (documentedParams flag params).getLsbD i := by
  induction params using List.reverseRecOn with
  | nil => rfl
  | append_singleton params p ih =>
      rw [interpretParams_concat, documentedParams_concat, interpretColor_getLsbD,
        documentedColor_getLsbD, ih]
      by_cases reset : p = 0
      · rw [if_pos reset, if_pos reset]
      rw [if_neg reset, if_neg reset]
      by_cases foreground : IsForeground p
      · have not_background : ¬ IsBackground p :=
          fun background => background.not_isForeground foreground
        simp only [foreground, not_background, if_true, true_and, false_and, if_false,
          show i.val < 8 by omega, decide_true, Bool.true_and]
      by_cases background : IsBackground p
      · simp only [foreground, background, if_true, true_and, false_and, if_false,
          show ¬ i.val < 2 by omega]
        by_cases red : i.val = 6
        · simp only [red, if_true, show 4 ≤ 6 ∧ 6 < 7 by omega]
          rfl
        · simp only [red, if_false, show ¬ (i.val = 4 ∨ i.val = 5 ∨ 8 ≤ i.val) by omega,
            show ¬ (4 ≤ i.val ∧ i.val < 7) by omega, decide_false, Bool.not_false, Bool.true_and]
      · simp only [foreground, background, false_and, if_false]

theorem documentedParams_high (i : Fin 32) (high : 8 ≤ i.val) :
    (documentedParams flag params).getLsbD i = (!decide (0 ∈ params) && flag.getLsbD i) := by
  induction params using List.reverseRecOn with
  | nil => simp [documentedParams]
  | append_singleton params p ih =>
      rw [documentedParams_concat, documentedColor_getLsbD, ih]
      by_cases reset : p = 0
      · simp [reset, show ¬ i.val < 3 by omega]
      · simp [reset, Ne.symm reset, show ¬ i.val < 3 by omega, show ¬ i.val < 7 by omega]

theorem interpretParams_high (i : Fin 32) (high : 8 ≤ i.val) :
    (interpretParams flag params).getLsbD i =
      (!decide (0 ∈ params ∨ ∃ p ∈ params, IsForeground p ∨ IsBackground p) &&
        flag.getLsbD i) := by
  induction params using List.reverseRecOn with
  | nil => simp [interpretParams]
  | append_singleton params p ih =>
      rw [interpretParams_concat, interpretColor_getLsbD, ih]
      by_cases reset : p = 0
      · simp [reset, show ¬ i.val < 3 by omega]
      by_cases foreground : IsForeground p
      · simp [reset, foreground, show ¬ i.val < 3 by omega, show ¬ i.val < 8 by omega]
      by_cases background : IsBackground p
      · simp [reset, foreground, background, show ¬ i.val < 2 by omega, show i.val ≠ 6 by omega,
          high]
      · simp [reset, Ne.symm reset, foreground, background]

theorem documentedParams_middle (i : Fin 32) (middle : i.val = 4 ∨ i.val = 5) :
    (documentedParams flag params).getLsbD i =
      (lastBackground params).elim (flag.getLsbD i)
        fun p => decide (p ≠ 0) && (cgaColor (p - 40)).getLsbD (i - 4) := by
  induction params using List.reverseRecOn with
  | nil => rfl
  | append_singleton params p ih =>
      rw [documentedParams_concat, documentedColor_getLsbD, ih]
      by_cases reset : p = 0
      · rw [lastBackground_concat_pos params (.inl reset), if_pos reset]
        simp [reset, show ¬ i.val < 3 by omega]
      rw [if_neg reset, if_neg (by omega)]
      by_cases background : IsBackground p
      · rw [lastBackground_concat_pos params (.inr background), if_pos ⟨background, by omega⟩]
        simp [reset]
      · rw [lastBackground_concat_neg params (not_or.mpr ⟨reset, background⟩),
          if_neg fun sets => background sets.1]

theorem interpretParams_middle (i : Fin 32) (middle : i.val = 4 ∨ i.val = 5) :
    (interpretParams flag params).getLsbD i =
      (lastBackground params).elim (flag.getLsbD i) fun _ => false := by
  induction params using List.reverseRecOn with
  | nil => rfl
  | append_singleton params p ih =>
      rw [interpretParams_concat, interpretColor_getLsbD, ih]
      by_cases reset : p = 0
      · rw [lastBackground_concat_pos params (.inl reset), if_pos reset]
        simp [show ¬ i.val < 3 by omega]
      rw [if_neg reset]
      by_cases foreground : IsForeground p
      · have keeps : ¬ SetsBackground p :=
          not_or.mpr ⟨reset, fun background => background.not_isForeground foreground⟩
        rw [lastBackground_concat_neg params keeps, if_pos foreground, if_neg (by omega),
          decide_eq_true (by omega), Bool.true_and]
      rw [if_neg foreground]
      by_cases background : IsBackground p
      · rw [lastBackground_concat_pos params (.inr background), if_pos background,
          if_neg (by omega), if_neg (by omega), decide_eq_true (by omega)]
        rfl
      · rw [lastBackground_concat_neg params (not_or.mpr ⟨reset, background⟩), if_neg background]

theorem documentedParams_low (i : Fin 32) (low : i.val < 3) :
    (documentedParams flag params).getLsbD i = (lastForeground flag params).getLsbD i := by
  induction params using List.reverseRecOn with
  | nil => rfl
  | append_singleton params p ih =>
      rw [documentedParams_concat]
      by_cases sets : SetsForeground p
      · rw [lastForeground_concat_pos flag params sets, documentedColor_getLsbD,
          documentedColor_getLsbD]
        rcases sets with reset | foreground
        · rw [if_pos reset, if_pos reset]
        · rw [if_neg foreground.ne_zero, if_neg foreground.ne_zero, if_pos ⟨foreground, low⟩,
            if_pos ⟨foreground, low⟩]
      · rw [lastForeground_concat_neg flag params sets, documentedColor_getLsbD, ih,
          if_neg fun reset => sets (.inl reset), if_neg fun foreground => sets (.inr foreground.1),
          if_neg (by omega)]

/-- The green and the blue of a background leak into the foreground. -/
theorem interpretParams_low (i : Fin 32) (low : i.val < 2) :
    (interpretParams flag params).getLsbD i =
      ((lastForeground flag params).getLsbD i ||
        decide (∃ p ∈ sinceForeground params,
          IsBackground p ∧ (cgaColor (p - 40)).getLsbD i)) := by
  induction params using List.reverseRecOn with
  | nil => simp [interpretParams, lastForeground, sinceForeground]
  | append_singleton params p ih =>
      rw [interpretParams_concat, interpretColor_getLsbD]
      by_cases sets : SetsForeground p
      · rw [lastForeground_concat_pos flag params sets, sinceForeground_concat_pos params sets,
          documentedColor_getLsbD]
        rcases sets with reset | foreground
        · simp [reset]
        · simp [foreground, foreground.ne_zero, show i.val < 3 by omega]
      · rw [lastForeground_concat_neg flag params sets, sinceForeground_concat_neg params sets, ih,
          if_neg fun reset => sets (.inl reset), if_neg fun foreground => sets (.inr foreground)]
        by_cases background : IsBackground p
        · simp [background, low, or_and_right, exists_or, Bool.or_assoc]
        · simp [background, or_and_right, exists_or]

end Bits

/-! ## All bits -/

/-- The parameters and flags for which the code does what is documented.  The
bits above the attribute byte survive no colour parameter; the background ends
in black or red; and the backgrounds set since the foreground contain no green
and no blue that the foreground is without. -/
structure Composes (flag : BitVec 32) (params : List Nat) : Prop where
  high : flag >>> 8 = 0 ∨ 0 ∈ params ∨ ∀ p ∈ params, ¬ IsForeground p ∧ ¬ IsBackground p
  background : ∀ p, lastBackground params = some p → p = 0 ∨ p = 40 ∨ p = 41
  foreground : ∀ p ∈ sinceForeground params, IsBackground p →
    cgaColor (p - 40) &&& 0x03 &&& ~~~ lastForeground flag params = 0

theorem setsBackground_of_lastBackground {params : List Nat} {p : Nat}
    (last : lastBackground params = some p) : SetsBackground p := by
  have p_mem := List.mem_of_getLast? last
  simpa using (List.mem_filter.mp p_mem).2

theorem bit_eq_iff_of_or {b leak : Bool} : (b || leak) = b ↔ (leak → b) := by
  cases b <;> cases leak <;> simp

section Composes

variable (flag : BitVec 32) (params : List Nat)

theorem high_bits_eq_iff :
    (∀ i : Fin 32, 8 ≤ i.val →
      (interpretParams flag params).getLsbD i = (documentedParams flag params).getLsbD i) ↔
    flag >>> 8 = 0 ∨ 0 ∈ params ∨ ∀ p ∈ params, ¬ IsForeground p ∧ ¬ IsBackground p := by
  constructor
  · intro same
    by_contra differ
    simp only [not_or, not_forall, not_and_or, not_not, exists_prop] at differ
    obtain ⟨not_low, no_reset, sets⟩ := differ
    apply not_low
    apply BitVec.eq_of_getLsbD_eq
    intro i bound
    rw [BitVec.getLsbD_ushiftRight]
    by_cases high : 8 + i < 32
    · have bits := same ⟨8 + i, high⟩ (Nat.le_add_right 8 i)
      rw [interpretParams_high flag params _ (Nat.le_add_right 8 i),
        documentedParams_high flag params _ (Nat.le_add_right 8 i),
        decide_eq_true (Or.inr sets), decide_eq_false no_reset] at bits
      simpa using bits.symm
    · rw [BitVec.getLsbD_of_ge _ _ (by omega)]
      simp
  · intro ok i high
    rw [interpretParams_high flag params i high, documentedParams_high flag params i high]
    rcases ok with low | reset | none_set
    · have bit := congrArg (fun flag => flag.getLsbD (i - 8)) low
      rw [BitVec.getLsbD_ushiftRight, Nat.add_sub_cancel' high] at bit
      rw [bit]
      simp
    · simp [reset]
    · have nothing : ¬ ∃ p ∈ params, IsForeground p ∨ IsBackground p := by
        rintro ⟨p, p_mem, sets⟩
        exact sets.elim (none_set p p_mem).1 (none_set p p_mem).2
      simp [nothing]

theorem middle_bits_eq_iff :
    (∀ i : Fin 32, i.val = 4 ∨ i.val = 5 →
      (interpretParams flag params).getLsbD i = (documentedParams flag params).getLsbD i) ↔
    ∀ p, lastBackground params = some p → p = 0 ∨ p = 40 ∨ p = 41 := by
  have written (p : Nat) (sets : SetsBackground p) :
      (∀ i : Fin 32, i.val = 4 ∨ i.val = 5 →
        false = (decide (p ≠ 0) && (cgaColor (p - 40)).getLsbD (i - 4))) ↔
      p = 0 ∨ p = 40 ∨ p = 41 := by
    rcases sets with rfl | background
    · simp
    · obtain ⟨low, high⟩ := background
      interval_cases p
      all_goals decide
  constructor
  · intro same p last
    rw [← written p (setsBackground_of_lastBackground last)]
    intro i middle
    have bits := same i middle
    rwa [interpretParams_middle flag params i middle, documentedParams_middle flag params i middle,
      last] at bits
  · intro ok i middle
    rw [interpretParams_middle flag params i middle, documentedParams_middle flag params i middle]
    cases last : lastBackground params with
    | none => rfl
    | some p => exact (written p (setsBackground_of_lastBackground last)).mpr (ok p last) i middle

theorem low_bits_eq_iff :
    (∀ i : Fin 32, i.val < 2 →
      (interpretParams flag params).getLsbD i = (documentedParams flag params).getLsbD i) ↔
    ∀ p ∈ sinceForeground params, IsBackground p →
      cgaColor (p - 40) &&& 0x03 &&& ~~~ lastForeground flag params = 0 := by
  have mask : ∀ i : Fin 32, (0x03 : BitVec 32).getLsbD i = decide (i.val < 2) := by decide
  constructor
  · intro same p p_mem background
    apply BitVec.eq_of_getLsbD_eq
    intro i bound
    have mask_i := mask ⟨i, bound⟩
    rw [BitVec.getLsbD_and, BitVec.getLsbD_and, mask_i, BitVec.getLsbD_not]
    by_cases low : i < 2
    · have bits := same ⟨i, bound⟩ low
      rw [interpretParams_low flag params _ low,
        documentedParams_low flag params _ (Nat.lt_succ_of_lt low), bit_eq_iff_of_or,
        decide_eq_true_eq] at bits
      cases asked : (cgaColor (p - 40)).getLsbD i with
      | false => simp
      | true => simp [bits ⟨p, p_mem, background, asked⟩]
    · simp [low]
  · intro ok i low
    rw [interpretParams_low flag params i low,
      documentedParams_low flag params i (Nat.lt_succ_of_lt low), bit_eq_iff_of_or,
      decide_eq_true_eq]
    rintro ⟨p, p_mem, background, asked⟩
    have bit := congrArg (fun flag => flag.getLsbD i) (ok p p_mem background)
    simp only [BitVec.getLsbD_and, BitVec.getLsbD_not, mask, low, asked, i.isLt, decide_true,
      Bool.true_and] at bit
    simpa using bit

theorem interpretParams_eq_iff :
    interpretParams flag params = documentedParams flag params ↔ Composes flag params := by
  constructor
  · intro same
    exact {
      high := (high_bits_eq_iff flag params).mp fun i _ => by rw [same]
      background := (middle_bits_eq_iff flag params).mp fun i _ => by rw [same]
      foreground := (low_bits_eq_iff flag params).mp fun i _ => by rw [same] }
  · intro ok
    apply BitVec.eq_of_getLsbD_eq
    intro i bound
    by_cases high : 8 ≤ i
    · exact (high_bits_eq_iff flag params).mpr ok.high ⟨i, bound⟩ high
    by_cases middle : i = 4 ∨ i = 5
    · exact (middle_bits_eq_iff flag params).mpr ok.background ⟨i, bound⟩ middle
    by_cases low : i < 2
    · exact (low_bits_eq_iff flag params).mpr ok.foreground ⟨i, bound⟩ low
    · exact interpretParams_same_bits flag params ⟨i, bound⟩ (by dsimp only; omega)

end Composes

/-- A format of text and well-formed sequences leaves the documented flag
exactly when its parameters compose. -/
theorem vprintfmt_documented_iff (mem : Mem) (args : Args) (st : State) (pieces : List Piece) :
    ∃ last, vprintfmt mem args st (formatOf pieces) = some last ∧
      (last.color.flag = documentedParams st.color.flag (paramsOf pieces) ↔
        Composes st.color.flag (paramsOf pieces)) := by
  obtain ⟨last, formatted, flag_eq⟩ := vprintfmtWith_color_flag mem args 0 st pieces
  refine ⟨last, formatted, ?_⟩
  rw [flag_eq]
  exact interpretParams_eq_iff st.color.flag (paramsOf pieces)

/-- A green background, asked for on the initial colours, is not shown. -/
theorem green_background_lost :
    ¬ ∀ (mem : Mem) (args : Args) (st : State) (pieces : List Piece),
      ∃ last, vprintfmt mem args st (formatOf pieces) = some last ∧
        last.color.flag = documentedParams st.color.flag (paramsOf pieces) := by
  intro composes
  let green : Piece := .sequence ⟨[4, 2]⟩ [] (by decide)
  obtain ⟨last, formatted, documented⟩ := composes .bare (fun _ => 0) ⟨[], .init⟩ [green]
  obtain ⟨last', formatted', flag_eq⟩ := vprintfmtWith_color_flag .bare (fun _ => 0) 0
    ⟨[], .init⟩ [green]
  cases formatted.symm.trans formatted'
  rw [flag_eq] at documented
  exact absurd documented (by decide)

end Jos64.Format
