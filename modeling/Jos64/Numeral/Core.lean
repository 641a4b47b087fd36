import Mathlib.Tactic

/-!
# Positional numerals

The numeral of a number in a base is the list of its digits, most significant
first; zero has one digit.  Reading digits from the front, each one after the
base times what has been read, gives the number back.
-/

namespace Jos64.Numeral

/-- The digits of a number, most significant first. -/
def digits (base n : Nat) : List Nat :=
  (if _more : 2 ≤ base ∧ base ≤ n then digits base (n / base) else []) ++ [n % base]
termination_by n
decreasing_by exact Nat.div_lt_self (by omega) (by omega)

/-- What digits amount to when they are read after `start`. -/
def valueFrom (base start : Nat) (ds : List Nat) : Nat :=
  ds.foldl (fun value digit => value * base + digit) start

variable {base : Nat}

theorem digits_of_lt {n : Nat} (small : n < base) : digits base n = [n] := by
  rw [digits, dif_neg (by omega), List.nil_append, Nat.mod_eq_of_lt small]

theorem digits_of_le (two_le : 2 ≤ base) {n : Nat} (large : base ≤ n) :
    digits base n = digits base (n / base) ++ [n % base] := by
  rw [digits, dif_pos ⟨two_le, large⟩]

theorem length_digits_pos (base n : Nat) : 0 < (digits base n).length := by
  rw [digits, List.length_append, List.length_singleton]
  exact Nat.succ_pos _

theorem digits_ne_nil (base n : Nat) : digits base n ≠ [] :=
  List.ne_nil_of_length_pos (length_digits_pos base n)

/-- Every digit is below the base. -/
theorem digits_lt (two_le : 2 ≤ base) (n : Nat) : ∀ digit ∈ digits base n, digit < base := by
  induction n using Nat.strong_induction_on with
  | _ n ih =>
      by_cases large : base ≤ n
      · intro digit digit_mem
        rw [digits_of_le two_le large] at digit_mem
        rcases List.mem_append.mp digit_mem with front | last
        · exact ih (n / base) (Nat.div_lt_self (by omega) two_le) digit front
        · rw [List.mem_singleton.mp last]
          exact Nat.mod_lt _ (by omega)
      · rw [not_le] at large
        intro digit digit_mem
        rw [digits_of_lt large] at digit_mem
        rwa [List.mem_singleton.mp digit_mem]

/-- A number below a power of two has at most as many digits as bits. -/
theorem length_digits_le (two_le : 2 ≤ base) {n bits : Nat} (small : n < 2 ^ (bits + 1)) :
    (digits base n).length ≤ bits + 1 := by
  induction bits generalizing n with
  | zero =>
      rw [digits_of_lt (by omega)]
      exact le_refl _
  | succ bits ih =>
      by_cases large : base ≤ n
      · have quotient_le : n / base ≤ n / 2 := Nat.div_le_div_left two_le (by decide)
        have quotient_lt : n / base < 2 ^ (bits + 1) := by
          rw [pow_succ] at small
          omega
        have shorter := ih quotient_lt
        rw [digits_of_le two_le large, List.length_append, List.length_singleton]
        omega
      · rw [digits_of_lt (not_le.mp large)]
        exact Nat.succ_le_succ (Nat.zero_le _)

theorem valueFrom_append (start : Nat) (ds more : List Nat) :
    valueFrom base start (ds ++ more) = valueFrom base (valueFrom base start ds) more :=
  List.foldl_append

/-- A numeral reads back. -/
theorem valueFrom_digits (two_le : 2 ≤ base) (n : Nat) : valueFrom base 0 (digits base n) = n := by
  induction n using Nat.strong_induction_on with
  | _ n ih =>
      by_cases large : base ≤ n
      · rw [digits_of_le two_le large, valueFrom_append,
          ih (n / base) (Nat.div_lt_self (by omega) two_le)]
        exact Nat.div_add_mod' n base
      · rw [digits_of_lt (not_le.mp large)]
        simp [valueFrom]

theorem valueFrom_zeros (count : Nat) (ds : List Nat) :
    valueFrom base 0 (List.replicate count 0 ++ ds) = valueFrom base 0 ds := by
  induction count with
  | zero => rfl
  | succ count ih =>
      rw [List.replicate_succ, List.cons_append, valueFrom, List.foldl_cons]
      simpa [valueFrom] using ih

/-! ## Canonical numerals -/

/-- The digits are those of a numeral of the number, without zeros in front. -/
structure Canonical (base n : Nat) (ds : List Nat) : Prop where
  nonempty : ds ≠ []
  digit_lt : ∀ digit ∈ ds, digit < base
  value_eq : valueFrom base 0 ds = n
  no_leading_zero : ds.head? = some 0 → ds = [0]

theorem canonical_digits (two_le : 2 ≤ base) (n : Nat) : Canonical base n (digits base n) where
  nonempty := digits_ne_nil base n
  digit_lt := digits_lt two_le n
  value_eq := valueFrom_digits two_le n
  no_leading_zero := by
    induction n using Nat.strong_induction_on with
    | _ n ih =>
        by_cases large : base ≤ n
        · have quotient_pos : 0 < n / base := Nat.div_pos large (by omega)
          have shorter := ih (n / base) (Nat.div_lt_self (by omega) two_le)
          rw [digits_of_le two_le large, List.head?_append_of_ne_nil _ (digits_ne_nil base _)]
          intro leading
          -- the digits before the last one would be a zero alone
          have value_eq := valueFrom_digits two_le (n / base)
          rw [shorter leading] at value_eq
          have zero : n / base = 0 := value_eq.symm.trans (by simp [valueFrom])
          exact absurd zero quotient_pos.ne'
        · rw [digits_of_lt (not_le.mp large)]
          intro leading
          rw [Option.some.inj leading]

/-- A number has one canonical numeral. -/
theorem canonical_iff (two_le : 2 ≤ base) {n : Nat} {ds : List Nat} :
    Canonical base n ds ↔ ds = digits base n := by
  constructor
  · intro canonical
    induction ds using List.reverseRecOn generalizing n with
    | nil => exact absurd rfl canonical.nonempty
    | append_singleton front last ih =>
        have last_lt := canonical.digit_lt last (List.mem_append_right _ List.mem_cons_self)
        have value_eq : valueFrom base 0 front * base + last = n := by
          rw [← canonical.value_eq, valueFrom_append]
          rfl
        rcases List.eq_nil_or_concat front with rfl | ⟨_, _, front_eq⟩
        · have single : last = n := by simpa [valueFrom] using value_eq
          rw [List.nil_append, single, digits_of_lt (single ▸ last_lt)]
        · have front_nonempty : front ≠ [] := by simp [front_eq]
          have no_zero : front.head? ≠ some 0 := by
            intro leading
            have whole := canonical.no_leading_zero
              ((List.head?_append_of_ne_nil _ front_nonempty).trans leading)
            have lengths : front.length + 1 = 1 := by
              rw [← List.length_singleton (a := last), ← List.length_append, whole,
                List.length_singleton, List.length_singleton]
            exact front_nonempty (List.length_eq_zero_iff.mp (Nat.succ.inj lengths))
          have front_canonical : Canonical base (valueFrom base 0 front) front :=
            ⟨front_nonempty,
              fun digit digit_mem => canonical.digit_lt digit (List.mem_append_left _ digit_mem),
              rfl, fun leading => absurd leading no_zero⟩
          have front_pos : 0 < valueFrom base 0 front := by
            by_contra zero
            have front_eq := ih front_canonical
            rw [Nat.eq_zero_of_not_pos zero, digits_of_lt (by omega)] at front_eq
            exact no_zero (by rw [front_eq]; rfl)
          have quotient : n / base = valueFrom base 0 front := by
            rw [← value_eq, Nat.mul_comm, Nat.mul_add_div (by omega), Nat.div_eq_of_lt last_lt,
              Nat.add_zero]
          have remainder : n % base = last := by
            rw [← value_eq, Nat.mul_comm, Nat.mul_add_mod, Nat.mod_eq_of_lt last_lt]
          have large : base ≤ n := by
            calc
              base ≤ valueFrom base 0 front * base := Nat.le_mul_of_pos_left base front_pos
              _ ≤ valueFrom base 0 front * base + last := Nat.le_add_right _ _
              _ = n := value_eq
          rw [digits_of_le two_le large, quotient, remainder, ← ih front_canonical]
  · rintro rfl
    exact canonical_digits two_le n

theorem digits_injective (two_le : 2 ≤ base) : Function.Injective (digits base) := by
  intro n m same
  rw [← valueFrom_digits two_le n, same, valueFrom_digits two_le]

end Jos64.Numeral
