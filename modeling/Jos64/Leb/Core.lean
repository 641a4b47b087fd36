import Mathlib.Tactic

/-!
# LEB128

A number is written seven bits to a byte, lowest first, and the top bit of a
byte says that another one follows.  A number may be padded with redundant
groups.
-/

namespace Jos64.Leb

/-- The seven bits that a byte contributes. -/
def group (byte : BitVec 8) : Nat :=
  (byte &&& 0x7F).toNat

/-- Another byte follows. -/
def Continues (byte : BitVec 8) : Prop :=
  byte &&& 0x80 ≠ 0

instance : DecidablePred Continues := fun _ => inferInstanceAs (Decidable (_ ≠ _))

theorem group_lt (byte : BitVec 8) : group byte < 128 := by
  revert byte
  decide

/-- The bytes are an unsigned encoding of the value. -/
inductive Unsigned : List (BitVec 8) → Nat → Prop where
  | last {byte : BitVec 8} : ¬ Continues byte → Unsigned [byte] (group byte)
  | more {byte : BitVec 8} {bytes : List (BitVec 8)} {value : Nat} : Continues byte →
      Unsigned bytes value → Unsigned (byte :: bytes) (group byte + 128 * value)

/-- The bytes of one number: all but the last continue. -/
inductive Ended : List (BitVec 8) → Prop where
  | last {byte : BitVec 8} : ¬ Continues byte → Ended [byte]
  | more {byte : BitVec 8} {bytes : List (BitVec 8)} : Continues byte → Ended bytes →
      Ended (byte :: bytes)

theorem Unsigned.ended {bytes : List (BitVec 8)} {value : Nat} (valid : Unsigned bytes value) :
    Ended bytes := by
  induction valid with
  | last ends => exact .last ends
  | more continues _ ih => exact .more continues ih

theorem Ended.ne_nil {bytes : List (BitVec 8)} (ended : Ended bytes) : bytes ≠ [] := by
  cases ended with
  | last => exact List.cons_ne_nil _ _
  | more => exact List.cons_ne_nil _ _

/-- A number above a single group has a byte for its lowest group. -/
theorem Unsigned.of_large {bytes : List (BitVec 8)} {value : Nat} (valid : Unsigned bytes value)
    (large : 128 ≤ value) :
    ∃ byte rest, bytes = byte :: rest ∧ group byte = value % 128 ∧
      Unsigned rest (value / 128) := by
  cases valid with
  | @last byte =>
      have := group_lt byte
      omega
  | @more byte rest value _ valid =>
      have low := group_lt byte
      refine ⟨byte, rest, rfl, by omega, ?_⟩
      rwa [Nat.add_mul_div_left _ _ (by decide), Nat.div_eq_of_lt low, Nat.zero_add]

/-- The bytes are a signed encoding of the value: the sign is the second bit of
the last byte. -/
inductive Signed : List (BitVec 8) → Int → Prop where
  | last {byte : BitVec 8} : ¬ Continues byte →
      Signed [byte] (if group byte < 64 then group byte else group byte - 128)
  | more {byte : BitVec 8} {bytes : List (BitVec 8)} {value : Int} : Continues byte →
      Signed bytes value → Signed (byte :: bytes) (group byte + 128 * value)

theorem Signed.ended {bytes : List (BitVec 8)} {value : Int} (valid : Signed bytes value) :
    Ended bytes := by
  induction valid with
  | last ends => exact .last ends
  | more continues _ ih => exact .more continues ih

/-- A number that is not negative has no sign to lose. -/
theorem Signed.unsigned {bytes : List (BitVec 8)} {value : Int} (valid : Signed bytes value)
    (nonneg : 0 ≤ value) : Unsigned bytes value.toNat := by
  induction valid with
  | @last byte ends =>
      have low := group_lt byte
      have small : group byte < 64 := by
        by_contra large
        rw [if_neg large] at nonneg
        omega
      rw [if_pos small]
      exact .last ends
  | @more byte bytes value continues _ ih =>
      have low := group_lt byte
      have value_nonneg : 0 ≤ value := by omega
      have value_eq : (↑(group byte) + 128 * value).toNat = group byte + 128 * value.toNat := by
        omega
      rw [value_eq]
      exact .more continues (ih value_nonneg)

/-- What is left of a number behind its first groups. -/
theorem Signed.drop {bytes : List (BitVec 8)} {value : Int} (valid : Signed bytes value) {k : Nat}
    (inside : k < bytes.length) : Signed (bytes.drop k) (value / 128 ^ k) := by
  induction k generalizing bytes value with
  | zero => rwa [List.drop_zero, pow_zero, Int.ediv_one]
  | succ k ih =>
      cases valid with
      | last => simp at inside
      | @more byte bytes value _ valid =>
          have low := group_lt byte
          have value_eq : (↑(group byte) + 128 * value) / 128 = value := by omega
          rw [List.drop_succ_cons, pow_succ', ← Int.ediv_ediv_of_nonneg (by decide), value_eq]
          exact ih valid (Nat.lt_of_succ_lt_succ inside)

/-! ## Shortest encodings -/

/-- Seven bits in a byte behind which nothing follows. -/
theorem last_byte (low : Fin 128) :
    ¬ Continues (BitVec.ofNat 8 low) ∧ group (BitVec.ofNat 8 low) = low := by
  revert low
  decide

/-- Seven bits in a byte behind which another one follows. -/
theorem next_byte (low : Fin 128) :
    Continues (BitVec.ofNat 8 (low + 128)) ∧ group (BitVec.ofNat 8 (low + 128)) = low := by
  revert low
  decide

/-- A signed number that fits in so many groups has an encoding of that many bytes. -/
theorem Signed.exists_of_fits (groups : Nat) {value : Int} (low : -(64 * 128 ^ groups) ≤ value)
    (high : value < 64 * 128 ^ groups) :
    ∃ bytes, Signed bytes value ∧ bytes.length = groups + 1 := by
  have bits_lt : (value % 128).toNat < 128 := by omega
  induction groups generalizing value with
  | zero =>
      obtain ⟨ends, group_eq⟩ := last_byte ⟨(value % 128).toNat, bits_lt⟩
      have encoded := Signed.last ends
      have value_eq : (if group (BitVec.ofNat 8 (value % 128).toNat) < 64 then
          (group (BitVec.ofNat 8 (value % 128).toNat) : Int)
          else group (BitVec.ofNat 8 (value % 128).toNat) - 128) = value := by
        rw [group_eq]
        dsimp only
        split
        · omega
        · omega
      rw [value_eq] at encoded
      exact ⟨_, encoded, rfl⟩
  | succ groups ih =>
      rw [pow_succ] at low high
      obtain ⟨bytes, encoded, length_eq⟩ : ∃ bytes, Signed bytes (value / 128) ∧ _ :=
        ih (by omega) (by omega) (by omega)
      obtain ⟨continues, group_eq⟩ := next_byte ⟨(value % 128).toNat, bits_lt⟩
      have longer := Signed.more continues encoded
      have value_eq :
          (group (BitVec.ofNat 8 ((value % 128).toNat + 128)) : Int) + 128 * (value / 128) =
            value := by
        rw [group_eq]
        dsimp only
        omega
      rw [value_eq] at longer
      exact ⟨_, longer, by rw [List.length_cons, length_eq]⟩

/-- The number of bytes bounds a signed number. -/
theorem Signed.fits {bytes : List (BitVec 8)} {value : Int} (valid : Signed bytes value) :
    -(64 * 128 ^ (bytes.length - 1)) ≤ value ∧ value < 64 * 128 ^ (bytes.length - 1) := by
  induction valid with
  | @last byte _ =>
      have low := group_lt byte
      rw [List.length_singleton, Nat.sub_self, pow_zero]
      split
      · omega
      · omega
  | @more byte bytes value _ valid ih =>
      have low := group_lt byte
      have length_eq : bytes.length - 1 + 1 = bytes.length :=
        Nat.sub_add_cancel (List.length_pos_of_ne_nil valid.ended.ne_nil)
      rw [List.length_cons, Nat.add_sub_cancel, ← length_eq, pow_succ]
      omega

/-- An encoding of the signed number that is as short as there is any. -/
structure Shortest (bytes : List (BitVec 8)) (value : Int) : Prop where
  valid : Signed bytes value
  least : ∀ other, Signed other value → bytes.length ≤ other.length

/-- An encoding is the shortest if the number does not fit in fewer groups. -/
theorem Shortest.of_exceeds {bytes : List (BitVec 8)} {value : Int} (valid : Signed bytes value)
    (exceeds : ∀ length < bytes.length, 0 < length →
      value < -(64 * 128 ^ (length - 1)) ∨ 64 * 128 ^ (length - 1) ≤ value) :
    Shortest bytes value := by
  refine ⟨valid, fun other encoded => ?_⟩
  by_contra shorter
  have bounds := encoded.fits
  have outside := exceeds other.length (by omega) (List.length_pos_of_ne_nil encoded.ended.ne_nil)
  omega

/-- The shortest encoding has no more bytes than the number has groups. -/
theorem Shortest.length_le {bytes : List (BitVec 8)} {value : Int}
    (shortest : Shortest bytes value) (groups : Nat) (low : -(64 * 128 ^ groups) ≤ value)
    (high : value < 64 * 128 ^ groups) : bytes.length ≤ groups + 1 := by
  obtain ⟨other, encoded, length_eq⟩ := Signed.exists_of_fits groups low high
  rw [← length_eq]
  exact shortest.least other encoded

end Jos64.Leb
