import Jos64.Strings.Core

/-!
# Comparing and finding

The comparisons order strings as a dictionary does, with the bytes as unsigned numbers.  The
NUL, which no character is below, makes a string smaller than those it begins.
-/

namespace Jos64.Strings

/-! ## The functions -/

/-- `strcmp` -/
def strcmp : List Byte → List Byte → Option Int
  | a :: p, b :: q => if a ≠ 0 ∧ a = b then strcmp p q else some (a.toNat - b.toNat)
  | _, _ => none

/-- `memcmp` -/
def memcmp : Nat → List Byte → List Byte → Option Int
  | 0, _, _ => some 0
  | n + 1, a :: s1, b :: s2 => if a ≠ b then some (a.toNat - b.toNat) else memcmp n s1 s2
  | _ + 1, _, _ => none

/-- `strfind` -/
def strfind (c : Byte) : List Byte → Option (List Byte)
  | [] => none
  | d :: s => if d = 0 then some (d :: s) else if d = c then some (d :: s) else strfind c s

/-- `memfind`: how far the pointer that is returned is behind the one that is given. -/
def memfind (c : BitVec 32) : Nat → List Byte → Option Nat
  | 0, _ => some 0
  | n + 1, d :: s => if d = c.setWidth 8 then some 0 else (memfind c n s).map (· + 1)
  | _ + 1, [] => none

/-! ## The order -/

/-- The sign of a number says how two lists are ordered. -/
structure Ordered (order : Int) (p q : List Byte) : Prop where
  neg_iff : order < 0 ↔ p < q
  zero_iff : order = 0 ↔ p = q
  pos_iff : 0 < order ↔ q < p

section

variable {a b : Byte} {p q : List Byte} {order : Int}

theorem Ordered.nil : Ordered 0 [] [] :=
  ⟨iff_of_false (lt_irrefl 0) (List.not_lt_nil []), iff_of_true rfl rfl,
    iff_of_false (lt_irrefl 0) (List.not_lt_nil [])⟩

theorem Ordered.cons (ordered : Ordered order p q) : Ordered order (a :: p) (a :: q) := by
  have irrefl : ¬ a < a := BitVec.lt_irrefl a
  refine ⟨?_, ?_, ?_⟩
  · rw [ordered.neg_iff, List.cons_lt_cons_iff, or_iff_right irrefl, and_iff_right rfl]
  · rw [ordered.zero_iff, List.cons_inj_right]
  · rw [ordered.pos_iff, List.cons_lt_cons_iff, or_iff_right irrefl, and_iff_right rfl]

/-- The first characters that differ decide. -/
theorem ordered_of_ne (differ : a ≠ b) : Ordered ((a.toNat : Int) - b.toNat) (a :: p) (b :: q) := by
  have apart : a.toNat ≠ b.toNat := fun same => differ (BitVec.eq_of_toNat_eq same)
  refine ⟨?_, ?_, ?_⟩
  · rw [List.cons_lt_cons_iff, or_iff_left fun same => differ same.1, BitVec.lt_def]
    omega
  · exact iff_of_false (by omega) fun same => differ (List.cons.inj same).1
  · rw [List.cons_lt_cons_iff, or_iff_left fun same => differ same.1.symm, BitVec.lt_def]
    omega

/-- A string is smaller than those it begins. -/
theorem ordered_nil_cons (nonzero : b ≠ 0) :
    Ordered (((0 : Byte).toNat : Int) - b.toNat) [] (b :: q) := by
  have pos : b.toNat ≠ 0 := fun zero => nonzero (BitVec.eq_of_toNat_eq zero)
  have zero_eq : (0 : Byte).toNat = 0 := rfl
  rw [zero_eq]
  exact ⟨iff_of_true (by omega) (List.nil_lt_cons b q),
    iff_of_false (by omega) (List.cons_ne_nil b q).symm,
    iff_of_false (by omega) (List.not_lt_nil _)⟩

theorem ordered_cons_nil (nonzero : a ≠ 0) :
    Ordered ((a.toNat : Int) - (0 : Byte).toNat) (a :: p) [] := by
  have pos : a.toNat ≠ 0 := fun zero => nonzero (BitVec.eq_of_toNat_eq zero)
  have zero_eq : (0 : Byte).toNat = 0 := rfl
  rw [zero_eq]
  exact ⟨iff_of_false (by omega) (List.not_lt_nil _),
    iff_of_false (by omega) (List.cons_ne_nil a p),
    iff_of_true (by omega) (List.nil_lt_cons a p)⟩

end

/-! ## The comparisons -/

section

variable {p q : List Byte}

theorem strcmp_ordered (p_nonzero : ∀ c ∈ p, c ≠ 0) (q_nonzero : ∀ c ∈ q, c ≠ 0) :
    ∃ order, strcmp (p ++ [0]) (q ++ [0]) = some order ∧ Ordered order p q := by
  induction p generalizing q with
  | nil =>
      cases q with
      | nil => exact ⟨0, rfl, .nil⟩
      | cons b q => exact ⟨_, rfl, ordered_nil_cons (q_nonzero b List.mem_cons_self)⟩
  | cons a p ih =>
      have a_nonzero := p_nonzero a List.mem_cons_self
      cases q with
      | nil => exact ⟨_, if_neg fun same => a_nonzero same.2, ordered_cons_nil a_nonzero⟩
      | cons b q =>
          by_cases same : a = b
          · subst same
            obtain ⟨order, order_eq, ordered⟩ := ih
              (fun c member => p_nonzero c (List.mem_cons_of_mem a member))
              (fun c member => q_nonzero c (List.mem_cons_of_mem a member))
            exact ⟨order, (if_pos ⟨a_nonzero, rfl⟩).trans order_eq, ordered.cons⟩
          · exact ⟨_, if_neg fun stays => same stays.2, ordered_of_ne same⟩

theorem strncmp_ordered (n : Nat) (p_nonzero : ∀ c ∈ p, c ≠ 0) (q_nonzero : ∀ c ∈ q, c ≠ 0) :
    ∃ order, strncmp n (p ++ [0]) (q ++ [0]) = some order ∧
      Ordered order (p.take n) (q.take n) := by
  induction n generalizing p q with
  | zero => exact ⟨0, rfl, .nil⟩
  | succ n ih =>
      cases p with
      | nil =>
          cases q with
          | nil => exact ⟨0, rfl, .nil⟩
          | cons b q => exact ⟨_, rfl, ordered_nil_cons (q_nonzero b List.mem_cons_self)⟩
      | cons a p =>
          have a_nonzero := p_nonzero a List.mem_cons_self
          cases q with
          | nil => exact ⟨_, if_neg fun same => a_nonzero same.2, ordered_cons_nil a_nonzero⟩
          | cons b q =>
              by_cases same : a = b
              · subst same
                obtain ⟨order, order_eq, ordered⟩ := ih
                  (fun c member => p_nonzero c (List.mem_cons_of_mem a member))
                  (fun c member => q_nonzero c (List.mem_cons_of_mem a member))
                exact ⟨order, (if_pos ⟨a_nonzero, rfl⟩).trans order_eq, ordered.cons⟩
              · exact ⟨_, if_neg fun stays => same stays.2, ordered_of_ne same⟩

theorem memcmp_ordered {n : Nat} (p_enough : n ≤ p.length) (q_enough : n ≤ q.length) :
    ∃ order, memcmp n p q = some order ∧ Ordered order (p.take n) (q.take n) := by
  induction n generalizing p q with
  | zero => exact ⟨0, rfl, .nil⟩
  | succ n ih =>
      cases p with
      | nil => exact absurd p_enough (Nat.not_succ_le_zero n)
      | cons a p =>
          cases q with
          | nil => exact absurd q_enough (Nat.not_succ_le_zero n)
          | cons b q =>
              by_cases same : a = b
              · subst same
                obtain ⟨order, order_eq, ordered⟩ := ih (Nat.le_of_succ_le_succ p_enough)
                  (Nat.le_of_succ_le_succ q_enough)
                exact ⟨order, (if_neg fun differ => differ rfl).trans order_eq, ordered.cons⟩
              · exact ⟨_, if_pos same, ordered_of_ne same⟩

end

/-- `strcmp` orders strings as lists of unsigned bytes, `strncmp` what a size leaves of them,
and `memcmp` the bytes of two buffers. -/
theorem comparisons_lexicographic (s t : CString) (n : Nat) (v w : List Byte)
    (v_enough : n ≤ v.length) (w_enough : n ≤ w.length) :
    (∃ order, strcmp s.terminated t.terminated = some order ∧ Ordered order s.bytes t.bytes) ∧
    (∃ order, strncmp n s.terminated t.terminated = some order ∧
      Ordered order (s.bytes.take n) (t.bytes.take n)) ∧
    ∃ order, memcmp n v w = some order ∧ Ordered order (v.take n) (w.take n) :=
  ⟨strcmp_ordered s.nonzero t.nonzero, strncmp_ordered n s.nonzero t.nonzero,
    memcmp_ordered v_enough w_enough⟩

/-- A character above the others, whose byte is negative as a `char`. -/
theorem comparisons_lexicographic_unsigned :
    ∃ order, strcmp ([0xFF] ++ [0]) (str "a" ++ [0]) = some order ∧
      Ordered order [0xFF] (str "a") :=
  (comparisons_lexicographic ⟨[0xFF], by decide⟩ ⟨str "a", by decide⟩ 1 [0xFF] [0x61] (by decide)
    (by decide)).1

/-! ## The first place of a character -/

section

variable {c : Byte} {s : List Byte}

/-- `strfind` points to the character or to the NUL, and `strchr` to the character or nowhere. -/
theorem strfind_strchr (nonzero : ∀ d ∈ s, d ≠ 0) :
    strfind c (s ++ [0]) = some ((s ++ [0]).drop (s.findIdx (· == c))) ∧
      strchr c (s ++ [0]) = some (if s.findIdx (· == c) < s.length then
        some ((s ++ [0]).drop (s.findIdx (· == c))) else none) := by
  induction s with
  | nil => exact ⟨rfl, rfl⟩
  | cons d s ih =>
      have d_nonzero := nonzero d List.mem_cons_self
      rw [List.cons_append, strfind, strchr, if_neg d_nonzero, if_neg d_nonzero,
        List.findIdx_cons]
      by_cases here : d = c
      · rw [if_pos here, if_pos here, beq_iff_eq.mpr here]
        exact ⟨rfl, rfl⟩
      · obtain ⟨found, pointed⟩ := ih fun later member =>
          nonzero later (List.mem_cons_of_mem d member)
        rw [if_neg here, if_neg here, found, pointed, beq_eq_false_iff_ne.mpr here, cond_false,
          List.drop_succ_cons, List.length_cons]
        refine ⟨rfl, ?_⟩
        simp only [Nat.succ_lt_succ_iff]

theorem memfind_eq (c : BitVec 32) {n : Nat} (enough : n ≤ s.length) :
    memfind c n s = some ((s.take n).findIdx (· == c.setWidth 8)) := by
  induction n generalizing s with
  | zero => rfl
  | succ n ih =>
      cases s with
      | nil => exact absurd enough (Nat.not_succ_le_zero n)
      | cons d s =>
          rw [memfind, List.take_succ_cons, List.findIdx_cons]
          by_cases here : d = c.setWidth 8
          · rw [if_pos here, beq_iff_eq.mpr here]
            rfl
          · rw [if_neg here, ih (Nat.le_of_succ_le_succ enough), beq_eq_false_iff_ne.mpr here]
            rfl

end

end Jos64.Strings
