import Mathlib.Tactic

/-!
# Looking a key up by a scan

A scan reads the rows of a table in their order.  It stops at the first one whose
key is beyond the bound, and the row that it has read last is its result.  When
the rows fall into runs, the result is the one of the run that the bound is in
only if no run before that one is beyond the bound, and the row behind it is.
-/

namespace Jos64.Scan

universe u v

variable {α : Type u} {β : Type v} [LinearOrder β] (key : α → β) (bound : β)

/-- The rows that a scan reads. -/
def read (rows : List α) : List α :=
  rows.takeWhile fun row => key row ≤ bound

/-- The last row whose key is not beyond the bound, wherever it is. -/
def latest (rows : List α) : Option α :=
  (rows.filter fun row => key row ≤ bound).getLast?

/-- The scan of a table gets to a run and reads nothing behind it. -/
def Fair (front own back : List α) : Prop :=
  (∀ row ∈ front, key row ≤ bound) ∧
    ((∃ row ∈ own, bound < key row) ∨ ∀ row ∈ back.head?, bound < key row)

variable {key bound}

@[simp]
theorem read_nil : read key bound ([] : List α) = [] :=
  rfl

theorem read_cons_of_le {row : α} (le : key row ≤ bound) (rows : List α) :
    read key bound (row :: rows) = row :: read key bound rows :=
  List.takeWhile_cons_of_pos (decide_eq_true le)

theorem read_cons_of_lt {row : α} (lt : bound < key row) (rows : List α) :
    read key bound (row :: rows) = [] :=
  List.takeWhile_cons_of_neg (by simpa using lt)

theorem le_of_mem_read {rows : List α} {row : α} (member : row ∈ read key bound rows) :
    row ∈ rows ∧ key row ≤ bound := by
  induction rows with
  | nil => exact absurd member List.not_mem_nil
  | cons first rows ih =>
      by_cases le : key first ≤ bound
      · rw [read_cons_of_le le] at member
        rcases List.mem_cons.mp member with rfl | later
        · exact ⟨List.mem_cons_self, le⟩
        · exact ⟨List.mem_cons_of_mem first (ih later).1, (ih later).2⟩
      · rw [read_cons_of_lt (not_le.mp le)] at member
        exact absurd member List.not_mem_nil

/-- A run that is not beyond the bound is read to its end. -/
theorem read_append_of_le {front : List α} (le : ∀ row ∈ front, key row ≤ bound) (back : List α) :
    read key bound (front ++ back) = front ++ read key bound back :=
  List.takeWhile_append_of_pos fun row member => decide_eq_true (le row member)

/-- One with a row beyond the bound ends the scan. -/
theorem read_append_of_lt {front : List α} (lt : ∃ row ∈ front, bound < key row)
    (back : List α) : read key bound (front ++ back) = read key bound front := by
  induction front with
  | nil =>
      obtain ⟨row, member, _⟩ := lt
      exact absurd member List.not_mem_nil
  | cons first front ih =>
      rw [List.cons_append]
      by_cases le : key first ≤ bound
      · rw [read_cons_of_le le, read_cons_of_le le, ih]
        obtain ⟨row, member, beyond⟩ := lt
        rcases List.mem_cons.mp member with rfl | later
        · exact absurd le (not_le.mpr beyond)
        · exact ⟨row, later, beyond⟩
      · rw [read_cons_of_lt (not_le.mp le), read_cons_of_lt (not_le.mp le)]

/-- Of rows in the order of their keys all that are not beyond the bound are
read. -/
theorem read_of_sorted {rows : List α} (sorted : rows.Pairwise fun row row' => key row ≤ key row') :
    read key bound rows = rows.filter fun row => key row ≤ bound := by
  induction rows with
  | nil => rfl
  | cons row rows ih =>
      obtain ⟨first_le, rest_sorted⟩ := List.pairwise_cons.mp sorted
      by_cases le : key row ≤ bound
      · rw [read_cons_of_le le, ih rest_sorted, List.filter_cons, if_pos (decide_eq_true le)]
      · have none_left : (row :: rows).filter (fun row => key row ≤ bound) = [] := by
          apply List.filter_eq_nil_iff.mpr
          intro row' member small
          rcases List.mem_cons.mp member with rfl | later
          · exact le (of_decide_eq_true small)
          · exact le ((first_le row' later).trans (of_decide_eq_true small))
        rw [read_cons_of_lt (not_le.mp le), none_left]

variable {front own back : List α}

/-- A fair scan finds the latest row of the run. -/
theorem getLast_read_of_fair (sorted : own.Pairwise fun row row' => key row ≤ key row')
    (fair : Fair key bound front own back) {row : α} (found : latest key bound own = some row) :
    (read key bound (front ++ own ++ back)).getLast? = some row := by
  obtain ⟨front_le, ends⟩ := fair
  have own_read : (read key bound own).getLast? = some row := by
    rw [read_of_sorted sorted]
    exact found
  have nonempty : read key bound own ≠ [] := by
    intro empty
    rw [empty] at own_read
    contradiction
  have last_own (rows : List α) (rows_eq : rows = front ++ read key bound own) :
      rows.getLast? = some row := by
    rw [rows_eq, List.getLast?_append_of_ne_nil _ nonempty, own_read]
  apply last_own
  rw [List.append_assoc, read_append_of_le front_le]
  rcases ends with beyond | beyond
  · rw [read_append_of_lt beyond]
  · by_cases inside : ∃ row ∈ own, bound < key row
    · rw [read_append_of_lt inside]
    · have own_le : ∀ row ∈ own, key row ≤ bound := fun row member =>
        not_lt.mp fun lt => inside ⟨row, member, lt⟩
      have own_all : read key bound own = own := by
        have all := read_append_of_le own_le []
        rwa [List.append_nil, read_nil, List.append_nil] at all
      have back_none : read key bound back = [] := by
        cases back with
        | nil => rfl
        | cons first back => exact read_cons_of_lt (beyond first rfl) back
      rw [read_append_of_le own_le, back_none, List.append_nil, own_all]

/-- Only a fair one does, when the keys of the other runs are other ones. -/
theorem fair_of_getLast_read {row : α}
    (apart : ∀ row' ∈ front ++ back, key row' ≤ bound → key row' ≠ key row)
    (last : (read key bound (front ++ own ++ back)).getLast? = some row) :
    Fair key bound front own back := by
  have elsewhere {rows : List α} (inside : ∀ row' ∈ rows, row' ∈ front ++ back)
      (last' : (read key bound rows).getLast? = some row) : False := by
    obtain ⟨member, le⟩ := le_of_mem_read (List.mem_of_getLast? last')
    exact apart row (inside row member) le rfl
  rw [List.append_assoc] at last
  have front_le : ∀ row ∈ front, key row ≤ bound := by
    by_contra not_all
    push Not at not_all
    rw [read_append_of_lt not_all] at last
    exact elsewhere (fun row' => List.mem_append_left back) last
  refine ⟨front_le, ?_⟩
  by_contra neither
  push Not at neither
  obtain ⟨own_le, first, first_eq, first_le⟩ := neither
  rw [read_append_of_le front_le, read_append_of_le own_le] at last
  obtain ⟨rest, rfl⟩ : ∃ rest, back = first :: rest := by
    cases back with
    | nil => contradiction
    | cons first' rest =>
        cases first_eq
        exact ⟨rest, rfl⟩
  rw [← List.append_assoc, List.getLast?_append_of_ne_nil _
    (by rw [read_cons_of_le first_le]; exact List.cons_ne_nil _ _)] at last
  exact elsewhere (fun row' => List.mem_append_right front) last

end Jos64.Scan
