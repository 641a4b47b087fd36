import Mathlib.Tactic

/-!
# Words

The words of a list are its maximal runs of items that are no separators.
-/

namespace Jos64.Words

variable {α : Type*} (separator : α → Bool)

/-- The maximal runs of items that are no separators, in order. -/
def words (items : List α) : List (List α) :=
  (items.splitOnP separator).filter (· ≠ [])

variable {separator}

@[simp]
theorem words_nil : words separator [] = [] := by
  simp [words]

/-- A separator in front makes no difference. -/
theorem words_cons_of_separator {item : α} (separates : separator item) (items : List α) :
    words separator (item :: items) = words separator items := by
  simp [words, List.splitOnP_cons_eq_if_modifyHead, separates]

theorem words_append_of_separators {front : List α} (separate : ∀ item ∈ front, separator item)
    (items : List α) : words separator (front ++ items) = words separator items := by
  induction front with
  | nil => rfl
  | cons item front ih =>
      rw [List.cons_append, words_cons_of_separator (separate item List.mem_cons_self)]
      exact ih fun later later_mem => separate later (List.mem_cons_of_mem item later_mem)

/-- A run that ends where the list ends or a separator follows is a word. -/
theorem words_append_of_word {word items : List α} (nonempty : word ≠ [])
    (plain : ∀ item ∈ word, ¬ separator item) (ends : ∀ item ∈ items.head?, separator item) :
    words separator (word ++ items) = word :: words separator items := by
  have no_separator : ∀ item ∈ word, separator item = false := fun item item_mem =>
    Bool.eq_false_iff.mpr (plain item item_mem)
  cases items with
  | nil =>
      rw [List.append_nil, words, List.splitOnP_eq_singleton no_separator]
      simp [nonempty]
  | cons item items =>
      have separates := ends item rfl
      rw [words_cons_of_separator separates, words, List.splitOnP_append_cons word items separates,
        List.splitOnP_eq_singleton no_separator]
      simp [words, nonempty]

theorem mem_of_mem_splitOnP {items part : List α} (part_mem : part ∈ items.splitOnP separator) :
    ∀ item ∈ part, item ∈ items := by
  induction items generalizing part with
  | nil =>
      rw [List.splitOnP_nil, List.mem_singleton] at part_mem
      simp [part_mem]
  | cons first items ih =>
      rw [List.splitOnP_cons_eq_if_modifyHead] at part_mem
      intro item item_mem
      split at part_mem
      · rcases List.mem_cons.mp part_mem with rfl | later
        · cases item_mem
        · exact List.mem_cons_of_mem first (ih later item item_mem)
      · cases parts_eq : items.splitOnP separator with
        | nil =>
            rw [parts_eq] at part_mem
            cases part_mem
        | cons head parts =>
            rw [parts_eq, List.modifyHead_cons] at part_mem
            rw [parts_eq] at ih
            rcases List.mem_cons.mp part_mem with rfl | later
            · rcases List.mem_cons.mp item_mem with rfl | inner
              · exact List.mem_cons_self
              · exact List.mem_cons_of_mem first (ih List.mem_cons_self item inner)
            · exact List.mem_cons_of_mem first (ih (List.mem_cons_of_mem head later) item item_mem)

/-- A word is made of items of the list. -/
theorem mem_of_mem_words {items word : List α} (word_mem : word ∈ words separator items) :
    ∀ item ∈ word, item ∈ items :=
  mem_of_mem_splitOnP (List.mem_filter.mp word_mem).1

end Jos64.Words
