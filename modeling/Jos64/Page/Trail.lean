import Jos64.Page.Core
import Jos64.Store.Core

/-!
# The cells behind the cursor

Printing and erasing move the cursor along the page in reading order.  As long as
they are few enough to fit into the window, the cells that were printed since
some place on the page are those behind the cursor, and all of them are visible.
-/

namespace Jos64.Page

universe u

variable {α : Type u}

/-- The number of cells before the cursor in reading order. -/
def place (cols : Nat) (page : Page α) : Nat :=
  page.row * cols + page.col

/-- The cells in reading order. -/
def reading (cols : Nat) (page : Page α) (place : Nat) : α :=
  page.cell (place / cols) (place % cols)

/-- The items are the cells just behind the cursor, and they are visible. -/
structure Trail (cols : Nat) (page : Page α) (items : List α) : Prop where
  visible : page.top * cols + items.length ≤ page.place cols
  held : Store.Holds (page.reading cols) (page.place cols - items.length) items

variable {rows cols : Nat} {page : Page α} {items : List α}

/-! ## Motions in reading order -/

theorem place_div (col_lt : page.col < cols) : page.place cols / cols = page.row := by
  rw [place, Nat.add_comm, Nat.add_mul_div_right _ _ (by omega), Nat.div_eq_of_lt col_lt,
    Nat.zero_add]

theorem place_mod (col_lt : page.col < cols) : page.place cols % cols = page.col := by
  rw [place, Nat.mul_add_mod_self_right, Nat.mod_eq_of_lt col_lt]

theorem write_reading (col_lt : page.col < cols) (x : α) :
    (page.write x).reading cols = Function.update (page.reading cols) (page.place cols) x := by
  funext place
  rw [reading, write]
  dsimp only
  by_cases here : place = page.place cols
  · subst here
    rw [place_div col_lt, place_mod col_lt, Function.update_self, Function.update_self,
      Function.update_self]
  · rw [Function.update_of_ne here]
    by_cases same_row : place / cols = page.row
    · have other_col : place % cols ≠ page.col := by
        intro same_col
        apply here
        rw [Page.place, ← same_row, ← same_col, Nat.mul_comm]
        exact (Nat.div_add_mod place cols).symm
      rw [same_row, Function.update_self, Function.update_of_ne other_col, reading, same_row]
    · rw [Function.update_of_ne same_row, reading]

theorem advance_place (page : Page α) :
    (page.advance cols).place cols = page.place cols + 1 := by
  rw [advance, place, place]
  split
  · dsimp only
    rw [Nat.succ_mul]
    omega
  · dsimp only
    omega

theorem advance_reading (page : Page α) : (page.advance cols).reading cols = page.reading cols := by
  rw [advance]
  split
  · rfl
  · rfl

/-- The cursor that has just left the last row is at the start of the next. -/
theorem advance_col (row_lt : page.row < page.top + rows) :
    (page.advance cols).row = (page.advance cols).top + rows → (page.advance cols).col = 0 := by
  rw [advance]
  split
  · exact fun _ => rfl
  · intro left
    dsimp only at left
    omega

theorem retreat_place (col_lt : page.col < cols) (positive : 0 < page.place cols) :
    (page.retreat cols).place cols + 1 = page.place cols := by
  rw [place] at positive
  rw [retreat]
  split
  · rename_i first
    rw [first, Nat.add_zero] at positive
    obtain ⟨row, row_eq⟩ : ∃ row, page.row = row + 1 :=
      ⟨page.row - 1, by have := Nat.pos_of_mul_pos_right positive; omega⟩
    rw [place, place, first, row_eq, Nat.succ_mul]
    dsimp only
    rw [Nat.add_sub_cancel]
    omega
  · rw [place, place]
    dsimp only
    omega

theorem retreat_col (col_lt : page.col < cols) : (page.retreat cols).col < cols := by
  rw [retreat]
  split
  · dsimp only
    omega
  · dsimp only
    omega

theorem retreat_reading (page : Page α) : (page.retreat cols).reading cols = page.reading cols := by
  rw [retreat]
  split
  · rfl
  · rfl

/-! ## The trail -/

theorem Trail.nil (top_le : page.top ≤ page.row) :
    page.Trail cols [] := by
  refine ⟨?_, .nil _ _⟩
  have above := Nat.mul_le_mul_right cols top_le
  rw [place, List.length_nil]
  omega

/-- Scrolling hides no cell of a trail that is shorter than the window without
its last row. -/
theorem Trail.settle (trail : page.Trail cols items) (blank : α)
    (left : page.row = page.top + rows → page.col = 0 ∧ items.length + cols ≤ rows * cols) :
    (page.settle rows blank).Trail cols items := by
  rw [Page.settle]
  split
  · rename_i below
    obtain ⟨first, fits⟩ := left below
    have place_eq : page.place cols = page.top * cols + rows * cols := by
      rw [place, first, below, Nat.add_mul]
      rfl
    refine ⟨?_, fun index bound => ?_⟩
    · change (page.top + 1) * cols + items.length ≤ page.place cols
      rw [place_eq, Nat.succ_mul]
      omega
    · rw [← trail.held index bound]
      change Function.update page.cell page.row (fun _ => blank)
        ((page.place cols - items.length + index) / cols)
        ((page.place cols - items.length + index) % cols) = _
      have visible := trail.visible
      have early : (page.place cols - items.length + index) / cols < page.row := by
        apply Nat.div_lt_of_lt_mul
        rw [Nat.mul_comm, below, Nat.add_mul, ← place_eq]
        omega
      rw [Function.update_of_ne early.ne]
      rfl
  · exact trail

/-- A printed cell joins the trail. -/
theorem Trail.put (trail : page.Trail cols items) (col_lt : page.col < cols)
    (row_lt : page.row < page.top + rows) (fits : items.length + 1 + cols ≤ rows * cols)
    (blank x : α) : (page.put rows cols blank x).Trail cols (items ++ [x]) := by
  have visible := trail.visible
  have place_eq : ((page.write x).advance cols).place cols = page.place cols + 1 :=
    advance_place _
  have joined : ((page.write x).advance cols).Trail cols (items ++ [x]) := by
    refine ⟨?_, ?_⟩
    · have top_eq : ((page.write x).advance cols).top = page.top := by
        rw [advance]
        split
        · rfl
        · rfl
      rw [place_eq, top_eq, List.length_append, List.length_singleton]
      omega
    · have held := trail.held.update x
      rw [Nat.sub_add_cancel (by omega), ← write_reading col_lt] at held
      rw [advance_reading, place_eq, List.length_append, List.length_singleton,
        Nat.add_sub_add_right]
      exact held
  refine joined.settle blank fun below => ⟨advance_col row_lt below, ?_⟩
  rw [List.length_append, List.length_singleton]
  exact fits

/-- An erased cell leaves it. -/
theorem Trail.backspace {last : α} (trail : page.Trail cols (items ++ [last]))
    (col_lt : page.col < cols) (x : α) : (page.backspace cols x).Trail cols items := by
  have visible := trail.visible
  rw [List.length_append, List.length_singleton] at visible
  have away : ¬ page.AtHome := by
    rintro ⟨row_eq, col_eq⟩
    rw [place, row_eq, col_eq] at visible
    omega
  have place_eq := retreat_place col_lt (show 0 < page.place cols by omega)
  have write_place : ((page.retreat cols).write x).place cols = (page.retreat cols).place cols :=
    rfl
  have top_eq : ((page.retreat cols).write x).top = page.top := by
    rw [retreat]
    split
    · rfl
    · rfl
  rw [Page.backspace, if_neg away]
  refine ⟨by rw [top_eq, write_place]; omega, fun index bound => ?_⟩
  have held := trail.held.of_append index bound
  rw [List.length_append, List.length_singleton] at held
  rw [write_reading (retreat_col col_lt), write_place, Function.update_of_ne (by omega),
    retreat_reading, ← held]
  congr 1
  omega

/-- A buffer that shows the page has the trail before its position. -/
theorem Shows.trail {buf : Nat → α} {pos : Nat} (shown : Shows rows cols buf pos page)
    (pos_lt : pos < rows * cols) (trail : page.Trail cols items) :
    items.length ≤ pos ∧ Store.Holds buf (pos - items.length) items := by
  have visible := trail.visible
  have place_eq : page.place cols = page.top * cols + pos := by
    rw [shown.pos_eq, index, place, ← Nat.add_assoc, ← Nat.add_mul,
      Nat.add_sub_cancel' shown.top_le]
  refine ⟨by omega, fun index bound => ?_⟩
  have col_lt := shown.col_lt
  rw [← trail.held index bound, shown.window_eq _ (by omega), window, reading,
    show page.place cols - items.length + index =
      pos - items.length + index + page.top * cols by omega,
    Nat.add_mul_div_right _ _ (by omega), Nat.add_mul_mod_self_right, Nat.add_comm page.top]

end Jos64.Page
