import Mathlib.Tactic

/-!
# A window on an unbounded page

A page has rows of a fixed width that continue downwards without end.  A cursor
writes on it, and a window of a fixed number of rows follows the cursor: it
moves down by one row, which it finds blank, whenever the cursor leaves the
last visible row.  A flat row-major buffer can show such a window; the relation
`Shows` says when it does, and every cursor motion has a counterpart on the
buffer that keeps the relation.
-/

namespace Jos64

universe u

/-- The cells of a page by row and column, the cursor, and the first visible
row. -/
structure Page (α : Type u) where
  cell : Nat → Nat → α
  row : Nat
  col : Nat
  top : Nat

namespace Page

variable {α : Type u}

/-- Write under the cursor. -/
def write (page : Page α) (x : α) : Page α :=
  { page with
    cell :=
      Function.update page.cell page.row (Function.update (page.cell page.row) page.col x) }

/-- Step to the next column, or to the next row at the end of this one. -/
def advance (cols : Nat) (page : Page α) : Page α :=
  if page.col + 1 = cols then { page with row := page.row + 1, col := 0 }
  else { page with col := page.col + 1 }

/-- Step to the previous column, or to the end of the previous row, but not
above the first visible cell. -/
def retreat (cols : Nat) (page : Page α) : Page α :=
  if page.col = 0 then { page with row := page.row - 1, col := cols - 1 }
  else { page with col := page.col - 1 }

/-- The cursor is on the first visible cell. -/
def AtHome (page : Page α) : Prop :=
  page.row = page.top ∧ page.col = 0

instance (page : Page α) : Decidable page.AtHome :=
  inferInstanceAs (Decidable (_ ∧ _))

/-- Move the window down by one row and add a blank row there if the cursor
has left the last visible row. -/
def settle (rows : Nat) (blank : α) (page : Page α) : Page α :=
  if page.row = page.top + rows then
    { page with
      cell := Function.update page.cell page.row fun _ => blank
      top := page.top + 1 }
  else page

/-- Write a cell and advance. -/
def put (rows cols : Nat) (blank : α) (page : Page α) (x : α) : Page α :=
  ((page.write x).advance cols).settle rows blank

/-- Go to the start of the next row. -/
def newline (rows : Nat) (blank : α) (page : Page α) : Page α :=
  { page with row := page.row + 1, col := 0 }.settle rows blank

/-- Go to the start of the row. -/
def carriageReturn (page : Page α) : Page α :=
  { page with col := 0 }

/-- Step back and write there, unless the cursor is on the first visible
cell. -/
def backspace (cols : Nat) (page : Page α) (x : α) : Page α :=
  if page.AtHome then page else (page.retreat cols).write x

/-- The visible cell at a row-major index of the window. -/
def window (cols : Nat) (page : Page α) (index : Nat) : α :=
  page.cell (page.top + index / cols) (index % cols)

/-- The row-major index of the cursor in the window. -/
def index (cols : Nat) (page : Page α) : Nat :=
  (page.row - page.top) * cols + page.col

/-- A flat buffer with a position shows the window of a page; the cursor may
have run off the last visible row by one. -/
structure Shows (rows cols : Nat) (buf : Nat → α) (pos : Nat) (page : Page α) : Prop where
  col_lt : page.col < cols
  top_le : page.top ≤ page.row
  row_le : page.row ≤ page.top + rows
  pos_eq : pos = page.index cols
  window_eq : ∀ index < rows * cols, buf index = page.window cols index

variable {rows cols : Nat} {blank : α} {buf : Nat → α} {pos : Nat} {page : Page α}

/-! ## Indices -/

theorem index_div (col_lt : page.col < cols) :
    page.index cols / cols = page.row - page.top := by
  rw [index, Nat.add_comm, Nat.add_mul_div_right _ _ (by omega), Nat.div_eq_of_lt col_lt,
    Nat.zero_add]

theorem index_mod (col_lt : page.col < cols) : page.index cols % cols = page.col := by
  rw [index, Nat.mul_add_mod_self_right, Nat.mod_eq_of_lt col_lt]

theorem index_lt (col_lt : page.col < cols) (row_lt : page.row < page.top + rows)
    (top_le : page.top ≤ page.row) : page.index cols < rows * cols := by
  have above : (page.row - page.top + 1) * cols ≤ rows * cols :=
    Nat.mul_le_mul_right cols (by omega)
  rw [Nat.succ_mul] at above
  unfold index
  omega

theorem Shows.row_lt (shown : Shows rows cols buf pos page) (pos_lt : pos < rows * cols) :
    page.row < page.top + rows := by
  by_contra below
  have row_eq : page.row - page.top = rows := by
    have := shown.row_le
    omega
  have pos_eq := shown.pos_eq
  rw [index, row_eq] at pos_eq
  omega

theorem Shows.pos_lt_iff (shown : Shows rows cols buf pos page) :
    pos < rows * cols ↔ page.row < page.top + rows :=
  ⟨shown.row_lt, fun row_lt => by
    rw [shown.pos_eq]
    exact index_lt shown.col_lt row_lt shown.top_le⟩

/-- The fresh window of a buffer: its rows are the first rows of the page. -/
def ofBuffer (cols : Nat) (buf : Nat → α) (pos : Nat) : Page α :=
  ⟨fun row col => buf (row * cols + col), pos / cols, pos % cols, 0⟩

theorem shows_ofBuffer (cols_pos : 0 < cols) (pos_lt : pos < rows * cols) :
    Shows rows cols buf pos (ofBuffer cols buf pos) where
  col_lt := Nat.mod_lt _ cols_pos
  top_le := Nat.zero_le _
  row_le := by
    have := Nat.div_lt_of_lt_mul (by rwa [Nat.mul_comm] at pos_lt : pos < cols * rows)
    simp only [ofBuffer]
    omega
  pos_eq := by
    simp only [index, ofBuffer, Nat.sub_zero]
    rw [Nat.mul_comm]
    exact (Nat.div_add_mod pos cols).symm
  window_eq index _ := by
    simp only [window, ofBuffer, Nat.zero_add]
    rw [Nat.mul_comm]
    exact congrArg buf (Nat.div_add_mod index cols).symm

/-! ## Cursor motions on the buffer -/

theorem Shows.write (shown : Shows rows cols buf pos page) (x : α) :
    Shows rows cols (Function.update buf pos x) pos (page.write x) where
  col_lt := shown.col_lt
  top_le := shown.top_le
  row_le := shown.row_le
  pos_eq := shown.pos_eq
  window_eq index index_lt := by
    have at_div := index_div shown.col_lt
    have at_mod := index_mod shown.col_lt
    rw [← shown.pos_eq] at at_div at_mod
    have top_le := shown.top_le
    simp only [window, Page.write]
    by_cases here : index = pos
    · have row_eq : page.top + index / cols = page.row := by rw [here, at_div]; omega
      have col_eq : index % cols = page.col := by rw [here, at_mod]
      rw [row_eq, col_eq, here, Function.update_self, Function.update_self, Function.update_self]
    · rw [Function.update_of_ne here, shown.window_eq index index_lt, window]
      by_cases same_row : page.top + index / cols = page.row
      · rw [same_row, Function.update_self, Function.update_of_ne]
        intro same_col
        apply here
        rw [← Nat.div_add_mod index cols, ← Nat.div_add_mod pos cols, same_col, at_mod, at_div,
          show index / cols = page.row - page.top by omega]
      · rw [Function.update_of_ne same_row]

theorem Shows.advance (shown : Shows rows cols buf pos page) (pos_lt : pos < rows * cols) :
    Shows rows cols buf (pos + 1) (page.advance cols) := by
  have row_lt := shown.row_lt pos_lt
  have col_lt := shown.col_lt
  have top_le := shown.top_le
  have pos_eq := shown.pos_eq
  unfold Page.advance
  split
  · rename_i last
    refine ⟨Nat.pos_of_ne_zero (by omega), by dsimp only; omega, by dsimp only; omega, ?_,
      shown.window_eq⟩
    rw [pos_eq]
    simp only [index]
    rw [show page.row + 1 - page.top = page.row - page.top + 1 by omega, Nat.succ_mul]
    omega
  · refine ⟨by dsimp only; omega, top_le, shown.row_le, ?_, shown.window_eq⟩
    rw [pos_eq]
    simp only [index]
    omega

theorem Shows.retreat (shown : Shows rows cols buf pos page) (away : ¬ page.AtHome) :
    0 < pos ∧ Shows rows cols buf (pos - 1) (page.retreat cols) := by
  have col_lt := shown.col_lt
  have top_le := shown.top_le
  have row_le := shown.row_le
  have pos_eq := shown.pos_eq
  unfold AtHome at away
  unfold Page.retreat
  split
  · rename_i first
    obtain ⟨above, above_eq⟩ : ∃ above, page.row - page.top = above + 1 :=
      ⟨page.row - page.top - 1, by omega⟩
    rw [index, above_eq, first, Nat.succ_mul] at pos_eq
    refine ⟨by omega, by dsimp only; omega, by dsimp only; omega, by dsimp only; omega, ?_,
      shown.window_eq⟩
    simp only [index]
    rw [show page.row - 1 - page.top = above by omega]
    omega
  · rename_i later
    rw [index] at pos_eq
    refine ⟨by omega, by dsimp only; omega, top_le, row_le, ?_, shown.window_eq⟩
    simp only [index]
    omega

theorem Shows.pos_eq_zero_iff (shown : Shows rows cols buf pos page) :
    pos = 0 ↔ page.AtHome := by
  constructor
  · intro zero
    by_contra away
    have := (shown.retreat away).1
    omega
  · rintro ⟨row_eq, col_eq⟩
    rw [shown.pos_eq, index, row_eq, col_eq, Nat.sub_self, Nat.zero_mul]

theorem Shows.carriageReturn (shown : Shows rows cols buf pos page) :
    Shows rows cols buf (pos - pos % cols) page.carriageReturn := by
  have at_mod := index_mod shown.col_lt
  rw [← shown.pos_eq] at at_mod
  refine ⟨Nat.zero_lt_of_lt shown.col_lt, shown.top_le, shown.row_le, ?_, shown.window_eq⟩
  rw [at_mod, shown.pos_eq]
  simp only [index, Page.carriageReturn]
  omega

/-- Going down one row without leaving column `col`. -/
theorem Shows.down (shown : Shows rows cols buf pos page) (pos_lt : pos < rows * cols) :
    Shows rows cols buf (pos + cols) { page with row := page.row + 1 } := by
  have row_lt := shown.row_lt pos_lt
  have top_le := shown.top_le
  refine ⟨shown.col_lt, by dsimp only; omega, by dsimp only; omega, ?_, shown.window_eq⟩
  rw [shown.pos_eq]
  simp only [index]
  rw [show page.row + 1 - page.top = page.row - page.top + 1 by omega, Nat.succ_mul]
  omega

/-- Scroll a flat buffer up by one row and blank the last row. -/
def scroll (rows cols : Nat) (blank : α) (buf : Nat → α) (index : Nat) : α :=
  if index < (rows - 1) * cols then buf (index + cols)
  else if index < rows * cols then blank
  else buf index

theorem Shows.settle_visible (shown : Shows rows cols buf pos page)
    (pos_lt : pos < rows * cols) : Shows rows cols buf pos (page.settle rows blank) := by
  have row_lt := shown.row_lt pos_lt
  rw [settle, if_neg (by omega)]
  exact shown

variable (blank) in
theorem Shows.settle_scroll (shown : Shows rows cols buf pos page) (rows_pos : 0 < rows)
    (off : rows * cols ≤ pos) :
    Shows rows cols (scroll rows cols blank buf) (pos - cols) (page.settle rows blank) := by
  have col_lt := shown.col_lt
  have below : page.row = page.top + rows := by
    have := shown.pos_lt_iff
    have := shown.row_le
    omega
  obtain ⟨last, rfl⟩ : ∃ last, rows = last + 1 := ⟨rows - 1, by omega⟩
  rw [settle, if_pos below]
  refine ⟨col_lt, by dsimp only; omega, by dsimp only; omega, ?_, ?_⟩
  · rw [shown.pos_eq]
    simp only [index]
    rw [below, show page.top + (last + 1) - page.top = last + 1 by omega,
      show page.top + (last + 1) - (page.top + 1) = last by omega, Nat.succ_mul]
    omega
  · intro index index_lt
    simp only [scroll, window, Nat.add_sub_cancel]
    rw [Nat.succ_mul] at index_lt
    by_cases moved : index < last * cols
    · have row_lt : index / cols < last := Nat.div_lt_of_lt_mul (by rwa [Nat.mul_comm])
      rw [if_pos moved, Function.update_of_ne (by omega),
        shown.window_eq _ (by rw [Nat.succ_mul]; omega), window,
        Nat.add_div_right _ (by omega), Nat.add_mod_right,
        show page.top + (index / cols + 1) = page.top + 1 + index / cols by omega]
    · have row_eq : index / cols = last :=
        Nat.div_eq_of_lt_le (by omega) (by rw [Nat.succ_mul]; omega)
      rw [if_neg moved, if_pos (by rw [Nat.succ_mul]; omega), row_eq,
        show page.top + 1 + last = page.row by omega, Function.update_self]

end Page

end Jos64
