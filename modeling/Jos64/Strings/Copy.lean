import Jos64.Loop.Core
import Jos64.Store.Core
import Jos64.Strings.Core

/-!
# Copying strings

`strcpy` and `strcat` go on until they have copied a NUL, wherever the copy goes.  A copy that
begins inside its source overwrites the NUL before it is read, and then there is no end.
`strncpy` and `strlcpy` stop at a size.
-/

namespace Jos64.Strings

open Loop Store

/-! ## The functions -/

/-- Memory, and the two pointers. -/
structure Copying where
  store : Nat → Byte
  dst : Nat
  src : Nat

/-- `(*dst++ = *src++) != '\0'` -/
def strcpyBody (state : Copying) : Exec (Next Copying (Nat → Byte)) :=
  let c := state.store state.src
  let store := Function.update state.store state.dst c
  .done (if c ≠ 0 then .again ⟨store, state.dst + 1, state.src + 1⟩ else .stop store)

/-- `strcpy`: the pointer that is returned, and memory. -/
def strcpy (fuel : Nat) (store : Nat → Byte) (dst src : Nat) : Exec (Nat × (Nat → Byte)) :=
  (loop strcpyBody fuel ⟨store, dst, src⟩).bind fun store => .done (dst, store)

/-- A round of `strlen`, with its count and its pointer. -/
def lengthBody (store : Nat → Byte) : Int × Nat → Exec (Next (Int × Nat) Int)
  | (n, s) => .done (if store s ≠ 0 then .again (wrap32 (n + 1), s + 1) else .stop n)

/-- `strcat` -/
def strcat (fuel : Nat) (store : Nat → Byte) (dst src : Nat) : Exec (Nat × (Nat → Byte)) :=
  (loop (lengthBody store) fuel (0, dst)).bind fun len =>
    (strcpy fuel store (dst + len).toNat src).bind fun (_, store) => .done (dst, store)

/-- The loop of `strncpy`.  The source is read again behind the store. -/
def strncpyLoop : (size : Nat) → Copying → Nat → Byte
  | 0, state => state.store
  | size + 1, state =>
      let store := Function.update state.store state.dst (state.store state.src)
      strncpyLoop size
        ⟨store, state.dst + 1, if store state.src ≠ 0 then state.src + 1 else state.src⟩

def strncpy (store : Nat → Byte) (dst src size : Nat) : Nat × (Nat → Byte) :=
  (dst, strncpyLoop size ⟨store, dst, src⟩)

/-- `while (--size > 0 && *src != '\0') *dst++ = *src++`, with the size that is left behind
the decrement. -/
def strlcpyLoop : (size : Nat) → Copying → Copying
  | 0, state => state
  | size + 1, state =>
      if state.store state.src ≠ 0 then
        strlcpyLoop size ⟨Function.update state.store state.dst (state.store state.src),
          state.dst + 1, state.src + 1⟩
      else state

/-- `strlcpy`: what is returned, and memory. -/
def strlcpy (store : Nat → Byte) (dst src size : Nat) : Nat × (Nat → Byte) :=
  if 0 < size then
    let last := strlcpyLoop (size - 1) ⟨store, dst, src⟩
    (last.dst - dst, Function.update last.store last.dst 0)
  else (0, store)

/-! ## One character -/

/-- The copy does not run into the characters that are still to be read. -/
def Apart (dst src length : Nat) : Prop :=
  dst ≤ src ∨ src + length < dst

section

variable {store : Nat → Byte} {dst src : Nat}

theorem Apart.succ {length : Nat} (apart : Apart dst src (length + 1)) :
    Apart (dst + 1) (src + 1) length := by
  unfold Apart at *
  omega

/-- What is behind the first character is as before its copy has been stored. -/
theorem Apart.holds_update {c : Byte} {rest : List Byte} {value : Byte}
    (apart : Apart dst src rest.length) (held : Holds store src (c :: rest)) :
    Holds (Function.update store dst value) (src + 1) rest := by
  intro index bound
  have elsewhere : src + 1 + index ≠ dst := by
    unfold Apart at apart
    omega
  rw [Function.update_of_ne elsewhere]
  exact (holds_cons.mp held).2 index bound

theorem update_write (value : Byte) (rest : List Byte) :
    write (Function.update store dst value) (dst + 1) rest = write store dst (value :: rest) := by
  have first := write_append store dst [value] rest
  rw [write_singleton] at first
  exact first

end

/-! ## `strcpy` -/

section

variable {store : Nat → Byte} {dst src : Nat}

theorem strcpyBody_again (nonzero : store src ≠ 0) :
    strcpyBody ⟨store, dst, src⟩ =
      .done (.again ⟨Function.update store dst (store src), dst + 1, src + 1⟩) := by
  rw [strcpyBody, if_pos nonzero]

theorem strcpyBody_stop (zero : store src = 0) :
    strcpyBody ⟨store, dst, src⟩ = .done (.stop (Function.update store dst (store src))) := by
  rw [strcpyBody, if_neg fun nonzero => nonzero zero]

/-- A copy that stays clear of what is to be read. -/
theorem strcpy_loop {s : List Byte} (nonzero : ∀ c ∈ s, c ≠ 0) (held : Holds store src (s ++ [0]))
    (apart : Apart dst src s.length) {fuel : Nat} (enough : s.length < fuel) :
    loop strcpyBody fuel ⟨store, dst, src⟩ = .done (write store dst (s ++ [0])) := by
  obtain ⟨fuel, rfl⟩ : ∃ rest, fuel = rest + 1 := ⟨fuel - 1, by omega⟩
  induction s generalizing store dst src fuel with
  | nil =>
      have zero := (holds_cons.mp held).1
      rw [loop_stop (strcpyBody_stop zero), zero, List.nil_append, write_singleton]
  | cons c s ih =>
      have here := (holds_cons.mp held).1
      have c_nonzero := nonzero c List.mem_cons_self
      rw [List.length_cons] at apart enough
      obtain ⟨fuel, rfl⟩ : ∃ rest, fuel = rest + 1 := ⟨fuel - 1, by omega⟩
      have behind : Holds (Function.update store dst c) (src + 1) (s ++ [0]) :=
        Apart.holds_update (by rw [List.length_append]; exact apart) held
      rw [loop_again (strcpyBody_again (by rw [here]; exact c_nonzero)), here,
        ih (fun later member => nonzero later (List.mem_cons_of_mem c member)) behind apart.succ
          fuel (by omega), update_write, List.cons_append]

/-- A copy that begins inside its source: the characters in front of it are repeated. -/
theorem strcpy_overlap {s : List Byte} (nonzero : ∀ c ∈ s, c ≠ 0) (held : Holds store src s)
    (inside : src < dst ∧ dst ≤ src + s.length) (fuel : Nat) :
    loop strcpyBody fuel ⟨store, dst, src⟩ = .timeout := by
  let Inv (state : Copying) : Prop := state.src < state.dst ∧
    ∀ address, state.src ≤ address → address < state.dst → state.store address ≠ 0
  have start : Inv ⟨store, dst, src⟩ := by
    refine ⟨inside.1, fun address above below => ?_⟩
    dsimp only at above below ⊢
    have index_lt : address - src < s.length := by omega
    have here := held (address - src) index_lt
    rw [Nat.add_sub_cancel' above] at here
    rw [here]
    exact nonzero _ (List.getElem_mem index_lt)
  refine loop_forever Inv (fun state inv => ?_) start fuel
  have first := inv.2 state.src le_rfl inv.1
  refine ⟨_, strcpyBody_again first, Nat.succ_lt_succ inv.1, fun address above below => ?_⟩
  dsimp only at above below ⊢
  by_cases stored : address = state.dst
  · rw [stored, Function.update_self]
    exact first
  · rw [Function.update_of_ne stored]
    exact inv.2 address (by omega) (by omega)

/-- `strcpy` copies a string with its NUL and returns, unless the copy begins inside the
string; then it does not return. -/
theorem strcpy_copies_iff (s : CString) (held : Holds store src s.terminated) :
    ((∃ fuel, strcpy fuel store dst src = .done (dst, write store dst s.terminated)) ↔
      ¬ (src < dst ∧ dst ≤ src + s.bytes.length)) ∧
    ((src < dst ∧ dst ≤ src + s.bytes.length) → ∀ fuel, strcpy fuel store dst src = .timeout) := by
  have forever (inside : src < dst ∧ dst ≤ src + s.bytes.length) (fuel : Nat) :
      strcpy fuel store dst src = .timeout := by
    rw [strcpy, strcpy_overlap s.nonzero held.of_append inside]
    rfl
  refine ⟨⟨?_, ?_⟩, forever⟩
  · rintro ⟨fuel, returned⟩ inside
    rw [forever inside] at returned
    cases returned
  · intro outside
    have apart : Apart dst src s.bytes.length := by
      unfold Apart
      omega
    refine ⟨s.bytes.length + 1, ?_⟩
    rw [strcpy, strcpy_loop s.nonzero held apart (Nat.lt_succ_self _), Exec.done_bind]
    rfl

/-- A string of two characters, copied to itself, and to the address behind its first one. -/
theorem strcpy_copies_iff_inside :
    let store := write (fun _ => 0xCC) 64 (str "ab" ++ [0])
    (∃ fuel, strcpy fuel store 64 64 = .done (64, write store 64 (str "ab" ++ [0]))) ∧
      ∀ fuel, strcpy fuel store 65 64 = .timeout := by
  intro store
  have held : Holds store 64 (str "ab" ++ [0]) := holds_write _ 64 _
  constructor
  · exact (strcpy_copies_iff ⟨str "ab", by decide⟩ held).1.mpr (by decide)
  · exact (strcpy_copies_iff ⟨str "ab", by decide⟩ held).2 (by decide)

end

/-! ## `strcat` -/

section

variable {store : Nat → Byte} {dst src : Nat}

theorem length_loop {s : List Byte} (nonzero : ∀ c ∈ s, c ≠ 0)
    (held : Holds store src (s ++ [0])) {n : Nat} (small : n + s.length < 2 ^ 31) {fuel : Nat}
    (enough : s.length < fuel) :
    loop (lengthBody store) fuel (n, src) = .done ((n + s.length : Nat) : Int) := by
  obtain ⟨fuel, rfl⟩ : ∃ rest, fuel = rest + 1 := ⟨fuel - 1, by omega⟩
  induction s generalizing src n fuel with
  | nil =>
      have zero := (holds_cons.mp held).1
      refine loop_stop ?_ fuel
      rw [lengthBody, if_neg fun nonzero => nonzero zero]
      rfl
  | cons c s ih =>
      obtain ⟨here, behind⟩ := holds_cons.mp held
      rw [List.length_cons] at small enough
      obtain ⟨fuel, rfl⟩ : ∃ rest, fuel = rest + 1 := ⟨fuel - 1, by omega⟩
      have again : lengthBody store ((n : Int), src) =
          .done (.again (((n + 1 : Nat) : Int), src + 1)) := by
        rw [lengthBody, here, if_pos (nonzero c List.mem_cons_self),
          wrap32_of_range (by omega) (by omega)]
        rfl
      rw [loop_again again, ih (fun later member => nonzero later (List.mem_cons_of_mem c member))
        behind (by omega) fuel (by omega), List.length_cons, Nat.add_right_comm, Nat.add_assoc]

/-- The copy begins behind the string at the destination. -/
theorem strcat_eq {d : CString} (held : Holds store dst d.terminated)
    (short : d.bytes.length < 2 ^ 31) {fuel : Nat} (enough : d.bytes.length < fuel) :
    strcat fuel store dst src =
      (loop strcpyBody fuel ⟨store, dst + d.bytes.length, src⟩).bind fun store =>
        .done (dst, store) := by
  have counted := length_loop d.nonzero held (n := 0) (by omega) enough
  have start : ((dst : Int) + d.bytes.length).toNat = dst + d.bytes.length := by omega
  rw [Nat.zero_add] at counted
  rw [strcat, show ((0 : Int), dst) = (((0 : Nat) : Int), dst) by rfl, counted, Exec.done_bind,
    start, strcpy]
  cases loop strcpyBody fuel ⟨store, dst + d.bytes.length, src⟩ with
  | _ => rfl

/-- `strcat` puts its source behind the string at its destination and changes nothing else,
unless it would begin to store where it has still to read; then it does not return. -/
theorem strcat_appends_iff (d s : CString) (d_held : Holds store dst d.terminated)
    (s_held : Holds store src s.terminated) (short : d.bytes.length < 2 ^ 31) :
    ((∃ fuel store', strcat fuel store dst src = .done (dst, store') ∧
        Holds store' dst (d.bytes ++ s.terminated) ∧
        ∀ address, address < dst + d.bytes.length ∨
          dst + d.bytes.length + s.bytes.length < address → store' address = store address) ↔
      ¬ (src < dst + d.bytes.length ∧ dst + d.bytes.length ≤ src + s.bytes.length)) ∧
    (src < dst + d.bytes.length ∧ dst + d.bytes.length ≤ src + s.bytes.length →
      ∀ fuel result, strcat fuel store dst src ≠ .done result) := by
  have forever (inside : src < dst + d.bytes.length ∧
      dst + d.bytes.length ≤ src + s.bytes.length) (fuel : Nat) (result : Nat × (Nat → Byte)) :
      strcat fuel store dst src ≠ .done result := by
    intro returned
    obtain ⟨len, counted, copied⟩ := Exec.bind_eq_done returned
    have at_end := length_loop d.nonzero d_held (n := 0) (by omega)
      (Nat.lt_succ_of_le (Nat.le_add_left d.bytes.length fuel))
    rw [Nat.zero_add] at at_end
    have more := loop_mono counted (Nat.le_succ_of_le (Nat.le_add_right fuel d.bytes.length))
    cases more.symm.trans at_end
    have start : ((dst : Int) + d.bytes.length).toNat = dst + d.bytes.length := by omega
    rw [start, strcpy, strcpy_overlap s.nonzero s_held.of_append inside] at copied
    cases copied
  refine ⟨⟨?_, ?_⟩, forever⟩
  · rintro ⟨fuel, store', returned, -⟩ inside
    exact forever inside fuel _ returned
  · intro outside
    have apart : Apart (dst + d.bytes.length) src s.bytes.length := by
      unfold Apart
      omega
    have returned : strcat (d.bytes.length + s.bytes.length + 1) store dst src =
        .done (dst, write store (dst + d.bytes.length) s.terminated) := by
      rw [strcat_eq d_held short (by omega), strcpy_loop s.nonzero s_held apart (by omega),
        Exec.done_bind]
      rfl
    refine ⟨_, _, returned, ?_, fun address elsewhere => ?_⟩
    · refine holds_append.mpr ⟨fun index bound => ?_, holds_write _ _ _⟩
      rw [write_of_outside store (.inl (by omega))]
      exact d_held.of_append index bound
    · refine write_of_outside store (elsewhere.imp_right fun behind => ?_)
      rw [CString.terminated, List.length_append, List.length_singleton]
      omega

/-- A string put behind itself: not one number of rounds is enough. -/
theorem strcat_appends_iff_itself :
    ¬ ∃ fuel result,
      strcat fuel (write (fun _ => 0xCC) 64 (str "ab" ++ [0])) 64 64 = .done result := by
  rintro ⟨fuel, result, ended⟩
  exact (strcat_appends_iff ⟨str "ab", by decide⟩ ⟨str "ab", by decide⟩
    (holds_write (fun _ => 0xCC) 64 (str "ab" ++ [0]))
    (holds_write (fun _ => 0xCC) 64 (str "ab" ++ [0])) (by decide)).2 (by decide) fuel result ended

end

/-! ## `strncpy` and `strlcpy` -/

section

variable {store : Nat → Byte} {dst src : Nat}

/-- What is read again is the character that has been copied. -/
theorem strncpyLoop_succ (size : Nat) :
    strncpyLoop (size + 1) ⟨store, dst, src⟩ = strncpyLoop size
      ⟨Function.update store dst (store src), dst + 1,
        if store src ≠ 0 then src + 1 else src⟩ := by
  have reread : Function.update store dst (store src) src = store src := by
    by_cases same : src = dst
    · rw [same, Function.update_self]
    · rw [Function.update_of_ne same]
  rw [strncpyLoop]
  simp only [reread]

/-- The rest of the size is filled with NULs. -/
theorem strncpyLoop_pads (zero : store src = 0) (size : Nat) :
    strncpyLoop size ⟨store, dst, src⟩ = write store dst (List.replicate size 0) := by
  induction size generalizing store dst with
  | zero => exact (write_nil store dst).symm
  | succ size ih =>
      have still : Function.update store dst 0 src = 0 := by
        by_cases here : src = dst
        · rw [here, Function.update_self]
        · rw [Function.update_of_ne here, zero]
      rw [strncpyLoop_succ, if_neg fun nonzero => nonzero zero, zero, ih still, update_write,
        List.replicate_succ]

theorem strncpyLoop_eq {s : List Byte} (nonzero : ∀ c ∈ s, c ≠ 0)
    (held : Holds store src (s ++ [0])) (apart : Apart dst src s.length) (size : Nat) :
    strncpyLoop size ⟨store, dst, src⟩ = write store dst (s.takeD size 0) := by
  induction s generalizing store dst src size with
  | nil => rw [strncpyLoop_pads (holds_cons.mp held).1, List.takeD_nil]
  | cons c s ih =>
      cases size with
      | zero => exact (write_nil store dst).symm
      | succ size =>
          have here := (holds_cons.mp held).1
          rw [List.length_cons] at apart
          have behind : Holds (Function.update store dst c) (src + 1) (s ++ [0]) :=
            Apart.holds_update (by rw [List.length_append]; exact apart) held
          rw [strncpyLoop_succ, if_pos (by rw [here]; exact nonzero c List.mem_cons_self), here,
            ih (fun later member => nonzero later (List.mem_cons_of_mem c member)) behind
              apart.succ, update_write]
          rfl

theorem strlcpyLoop_eq {s : List Byte} (nonzero : ∀ c ∈ s, c ≠ 0)
    (held : Holds store src (s ++ [0])) (apart : Apart dst src s.length) (size : Nat) :
    strlcpyLoop size ⟨store, dst, src⟩ =
      ⟨write store dst (s.take size), dst + min s.length size, src + min s.length size⟩ := by
  induction s generalizing store dst src size with
  | nil =>
      have zero := (holds_cons.mp held).1
      rw [List.take_nil, write_nil, List.length_nil, Nat.zero_min]
      cases size with
      | zero => rfl
      | succ size => exact if_neg fun nonzero => nonzero zero
  | cons c s ih =>
      cases size with
      | zero =>
          rw [List.take_zero, write_nil, Nat.min_zero]
          rfl
      | succ size =>
          have here := (holds_cons.mp held).1
          rw [List.length_cons] at apart
          have behind : Holds (Function.update store dst c) (src + 1) (s ++ [0]) :=
            Apart.holds_update (by rw [List.length_append]; exact apart) held
          rw [strlcpyLoop, if_pos (by dsimp only; rw [here]; exact nonzero c List.mem_cons_self)]
          dsimp only
          rw [here, ih (fun later member => nonzero later (List.mem_cons_of_mem c member)) behind
              apart.succ, update_write, List.take_succ_cons, List.length_cons,
            Nat.succ_min_succ, Nat.add_right_comm dst, Nat.add_right_comm src]
          rfl

/-- `strncpy` stores as many characters as its size says, the string and NULs behind it;
`strlcpy` stores at most as many, what fits in front of a NUL, and returns how many stand in
front of that. -/
theorem bounded_copies (s : CString) (held : Holds store src s.terminated)
    (apart : dst ≤ src ∨ src + s.bytes.length < dst) (size : Nat) :
    strncpy store dst src size = (dst, write store dst (s.bytes.takeD size 0)) ∧
      strlcpy store dst src size = (min s.bytes.length (size - 1),
        if size = 0 then store else write store dst (s.bytes.take (size - 1) ++ [0])) := by
  constructor
  · rw [strncpy, strncpyLoop_eq s.nonzero held apart]
  · cases size with
    | zero =>
        rw [strlcpy, if_neg (Nat.lt_irrefl 0), if_pos rfl, Nat.zero_sub, Nat.min_zero]
    | succ size =>
        have length_eq : min s.bytes.length size = (s.bytes.take size).length := by
          rw [List.length_take, Nat.min_comm]
        rw [strlcpy, if_pos (Nat.succ_pos size), if_neg (Nat.succ_ne_zero size),
          Nat.add_sub_cancel, strlcpyLoop_eq s.nonzero held apart]
        dsimp only
        rw [Nat.add_sub_cancel_left, ← write_append, write_singleton, ← length_eq]

/-- Two characters of three. -/
theorem bounded_copies_cut :
    strlcpy (write (fun _ => 0xCC) 64 (str "abc" ++ [0])) 128 64 3 =
      (2, write (write (fun _ => 0xCC) 64 (str "abc" ++ [0])) 128 ((str "abc").take 2 ++ [0])) :=
  (bounded_copies ⟨str "abc", by decide⟩ (holds_write (fun _ => 0xCC) 64 (str "abc" ++ [0]))
    (.inr (by decide)) 3).2

end

end Jos64.Strings
