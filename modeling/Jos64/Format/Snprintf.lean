import Jos64.Format.Returns
import Jos64.Store.Core

/-!
# Printing into a buffer

`vsnprintf` hands the formatter a callback that counts every character and
stores those that fit.  The buffer is memory that the format and its arguments
are no part of; its addresses are numbers, and a null pointer is address 0.
-/

namespace Jos64.Format

open Jos64.Console

/-- `E_INVAL` -/
def eInval : Int := 3

/-- `struct sprintbuf` with the memory it points into. -/
structure SprintBuf where
  store : Nat → Byte
  buf : Nat
  ebuf : Nat
  cnt : Int

/-- The callback of `vsnprintf`. -/
def sprintputch (b : SprintBuf) (call : Call) : SprintBuf :=
  let b := { b with cnt := wrap32 (b.cnt + 1) }
  if b.buf < b.ebuf then
    { b with store := Function.update b.store b.buf (call.ch.setWidth 8), buf := b.buf + 1 }
  else b

/-- A call of `vsnprintf` that has returned: its value, the memory, and the
colour globals. -/
structure Printed where
  value : Int
  store : Nat → Byte
  color : Color

def vsnprintf (mem : Mem) (color : Color) (store : Nat → Byte) (buf : Nat) (n : Int)
    (fmt : List Byte) (ap : Args) : Option Printed :=
  if buf = 0 ∨ n < 1 then some ⟨-eInval, store, color⟩
  else
    (vprintfmt mem ap ⟨[], color⟩ fmt).map fun last =>
      let b := last.calls.foldl sprintputch ⟨store, buf, (buf + n - 1).toNat, 0⟩
      ⟨b.cnt, Function.update b.store b.buf 0, last.color⟩

def snprintf (mem : Mem) (color : Color) (store : Nat → Byte) (buf : Nat) (n : Int)
    (fmt : List Byte) (args : Args) : Option Printed :=
  vsnprintf mem color store buf n fmt args

/-- The bytes that some calls of `putch` stand for. -/
def emitted (calls : List Call) : List Byte :=
  calls.map fun call => call.ch.setWidth 8

/-! ## What the callback has done after some calls -/

/-- After `calls`: all of them are counted, and those that fit before `ebuf`
are stored. -/
structure SprintBuf.After (store : Nat → Byte) (buf room : Nat) (calls : List Call)
    (b : SprintBuf) : Prop where
  store_eq : b.store = Store.write store buf ((emitted calls).take room)
  buf_eq : b.buf = buf + ((emitted calls).take room).length
  ebuf_eq : b.ebuf = buf + room
  cnt_eq : b.cnt = calls.length

/-- One more call. -/
theorem SprintBuf.After.sprintputch {store : Nat → Byte} {buf room : Nat} {calls : List Call}
    {b : SprintBuf} (after : b.After store buf room calls) (call : Call)
    (short : calls.length + 1 < 2 ^ 31) :
    (Format.sprintputch b call).After store buf room (calls ++ [call]) := by
  obtain ⟨store_eq, buf_eq, ebuf_eq, cnt_eq⟩ := after
  have count : wrap32 (b.cnt + 1) = (calls ++ [call]).length := by
    rw [cnt_eq, wrap32_of_range (by omega) (by omega)]
    simp
  have length_eq : (emitted calls).length = calls.length := by simp [emitted]
  have emitted_eq : emitted (calls ++ [call]) = emitted calls ++ [call.ch.setWidth 8] := by
    simp [emitted]
  simp only [Format.sprintputch]
  by_cases fits : b.buf < b.ebuf
  · -- the buffer is not full, so nothing has been dropped before
    have all : calls.length < room := by
      rw [buf_eq, ebuf_eq, List.length_take] at fits
      omega
    rw [List.take_of_length_le (by omega)] at store_eq buf_eq
    have taken : (emitted (calls ++ [call])).take room =
        emitted calls ++ [call.ch.setWidth 8] := by
      rw [emitted_eq, List.take_of_length_le (by simp; omega)]
    rw [if_pos fits]
    refine ⟨?_, ?_, ebuf_eq, count⟩
    · rw [taken, ← Store.write_append, Store.write_singleton, store_eq, buf_eq]
    · rw [taken, buf_eq]
      simp [Nat.add_assoc]
  · have full : room ≤ (emitted calls).length := by
      rw [buf_eq, ebuf_eq, List.length_take] at fits
      omega
    have taken : (emitted (calls ++ [call])).take room = (emitted calls).take room := by
      rw [emitted_eq, List.take_append_of_le_length full]
    rw [if_neg fits]
    exact ⟨by rw [taken]; exact store_eq, by rw [taken]; exact buf_eq, ebuf_eq, count⟩

/-- All calls. -/
theorem foldl_sprintputch (store : Nat → Byte) (buf room : Nat) (calls : List Call)
    (short : calls.length < 2 ^ 31) :
    (calls.foldl sprintputch ⟨store, buf, buf + room, 0⟩).After store buf room calls := by
  induction calls using List.reverseRecOn with
  | nil => exact ⟨by simp [emitted], by simp [emitted], rfl, rfl⟩
  | append_singleton calls call ih =>
      rw [List.length_append, List.length_singleton] at short
      rw [List.foldl_append]
      exact (ih (by omega)).sprintputch call short

/-! ## The whole call -/

theorem vsnprintf_of_invalid (mem : Mem) (color : Color) (store : Nat → Byte) {buf : Nat} {n : Int}
    (fmt : List Byte) (ap : Args) (invalid : buf = 0 ∨ n < 1) :
    vsnprintf mem color store buf n fmt ap = some ⟨-eInval, store, color⟩ :=
  if_pos invalid

theorem vsnprintf_of_valid {mem : Mem} {color : Color} {fmt : List Byte} {ap : Args} {last : State}
    (formatted : vprintfmt mem ap ⟨[], color⟩ fmt = some last)
    (short : last.calls.length < 2 ^ 31) (store : Nat → Byte) {buf : Nat} {n : Int}
    (buf_pos : buf ≠ 0) (n_pos : 1 ≤ n) :
    vsnprintf mem color store buf n fmt ap =
      some ⟨last.calls.length,
        Store.write store buf ((emitted last.calls).take (n - 1).toNat ++ [0]), last.color⟩ := by
  have end_eq : (buf + n - 1).toNat = buf + (n - 1).toNat := by omega
  obtain ⟨store_eq, buf_eq, -, cnt_eq⟩ :=
    foldl_sprintputch store buf (n - 1).toNat last.calls short
  rw [vsnprintf, if_neg (by omega), formatted, Option.map_some]
  dsimp only
  rw [end_eq, cnt_eq, store_eq, buf_eq, ← Store.write_singleton, Store.write_append]

/-- Printing into a buffer of any size stores a prefix of the same characters
followed by a NUL, and returns the number of all of them.  No other byte is
written, and the colour globals end as the formatter leaves them. -/
theorem snprintf_stores_prefix (mem : Mem) (color : Color) (fmt : CString) (ap : Args)
    (closed : EscapesClosed fmt.bytes) :
    ∃ last, vprintfmt mem ap ⟨[], color⟩ fmt.bytes = some last ∧
      ∀ (store : Nat → Byte) (buf : Nat) (n : Int) (print : _),
        print = vsnprintf ∨ print = snprintf →
        (buf = 0 ∨ n < 1 →
          print mem color store buf n fmt.bytes ap = some ⟨-eInval, store, color⟩) ∧
        (buf ≠ 0 → 1 ≤ n → last.calls.length < 2 ^ 31 →
          print mem color store buf n fmt.bytes ap =
            some ⟨last.calls.length,
              Store.write store buf ((emitted last.calls).take (n - 1).toNat ++ [0]),
              last.color⟩) := by
  obtain ⟨last, formatted⟩ := Option.isSome_iff_exists.mp
    ((vprintfmtWith_isSome_iff mem ap 0 ⟨[], color⟩ fmt.bytes).mpr closed)
  refine ⟨last, formatted, ?_⟩
  rintro store buf n print (rfl | rfl)
  · exact ⟨vsnprintf_of_invalid mem color store fmt.bytes ap,
      fun buf_pos n_pos short => vsnprintf_of_valid formatted short store buf_pos n_pos⟩
  · exact ⟨vsnprintf_of_invalid mem color store fmt.bytes ap,
      fun buf_pos n_pos short => vsnprintf_of_valid formatted short store buf_pos n_pos⟩

/-- Two characters do not fit into two bytes together with the NUL. -/
theorem snprintf_stores_prefix_two_bytes :
    snprintf .bare .init (fun _ => 0x2A) 16 2 (str "ab") (fun _ => 0) =
      some ⟨2, Store.write (fun _ => 0x2A) 16 [chr 'a', 0], .init⟩ := by
  have text : vprintfmt .bare (fun _ => 0) ⟨[], .init⟩ (str "ab") =
      some ⟨[⟨0x61, .init⟩, ⟨0x62, .init⟩], .init⟩ := by
    rw [show str "ab" = [chr 'a', chr 'b'] by decide, vprintfmt, vprintfmtWith_text (by decide),
      vprintfmtWith_text (by decide), vprintfmtWith_nil]
    rfl
  obtain ⟨last, formatted, printed⟩ := snprintf_stores_prefix .bare .init
    ⟨str "ab", by decide⟩ (fun _ => 0) (.text (by decide) (.text (by decide) .nil))
  cases formatted.symm.trans text
  exact (printed (fun _ => 0x2A) 16 2 snprintf (.inr rfl)).2 (by decide) (by decide) (by decide)

/-- An escape sequence in the format changes a colour global. -/
theorem snprintf_changes_color_flag :
    ¬ ∀ (mem : Mem) (color : Color) (fmt : CString) (ap : Args) (last : State)
      (store : Nat → Byte) (buf : Nat) (n : Int),
      EscapesClosed fmt.bytes → vprintfmt mem ap ⟨[], color⟩ fmt.bytes = some last →
      last.calls.length < 2 ^ 31 → buf ≠ 0 → 1 ≤ n →
      snprintf mem color store buf n fmt.bytes ap =
        some ⟨last.calls.length,
          Store.write store buf ((emitted last.calls).take (n - 1).toNat ++ [0]), color⟩ := by
  intro unchanged
  let red : CString := ⟨0x1B :: str "[31m", by decide⟩
  obtain ⟨after, read⟩ : ∃ after, escape ⟨[], .init⟩ (str "[31m") = some (after, []) := ⟨_, rfl⟩
  have formatted : vprintfmt .bare (fun _ => 0) ⟨[], .init⟩ red.bytes = some after := by
    rw [vprintfmt, vprintfmtWith_escape read, vprintfmtWith_nil]
  have closed : EscapesClosed red.bytes :=
    (vprintfmtWith_isSome_iff _ _ 0 _ _).mp (Option.isSome_of_eq_some formatted)
  have after_eq : after.calls.length = 5 ∧ after.color.flag = 0x04 := by
    cases read
    decide
  have stored := unchanged .bare .init red (fun _ => 0) after (fun _ => 0) 16 1 closed formatted
    (by omega) (by decide) (by decide)
  rw [snprintf, vsnprintf_of_valid formatted (by omega) _ (by decide) (by decide)] at stored
  have flag_eq : after.color.flag = 0x07 :=
    congrArg (fun printed => printed.color.flag) (Option.some.inj stored)
  rw [after_eq.2] at flag_eq
  contradiction

end Jos64.Format
