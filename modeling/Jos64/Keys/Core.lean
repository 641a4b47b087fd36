import Mathlib.Tactic

/-!
# Logs of key strokes

A log records, in order, which keys have been pressed and released.  A key is
held when its last stroke was a press.  The last stroke of a whole group of keys
says less: it may have been the release of one of them while another is held.
-/

namespace Jos64.Keys

structure Stroke (κ : Type*) where
  key : κ
  pressed : Bool

variable {κ : Type*}

/-- The last stroke of a key of the group is a press. -/
def lastPressed (group : κ → Bool) (log : List (Stroke κ)) : Bool :=
  (log.filter fun stroke => group stroke.key).getLast?.any Stroke.pressed

def held [DecidableEq κ] (key : κ) (log : List (Stroke κ)) : Bool :=
  lastPressed (fun other => other = key) log

/-- How often the key has been pressed. -/
def presses [DecidableEq κ] (key : κ) (log : List (Stroke κ)) : Nat :=
  log.countP fun stroke => stroke.pressed && stroke.key = key

@[simp]
theorem lastPressed_nil (group : κ → Bool) : lastPressed group [] = false :=
  rfl

theorem lastPressed_append_singleton (group : κ → Bool) (log : List (Stroke κ))
    (stroke : Stroke κ) : lastPressed group (log ++ [stroke]) =
      if group stroke.key then stroke.pressed else lastPressed group log := by
  rw [lastPressed, List.filter_append, List.filter_singleton]
  cases group stroke.key with
  | false =>
      rw [cond_false, if_neg Bool.false_ne_true, List.append_nil]
      rfl
  | true =>
      rw [cond_true, if_pos rfl, List.getLast?_concat]
      rfl

section

variable [DecidableEq κ]

@[simp]
theorem presses_nil (key : κ) : presses key [] = 0 :=
  rfl

theorem presses_append_singleton (key : κ) (log : List (Stroke κ)) (stroke : Stroke κ) :
    presses key (log ++ [stroke]) =
      presses key log + if stroke.pressed && stroke.key = key then 1 else 0 := by
  rw [presses, List.countP_append, List.countP_singleton, presses]

/-- If the last stroke of a group is a press, the key that was pressed is still
held. -/
theorem exists_held_of_lastPressed {group : κ → Bool} {log : List (Stroke κ)}
    (pressed : lastPressed group log) : ∃ key, group key ∧ held key log := by
  induction log using List.reverseRecOn with
  | nil => exact absurd pressed Bool.false_ne_true
  | append_singleton log stroke ih =>
      rw [lastPressed_append_singleton] at pressed
      by_cases member : group stroke.key
      · rw [if_pos member] at pressed
        refine ⟨stroke.key, member, ?_⟩
        rw [held, lastPressed_append_singleton, if_pos (decide_eq_true rfl), pressed]
      · rw [if_neg member] at pressed
        obtain ⟨key, key_member, key_held⟩ := ih pressed
        refine ⟨key, key_member, ?_⟩
        have other : ¬ stroke.key = key := by
          rintro rfl
          exact member key_member
        rw [held, lastPressed_append_singleton, if_neg (by simpa using other)]
        exact key_held

end

end Jos64.Keys
