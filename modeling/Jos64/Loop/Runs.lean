import Jos64.Loop.Core

/-!
# The states of a run

A run is taken apart at its states: at the first one, at one that it has come to, and at
the one where it stops.  A loop may have no measure that its rounds lower, and still end:
where it never comes back to a key that it has been at, it goes round at most once for
each key.
-/

namespace Jos64.Loop

universe u v w

variable {σ : Type u} {β : Type v} {body : σ → Exec (Next σ β)}

/-- The states of a run are the first one and those of the rest of the run. -/
theorem Reached.cases_head {start state : σ} (reached : Reached body start state) :
    state = start ∨ ∃ next, body start = .done (.again next) ∧ Reached body next state := by
  induction reached with
  | refl => exact .inl rfl
  | again _ later ih =>
      rcases ih with rfl | ⟨next, round, behind⟩
      · exact .inr ⟨_, later, .refl⟩
      · exact .inr ⟨next, round, behind.again later⟩

theorem Reached.head {start next state : σ} (reached : Reached body start state)
    (round : body start = .done (.again next)) : state = start ∨ Reached body next state := by
  rcases reached.cases_head with same | ⟨next', round', behind⟩
  · exact .inl same
  · cases round.symm.trans round'
    exact .inr behind

/-- What is left of a run at a state that it has come to. -/
theorem Reached.loop_rest {start state : σ} (reached : Reached body start state) {fuel : Nat}
    {result : β} (ended : loop body fuel start = .done result) :
    ∃ rest, loop body rest state = .done result := by
  induction reached with
  | refl => exact ⟨fuel, ended⟩
  | again _ round ih =>
      obtain ⟨rest, ended⟩ := ih
      cases rest with
      | zero => cases ended
      | succ rest => exact ⟨rest, (loop_again round rest).symm.trans ended⟩

/-- A loop that ends has come to a state where it stops. -/
theorem exists_stop_of_loop {start : σ} {fuel : Nat} {result : β}
    (ended : loop body fuel start = .done result) :
    ∃ state, Reached body start state ∧ body state = .done (.stop result) :=
  loop_result (Reached body start)
    (fun result => ∃ state, Reached body start state ∧ body state = .done (.stop result))
    (fun _ _ reached round => reached.again round)
    (fun state _ reached round => ⟨state, reached, round⟩) .refl ended

variable (body) in
/-- All states of a run have a property that can be computed. -/
def checkRun (check : σ → Bool) : (rounds : Nat) → σ → Bool
  | 0, _ => false
  | rounds + 1, state =>
      check state &&
        match body state with
        | .done (.again next) => checkRun check rounds next
        | _ => true

theorem Reached.check {check : σ → Bool} {rounds : Nat} {start state : σ}
    (checked : checkRun body check rounds start) (reached : Reached body start state) :
    check state := by
  induction rounds generalizing start with
  | zero => contradiction
  | succ rounds ih =>
      obtain ⟨here, rest⟩ := (Bool.and_eq_true _ _).mp checked
      rcases reached.cases_head with rfl | ⟨next, round, behind⟩
      · exact here
      · rw [round] at rest
        exact ih rest behind

/-- A loop ends as its last round does. -/
theorem loop_last {γ : Type w} {state : σ} {exec : Exec γ} {result : γ → β}
    (round : body state = exec.bind fun value => .done (.stop (result value))) (fuel : Nat) :
    loop body (fuel + 1) state = exec.bind fun value => .done (result value) := by
  rw [loop, round]
  cases exec with
  | done value => rfl
  | fault => rfl
  | timeout => rfl

section

variable {κ : Type w} (key : σ → κ)

variable (body) in
/-- A key that the loop has gone on from is not come to again. -/
def Fresh (start : σ) : Prop :=
  ∀ state next later, Reached body start state → body state = .done (.again next) →
    Reached body next later → key later ≠ key state

variable {key}

/-- What is fresh from a state on is so from the next one on. -/
theorem Fresh.next {start next : σ} (fresh : Fresh body key start)
    (round : body start = .done (.again next)) : Fresh body key next :=
  fun state _ _ reached => fresh state _ _ ((Reached.refl.again round).trans reached)

/-- The rule of the keys: a loop takes no more rounds than there are keys to go on
from. -/
theorem Fresh.loop_ne_timeout [DecidableEq κ] {start : σ} (fresh : Fresh body key start)
    (keys : Finset κ) (ends : ∀ state, Reached body start state → body state ≠ .timeout)
    (inside : ∀ state next, Reached body start state → body state = .done (.again next) →
      key state ∈ keys)
    {fuel : Nat} (enough : keys.card < fuel) : loop body fuel start ≠ .timeout := by
  induction fuel generalizing start keys with
  | zero => exact absurd enough (Nat.not_lt_zero _)
  | succ fuel ih =>
      apply Exec.bind_ne_timeout (ends start .refl)
      intro next round
      cases next with
      | again state' =>
          have later {state : σ} (reached : Reached body state' state) :
              Reached body start state :=
            (Reached.refl.again round).trans reached
          have member := inside start state' .refl round
          refine ih (fresh.next round) (keys.erase (key start))
            (fun state reached => ends state (later reached)) (fun state next reached again => ?_) ?_
          · exact Finset.mem_erase.mpr ⟨fresh start state' state .refl round reached,
              inside state next (later reached) again⟩
          · rw [Finset.card_erase_of_mem member]
            have positive := Finset.card_pos.mpr ⟨_, member⟩
            omega
      | stop result => exact nofun

end

end Jos64.Loop
