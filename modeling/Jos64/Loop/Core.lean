import Mathlib.Tactic

/-!
# Loops that may not end

An execution ends with a value, ends in a fault, or is cut off when its fuel
has run out.  A loop repeats a body that says whether to go round again.  A
loop whose body lowers a measure is not cut off, given fuel above the measure;
a loop that comes back to where it was is always cut off.
-/

namespace Jos64.Loop

universe u v

/-- How an execution ends. -/
inductive Exec (α : Type u) where
  | done (value : α)
  | fault
  | timeout
  deriving DecidableEq

namespace Exec

variable {α : Type u} {β : Type v}

def bind (exec : Exec α) (next : α → Exec β) : Exec β :=
  match exec with
  | done value => next value
  | fault => fault
  | timeout => timeout

/-- An operation whose failure is a fault. -/
def ofOption : Option α → Exec α
  | some value => done value
  | none => fault

@[simp]
theorem done_bind (value : α) (next : α → Exec β) : (done value).bind next = next value :=
  rfl

@[simp]
theorem fault_bind (next : α → Exec β) : fault.bind next = fault :=
  rfl

@[simp]
theorem timeout_bind (next : α → Exec β) : timeout.bind next = timeout :=
  rfl

@[simp]
theorem ofOption_some (value : α) : ofOption (some value) = done value :=
  rfl

@[simp]
theorem ofOption_none : (ofOption none : Exec α) = fault :=
  rfl

@[simp]
theorem done_ne_timeout (value : α) : done value ≠ timeout := by
  intro same
  cases same

@[simp]
theorem ofOption_ne_timeout (result : Option α) : ofOption result ≠ timeout := by
  cases result with
  | none => exact nofun
  | some value => exact nofun

/-- A sequence is cut off in its first part or in its second. -/
theorem bind_ne_timeout {exec : Exec α} {next : α → Exec β} (first : exec ≠ timeout)
    (second : ∀ value, exec = done value → next value ≠ timeout) : exec.bind next ≠ timeout := by
  cases exec with
  | done value => exact second value rfl
  | fault => exact nofun
  | timeout => exact absurd rfl first

/-- It fails in its first part or in its second. -/
theorem bind_ne_fault {exec : Exec α} {next : α → Exec β} (first : exec ≠ fault)
    (second : ∀ value, exec = done value → next value ≠ fault) : exec.bind next ≠ fault := by
  cases exec with
  | done value => exact second value rfl
  | fault => exact absurd rfl first
  | timeout => exact nofun

/-- A sequence that ends with a value has passed through one. -/
theorem bind_eq_done {exec : Exec α} {next : α → Exec β} {value : β}
    (ended : exec.bind next = done value) :
    ∃ middle, exec = done middle ∧ next middle = done value := by
  cases exec with
  | done middle => exact ⟨middle, rfl, ended⟩
  | fault => contradiction
  | timeout => contradiction

end Exec

/-- What a loop does after one round. -/
inductive Next (σ : Type u) (β : Type v) where
  | again (state : σ)
  | stop (result : β)
  deriving DecidableEq

variable {σ : Type u} {β : Type v} (body : σ → Exec (Next σ β))

/-- At most `fuel` rounds of the body. -/
def loop : Nat → σ → Exec β
  | 0, _ => .timeout
  | fuel + 1, state =>
      (body state).bind fun
        | .again state => loop fuel state
        | .stop result => .done result

variable {body}

theorem loop_stop {state : σ} {result : β} (round : body state = .done (.stop result))
    (fuel : Nat) : loop body (fuel + 1) state = .done result := by
  rw [loop, round, Exec.done_bind]

theorem loop_again {state state' : σ} (round : body state = .done (.again state')) (fuel : Nat) :
    loop body (fuel + 1) state = loop body fuel state' := by
  rw [loop, round, Exec.done_bind]

/-- More fuel does not change a result. -/
theorem loop_mono {fuel more : Nat} {state : σ} {result : β}
    (ended : loop body fuel state = .done result) (le : fuel ≤ more) :
    loop body more state = .done result := by
  induction fuel generalizing more state with
  | zero => contradiction
  | succ fuel ih =>
      obtain ⟨more, rfl⟩ : ∃ rest, more = rest + 1 := ⟨more - 1, by omega⟩
      obtain ⟨next, round, rest⟩ := Exec.bind_eq_done ended
      rw [loop, round, Exec.done_bind]
      cases next with
      | again state' => exact ih rest (Nat.le_of_succ_le_succ le)
      | stop ended_with => exact rest

/-- A loop fails only in its body. -/
theorem loop_ne_fault (runs : ∀ state, body state ≠ .fault) (fuel : Nat) (state : σ) :
    loop body fuel state ≠ .fault := by
  induction fuel generalizing state with
  | zero => exact nofun
  | succ fuel ih =>
      apply Exec.bind_ne_fault (runs state)
      intro next round
      cases next with
      | again state' => exact ih state'
      | stop result => exact nofun

/-- The measure rule. -/
theorem loop_ne_timeout (Inv : σ → Prop) (measure : σ → Nat)
    (ends : ∀ state, Inv state → body state ≠ .timeout)
    (lowers : ∀ state state', Inv state → body state = .done (.again state') →
      Inv state' ∧ measure state' < measure state)
    {fuel : Nat} {state : σ} (inv : Inv state) (enough : measure state < fuel) :
    loop body fuel state ≠ .timeout := by
  induction fuel generalizing state with
  | zero => exact absurd enough (Nat.not_lt_zero _)
  | succ fuel ih =>
      apply Exec.bind_ne_timeout (ends state inv)
      intro next round
      cases next with
      | again state' =>
          obtain ⟨inv', lower⟩ := lowers state state' inv round
          exact ih inv' (Nat.lt_of_lt_of_le lower (Nat.lt_succ_iff.mp enough))
      | stop result => exact nofun

/-- The invariant rule: a property that rounds keep holds where the loop
stops. -/
theorem loop_result (Inv : σ → Prop) (Post : β → Prop)
    (keeps : ∀ state state', Inv state → body state = .done (.again state') → Inv state')
    (post : ∀ state result, Inv state → body state = .done (.stop result) → Post result)
    {fuel : Nat} {state : σ} {result : β} (inv : Inv state)
    (ended : loop body fuel state = .done result) : Post result := by
  induction fuel generalizing state with
  | zero => contradiction
  | succ fuel ih =>
      obtain ⟨next, round, rest⟩ := Exec.bind_eq_done ended
      cases next with
      | again state' => exact ih (keeps state state' inv round) rest
      | stop ended_with =>
          cases rest
          exact post state result inv round

variable (body) in
/-- The states that a loop passes through. -/
inductive Reached (start : σ) : σ → Prop where
  | refl : Reached start start
  | again {state state' : σ} : Reached start state → body state = .done (.again state') →
      Reached start state'

/-- The measure rule for the states of a run. -/
theorem loop_ne_timeout_of_reached {start : σ} (measure : σ → Nat)
    (ends : ∀ state, Reached body start state → body state ≠ .timeout)
    (lowers : ∀ state state', Reached body start state → body state = .done (.again state') →
      measure state' < measure state)
    {fuel : Nat} (enough : measure start < fuel) : loop body fuel start ≠ .timeout :=
  loop_ne_timeout (Reached body start) measure ends
    (fun state state' reached round =>
      ⟨reached.again round, lowers state state' reached round⟩) .refl enough

theorem Reached.trans {start middle state : σ} (first : Reached body start middle)
    (second : Reached body middle state) : Reached body start state := by
  induction second with
  | refl => exact first
  | again _ round ih => exact ih.again round

/-- A loop that comes to a state where it stops is not cut off, given fuel enough. -/
theorem Reached.loop_done {start state : σ} (reached : Reached body start state) {result : β}
    (stops : body state = .done (.stop result)) :
    ∃ bound, ∀ fuel, bound ≤ fuel → loop body fuel start = .done result := by
  have from_state : ∃ fuel, loop body fuel state = .done result := ⟨1, loop_stop stops 0⟩
  have from_start : ∃ fuel, loop body fuel start = .done result := by
    clear stops
    induction reached with
    | refl => exact from_state
    | again _ round ih =>
        obtain ⟨fuel, ended⟩ := from_state
        exact ih ⟨fuel + 1, (loop_again round fuel).trans ended⟩
  obtain ⟨bound, ended⟩ := from_start
  exact ⟨bound, fun fuel enough => loop_mono ended enough⟩

/-- The rule for a number of rounds, each of which may take several steps. -/
theorem Reached.counted (Inv : Nat → σ → Prop) {count : Nat} {start : σ} (init : Inv 0 start)
    (rounds : ∀ k < count, ∀ state, Inv k state →
      ∃ state', Reached body state state' ∧ Inv (k + 1) state') :
    ∃ state, Reached body start state ∧ Inv count state := by
  induction count with
  | zero => exact ⟨start, .refl, init⟩
  | succ count ih =>
      obtain ⟨middle, first, inv⟩ := ih fun k inside => rounds k (Nat.lt_succ_of_lt inside)
      obtain ⟨state, last, inv⟩ := rounds count (Nat.lt_succ_self count) middle inv
      exact ⟨state, first.trans last, inv⟩

/-- A loop that returns to its state has no end. -/
theorem loop_timeout {state : σ}
    (round : body state = .timeout ∨ body state = .done (.again state)) (fuel : Nat) :
    loop body fuel state = .timeout := by
  induction fuel with
  | zero => rfl
  | succ fuel ih =>
      rcases round with cut | again
      · rw [loop, cut, Exec.timeout_bind]
      · rw [loop_again again, ih]

/-- A loop whose rounds keep a property and never stop has no end. -/
theorem loop_forever (Inv : σ → Prop)
    (again : ∀ state, Inv state → ∃ state', body state = .done (.again state') ∧ Inv state')
    {state : σ} (inv : Inv state) (fuel : Nat) : loop body fuel state = .timeout := by
  induction fuel generalizing state with
  | zero => rfl
  | succ fuel ih =>
      obtain ⟨state', round, inv'⟩ := again state inv
      rw [loop_again round, ih inv']

end Jos64.Loop
