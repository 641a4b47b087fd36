import Jos64.Loop.Core

/-!
# Two executions side by side

Two executions are related when they end in the same way, with related values.
Sequences of related executions are related, and two loops are when their rounds
are: what a relation on the states keeps alike in each round stays alike in the
whole run.
-/

namespace Jos64.Loop

universe u v u' v'

/-- Both end with related values, or both in a fault, or both are cut off. -/
inductive Exec.Both {α : Type u} {β : Type v} (R : α → β → Prop) : Exec α → Exec β → Prop where
  | done {value : α} {value' : β} : R value value' → Exec.Both R (.done value) (.done value')
  | fault : Exec.Both R .fault .fault
  | timeout : Exec.Both R .timeout .timeout

/-- Both go round again with related states, or both stop with related results. -/
inductive Next.Both {σ : Type u} {σ' : Type u'} {β : Type v} {β' : Type v'}
    (R : σ → σ' → Prop) (Q : β → β' → Prop) : Next σ β → Next σ' β' → Prop where
  | again {state : σ} {state' : σ'} : R state state' → Next.Both R Q (.again state) (.again state')
  | stop {result : β} {result' : β'} : Q result result' →
      Next.Both R Q (.stop result) (.stop result')

namespace Exec

variable {α : Type u} {β : Type v} {α' : Type u'} {β' : Type v'}

theorem Both.eq {exec exec' : Exec α} (both : Both Eq exec exec') : exec = exec' := by
  cases both with
  | done same => rw [same]
  | fault => rfl
  | timeout => rfl

theorem Both.imp {R S : α → β → Prop} {exec : Exec α} {exec' : Exec β} (both : Both R exec exec')
    (weaker : ∀ value value', exec = .done value → exec' = .done value' → R value value' →
      S value value') : Both S exec exec' := by
  cases both with
  | done related => exact .done (weaker _ _ rfl rfl related)
  | fault => exact .fault
  | timeout => exact .timeout

theorem ofOption_eq_done {result : Option α} {value : α}
    (ended : ofOption result = done value) : result = some value := by
  cases result with
  | none => contradiction
  | some _ =>
      cases ended
      rfl

/-- Operations that fail in sequence. -/
theorem ofOption_bind (result : Option α) (next : α → Option β) :
    ofOption (result.bind next) = (ofOption result).bind fun value => ofOption (next value) := by
  cases result with
  | none => rfl
  | some value => rfl

theorem ofOption_map (result : Option α) (next : α → β) :
    ofOption (result.map next) = (ofOption result).bind fun value => done (next value) := by
  cases result with
  | none => rfl
  | some value => rfl

/-- The sequence rule. -/
theorem Both.bind {R : α → β → Prop} {S : α' → β' → Prop} {exec : Exec α} {exec' : Exec β}
    {next : α → Exec α'} {next' : β → Exec β'} (both : Both R exec exec')
    (rest : ∀ value value', exec = .done value → exec' = .done value' → R value value' →
      Both S (next value) (next' value')) : Both S (exec.bind next) (exec'.bind next') := by
  cases both with
  | done related => exact rest _ _ rfl rfl related
  | fault => exact .fault
  | timeout => exact .timeout

/-- The sequence rule when the first execution is the same. -/
theorem Both.same_bind {S : α' → β' → Prop} {exec : Exec α} {next : α → Exec α'}
    {next' : α → Exec β'} (rest : ∀ value, exec = .done value → Both S (next value) (next' value)) :
    Both S (exec.bind next) (exec.bind next') := by
  cases exec with
  | done value => exact rest value rfl
  | fault => exact .fault
  | timeout => exact .timeout

end Exec

section

variable {σ : Type u} {σ' : Type u'} {β : Type v} {β' : Type v'}
  {body : σ → Exec (Next σ β)} {body' : σ' → Exec (Next σ' β')}

/-- A loop that stops at once passes through no other state. -/
theorem Reached.eq_of_stop {start state : σ} (reached : Reached body start state) {result : β}
    (stops : body start = .done (.stop result)) : state = start := by
  induction reached with
  | refl => rfl
  | again _ round ih =>
      rw [ih, stops] at round
      cases round

/-- The rule for two loops, with the states that the first one passes through. -/
theorem loop_both (R : σ → σ' → Prop) {Q : β → β' → Prop} {start : σ} {start' : σ'}
    (rounds : ∀ state state', Reached body start state → R state state' →
      Exec.Both (Next.Both R Q) (body state) (body' state'))
    (related : R start start') (fuel : Nat) :
    Exec.Both Q (loop body fuel start) (loop body' fuel start') := by
  have run (state : σ) (state' : σ') (reached : Reached body start state)
      (related : R state state') : Exec.Both Q (loop body fuel state) (loop body' fuel state') := by
    induction fuel generalizing state state' with
    | zero => exact .timeout
    | succ fuel ih =>
        apply Exec.Both.bind (rounds state state' reached related)
        intro next next' round _ both
        cases both with
        | again related => exact ih _ _ (reached.again round) related
        | stop related => exact .done related
  exact run start start' .refl related

end

end Jos64.Loop
