import Jos64.Loop.Core

/-!
# Executions that note what they use

Beside its end an execution may keep a list of what it has used on the way.  A
use that is not allowed is noted too, and is a fault.
-/

namespace Jos64.Loop

universe u v w

/-- How an execution ends, and what it has used until then. -/
structure Traced (ι : Type u) (α : Type v) where
  uses : List ι
  exec : Exec α

namespace Traced

variable {ι : Type u} {α : Type v} {β : Type w}

/-- An execution that uses nothing. -/
def silent (exec : Exec α) : Traced ι α :=
  ⟨[], exec⟩

def use (allowed : ι → Prop) [DecidablePred allowed] (i : ι) : Traced ι Unit :=
  ⟨[i], if allowed i then .done () else .fault⟩

def bind (first : Traced ι α) (next : α → Traced ι β) : Traced ι β :=
  match first.exec with
  | .done value => ⟨first.uses ++ (next value).uses, (next value).exec⟩
  | .fault => ⟨first.uses, .fault⟩
  | .timeout => ⟨first.uses, .timeout⟩

@[simp]
theorem exec_silent (exec : Exec α) : (silent exec : Traced ι α).exec = exec :=
  rfl

@[simp]
theorem exec_use (allowed : ι → Prop) [DecidablePred allowed] (i : ι) :
    (use allowed i).exec = if allowed i then .done () else .fault :=
  rfl

@[simp]
theorem exec_bind (first : Traced ι α) (next : α → Traced ι β) :
    (first.bind next).exec = first.exec.bind fun value => (next value).exec := by
  unfold bind
  cases first.exec with
  | done value => rfl
  | fault => rfl
  | timeout => rfl

/-- Everything that is used has a property. -/
def Keeps (P : ι → Prop) (run : Traced ι α) : Prop :=
  ∀ i ∈ run.uses, P i

variable {P : ι → Prop}

theorem keeps_silent (exec : Exec α) : (silent exec).Keeps P :=
  fun _ used => absurd used List.not_mem_nil

theorem keeps_use {allowed : ι → Prop} [DecidablePred allowed] {i : ι} :
    (use allowed i).Keeps P ↔ P i :=
  List.forall_mem_singleton

/-- A sequence uses what its parts use, as far as it comes. -/
theorem keeps_bind {first : Traced ι α} {next : α → Traced ι β} :
    (first.bind next).Keeps P ↔
      first.Keeps P ∧ ∀ value, first.exec = .done value → (next value).Keeps P := by
  unfold Keeps bind
  cases ended : first.exec with
  | done value =>
      dsimp only
      rw [List.forall_mem_append]
      constructor
      · rintro ⟨before, behind⟩
        refine ⟨before, ?_⟩
        rintro _ ⟨⟩
        exact behind
      · rintro ⟨before, behind⟩
        exact ⟨before, behind value rfl⟩
  | fault => exact (and_iff_left nofun).symm
  | timeout => exact (and_iff_left nofun).symm

end Traced

end Jos64.Loop
