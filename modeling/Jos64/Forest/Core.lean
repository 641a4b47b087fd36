import Mathlib.Tactic

/-!
# Forests laid out in a row

Every node of a forest is written before its children and closed behind them.
A statement about the nodes may speak of the position where each is written.
-/

namespace Jos64

universe u v

/-- An ordered forest: the children of the first node, and its siblings. -/
inductive Forest (α : Type u) where
  | nil
  | cons (label : α) (children rest : Forest α)

namespace Forest

variable {α : Type u} {β : Type v} (enter leave : α → List β)

/-- The nodes in the order in which they are written. -/
def flat : Forest α → List β
  | nil => []
  | cons label children rest =>
      enter label ++ (flat children ++ (leave label ++ flat rest))

/-- The trees: each first node with its children. -/
def trees : Forest α → List (α × Forest α)
  | nil => []
  | cons label children rest => (label, children) :: trees rest

/-- Where the children of a node begin. -/
def childrenAt (offset : Nat) (label : α) : Nat :=
  offset + (enter label).length

/-- Where the next sibling of a node begins, or the end of their row. -/
def restAt (offset : Nat) (label : α) (children : Forest α) : Nat :=
  childrenAt enter offset label + (flat enter leave children).length + (leave label).length

/-- Every node has the property, at its position. -/
def EachAt (p : Nat → α → Forest α → Forest α → Prop) : Forest α → Nat → Prop
  | nil, _ => True
  | cons label children rest, offset =>
      p offset label children rest ∧ EachAt p children (childrenAt enter offset label) ∧
        EachAt p rest (restAt enter leave offset label children)

variable {enter leave}

theorem EachAt.imp {p q : Nat → α → Forest α → Forest α → Prop}
    (weaker : ∀ offset label children rest, p offset label children rest →
      q offset label children rest) {forest : Forest α} {offset : Nat}
    (each : EachAt enter leave p forest offset) : EachAt enter leave q forest offset := by
  induction forest generalizing offset with
  | nil => trivial
  | cons label children rest children_ih rest_ih =>
      obtain ⟨here, below, behind⟩ := each
      exact ⟨weaker _ _ _ _ here, children_ih below, rest_ih behind⟩

theorem length_flat_cons (label : α) (children rest : Forest α) (offset : Nat) :
    offset + (flat enter leave (cons label children rest)).length =
      restAt enter leave offset label children + (flat enter leave rest).length := by
  rw [flat, List.length_append, List.length_append, List.length_append, restAt, childrenAt]
  omega

end Forest

end Jos64
