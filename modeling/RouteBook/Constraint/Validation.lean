import RouteBook.Constraint.Repeats
import RouteBook.Constraint.Violation

/-! Constraints on a collection, and the check of a collection against them. Every constraint is
checked, the length before the uniqueness, so a collection that breaks both reports both. -/

namespace RouteBook

inductive Constraint where
  | length (bound : Constraint.LengthBound)
  | uniqueItems
  deriving DecidableEq

/-- The constraints in force together. -/
structure Constraints where
  length : Option Constraint.LengthBound
  uniqueItems : Bool
  deriving DecidableEq

namespace Constraints

open Constraint (Violation duplicateIndices)

def none : Constraints := ⟨.none, false⟩

/-- One more constraint; a later bound on the length takes the place of an earlier one. -/
def add (c : Constraints) : Constraint → Constraints
  | .length bound => { c with length := some bound }
  | .uniqueItems => { c with uniqueItems := true }

def ofList (cs : List Constraint) : Constraints := cs.foldl add none

/-- No constraint is in force. -/
def isEmpty (c : Constraints) : Bool := c.length.isNone && !c.uniqueItems

variable {α : Type} [DecidableEq α]

/-- What the length breaks. -/
def lengthViolations (c : Constraints) (items : List α) : List (Violation α) :=
  match c.length with
  | some bound => if bound.contains items.length then [] else [.length items.length bound]
  | .none => []

/-- What repeated items break. -/
def uniqueViolations (c : Constraints) (items : List α) : List (Violation α) :=
  if c.uniqueItems then
    match duplicateIndices items with
    | [] => []
    | duplicates => [.uniqueItems duplicates items]
  else []

/-- The items unchanged, or all that they violate. -/
def validate (c : Constraints) (items : List α) : Except (List (Violation α)) (List α) :=
  match c.lengthViolations items ++ c.uniqueViolations items with
  | [] => .ok items
  | violations => .error violations

theorem eq_of_validate {c : Constraints} {items kept : List α} (h : c.validate items = .ok kept) :
    kept = items := by
  unfold validate at h
  split at h
  · exact (Except.ok.inj h).symm
  · contradiction

end Constraints

/-- A collection that is known to keep its constraints. -/
structure Constrained (c : Constraints) (α : Type) [DecidableEq α] where
  items : List α
  valid : c.validate items = .ok items

namespace Constrained

variable {c : Constraints} {α : Type} [DecidableEq α]

/-- The collection of these items, or all that they violate. -/
def ofItems (c : Constraints) (items : List α) :
    Except (List (Constraint.Violation α)) (Constrained c α) :=
  match h : c.validate items with
  | .ok kept =>
    .ok ⟨kept, by rw [Constraints.eq_of_validate h]; rwa [Constraints.eq_of_validate h] at h⟩
  | .error violations => .error violations

end Constrained

end RouteBook
