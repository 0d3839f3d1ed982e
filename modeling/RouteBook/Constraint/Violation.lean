import RouteBook.Constraint.Bound

/-! What a collection can break, and how a broken constraint is told. -/

namespace RouteBook.Constraint

inductive Violation (α : Type) where
  | length (actual : Nat) (bound : LengthBound)
  | uniqueItems (duplicates : List Nat) (items : List α)
  deriving DecidableEq

/-- A message about the value at a path. -/
structure FieldMessage where
  message : Text
  path : Text
  deriving DecidableEq

/-- Positions in square brackets. -/
def positionsText (positions : List Nat) : Text :=
  Text.Quoted.list (positions.map Text.Numeral.decimal)

namespace Violation

variable {α : Type}

/-- The name of the broken constraint. -/
def kind : Violation α → Text
  | length .. => "length"
  | uniqueItems .. => "uniqueItems"

def text : Violation α → Text
  | length actual bound =>
    "length " ++ Text.Numeral.decimal actual ++ " violates: must have length " ++ bound.text
  | uniqueItems duplicates _ => "repeated values at indices " ++ positionsText duplicates

/-- The violation as a message about the collection at `path`. -/
def fieldMessage (v : Violation α) (path : Text) : FieldMessage :=
  let message : Text := match v with
    | length actual bound =>
      "Value with length " ++ Text.Numeral.decimal actual ++ " at '" ++ path
        ++ "' failed to satisfy constraint: Member must have length " ++ bound.text
    | uniqueItems duplicates _ =>
      "Value with repeated values at indices " ++ positionsText duplicates ++ " at '" ++ path
        ++ "' failed to satisfy constraint: Member must have unique values"
  ⟨message, path⟩

end Violation

end RouteBook.Constraint
