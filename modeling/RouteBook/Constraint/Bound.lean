import RouteBook.Text.Numeral

/-! Bounds on the number of items of a collection. A bound with both ends carries the proof that
they are in order, so a bound no length could meet cannot be written. -/

namespace RouteBook.Constraint

inductive LengthBound where
  | atLeast (min : Nat)
  | atMost (max : Nat)
  | between (min max : Nat) (le : min ≤ max)
  deriving DecidableEq

/-- Why two ends make no bound. -/
inductive BoundError where
  | inverted
  deriving DecidableEq

def BoundError.message : BoundError → Text
  | .inverted => "LengthBound::between requires min <= max"

namespace LengthBound

/-- The bound with these ends. -/
def between? (min max : Nat) : Except BoundError LengthBound :=
  if le : min ≤ max then .ok (.between min max le) else .error .inverted

def min? : LengthBound → Option Nat
  | atLeast min | between min _ _ => some min
  | atMost _ => none

def max? : LengthBound → Option Nat
  | atMost max | between _ max _ => some max
  | atLeast _ => none

/-- Both ends belong to the bound. -/
def contains (b : LengthBound) (length : Nat) : Bool :=
  match b with
  | atLeast min => min ≤ length
  | atMost max => length ≤ max
  | between min max _ => min ≤ length && length ≤ max

theorem contains_iff (b : LengthBound) (length : Nat) :
    b.contains length = true ↔ (∀ min ∈ b.min?, min ≤ length) ∧ (∀ max ∈ b.max?, length ≤ max) := by
  cases b <;> simp [contains, min?, max?]

def text : LengthBound → Text
  | between min max _ =>
    "between " ++ Text.Numeral.decimal min ++ " and " ++ Text.Numeral.decimal max ++ ", inclusive"
  | atLeast min => "greater than or equal to " ++ Text.Numeral.decimal min
  | atMost max => "less than or equal to " ++ Text.Numeral.decimal max

end LengthBound

end RouteBook.Constraint
