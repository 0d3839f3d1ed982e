import RouteBook.Constraint.Violation
import RouteBook.Document.JsonWriter

/-! The report on a collection that was refused: a headline and one message for each violation. -/

namespace RouteBook.Constraint

/-- A report always has a first message, which its headline repeats. -/
structure Report where
  headline : Text
  fields : List FieldMessage
  deriving DecidableEq

namespace Report

def headlineOf (count : Nat) (first : FieldMessage) : Text :=
  Text.Numeral.decimal count
    ++ (if count = 1 then " validation error detected. " else " validation errors detected. ")
    ++ first.message

/-- The report with these messages, unless there are none. -/
def ofFields : List FieldMessage → Option Report
  | [] => none
  | first :: rest => some ⟨headlineOf (rest.length + 1) first, first :: rest⟩

/-- The report on the violations of a collection at `path`. -/
def ofViolations {α : Type} (violations : List (Violation α)) (path : Text) : Option Report :=
  ofFields (violations.map (·.fieldMessage path))

def fieldNode (f : FieldMessage) : Node :=
  .record [Node.field "message" (.string f.message), Node.field "path" (.string f.path)]

/-- The report as a document. -/
def node (r : Report) : Node :=
  .record
    [Node.field "message" (.string r.headline),
      Node.field "fieldList" (.list (r.fields.map fieldNode))]

end Report

end RouteBook.Constraint
