import RouteBook.Pattern.Basic
import RouteBook.Pattern.Error

/-! Making patterns from their parts. Each check reads its list from the left and
stops at the first fault. -/

namespace RouteBook

namespace QueryRequirement

/-- Keys that must be present come before keys with a value; otherwise the order of the texts. -/
def le : QueryRequirement → QueryRequirement → Bool
  | present a, present b => Text.le a b
  | present _, value _ _ => true
  | value _ _, present _ => false
  | value a v, value b w => if a = b then Text.le v w else Text.le a b

end QueryRequirement

namespace Pattern

/-- The first fault of a path; `greedy` says whether a greedy label stands before it. -/
def pathFault? (greedy : Bool) : List PathSegment → Option PatternError
  | [] => none
  | .literal [] :: _ => some .emptyPathSegment
  | .greedy :: rest => if greedy then some .multipleGreedy else pathFault? true rest
  | _ :: rest => if greedy then some .greedyNotLast else pathFault? false rest

/-- The first fault of a list of requirements; `seen` holds the keys before it. -/
def queryFault? (seen : List Text) : List QueryRequirement → Option PatternError
  | [] => none
  | r :: rest =>
    if r.key = [] then some .emptyQueryKey
    else if r.key ∈ seen then some (.duplicateQueryKey r.key)
    else queryFault? (r.key :: seen) rest

/-- The pattern with these parts and any host. -/
def ofParts (method : Method) (path : List PathSegment) (query : List QueryRequirement) :
    Except PatternError Pattern :=
  if method.isSupported then
    match pathFault? false path with
    | some e => .error e
    | none =>
      match queryFault? [] query with
      | some e => .error e
      | none => .ok ⟨method, path, query.mergeSort QueryRequirement.le, none⟩
  else .error (.unsupportedMethod method.text)

/-- The first fault of the segments of a host; `label` says whether a label
stands right before them. -/
def hostFault? (label : Bool) : List HostSegment → Option HostFault
  | [] => none
  | .literal [] :: _ => some .emptyLiteral
  | .literal _ :: rest => hostFault? false rest
  | .label :: rest => if label then some .adjacentLabels else hostFault? true rest

def HostSegment.lower : HostSegment → HostSegment
  | .literal t => .literal (Text.asciiLower t)
  | .label => .label

/-- The pattern with the host it asks for. -/
def withHost (p : Pattern) (segments : List HostSegment) : Except PatternError Pattern :=
  let fault? := if segments = [] then some HostFault.empty else hostFault? false segments
  match fault? with
  | some fault => .error (.invalidHost (hostText segments) fault)
  | none => .ok { p with host := some (segments.map HostSegment.lower) }

end Pattern

end RouteBook
