import RouteBook.Pattern.Build
import RouteBook.Text.Percent

/-! Reading a pattern from the text of its uri. Literals are stored decoded, as the segments of a
request are when they are compared. -/

namespace RouteBook.Pattern

/-- A label, from what stands between its braces. A plus sign at the end of the name, or else at its
front, makes it greedy. -/
def labelSegment (inner : Text) : Except PatternError PathSegment :=
  if inner.getLast? = some '+' then
    if inner.dropLast = [] then .error .emptyLabel else .ok .greedy
  else
    match inner with
    | [] => .error .emptyLabel
    | '+' :: _ => .ok .greedy
    | _ => .ok .label

def isDots (t : Text) : Bool := t == ['.'] || t == ['.', '.']

/-- One segment of the path. A segment is a label if it begins with an opening and ends with a
closing brace, whatever stands between them. -/
def pathSegment (t : Text) : Except PatternError PathSegment :=
  match t with
  | [] => .error .emptyPathSegment
  | c :: rest =>
    if isDots t then .error .dotSegment
    else
      match c == '\x7b', t.getLast? == some '\x7d' with
      | true, true => labelSegment rest.dropLast
      | true, false => .error (.unclosedLabel t)
      | false, true => .error (.unopenedLabel t)
      | false, false =>
        match Text.Percent.decode? t with
        | none => .error (.malformedEscape t)
        | some decoded => if isDots decoded then .error .dotSegment else .ok (.literal decoded)

/-- The segments of a path that starts with a slash; the slash alone is the path without
segments. -/
def pathSegments (path : Text) : Except PatternError (List PathSegment) :=
  if path = ['/'] then .ok [] else ((Text.split '/' path).drop 1).mapM pathSegment

/-- What a query text requires. A key without a value, or with an empty one,
need only be present. -/
def requirements (query : Text) : List QueryRequirement :=
  (Text.Form.pairs query).map fun (key, value) =>
    if value = [] then .present key else .value key value

/-- The pattern of a uri. -/
def parse (method : Method) (uri : Text) : Except PatternError Pattern :=
  if uri.head? ≠ some '/' then .error .noLeadingSlash
  else if uri.getLast? = some '?' then .error .trailingQuestionMark
  else if '#' ∈ uri then .error .fragment
  else
    let (path, query) := match Text.cut? '?' uri with
      | some (path, query) => (path, requirements query)
      | none => (uri, [])
    match pathSegments path with
    | .error e => .error e
    | .ok segments => ofParts method segments query

end RouteBook.Pattern
