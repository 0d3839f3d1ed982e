import RouteBook.Method

/-! A route pattern: the method, the segments of the path, what the query must hold, and optionally
how the host must begin. A pattern that the constructors of `RouteBook.Pattern.Build` return is well
formed: they check what matching relies on. -/

namespace RouteBook

/-- A label takes one segment of a path and a greedy label takes all that are left. -/
inductive PathSegment where
  | literal (t : Text)
  | label
  | greedy
  deriving DecidableEq

/-- A key that must be present, with any value or with this one. -/
inductive QueryRequirement where
  | present (key : Text)
  | value (key value : Text)
  deriving DecidableEq

def QueryRequirement.key : QueryRequirement → Text
  | present key | value key _ => key

/-- A label of a host takes one or more characters. -/
inductive HostSegment where
  | literal (t : Text)
  | label
  deriving DecidableEq

/-- The requirements on the query are kept sorted and the literals of the host in lower case, so
patterns that ask for the same are equal. -/
structure Pattern where
  method : Method
  path : List PathSegment
  query : List QueryRequirement
  host : Option (List HostSegment)
  deriving DecidableEq

namespace Pattern

def hostText (segments : List HostSegment) : Text :=
  segments.flatMap fun
    | .literal t => t
    | .label => "\x7blabel\x7d"

def pathText : List PathSegment → Text
  | [] => "/"
  | segments =>
    segments.flatMap fun
      | .literal t => '/' :: t
      | .label => "/\x7blabel\x7d"
      | .greedy => "/\x7bgreedy+\x7d"

def requirementText : QueryRequirement → Text
  | .present key => key
  | .value key value => key ++ '=' :: value

def queryText : List QueryRequirement → Text
  | [] => []
  | requirements => '?' :: Text.join "&" (requirements.map requirementText)

/-- A pattern in one line; labels have lost their names. -/
def text (p : Pattern) : Text :=
  let host : Text := match p.host with
    | some segments => '[' :: hostText segments ++ [']']
    | none => []
  p.method.text ++ ' ' :: host ++ pathText p.path ++ queryText p.query

end Pattern

end RouteBook
