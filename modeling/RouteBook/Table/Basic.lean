import RouteBook.Pattern.Basic
import RouteBook.Settings.Runtime

/-! Route tables: routes in order of precedence. A route whose pattern an earlier one has could
never be reached, so a table with such a route is not built. -/

namespace RouteBook

structure Route (H : Type) where
  pattern : Pattern
  handler : H

structure RouteTable (H : Type) where
  routes : List (Route H)
  slowMatch : Duration

inductive TableError where
  | duplicateRoute (index first : Nat) (pattern : Pattern)
  deriving DecidableEq

def TableError.message : TableError → Text
  | duplicateRoute index first pattern =>
    "route #" ++ Text.Numeral.decimal index ++ " `" ++ pattern.text ++ "` duplicates route #"
      ++ Text.Numeral.decimal first ++ " and would never match"

namespace RouteTable

variable {H : Type}

/-- The first pattern that occurs before; `earlier` are the patterns in front of the list. -/
def duplicate? (earlier : List Pattern) : List Pattern → Option TableError
  | [] => none
  | p :: rest =>
    match earlier.idxOf? p with
    | some first => some (.duplicateRoute earlier.length first p)
    | none => duplicate? (earlier ++ [p]) rest

def defaultSlowMatch : Duration := ⟨1000⟩

def build (routes : List (Route H)) (slowMatch : Duration) : Except TableError (RouteTable H) :=
  match duplicate? [] (routes.map (·.pattern)) with
  | some e => .error e
  | none => .ok ⟨routes, slowMatch⟩

/-- The patterns, one line each. -/
def summary (t : RouteTable H) : List Text := t.routes.map (·.pattern.text)

/-- The table in one line, for a log. -/
def debugText (t : RouteTable H) : Text :=
  "RouteTable \x7b routes: " ++ Text.Quoted.list (t.summary.map Text.Quoted.encode)
    ++ ", slow_match_threshold: " ++ t.slowMatch.text ++ " \x7d"

end RouteTable

end RouteBook
