import RouteBook.Document.JsonWriter
import RouteBook.Manifest.Error
import RouteBook.Pattern.Host
import RouteBook.Pattern.Parse
import RouteBook.Table.Basic

/-! Manifests: operations in order of precedence, each with its method, its uri and
optionally a host prefix. Compiling a manifest makes a route table whose handlers are the
names of the operations. -/

namespace RouteBook

structure ManifestEntry where
  operation : Text
  method : Text
  uri : Text
  hostPrefix : Option Text
  deriving DecidableEq

structure Manifest where
  routes : List ManifestEntry
  deriving DecidableEq

namespace ManifestEntry

/-- The pattern of an entry. The method is looked at first and the host prefix last. -/
def pattern (e : ManifestEntry) : Except ManifestError Pattern := do
  let some method := Method.ofSpelling? e.method | .error (.invalidMethod e.method)
  let pattern ← (Pattern.parse method e.uri).mapError (.invalidUri e.operation e.uri)
  match e.hostPrefix with
  | none => return pattern
  | some text =>
    let segments ← (Pattern.parseHost text).mapError (.invalidHost e.operation)
    (pattern.withHost segments).mapError (.invalidHost e.operation)

/-- An absent host prefix is left out. -/
def node (e : ManifestEntry) : Node :=
  .record <|
    [Node.field "operation" (.string e.operation), Node.field "method" (.string e.method),
      Node.field "uri" (.string e.uri)]
      ++ e.hostPrefix.toList.map fun t => Node.field "host_prefix" (.string t)

end ManifestEntry

namespace Manifest

/-- The name of the operation at a position. -/
def operationAt (m : Manifest) (index : Nat) : Text :=
  match m.routes[index]? with
  | some entry => entry.operation
  | none => "<unknown>"

/-- The route of an entry. -/
def route (e : ManifestEntry) : Except ManifestError (Route Text) :=
  e.pattern.map fun pattern => ⟨pattern, e.operation⟩

/-- The table of a manifest. The patterns are made first, so a broken entry is reported before any
entry that could never be reached. -/
def buildTable (m : Manifest) (slowMatch : Duration) : Except ManifestError (RouteTable Text) := do
  let routes ← m.routes.mapM route
  (RouteTable.build routes slowMatch).mapError fun
    | .duplicateRoute index first pattern =>
      .unreachable (m.operationAt index) (.duplicateRoute index first pattern)

def node (m : Manifest) : Node :=
  .record [Node.field "routes" (.list (m.routes.map ManifestEntry.node))]

/-- The manifest as JSON on one line. -/
def json (m : Manifest) : Text := Document.Json.compact m.node

end Manifest

end RouteBook
