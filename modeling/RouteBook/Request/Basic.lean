import RouteBook.Method
import RouteBook.Text.Percent

/-! What routing looks at in a request, as it was sent and decoded. -/

namespace RouteBook

/-! ## Parameters

They are read strictly: one broken escape and there are none. -/

/-- Keys may repeat; a key without `=` has no value. -/
structure QueryParams where
  pairs : List (Text × Option Text)
  deriving DecidableEq

namespace QueryParams

/-- The pair that a piece between ampersands holds. -/
def pair? (piece : Text) : Option (Text × Option Text) :=
  match Text.cut? '=' piece with
  | some (key, value) => do
    let key ← Text.Form.decode? key
    let value ← Text.Form.decode? value
    return (key, some value)
  | none => (Text.Form.decode? piece).map (·, none)

def parse? (t : Text) : Option QueryParams :=
  ((Text.Form.pieces t).mapM pair?).map QueryParams.mk

def containsKey (q : QueryParams) (key : Text) : Bool := q.pairs.any fun (k, _) => k == key

/-- A missing value counts as an empty one. -/
def containsPair (q : QueryParams) (key value : Text) : Bool :=
  q.pairs.any fun (k, v) => k == key && v.getD [] == value

end QueryParams

/-! ## Requests -/

/-- The path and the query are still escaped. -/
structure Request where
  method : Method
  path : Text
  query : Option Text
  host : Option Text
  deriving DecidableEq

/-- The path and the query of a request, decoded. -/
structure Target where
  segments : List Text
  query : QueryParams
  deriving DecidableEq

namespace Request

/-- The request for a target, which is a path and, after the first question mark, a query. -/
def ofTarget (method : Method) (target : Text) : Request :=
  match Text.cut? '?' target with
  | some (path, query) => ⟨method, path, some query, none⟩
  | none => ⟨method, target, none, none⟩

def withHost (r : Request) (host : Option Text) : Request := { r with host := host }

/-- The segments of a path. Empty segments are dropped before anything is decoded, so an escape
never makes or removes a segment. -/
def segments? (path : Text) : Option (List Text) :=
  ((Text.split '/' path).filter (· ≠ [])).mapM Text.Percent.decode?

/-- The parameters of a query; without a query there are none. -/
def params? : Option Text → Option QueryParams
  | none => some ⟨[]⟩
  | some query => QueryParams.parse? query

def decode? (r : Request) : Option Target := do
  let segments ← segments? r.path
  let query ← params? r.query
  return ⟨segments, query⟩

end Request

end RouteBook
