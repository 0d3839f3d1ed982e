import RouteBook.Pattern.Host
import RouteBook.Request.Message
import RouteBook.Table.Basic

/-! Routing a request. The first route that fits in every respect handles it; a request that fits
some routes in all but the method is told their methods. -/

namespace RouteBook

namespace Pattern

/-- The values of the labels, if the path fits. -/
def matchPath : List PathSegment → List Text → Option (List Text)
  | [], [] => some []
  | [], _ :: _ => none
  | .greedy :: _, [] => none
  | .greedy :: _, s :: segments => some [Text.join ['/'] (s :: segments)]
  | .literal _ :: _, [] => none
  | .literal t :: path, s :: segments => if s = t then matchPath path segments else none
  | .label :: _, [] => none
  | .label :: path, s :: segments => (matchPath path segments).map (s :: ·)

def requirementMet (q : QueryParams) : QueryRequirement → Bool
  | .present key => q.containsKey key
  | .value key value => q.containsPair key value

def matchQuery (p : Pattern) (q : QueryParams) : Bool := p.query.all (requirementMet q)

/-- The values of the labels, if all but the method fits. -/
def labels? (p : Pattern) (target : Target) (host : Option Text) : Option (List Text) :=
  match matchPath p.path target.segments with
  | some labels => if p.matchQuery target.query && p.matchHost host then some labels else none
  | none => none

end Pattern

structure RouteMatch (H : Type) where
  index : Nat
  pattern : Pattern
  handler : H
  labels : List Text

/-- What becomes of a request; the allowed methods are never none. -/
inductive Resolution (H : Type) where
  | matched (m : RouteMatch H)
  | methodNotAllowed (allowed : List Method)
  | notFound

namespace Resolution

variable {H : Type}

def match? : Resolution H → Option (RouteMatch H)
  | matched m => some m
  | _ => none

def isMatched : Resolution H → Bool
  | matched _ => true
  | _ => false

end Resolution

namespace RouteTable

variable {H : Type}

/-- Tries the routes from `index` on; `allowed` collects the methods of those that fit in all but
the method, each once. -/
def walk (method : Method) (target : Target) (host : Option Text) (index : Nat)
    (allowed : List Method) : List (Route H) → Resolution H
  | [] => if allowed = [] then .notFound else .methodNotAllowed allowed
  | route :: rest =>
    match route.pattern.labels? target host with
    | none => walk method target host (index + 1) allowed rest
    | some labels =>
      if route.pattern.method = method then .matched ⟨index, route.pattern, route.handler, labels⟩
      else
        let allowed :=
          if route.pattern.method ∈ allowed then allowed else allowed ++ [route.pattern.method]
        walk method target host (index + 1) allowed rest

/-- A request that cannot be decoded fits no route. -/
def resolve (t : RouteTable H) (r : Request) : Resolution H :=
  match r.decode? with
  | none => .notFound
  | some target => walk r.method target r.host 0 [] t.routes

/-- The route of a method, a path and a query. -/
def route (t : RouteTable H) (method : Method) (path : Text) (query : Option Text) :
    Option (RouteMatch H) :=
  (t.resolve ⟨method, path, query, none⟩).match?

def resolveMessage (t : RouteTable H) (m : Message) : Resolution H := t.resolve m.request

end RouteTable

end RouteBook
