import RouteBook.Request.Basic
import RouteBook.Request.Uri

/-! A request message with its headers, as far as routing reads it. -/

namespace RouteBook

/-- Why the parts make no message; the target is looked at first and the headers last. -/
inductive MessageError where
  | invalidUri
  | invalidMethod (text : Text)
  | invalidHeader
  deriving DecidableEq

structure Message where
  method : Method
  uri : Uri
  headers : List (Text × Text)

namespace Message

/-- No control character but the tab. -/
def isHeaderValue (t : Text) : Bool :=
  t.all fun c => c = '\t' || (0x20 ≤ c.toNat && c.toNat != 0x7F)

def ofParts (method uri : Text) (headers : List (Text × Text)) : Except MessageError Message :=
  match Uri.parse? uri with
  | none => .error .invalidUri
  | some uri =>
    match Method.ofText? method with
    | none => .error (.invalidMethod method)
    | some method =>
      if headers.all fun (name, value) => isToken name && isHeaderValue value then
        .ok ⟨method, uri, headers⟩
      else .error .invalidHeader

/-- The first header of a name, which is given in lower case; the case of names does not count. -/
def header? (m : Message) (name : Text) : Option Text :=
  (m.headers.find? fun (n, _) => Text.asciiLower n == name).map (·.2)

/-- A value that is plain ASCII without controls but the tab. -/
def plain? (value : Text) : Option Text :=
  if value.all fun c => c = '\t' || (0x20 ≤ c.toNat && c.toNat < 0x7F) then some value else none

/-- The host of the uri, or else what the first `Host` header says if it is plain. -/
def host? (m : Message) : Option Text :=
  match m.uri.host with
  | some host => some host
  | none => (m.header? "host").bind plain?

def request (m : Message) : Request := ⟨m.method, m.uri.path, m.uri.query, m.host?⟩

end Message

end RouteBook
