import RouteBook.Text.Basic

/-! Request methods. Any token is a method of some request; routes are made for nine of them. -/

namespace RouteBook

/-- The characters of a token. -/
def isTokenChar (c : Char) : Bool :=
  c.isAlphanum || "!#$%&'*+-.^_\x60|~".toList.contains c

/-- One or more token characters. -/
def isToken (t : Text) : Bool := !t.isEmpty && t.all isTokenChar

/-- A method is a token; its case counts. -/
structure Method where
  text : Text
  token : isToken text = true
  deriving DecidableEq

namespace Method

def ofText? (t : Text) : Option Method :=
  if h : isToken t = true then some ⟨t, h⟩ else none

theorem ofText?_eq_some_iff {t : Text} {m : Method} : ofText? t = some m ↔ m.text = t := by
  obtain ⟨text, token⟩ := m
  unfold ofText?
  constructor
  · intro h
    split at h
    · exact congrArg Method.text (Option.some.inj h).symm
    · contradiction
  · rintro rfl
    exact dif_pos token

/-- A method as people write it, in any case and with blanks around it. -/
def ofSpelling? (t : Text) : Option Method := ofText? (Text.asciiUpper (Text.trim t))

/-- The methods a route can be made for. -/
def supported : List Text :=
  ["GET", "HEAD", "POST", "PUT", "DELETE", "PATCH", "OPTIONS", "TRACE", "CONNECT"]

def isSupported (m : Method) : Bool := supported.contains m.text

end Method

end RouteBook
