import RouteBook.Text.Utf8

/-! The target of a request message, in its four forms: a path, a full uri, an authority, or an
asterisk. What routing needs of it are the host, the path and the query; a fragment is dropped. -/

namespace RouteBook

structure Uri where
  host : Option Text
  path : Text
  query : Option Text
  deriving DecidableEq

namespace Uri

/-- A letter, a digit or one of the marks that an authority may hold unescaped and anywhere. -/
def isAuthorityChar (c : Char) : Bool := c.isAlphanum || "!$&'()*+,-.;=_~".toList.contains c

/-- What has been seen of an authority. What stands before an `@` or inside brackets is forgotten:
colons there say nothing of the end of the host, and escapes are allowed there only. -/
structure AuthorityScan where
  colons : Nat
  opened : Bool
  closed : Bool
  percent : Bool

def AuthorityScan.step? (s : AuthorityScan) (c : Char) : Option AuthorityScan :=
  if c = ':' then
    if s.colons < 8 then some { s with colons := s.colons + 1 } else none
  else if c = '[' then
    if s.percent || s.opened then none else some { s with opened := true }
  else if c = ']' then
    if s.opened && !s.closed then some { s with closed := true, colons := 0, percent := false }
    else none
  else if c = '@' then some { s with colons := 0, percent := false }
  else if c = '%' then some { s with percent := true }
  else if isAuthorityChar c then some s
  else none

/-- Whether the text can stand as an authority. The empty text can. -/
def isAuthority (t : Text) : Bool :=
  match t.foldlM AuthorityScan.step? ⟨0, false, false, false⟩ with
  | none => false
  | some s => s.opened == s.closed && s.colons ≤ 1 && !s.percent && t.getLast? != some '@'

def endsAuthority (c : Char) : Bool := c = '/' || c = '?' || c = '#'

/-- The host of an authority, without the user before it and the number after it; an address in
brackets keeps the brackets. -/
def hostOf (authority : Text) : Text :=
  let located := (authority.reverse.takeWhile (· != '@')).reverse
  if located.head? = some '[' then located.takeWhile (· != ']') ++ [']']
  else located.takeWhile (· != ':')

/-- Neither a control nor a space. -/
def isVisible (c : Char) : Bool := 0x21 ≤ c.toNat && c.toNat != 0x7F

/-- The characters a path may hold. Some that ought to be escaped are let through, and nothing is
said of the escapes themselves. -/
def isPathChar (c : Char) : Bool := isVisible c && !"#<>?`".toList.contains c

def isQueryChar (c : Char) : Bool := isVisible c && !"\"#<>".toList.contains c

/-- A path and a query, read up to a fragment. -/
def pathAndQuery? (t : Text) : Option (Text × Option Text) :=
  let kept := t.takeWhile (· != '#')
  match Text.cut? '?' kept with
  | some (path, query) =>
    if path.all isPathChar && query.all isQueryChar then some (path, some query) else none
  | none => if kept.all isPathChar then some (kept, none) else none

def isSchemeChar (c : Char) : Bool := c.isAlphanum || "+-.~".toList.contains c

/-- A scheme and what follows it and the two slashes. -/
def scheme? (t : Text) : Option (Text × Text) :=
  (Text.after? "://" (t.dropWhile isSchemeChar)).map (t.takeWhile isSchemeChar, ·)

/-- A longer scheme is refused. -/
def maxScheme : Nat := 64

/-- A longer text is refused. -/
def maxBytes : Nat := 65534

def authorityForm? (t : Text) : Option Uri :=
  if t.any endsAuthority then none
  else if isAuthority t then some ⟨some (hostOf t), [], none⟩
  else none

/-- A full uri, from what follows its scheme. Its authority is not empty, and its path is a
slash if it has none. -/
def absoluteForm? (t : Text) : Option Uri :=
  let authority := t.takeWhile (!endsAuthority ·)
  if authority = [] then none
  else if isAuthority authority then
    (pathAndQuery? (t.dropWhile (!endsAuthority ·))).map fun (path, query) =>
      ⟨some (hostOf authority), if path = [] then ['/'] else path, query⟩
  else none

def parse? (t : Text) : Option Uri :=
  if maxBytes < Text.Utf8.size t then none
  else
    match t with
    | [] => none
    | ['*'] => some ⟨none, ['*'], none⟩
    | '/' :: _ => (pathAndQuery? t).map fun (path, query) => ⟨none, path, query⟩
    | _ =>
      match scheme? t with
      | some (scheme, rest) => if scheme.length ≤ maxScheme then absoluteForm? rest else none
      | none => authorityForm? t

end Uri

end RouteBook
