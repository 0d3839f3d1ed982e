import RouteBook.Document.Toml.Number
import RouteBook.Document.Toml.Quoted
import RouteBook.Document.Toml.Table

/-! Reading TOML: comments, bare and quoted keys, strings, numbers, truth values, dates, arrays,
inline tables and headers. -/

namespace RouteBook.Document.Toml

/-- The lines from the end of this one on; a comment goes up to the end of its line. -/
def skipLine (t : Text) : Text :=
  match skipSpaces t with
  | '#' :: rest => rest.dropWhile (· != '\n')
  | rest => rest

/-- Past spaces, comments and line ends, at most as many as the fuel. -/
def skipLines : Nat → Text → Text
  | 0, t => t
  | fuel + 1, t =>
    match skipLine t with
    | '\n' :: rest => skipLines fuel rest
    | rest => rest

/-- Past spaces, comments and line ends. -/
def skipBlank (t : Text) : Text := skipLines (t.length + 1) t

def isBareKeyChar (c : Char) : Bool := c.isAlphanum || c = '_' || c = '-'

/-- One part of a key. -/
def keyPart? : Text → Option (Text × Text)
  | '\x22' :: rest => basic? 0 rest
  | '\x27' :: rest => literal? rest
  | t =>
    let bare := t.takeWhile isBareKeyChar
    if bare = [] then none else some (bare, t.dropWhile isBareKeyChar)

/-- The parts of a key with dots between them, at most as many as the fuel. -/
def keyParts? : Nat → Text → Option (List Text × Text)
  | 0, _ => none
  | fuel + 1, t =>
    (keyPart? t).bind fun (part, rest) =>
      match skipSpaces rest with
      | '.' :: rest =>
        (keyParts? fuel (skipSpaces rest)).map fun (parts, rest) => (part :: parts, rest)
      | rest => some ([part], rest)

/-- How deep arrays and inline tables may nest, and how many parts a key may have. -/
def maxDepth : Nat := 80

def key? (t : Text) : Option (List Text × Text) := keyParts? maxDepth t

mutual

/-- A value and what follows it. It has room for so many levels of arrays and inline tables. -/
def value? : Nat → Nat → Text → Option (Node × Text)
  | 0, _, _ => none
  | _ + 1, _, [] => none
  | fuel + 1, room, c :: rest =>
    if c = '\x22' || c = '\x27' then (string? (c :: rest)).map fun (t, rest) => (.string t, rest)
    else if c = '[' then
      match room with
      | 0 => none
      | room + 1 => (items? fuel room (skipBlank rest)).map fun (items, rest) => (.list items, rest)
    else if c = '\x7b' then
      match room with
      | 0 => none
      | room + 1 =>
        (inline? fuel room [] (skipBlank rest)).map fun (fields, rest) =>
          (.record (fieldNodes fields), rest)
    else
      let bare := (c :: rest).takeWhile isBareChar
      if isBareValue bare then some (.bare bare, (c :: rest).dropWhile isBareChar) else none

/-- The elements of an array up to its closing bracket; a comma may follow the last one. -/
def items? : Nat → Nat → Text → Option (List Node × Text)
  | 0, _, _ => none
  | _ + 1, _, ']' :: rest => some ([], rest)
  | fuel + 1, room, t =>
    (value? fuel room t).bind fun (item, rest) =>
      match skipBlank rest with
      | ',' :: rest =>
        (items? fuel room (skipBlank rest)).map fun (items, rest) => (item :: items, rest)
      | ']' :: rest => some ([item], rest)
      | _ => none

/-- The fields of an inline table up to its closing brace, after `fields`; a comma may follow the
last one. Line ends may stand between all its parts. -/
def inline? : Nat → Nat → Fields → Text → Option (Fields × Text)
  | 0, _, _, _ => none
  | _ + 1, _, fields, '\x7d' :: rest => some (fields, rest)
  | fuel + 1, room, fields, t => do
    let (path, rest) ← key? t
    let rest ← Text.after? ['='] (skipBlank rest)
    let (value, rest) ← value? fuel room (skipBlank rest)
    let fields ← assign? value path fields
    match skipBlank rest with
    | ',' :: rest => inline? fuel room fields (skipBlank rest)
    | '\x7d' :: rest => some (fields, rest)
    | _ => none

end

/-- Where the reading of a document stands: all tables so far, and the path of the
table that keys go to. -/
structure Progress where
  root : Fields
  current : List Text

/-- Reads a header, from what follows its first bracket. -/
def header? (p : Progress) (t : Text) : Option (Progress × Text) :=
  match t with
  | '[' :: rest => do
    let (path, rest) ← key? (skipSpaces rest)
    let rest ← Text.after? "]]" rest
    let root ← append? path.dropLast (path.getLastD []) p.root
    return (⟨root, path⟩, rest)
  | _ => do
    let (path, rest) ← key? (skipSpaces t)
    let rest ← Text.after? [']'] rest
    let root ← open? path.dropLast (path.getLastD []) p.root
    return (⟨root, path⟩, rest)

/-- Reads a key and its value. -/
def pair? (p : Progress) (t : Text) : Option (Progress × Text) := do
  let (path, rest) ← key? t
  let rest ← Text.after? ['='] rest
  let (value, rest) ← value? (2 * t.length) maxDepth (skipSpaces rest)
  let root ← within? (assign? value path) p.current p.root
  return ({ p with root := root }, rest)

/-- Reads header after header and pair after pair, each on lines of its own. -/
def statements? : Nat → Progress → Text → Option Progress
  | 0, _, _ => none
  | fuel + 1, p, t =>
    match skipBlank t with
    | [] => some p
    | c :: rest => do
      let (p, rest) ← if c = '[' then header? p rest else pair? p (c :: rest)
      match skipLine rest with
      | [] => some p
      | '\n' :: rest => statements? fuel p rest
      | _ => none

/-- Tabs and line ends are the only controls of a document. -/
def isPrintable (c : Char) : Bool := c = '\t' || c = '\n' || (0x20 ≤ c.toNat && c.toNat != 0x7F)

/-- Both spellings of the end of a line as one character. -/
def joinLineEnds : Text → Text
  | [] => []
  | '\r' :: '\n' :: rest => '\n' :: joinLineEnds rest
  | c :: rest => c :: joinLineEnds rest

/-- The document a text holds. Every statement takes a character or more. -/
def read? (t : Text) : Option Node :=
  let t := joinLineEnds (Text.dropMark t)
  if t.all isPrintable then
    (statements? (t.length + 1) ⟨[], []⟩ t).map fun p => .record (fieldNodes p.root)
  else none

end RouteBook.Document.Toml
