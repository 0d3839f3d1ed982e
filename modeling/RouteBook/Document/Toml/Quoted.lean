import RouteBook.Text.Numeral

/-! Strings of TOML: in double quotes with escapes or in single quotes without, on one line or, with
three quotes on either side, over several. -/

namespace RouteBook.Document.Toml

def isSpace (c : Char) : Bool := c = ' ' || c = '\t'

def skipSpaces (t : Text) : Text := t.dropWhile isSpace

/-- The character of an escape with one letter. -/
def escape? : Char → Option Char
  | 'b' => some '\x08'
  | 't' => some '\t'
  | 'n' => some '\n'
  | 'f' => some '\x0c'
  | 'r' => some '\r'
  | 'e' => some '\x1b'
  | '\x22' => some '\x22'
  | '\\' => some '\\'
  | _ => none

/-- A string in double quotes, from what follows the opening one. The first `skipped` characters
belong to an escape that has been read. -/
def basic? (skipped : Nat) : Text → Option (Text × Text)
  | [] => none
  | c :: rest =>
    match skipped with
    | skipped + 1 => basic? skipped rest
    | 0 =>
      if c = '\x22' then some ([], rest)
      else if c = '\n' then none
      else if c = '\\' then
        (Text.escaped? escape? rest).bind fun (x, length) =>
          (basic? length rest).map fun (t, rest) => (x :: t, rest)
      else (basic? 0 rest).map fun (t, rest) => (c :: t, rest)

/-- A string in single quotes, which has no escapes, from what follows the opening one. -/
def literal? (t : Text) : Option (Text × Text) :=
  (Text.cut? '\x27' t).bind fun (content, rest) =>
    if '\n' ∈ content then none else some (content, rest)

/-- The end of a string over several lines, from its first quote on. Three quotes close it, and up
to two before them belong to it. -/
def closing? (quote : Char) (t : Text) : Option (Text × Text) :=
  let quotes := (t.takeWhile (· = quote)).length
  if quotes < 3 then none
  else
    let kept := min (quotes - 3) 2
    some (List.replicate kept quote, t.drop (kept + 3))

/-- A string over several lines in double quotes. A backslash at the end of a line takes away the
spaces and line ends after it. -/
def basicLines? (skipped : Nat) : Text → Option (Text × Text)
  | [] => none
  | c :: rest =>
    match skipped with
    | skipped + 1 => basicLines? skipped rest
    | 0 =>
      match closing? '\x22' (c :: rest) with
      | some last => some last
      | none =>
        if c = '\\' then
          let blank := rest.takeWhile fun c => isSpace c || c = '\n'
          if (skipSpaces rest).head? = some '\n' then basicLines? blank.length rest
          else
            (Text.escaped? escape? rest).bind fun (x, length) =>
              (basicLines? length rest).map fun (t, rest) => (x :: t, rest)
        else (basicLines? 0 rest).map fun (t, rest) => (c :: t, rest)

/-- A string over several lines in single quotes. -/
def literalLines? : Text → Option (Text × Text)
  | [] => none
  | c :: rest =>
    match closing? '\x27' (c :: rest) with
    | some last => some last
    | none => (literalLines? rest).map fun (t, rest) => (c :: t, rest)

/-- The text without a line end at its front. -/
def dropLineEnd : Text → Text
  | '\n' :: rest => rest
  | t => t

/-- A string of any of the four kinds. A line end right after three opening
quotes is not part of it. -/
def string? : Text → Option (Text × Text)
  | '\x22' :: '\x22' :: '\x22' :: rest => basicLines? 0 (dropLineEnd rest)
  | '\x27' :: '\x27' :: '\x27' :: rest => literalLines? (dropLineEnd rest)
  | '\x22' :: rest => basic? 0 rest
  | '\x27' :: rest => literal? rest
  | _ => none

end RouteBook.Document.Toml
