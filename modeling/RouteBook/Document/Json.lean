import RouteBook.Document.Node
import RouteBook.Text.Numeral

/-! Reading JSON. The text is cut into tokens first, and the document is built from the tokens.
Nothing is forgiven: no comment, no trailing comma, no raw control character in a string. A
string with half a surrogate pair denotes no text; it is kept as a bare scalar, so it may stand
where nobody reads it. -/

namespace RouteBook.Document.Json

inductive Token where
  | mark (c : Char)
  | string (t : Text)
  | bare (t : Text)
  deriving DecidableEq

/-- An element of a string: a character, or a 16-bit unit written as an escape. -/
inductive Element where
  | char (c : Char)
  | escaped (n : Nat)

/-- The number four hexadecimal digits denote. -/
def unit? (a b c d : Char) : Option Nat := Text.Numeral.ofDigits? 16 [a, b, c, d]

/-- The character of an escape with one letter. -/
def escape? : Char → Option Char
  | '\x22' => some '\x22'
  | '\\' => some '\\'
  | '/' => some '/'
  | 'b' => some '\x08'
  | 'f' => some '\x0c'
  | 'n' => some '\n'
  | 'r' => some '\r'
  | 't' => some '\t'
  | _ => none

/-- The elements of a string up to its closing quote, and what follows the quote. -/
def elements? : Text → Option (List Element × Text)
  | [] => none
  | '\x22' :: rest => some ([], rest)
  | '\\' :: 'u' :: a :: b :: c :: d :: rest =>
    (unit? a b c d).bind fun n => (elements? rest).map fun (es, rest) => (.escaped n :: es, rest)
  | '\\' :: e :: rest =>
    (escape? e).bind fun c => (elements? rest).map fun (es, rest) => (.char c :: es, rest)
  | c :: rest =>
    if c.toNat < 0x20 ∨ c = '\\' then none
    else (elements? rest).map fun (es, rest) => (.char c :: es, rest)

def isHigh (n : Nat) : Bool := 0xD800 ≤ n && n < 0xDC00

def isLow (n : Nat) : Bool := 0xDC00 ≤ n && n < 0xE000

/-- The text of a string; a high surrogate and the low one right after it are one character, and
neither stands alone. -/
def text? : List Element → Option Text
  | [] => some []
  | .char c :: rest => (text? rest).map (c :: ·)
  | .escaped high :: .escaped low :: rest =>
    if isHigh high then
      if isLow low then
        (text? rest).map (Char.ofNat (0x10000 + (high - 0xD800) * 1024 + (low - 0xDC00)) :: ·)
      else none
    else if isLow high then none
    else (text? (.escaped low :: rest)).map (Char.ofNat high :: ·)
  | .escaped n :: rest =>
    if isHigh n || isLow n then none else (text? rest).map (Char.ofNat n :: ·)

/-- A run of one or more digits, and the rest. -/
def digits? (t : Text) : Option (Text × Text) :=
  let run := t.takeWhile Char.isDigit
  if run = [] then none else some (run, t.dropWhile Char.isDigit)

/-- The digits before the point: a zero stands alone. -/
def whole? : Text → Option (Text × Text)
  | '0' :: rest => some (['0'], rest)
  | t => digits? t

/-- A point and the digits after it, if there is a point. -/
def fraction? : Text → Option (Text × Text)
  | '.' :: rest => (digits? rest).map fun (run, rest) => ('.' :: run, rest)
  | t => some ([], t)

/-- A power of ten, if there is one. -/
def exponent? : Text → Option (Text × Text)
  | e :: s :: rest =>
    if e = 'e' ∨ e = 'E' then
      if s = '+' ∨ s = '-' then (digits? rest).map fun (run, rest) => (e :: s :: run, rest)
      else (digits? (s :: rest)).map fun (run, rest) => (e :: run, rest)
    else some ([], e :: s :: rest)
  | [e] => if e = 'e' ∨ e = 'E' then none else some ([], [e])
  | [] => some ([], [])

/-- A number without its sign, as it is written. -/
def magnitude? (t : Text) : Option (Text × Text) := do
  let (whole, rest) ← whole? t
  let (fraction, rest) ← fraction? rest
  let (exponent, rest) ← exponent? rest
  return (whole ++ fraction ++ exponent, rest)

def number? : Text → Option (Text × Text)
  | '-' :: rest => (magnitude? rest).map fun (n, rest) => ('-' :: n, rest)
  | t => magnitude? t

/-- The words of the format. -/
def word? (t : Text) : Option (Text × Text) :=
  ["null", "true", "false"].findSome? fun (word : String) =>
    (Text.after? word.toList t).map fun rest => (word.toList, rest)

def isSpace (c : Char) : Bool := c = ' ' || c = '\t' || c = '\n' || c = '\r'

def isMark (c : Char) : Bool :=
  c = '[' || c = ']' || c = '\x7b' || c = '\x7d' || c = ':' || c = ','

/-- The token at the front of a text that starts with no space, and the rest. -/
def token? : Text → Option (Token × Text)
  | [] => none
  | c :: rest =>
    if isMark c then some (.mark c, rest)
    else if c = '\x22' then
      (elements? rest).map fun (es, after) =>
        match text? es with
        | some t => (.string t, after)
        | none => (.bare ((c :: rest).take (rest.length + 1 - after.length)), after)
    else if c = '-' ∨ c.isDigit then (number? (c :: rest)).map fun (n, rest) => (.bare n, rest)
    else (word? (c :: rest)).map fun (w, rest) => (.bare w, rest)

/-- The tokens of a text, at most as many as the fuel. -/
def tokensWithin : Nat → Text → Option (List Token)
  | _, [] => some []
  | 0, _ :: _ => none
  | fuel + 1, c :: rest =>
    if isSpace c then tokensWithin fuel rest
    else (token? (c :: rest)).bind fun (token, rest) => (tokensWithin fuel rest).map (token :: ·)

/-- The tokens of a text. Each step takes a character or more, so the length is fuel enough. -/
def tokens? (t : Text) : Option (List Token) := tokensWithin t.length t

mutual

/-- The value at the front of the tokens, and the tokens after it. -/
def value? : Nat → List Token → Option (Node × List Token)
  | 0, _ => none
  | _ + 1, [] => none
  | _ + 1, .string t :: rest => some (.string t, rest)
  | _ + 1, .bare t :: rest => some (.bare t, rest)
  | fuel + 1, .mark c :: rest =>
    if c = '[' then
      match rest with
      | .mark ']' :: rest => some (.list [], rest)
      | _ => (items? fuel rest).map fun (items, rest) => (.list items, rest)
    else if c = '\x7b' then
      match rest with
      | .mark '\x7d' :: rest => some (.record [], rest)
      | _ => (fields? fuel rest).map fun (fields, rest) => (.record fields, rest)
    else none

/-- One or more values with commas between them, up to the closing bracket. -/
def items? : Nat → List Token → Option (List Node × List Token)
  | 0, _ => none
  | fuel + 1, tokens =>
    (value? fuel tokens).bind fun (item, rest) =>
      match rest with
      | .mark ',' :: rest => (items? fuel rest).map fun (items, rest) => (item :: items, rest)
      | .mark ']' :: rest => some ([item], rest)
      | _ => none

/-- One or more fields with commas between them, up to the closing brace. -/
def fields? : Nat → List Token → Option (List (Node × Node) × List Token)
  | 0, _ => none
  | fuel + 1, tokens =>
    (field? fuel tokens).bind fun (field, rest) =>
      match rest with
      | .mark ',' :: rest => (fields? fuel rest).map fun (fields, rest) => (field :: fields, rest)
      | .mark '\x7d' :: rest => some ([field], rest)
      | _ => none

/-- A key, a colon and a value. -/
def field? : Nat → List Token → Option ((Node × Node) × List Token)
  | fuel + 1, .string key :: .mark ':' :: rest =>
    (value? fuel rest).map fun (value, rest) => ((.string key, value), rest)
  | fuel + 1, .bare key :: .mark ':' :: rest =>
    if key.head? = some '\x22' then
      (value? fuel rest).map fun (value, rest) => ((.bare key, value), rest)
    else none
  | _, _ => none

end

/-- The document a text holds. A value takes at most three steps for each token, so the fuel never
runs out before the tokens do. -/
def read? (t : Text) : Option Node :=
  (tokens? t).bind fun tokens =>
    match value? (3 * tokens.length + 1) tokens with
    | some (node, []) => some node
    | _ => none

end RouteBook.Document.Json
