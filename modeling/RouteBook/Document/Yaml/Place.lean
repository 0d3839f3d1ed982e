import RouteBook.Text.Basic

/-! Where a reader of YAML stands, and what single characters mean to it. Structure is told by lines
and columns, and how far a key may reach is told in bytes, so a place counts all three. -/

namespace RouteBook.Document.Yaml

def isBlank (c : Char) : Bool := c = ' ' || c = '\t'

/-- The characters that end a line; `joinLineEnds` has made one of the others. -/
def isBreak (c : Char) : Bool := c = '\n' || c = '\u2028' || c = '\u2029'

def isSpace (c : Char) : Bool := isBlank c || isBreak c

/-- Whether a text begins with a space or is over, so that what stands before it
is a word of its own. -/
def endsWord : Text → Bool
  | [] => true
  | c :: _ => isSpace c

def startsWord (word t : Text) : Bool :=
  match Text.after? word t with
  | some rest => endsWord rest
  | none => false

/-- Whether a line begins with one of the marks between documents. -/
def startsMark (line : Text) : Bool := startsWord "---" line || startsWord "..." line

/-- The characters that open, close or part flow collections. -/
def isFlowMark (c : Char) : Bool :=
  c = ',' || c = '[' || c = ']' || c = '\x7b' || c = '\x7d'

/-- Line ends in one spelling. The separators of lines and of paragraphs stay as they are. -/
def joinLineEnds : Text → Text
  | [] => []
  | '\r' :: '\n' :: rest => '\n' :: joinLineEnds rest
  | c :: rest => (if c = '\r' ∨ c = '\u0085' then '\n' else c) :: joinLineEnds rest

def isPrintable (c : Char) : Bool :=
  let n := c.toNat
  c = '\t' || c = '\n' || c = '\r' || (0x20 ≤ n && n < 0x7F) || n = 0x85
    || (0xA0 ≤ n && n != 0xFFFE && n != 0xFFFF)

/-- A place in a text: the bytes before it, the lines before its own, the characters before it on
its line, and the text from there on. -/
structure Place where
  offset : Nat
  line : Nat
  column : Nat
  rest : Text

namespace Place

/-- The place some characters on. -/
def skip (p : Place) : Nat → Place
  | 0 => p
  | count + 1 =>
    match p.rest with
    | [] => p
    | c :: rest =>
      let offset := p.offset + c.utf8Size
      let next : Place :=
        if isBreak c then ⟨offset, p.line + 1, 0, rest⟩ else ⟨offset, p.line, p.column + 1, rest⟩
      next.skip count

def front (t : Text) : Place := ⟨0, 0, 0, t⟩

/-- How many bytes there may be from the front of a key to its colon. -/
def maxKey : Nat := 1024

/-- Whether a key that begins at `p` can have its colon at `q`. -/
def keyReaches (p q : Place) : Bool := q.line ≤ p.line && q.offset ≤ p.offset + maxKey

end Place

end RouteBook.Document.Yaml
