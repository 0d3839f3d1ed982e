import RouteBook.Document.Yaml.Place
import RouteBook.Text.Numeral

/-! Scalars of YAML: plain ones and the two quoted styles. A scalar may go on over several lines;
the spaces around its line breaks are not part of it, and the breaks themselves are folded. -/

namespace RouteBook.Document.Yaml

/-- The spaces inside a scalar since its last other character. In double quotes they may begin with
a line break that a backslash takes away. -/
structure Gap where
  escaped : Bool
  spaces : Text

namespace Gap

def empty : Gap := ⟨false, []⟩

def push (g : Gap) (c : Char) : Gap := { g with spaces := g.spaces ++ [c] }

def breaks (g : Gap) : Text := g.spaces.filter isBreak

/-- Whether a line begins right after the gap. -/
def startsLine (g : Gap) : Bool := g.spaces.getLast?.any isBreak

/-- The column after a gap with a line break. -/
def column (g : Gap) : Nat := (g.spaces.reverse.takeWhile isBlank).length

/-- What the gap says. One line end is a space and of several the first is left out, but the
separators of lines and of paragraphs stand for themselves. -/
def text (g : Gap) : Text :=
  if g.escaped then g.breaks.drop 1
  else
    match g.breaks with
    | [] => g.spaces
    | ['\n'] => [' ']
    | '\n' :: more => more
    | breaks => breaks

end Gap

/-- The text of a scalar in single quotes after a gap, and the number of characters up to its end. A
quote inside is written twice. -/
def single? (gap : Gap) : Text → Option (Text × Nat)
  | [] => none
  | '\x27' :: '\x27' :: rest =>
    (single? .empty rest).map fun (t, count) => (gap.text ++ '\x27' :: t, count + 2)
  | c :: rest =>
    if isSpace c then (single? (gap.push c) rest).map fun (t, count) => (t, count + 1)
    else if gap.startsLine && startsMark (c :: rest) then none
    else if c = '\x27' then some (gap.text, 1)
    else (single? .empty rest).map fun (t, count) => (gap.text ++ c :: t, count + 1)

/-- The character of an escape with one letter. -/
def escape? : Char → Option Char
  | '0' => some '\x00'
  | 'a' => some '\x07'
  | 'b' => some '\x08'
  | 't' | '\t' => some '\t'
  | 'n' => some '\n'
  | 'v' => some '\x0b'
  | 'f' => some '\x0c'
  | 'r' => some '\r'
  | 'e' => some '\x1b'
  | ' ' => some ' '
  | '\x22' => some '\x22'
  | '/' => some '/'
  | '\\' => some '\\'
  | 'N' => some '\u0085'
  | '_' => some '\u00a0'
  | 'L' => some '\u2028'
  | 'P' => some '\u2029'
  | _ => none

/-- The text of a scalar in double quotes after a gap, and the number of characters up to its end.
The first `skipped` characters belong to an escape that has been read. -/
def double? (skipped : Nat) (gap : Gap) : Text → Option (Text × Nat)
  | [] => none
  | c :: rest =>
    match skipped with
    | skipped + 1 => (double? skipped gap rest).map fun (t, count) => (t, count + 1)
    | 0 =>
      if isSpace c then (double? 0 (gap.push c) rest).map fun (t, count) => (t, count + 1)
      else if gap.startsLine && startsMark (c :: rest) then none
      else if c = '\x22' then some (gap.text, 1)
      else if c = '\\' then
        if rest.head?.any isBreak then
          (double? 1 ⟨true, rest.take 1⟩ rest).map fun (t, count) => (gap.text ++ t, count + 1)
        else
          (Text.escaped? escape? rest).bind fun (x, length) =>
            (double? length .empty rest).map fun (t, count) => (gap.text ++ x :: t, count + 1)
      else (double? 0 .empty rest).map fun (t, count) => (gap.text ++ c :: t, count + 1)

/-- Whether a plain scalar can begin with this character, whatever follows. -/
def startsPlain (c : Char) : Bool :=
  !isSpace c && !isFlowMark c && !"-?:#&*!|>'\"%@`".toList.contains c

/-- What a plain scalar still says after a gap, the gap it ends with, and the number of characters
of both. A colon before a space and a hash mark after one end it, and so do the marks of flow style
inside a flow collection, where a colon right before such a mark or a question mark is refused. On a
later line no tab stands left of `floor`, and in block style nothing else of the scalar does. -/
def plain? (flow : Bool) (floor : Nat) (gap : Gap) : Text → Option (Text × Gap × Nat)
  | [] => some ([], gap, 0)
  | c :: rest =>
    let left := gap.breaks ≠ [] && gap.column < floor
    if isSpace c then
      if c = '\t' && left then none
      else (plain? flow floor (gap.push c) rest).map fun (t, last, count) => (t, last, count + 1)
    else if (left && !flow) || (gap.startsLine && startsMark (c :: rest))
        || (c = '#' && gap.spaces ≠ []) then some ([], gap, 0)
    else if c = ':' && flow && rest.head?.any (fun d => isFlowMark d || d = '?') then none
    else if (c = ':' && endsWord rest) || (flow && isFlowMark c) then some ([], gap, 0)
    else
      (plain? flow floor .empty rest).map fun (t, last, count) =>
        (gap.text ++ c :: t, last, count + 1)

end RouteBook.Document.Yaml
