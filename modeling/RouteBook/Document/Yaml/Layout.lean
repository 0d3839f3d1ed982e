import RouteBook.Document.Node
import RouteBook.Document.Yaml.Scalar

/-! From text to tokens. Only the colon behind a key tells that it is one, so where a key may begin
the place is kept, and a colon soon after it on the same line puts the key's token there. Anchors,
tags, block scalars and directives are refused. -/

namespace RouteBook.Document.Yaml

/-- What a document is made of once its layout has been read: indentation has become tokens of its
own, and every key is announced. -/
inductive Token where
  /-- The mark in front of a document. -/
  | documentStart
  /-- The mark behind a document. -/
  | documentEnd
  /-- A block list or record begins; `outdent` ends either. -/
  | listIndent
  | recordIndent
  | outdent
  /-- What comes next is an item, a key or a value. -/
  | item
  | key
  | value
  /-- The brackets and commas of flow style. -/
  | listOpen
  | listClose
  | recordOpen
  | recordClose
  | comma
  /-- A string or a bare scalar. -/
  | scalar (n : Node)

/-- Where a key may have begun, and how many tokens stand before it. If nothing but a key can stand
there, a colon has to come. -/
structure PossibleKey where
  place : Place
  index : Nat
  required : Bool

/-- What has been read: the columns of the open block collections, innermost first; the possible
key of this level of flow style and those of the levels around it; whether a key may begin next;
and the tokens so far. -/
structure Layout where
  place : Place
  indents : List Nat
  key : Option PossibleKey
  around : List (Option PossibleKey)
  keyAllowed : Bool
  tokens : Array Token

namespace Layout

def start (t : Text) : Layout := ⟨.front t, [], none, [], true, #[]⟩

def inFlow (s : Layout) : Bool := !s.around.isEmpty

/-- The column from which on text belongs to the innermost block collection. -/
def floor (s : Layout) : Nat :=
  match s.indents with
  | [] => 0
  | column :: _ => column + 1

/-- Gives up the possible key. -/
def dropKey? (s : Layout) : Option Layout :=
  if s.key.any (·.required) then none else some { s with key := none }

/-- Keeps the possible key of a level as long as a colon can follow here. -/
def freshKey? (p : Place) : Option PossibleKey → Option (Option PossibleKey)
  | none => some none
  | some k => if k.place.keyReaches p then some (some k) else if k.required then none else some none

/-- Remembers that a key may begin here. It has to if what begins here is in the column
of a block collection. -/
def markKey? (s : Layout) : Option Layout :=
  if s.keyAllowed then do
    let s ← s.dropKey?
    let required := !s.inFlow && s.indents.head? == some s.place.column
    return { s with key := some ⟨s.place, s.tokens.size, required⟩ }
  else some s

def push (s : Layout) (token : Token) : Layout := { s with tokens := s.tokens.push token }

/-- Opens a block collection at a column, unless this column is open. Its token comes
after `index` others. -/
def indent (s : Layout) (column index : Nat) (token : Token) : Layout :=
  if !s.inFlow && s.floor ≤ column then
    { s with
      indents := column :: s.indents, tokens := s.tokens.insertIdxIfInBounds index token }
  else s

/-- Closes the block collections right of a column. -/
def outdent (s : Layout) (column : Nat) : Layout :=
  if s.inFlow then s
  else
    let closed := s.indents.takeWhile (column < ·)
    { s with
      indents := s.indents.dropWhile (column < ·)
      tokens := s.tokens ++ Array.replicate closed.length .outdent }

/-- Closes all block collections. -/
def outdentAll (s : Layout) : Layout :=
  if s.inFlow then s
  else { s with indents := [], tokens := s.tokens ++ Array.replicate s.indents.length .outdent }

/-- Past some characters. -/
def skip (s : Layout) (count : Nat) : Layout := { s with place := s.place.skip count }

/-- The spaces and comments before a token. In block style tabs are no indentation, so where a key
may begin there are none. `front` tells that a line begins here: a byte order mark there is no text,
but it takes a column. -/
def spacing (flow tabs comment front : Bool) : Text → Text
  | [] => []
  | c :: rest =>
    if isBreak c then c :: spacing flow flow false true rest
    else if comment || c = ' ' || (c = '\t' && tabs) || (c = '\uFEFF' && front) then
      c :: spacing flow tabs comment false rest
    else if c = '#' then c :: spacing flow tabs true false rest
    else []

/-- Up to the next token, with the block collections closed that it is not part of. -/
def advance? (s : Layout) : Option Layout := do
  let tabs := s.inFlow || !s.keyAllowed
  let space := spacing s.inFlow tabs false (s.place.column = 0) s.place.rest
  let s := s.skip space.length
  let key ← freshKey? s.place s.key
  let around ← s.around.mapM (freshKey? s.place)
  let keyAllowed := s.keyAllowed || (!s.inFlow && space.any isBreak)
  return { s with key := key, around := around, keyAllowed := keyAllowed }.outdent s.place.column

/-- A mark between documents, which all collections end at. -/
def documentMark? (s : Layout) (token : Token) : Option Layout := do
  let s ← s.outdentAll.dropKey?
  return { s.push token with keyAllowed := false }.skip 3

def openFlow? (s : Layout) (token : Token) : Option Layout := do
  let s ← s.markKey?
  return { s.push token with key := none, around := s.key :: s.around, keyAllowed := true }.skip 1

def closeFlow? (s : Layout) (token : Token) : Option Layout := do
  let s ← s.dropKey?
  let s := match s.around with
    | [] => s
    | key :: around => { s with key := key, around := around }
  return { s.push token with keyAllowed := false }.skip 1

def comma? (s : Layout) : Option Layout := do
  let s ← s.dropKey?
  return { s.push .comma with keyAllowed := true }.skip 1

/-- The dash of an item, which in block style stands where a key may begin. -/
def item? (s : Layout) : Option Layout :=
  if s.inFlow || s.keyAllowed then do
    let s ← (s.indent s.place.column s.tokens.size .listIndent).dropKey?
    return { s.push .item with keyAllowed := true }.skip 1
  else none

/-- The question mark that announces a key. -/
def key? (s : Layout) : Option Layout :=
  if s.inFlow || s.keyAllowed then do
    let s ← (s.indent s.place.column s.tokens.size .recordIndent).dropKey?
    return { s.push .key with keyAllowed := !s.inFlow }.skip 1
  else none

/-- The colon of a value. The possible key, if there is one, is now certain. -/
def value? (s : Layout) : Option Layout :=
  match s.key with
  | some k =>
    let s := { s with tokens := s.tokens.insertIdxIfInBounds k.index .key }
    let s := s.indent k.place.column k.index .recordIndent
    some ({ s.push .value with key := none, keyAllowed := false }.skip 1)
  | none =>
    if s.inFlow || s.keyAllowed then
      let s := s.indent s.place.column s.tokens.size .recordIndent
      some ({ s.push .value with keyAllowed := !s.inFlow }.skip 1)
    else none

/-- A quoted scalar, from what is read after its opening quote. -/
def string? (s : Layout) (read : Text → Option (Text × Nat)) : Option Layout := do
  let (t, count) ← read (s.place.rest.drop 1)
  let s ← s.markKey?
  return { s.push (.scalar (.string t)) with keyAllowed := false }.skip (count + 1)

/-- A plain scalar, with the spaces after it. After a line break in them a key may begin. -/
def word? (s : Layout) : Option Layout := do
  let (t, gap, count) ← plain? s.inFlow s.floor .empty s.place.rest
  let s ← s.markKey?
  return { s.push (.scalar (.bare t)) with keyAllowed := gap.breaks ≠ [] }.skip count

/-- Reads the token that begins here. -/
def next? (s : Layout) : Option Layout :=
  match s.place.rest with
  | [] => none
  | c :: rest =>
    let alone := endsWord rest
    if s.place.column = 0 && c = '%' then none
    else if s.place.column = 0 && startsWord "---" (c :: rest) then s.documentMark? .documentStart
    else if s.place.column = 0 && startsWord "..." (c :: rest) then s.documentMark? .documentEnd
    else
      match c with
      | '[' => s.openFlow? .listOpen
      | '\x7b' => s.openFlow? .recordOpen
      | ']' => s.closeFlow? .listClose
      | '\x7d' => s.closeFlow? .recordClose
      | ',' => s.comma?
      | '-' => if alone then s.item? else s.word?
      | '?' => if s.inFlow || alone then s.key? else s.word?
      | ':' => if s.inFlow || alone then s.value? else s.word?
      | '\x22' => s.string? (double? 0 .empty)
      | '\x27' => s.string? (single? .empty)
      | c => if startsPlain c then s.word? else none

/-- All tokens from here on. Each takes a character or more. -/
def tokens? : Nat → Layout → Option (List Token)
  | 0, _ => none
  | fuel + 1, s => do
    let s ← s.advance?
    if s.place.rest = [] then
      let s ← s.outdentAll.dropKey?
      return s.tokens.toList
    else tokens? fuel (← s.next?)

end Layout

/-- The tokens of a text. -/
def Token.ofText? (t : Text) : Option (List Token) := Layout.tokens? (t.length + 1) (.start t)

end RouteBook.Document.Yaml
