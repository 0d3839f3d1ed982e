import RouteBook.Document.Node
import RouteBook.Text.Numeral

/-! Writing a document as JSON, on one line or with one value per line. Only
what must be escaped is. -/

namespace RouteBook.Document.Json

/-- A quote, a backslash and the controls are escaped; five controls have short forms. -/
def escape (c : Char) : Text :=
  match c with
  | '\x22' => "\\\""
  | '\\' => "\\\\"
  | '\x08' => "\\b"
  | '\x0c' => "\\f"
  | '\n' => "\\n"
  | '\r' => "\\r"
  | '\t' => "\\t"
  | c => if c.toNat < 0x20 then "\\u" ++ Text.Numeral.hexadecimal 4 c.toNat else [c]

def quote (t : Text) : Text := '\x22' :: t.flatMap escape ++ ['\x22']

mutual

/-- A document on one line, without spaces. -/
def compact : Node → Text
  | .string t => quote t
  | .bare t => t
  | .list items => '[' :: compactItems items ++ [']']
  | .record fields => '\x7b' :: compactFields fields ++ ['\x7d']

def compactItems : List Node → Text
  | [] => []
  | [item] => compact item
  | item :: items => compact item ++ ',' :: compactItems items

def compactFields : List (Node × Node) → Text
  | [] => []
  | [(key, value)] => compact key ++ ':' :: compact value
  | (key, value) :: fields => compact key ++ ':' :: compact value ++ ',' :: compactFields fields

end

/-- A new line at a depth, two spaces a level. -/
def line (depth : Nat) : Text := '\n' :: List.replicate (2 * depth) ' '

mutual

/-- A document at a depth, one value per line; what is empty stays on its line. -/
def indented (depth : Nat) : Node → Text
  | .string t => quote t
  | .bare t => t
  | .list [] => "[]"
  | .list items => '[' :: indentedItems (depth + 1) items ++ line depth ++ [']']
  | .record [] => ['\x7b', '\x7d']
  | .record fields => '\x7b' :: indentedFields (depth + 1) fields ++ line depth ++ ['\x7d']

def indentedItems (depth : Nat) : List Node → Text
  | [] => []
  | [item] => line depth ++ indented depth item
  | item :: items => line depth ++ indented depth item ++ ',' :: indentedItems depth items

def indentedFields (depth : Nat) : List (Node × Node) → Text
  | [] => []
  | [(key, value)] => line depth ++ indented depth key ++ ": " ++ indented depth value
  | (key, value) :: fields =>
    line depth ++ indented depth key ++ ": " ++ indented depth value
      ++ ',' :: indentedFields depth fields

end

/-- A document over several lines. -/
def pretty (n : Node) : Text := indented 0 n

end RouteBook.Document.Json
