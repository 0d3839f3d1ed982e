import RouteBook.Text.Basic

/-! What a document says, whichever format it is written in. A format may spell the same value in
several ways; all that is kept of the spelling is whether a scalar stood in quotes. -/

namespace RouteBook

/-- A string is text in quotes. A bare scalar is a number, a truth value or an unquoted word and is
kept as it was written. A record keeps its fields in order and may repeat a key. -/
inductive Node where
  | string (t : Text)
  | bare (t : Text)
  | list (items : List Node)
  | record (fields : List (Node × Node))

namespace Node

/-- A field whose key is a string. -/
def field (key : String) (value : Node) : Node × Node := (.string key.toList, value)

mutual

/-- Whether all bare scalars among the values satisfy a condition. -/
def allBare (p : Text → Bool) : Node → Bool
  | .string _ => true
  | .bare t => p t
  | .list items => allBareItems p items
  | .record fields => allBareFields p fields

def allBareItems (p : Text → Bool) : List Node → Bool
  | [] => true
  | item :: rest => item.allBare p && allBareItems p rest

def allBareFields (p : Text → Bool) : List (Node × Node) → Bool
  | [] => true
  | (_, value) :: rest => value.allBare p && allBareFields p rest

end

end Node

end RouteBook
