import RouteBook.Document.Node

/-! The tables of a TOML document while it is read. How a table came to be decides what may
still be added to it: a header completes a table that earlier headers only imply, and nothing
reopens what is complete. -/

namespace RouteBook.Document.Toml

/-- How a table came to be: a longer header implies it, a header names it, or a dotted
key passes through it. -/
inductive Origin where
  | implied
  | header
  | dotted
  deriving DecidableEq

/-- What stands under a key. An array of tables is open at its last table. -/
inductive Item where
  | value (n : Node)
  | table (origin : Origin) (fields : List (Text × Item))
  | tables (earlier : List (List (Text × Item))) (last : List (Text × Item))

abbrev Fields := List (Text × Item)

/-- Changes what stands under a key; a new key comes last. -/
def change? (key : Text) (f : Option Item → Option Item) : Fields → Option Fields
  | [] => (f none).map fun item => [(key, item)]
  | (k, item) :: rest =>
    if k = key then (f (some item)).map fun item => (k, item) :: rest
    else (change? key f rest).map ((k, item) :: ·)

/-- Changes the table at the end of a path. Headers pass through tables of any origin. -/
def within? (f : Fields → Option Fields) : List Text → Fields → Option Fields
  | [], fields => f fields
  | key :: path, fields =>
    change? key
      (fun
        | none => (within? f path []).map (.table .implied)
        | some (.table origin inner) => (within? f path inner).map (.table origin)
        | some (.tables earlier last) => (within? f path last).map (.tables earlier)
        | some (.value _) => none)
      fields

/-- Opens the table that a header names. -/
def open? (path : List Text) (key : Text) : Fields → Option Fields :=
  within?
    (change? key fun
      | none => some (.table .header [])
      | some (.table .implied inner) => some (.table .header inner)
      | _ => none)
    path

/-- Opens a further table of the array that a header names. -/
def append? (path : List Text) (key : Text) : Fields → Option Fields :=
  within?
    (change? key fun
      | none => some (.tables [] [])
      | some (.tables earlier last) => some (.tables (earlier ++ [last]) [])
      | _ => none)
    path

/-- Sets a key that is not set. A dotted key passes through tables that no header names, and from
then on none can name them. It may pass on into an array of tables, but its last part goes into no
table of such an array. -/
def assign? (value : Node) : List Text → Fields → Option Fields
  | [], _ => none
  | [key], fields =>
    change? key
      (fun
        | none => some (.value value)
        | some _ => none)
      fields
  | key :: path, fields =>
    change? key
      (fun
        | none => (assign? value path []).map (.table .dotted)
        | some (.table .dotted inner) | some (.table .implied inner) =>
          (assign? value path inner).map (.table .dotted)
        | some (.tables earlier last) =>
          if path.length = 1 then none else (assign? value path last).map (.tables earlier)
        | _ => none)
      fields

mutual

def Item.node : Item → Node
  | .value n => n
  | .table _ fields => .record (fieldNodes fields)
  | .tables earlier last => .list (recordNodes earlier ++ [.record (fieldNodes last)])

def fieldNodes : List (Text × Item) → List (Node × Node)
  | [] => []
  | (key, item) :: rest => (.string key, item.node) :: fieldNodes rest

def recordNodes : List (List (Text × Item)) → List Node
  | [] => []
  | fields :: rest => .record (fieldNodes fields) :: recordNodes rest

end

end RouteBook.Document.Toml
