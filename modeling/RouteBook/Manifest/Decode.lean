import RouteBook.Document.Json
import RouteBook.Document.Toml
import RouteBook.Document.Yaml
import RouteBook.Manifest.Basic
import RouteBook.Text.Utf8

/-! Manifests in documents. Unknown fields are ignored and a known field must not repeat. The
formats differ in what else may stand for a string, for nothing and for a record, and in what may be
ignored; a `Dialect` says how. -/

namespace RouteBook

structure Dialect where
  /-- A bare scalar may stand for a string. -/
  bareStrings : Bool
  /-- The bare scalars that stand for nothing. -/
  nulls : List Text
  /-- An empty scalar may stand for an empty list or record. -/
  emptyCollections : Bool
  /-- A list of fields in their order may stand for a manifest. -/
  manifestLists : Bool
  /-- A list of fields in their order may stand for an entry. -/
  entryLists : Bool
  /-- Elements of such a list after the last field are ignored. -/
  surplus : Bool
  /-- The bare scalars that the value of an unknown field may hold. -/
  ignorable : Text → Bool

namespace Dialect

def json : Dialect := ⟨false, ["null"], false, true, true, false, fun _ => true⟩

def yaml : Dialect :=
  ⟨true, ["", "~", "null", "Null", "NULL"], true, false, false, false, fun _ => true⟩

def toml : Dialect := ⟨false, [], false, false, true, true, Document.Toml.isRepresentable⟩

variable (d : Dialect)

def text? : Node → Option Text
  | .string t => some t
  | .bare t => if d.bareStrings then some t else none
  | _ => none

/-- The text of a node that may say nothing. -/
def optionalText? (n : Node) : Option (Option Text) :=
  match n with
  | .bare t => if d.nulls.contains t then some none else (d.text? n).map some
  | _ => (d.text? n).map some

/-- The fields of a record with their names. The value of a field that is not
known can be ignored. -/
def named? (known : List Text) (fields : List (Node × Node)) : Option (List (Text × Node)) := do
  let fields ← fields.mapM fun (key, value) => (d.text? key).map (·, value)
  if fields.all fun (key, value) => known.contains key || value.allBare d.ignorable then
    return fields
  else none

/-- The value of a field that may be missing but must not repeat. -/
def field? {α : Type} (fields : List (Text × α)) (name : Text) : Option (Option α) :=
  match fields.filter fun (key, _) => key == name with
  | [] => some none
  | [(_, value)] => some (some value)
  | _ => none

/-- The value of a field that must not be missing. -/
def required? {α : Type} (fields : List (Text × α)) (name : Text) : Option α :=
  (field? fields name).join

/-- The entry with these values. -/
def entryOf? (operation method uri : Node) (hostPrefix : Option Node) : Option ManifestEntry := do
  let operation ← d.text? operation
  let method ← d.text? method
  let uri ← d.text? uri
  let hostPrefix ← match hostPrefix with
    | none => some none
    | some n => d.optionalText? n
  return ⟨operation, method, uri, hostPrefix⟩

def entry? : Node → Option ManifestEntry
  | .record fields => do
    let fields ← d.named? ["operation", "method", "uri", "host_prefix"] fields
    let operation ← required? fields "operation"
    let method ← required? fields "method"
    let uri ← required? fields "uri"
    let hostPrefix ← field? fields "host_prefix"
    d.entryOf? operation method uri hostPrefix
  | .list (operation :: method :: uri :: rest) =>
    if d.entryLists && (rest.length ≤ 1 || d.surplus) then
      d.entryOf? operation method uri rest.head?
    else none
  | _ => none

def routes? : Node → Option (List ManifestEntry)
  | .list items => items.mapM d.entry?
  | .bare [] => if d.emptyCollections then some [] else none
  | _ => none

/-- The manifest with this value of its one field. -/
def manifestOf? : Option Node → Option Manifest
  | none => some ⟨[]⟩
  | some n => (d.routes? n).map Manifest.mk

def manifest? : Node → Option Manifest
  | .record fields => do
    let fields ← d.named? ["routes"] fields
    let routes ← field? fields "routes"
    d.manifestOf? routes
  | .list items => if d.manifestLists && items.length ≤ 1 then d.manifestOf? items.head? else none
  | .bare [] => if d.emptyCollections then some ⟨[]⟩ else none
  | _ => none

end Dialect

namespace Manifest

/-- The manifest that a text holds. -/
def ofText? (format : ManifestFormat) (t : Text) : Option Manifest :=
  match format with
  | .json => (Document.Json.read? t).bind Dialect.json.manifest?
  | .yaml => (Document.Yaml.read? t).bind Dialect.yaml.manifest?
  | .toml => (Document.Toml.read? t).bind Dialect.toml.manifest?

def parse (format : ManifestFormat) (t : Text) : Except ManifestError Manifest :=
  match ofText? format t with
  | some m => .ok m
  | none => .error (.malformed format)

/-- The manifest in the file at a path, from what the file holds if there is one. -/
def load (path : Text) (content : Option (List UInt8)) : Except ManifestError Manifest :=
  match content.bind Text.Utf8.decode? with
  | none => .error (.unreadable path)
  | some t =>
    let format := ManifestFormat.ofPath path
    match ofText? format t with
    | some m => .ok m
    | none => .error (.malformedFile path format)

/-- The route table of the manifest in a file. -/
def loadTable (path : Text) (content : Option (List UInt8)) (slowMatch : Duration) :
    Except ManifestError (RouteTable Text) := do
  let m ← load path content
  m.buildTable slowMatch

end Manifest

end RouteBook
