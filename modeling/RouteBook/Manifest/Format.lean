import RouteBook.Text.Basic

/-! The formats of manifests. The name of a file tells its format. -/

namespace RouteBook

inductive ManifestFormat where
  | yaml
  | json
  | toml
  deriving DecidableEq

namespace ManifestFormat

def name : ManifestFormat → Text
  | yaml => "YAML"
  | json => "JSON"
  | toml => "TOML"

/-- The name of the file at a path. A slash or a dot component at the end does not count, and the
parent directory is no file. -/
def fileName? (path : Text) : Option Text :=
  match ((Text.split '/' path).filter fun piece => piece ≠ [] ∧ piece ≠ ['.']).getLast? with
  | some ['.', '.'] => none
  | name => name

/-- What follows the last dot of a name. A dot at its front makes no extension. -/
def extension? (name : Text) : Option Text :=
  match (Text.split '.' name).reverse with
  | last :: before :: more => if before = [] ∧ more = [] then none else some last
  | _ => none

/-- A file with any other extension, or with none, is read as YAML. -/
def ofPath (path : Text) : ManifestFormat :=
  match ((fileName? path).bind extension?).map Text.asciiLower with
  | some extension =>
    if extension = "json" then json else if extension = "toml" then toml else yaml
  | none => yaml

end ManifestFormat

end RouteBook
