import RouteBook.Manifest.Format
import RouteBook.Pattern.Error
import RouteBook.Table.Basic

/-! Why a manifest gives no route table. -/

namespace RouteBook

inductive ManifestError where
  | unreadable (path : Text)
  | malformed (format : ManifestFormat)
  | malformedFile (path : Text) (format : ManifestFormat)
  | invalidMethod (text : Text)
  | invalidUri (operation uri : Text) (cause : PatternError)
  | invalidHost (operation : Text) (cause : PatternError)
  | unreachable (operation : Text) (cause : TableError)
  deriving DecidableEq

namespace ManifestError

def malformedText (format : ManifestFormat) : Text :=
  "Failed to parse " ++ format.name ++ " manifest"

def invalidMethodText (text : Text) : Text := "invalid HTTP method `" ++ text ++ "`"

/-- The messages from the widest view of the error to its cause. -/
def chain : ManifestError → List Text
  | unreadable path => ["Failed to read manifest " ++ path]
  | malformed format => [malformedText format]
  | malformedFile path format => ["Invalid manifest " ++ path, malformedText format]
  | invalidMethod text => [invalidMethodText text]
  | invalidUri operation uri cause =>
    ["operation `" ++ operation ++ "`: invalid uri `" ++ uri ++ "`", cause.message]
  | invalidHost operation cause =>
    ["operation `" ++ operation ++ "`: invalid host prefix", cause.message]
  | unreachable operation cause =>
    ["operation `" ++ operation ++ "` is unreachable", cause.message]

end ManifestError

end RouteBook
