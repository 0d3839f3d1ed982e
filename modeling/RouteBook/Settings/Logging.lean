import RouteBook.Settings.LogFilter
import RouteBook.Settings.Runtime

/-! How a run is logged. -/

namespace RouteBook

inductive LogFormat where
  | json
  | pretty
  deriving DecidableEq

namespace LogFormat

def text : LogFormat → Text
  | json => "json"
  | pretty => "pretty"

/-- What is not the pretty format is JSON. -/
def parse (t : Text) : LogFormat :=
  if Text.asciiLower (Text.trim t) = "pretty" then pretty else json

end LogFormat

structure LogSettings where
  level : Text
  format : LogFormat
  targetFilter : Option Text
  background : Bool
  locations : Bool
  deriving DecidableEq

namespace LogSettings

def development : LogSettings := ⟨"debug", .pretty, none, false, true⟩

def production : LogSettings := ⟨"info", .json, none, true, false⟩

/-- A truth value in its one spelling. -/
def flag? (t : Text) : Option Bool :=
  if t = "true" then some true else if t = "false" then some false else none

/-- What is unset or makes no sense is as in production. -/
def ofLookup (lookup : Lookup) : LogSettings where
  level := (lookup "SHAPEGATE_LOG_LEVEL").getD production.level
  format := ((lookup "SHAPEGATE_LOG_FORMAT").map LogFormat.parse).getD production.format
  targetFilter := lookup.filled? "SHAPEGATE_LOG_TARGET_FILTER"
  background := ((lookup "SHAPEGATE_LOG_ASYNC").bind flag?).getD production.background
  locations := ((lookup "SHAPEGATE_LOG_INCLUDE_LOCATION").bind flag?).getD production.locations

/-- The level in any case and with blanks around it; any other text is the level of information.
Logging is never turned off this way. -/
def levelOf (s : LogSettings) : LogLevel :=
  match LogLevel.ofName? (Text.trim s.level) with
  | some .off | none => .info
  | some level => level

/-- The filter, and the directives that were refused. The variable of the environment is the base if
all of it makes sense, and else the level of the settings. -/
def filter (s : LogSettings) (environment : Option Text) : LogFilter × List Text :=
  let base := (environment.bind LogFilter.parse?).getD ⟨[⟨none, s.levelOf⟩]⟩
  base.extend (s.targetFilter.getD [])

/-- The message when events cannot be logged, because something else logs them already. -/
def failure (s : LogSettings) : Text :=
  "Failed to initialize " ++ (if s.background then "async" else "sync") ++ " logging"

end LogSettings

end RouteBook
