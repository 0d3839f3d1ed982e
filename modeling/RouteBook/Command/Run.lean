import RouteBook.Command.Basic
import RouteBook.Constraint.Report
import RouteBook.Constraint.Validation
import RouteBook.Manifest.Decode
import RouteBook.Settings.Runtime
import RouteBook.Table.Resolve

/-! What a command does: it writes a text and tells whether all is well. Files are read through a
function, so that a run depends on nothing else. -/

namespace RouteBook.Command

inductive Status where
  | success
  | failed
  deriving DecidableEq

def Status.exitCode : Status → Nat
  | success => 0
  | failed => 1

/-- How a run ends that does its work, and what it wrote. -/
structure Outcome where
  status : Status
  output : Text
  deriving DecidableEq

/-- Why a command could not do its work. -/
inductive RunError where
  | noManifest
  | manifest (cause : ManifestError)
  | invalidMethod (text : Text)
  | invertedBounds (min max : Nat)
  | unexplained
  deriving DecidableEq

/-- The messages from the widest view of the error to its cause. -/
def RunError.chain : RunError → List Text
  | noManifest => ["no manifest given: pass --manifest or set SHAPEGATE_MANIFEST"]
  | manifest cause => cause.chain
  | invalidMethod text => [ManifestError.invalidMethodText text]
  | invertedBounds min max =>
    ["--min (" ++ Text.Numeral.decimal min ++ ") must not exceed --max ("
      ++ Text.Numeral.decimal max ++ ")"]
  | unexplained => ["validation failed without reporting a violation"]

/-- Why a run ends early, and what it had written by then. -/
structure Failure where
  cause : RunError
  output : Text
  deriving DecidableEq

def Failure.chain (f : Failure) : List Text := f.cause.chain

/-- A command writes while it runs. What it has written stays, also when it fails after that. -/
abbrev Session := ExceptT RunError (StateM Text)

def writeLine (t : Text) : Session Unit := modify fun written => written ++ t ++ ['\n']

/-- Runs a session that has written nothing yet. -/
def Session.outcome (s : Session Status) : Except Failure Outcome :=
  match (ExceptT.run s).run [] with
  | (.ok status, output) => .ok ⟨status, output⟩
  | (.error cause, output) => .error ⟨cause, output⟩

/-- What a file holds, if it can be read. -/
abbrev Files := Text → Option (List UInt8)

/-- The path of the manifest; an option goes before the settings. -/
def manifestPath (explicit : Option Text) (settings : RuntimeSettings) : Except RunError Text :=
  match explicit <|> settings.manifestPath with
  | some path => .ok path
  | none => .error .noManifest

def loadTable (files : Files) (settings : RuntimeSettings) (path : Text) :
    Except RunError (RouteTable Text) :=
  (Manifest.loadTable path (files path) settings.slowMatch).mapError .manifest

/-- The routes are listed one a line, each with its number and its operation. -/
def runCheck (files : Files) (settings : RuntimeSettings) (manifest : Option Text) :
    Session Status := do
  let path ← manifestPath manifest settings
  let table ← loadTable files settings path
  writeLine (path ++ ": " ++ Text.Numeral.decimal table.routes.length ++ " routes")
  table.routes.zipIdx.forM fun (r, index) =>
    writeLine ((Text.Numeral.decimal index).leftpad 4 ' ' ++ "  " ++ r.pattern.text ++ "  -> "
      ++ r.handler)
  return .success

/-- What is written about a routed request. -/
def writeResolution : Resolution Text → Session Status
  | .matched m => do
    writeLine m.handler
    m.labels.zipIdx.forM fun (value, index) =>
      writeLine ("  label[" ++ Text.Numeral.decimal index ++ "] = " ++ value)
    return .success
  | .methodNotAllowed allowed => do
    let methods := Text.join ", " (allowed.map Method.text)
    writeLine ("405 Method Not Allowed (allowed: " ++ methods ++ ")")
    return .failed
  | .notFound => do
    writeLine "404 Not Found"
    return .failed

def runRoute (files : Files) (settings : RuntimeSettings) (manifest : Option Text)
    (method target : Text) (host : Option Text) : Session Status := do
  let path ← manifestPath manifest settings
  let table ← loadTable files settings path
  let some method := Method.ofSpelling? method | throw (.invalidMethod method)
  writeResolution (table.resolve ((Request.ofTarget method target).withHost host))

/-- The bound that two optional ends make. -/
def boundOf (min max : Option Nat) : Except RunError (Option Constraint.LengthBound) :=
  match min, max with
  | some min, some max =>
    ((Constraint.LengthBound.between? min max).map some).mapError fun
      | .inverted => .invertedBounds min max
  | some min, none => .ok (some (.atLeast min))
  | none, some max => .ok (some (.atMost max))
  | none, none => .ok none

/-- A valid collection is counted; for any other the report is written as JSON. -/
def writeValidation (path : Text) :
    Except (List (Constraint.Violation Text)) (List Text) → Session Status
  | .ok items => do
    writeLine ("valid: " ++ Text.Numeral.decimal items.length ++ " items")
    return .success
  | .error violations => do
    let some report := Constraint.Report.ofViolations violations path | throw .unexplained
    writeLine (Document.Json.pretty report.node)
    return .failed

def runValidate (min max : Option Nat) (unique : Bool) (path : Text) (items : List Text) :
    Session Status := do
  let length ← boundOf min max
  writeValidation path ((Constraints.mk length unique).validate items)

def session (files : Files) (settings : RuntimeSettings) : Command → Session Status
  | .check manifest => runCheck files settings manifest
  | .route manifest method target host => runRoute files settings manifest method target host
  | .validate min max unique path items => runValidate min max unique path items

def run (files : Files) (settings : RuntimeSettings) (c : Command) : Except Failure Outcome :=
  (session files settings c).outcome

end RouteBook.Command
