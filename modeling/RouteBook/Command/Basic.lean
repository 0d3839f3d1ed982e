import RouteBook.Command.Arguments

/-! The commands: to check a manifest, to route a request with it, and to validate a collection. -/

namespace RouteBook

inductive Command where
  | check (manifest : Option Text)
  | route (manifest : Option Text) (method target : Text) (host : Option Text)
  | validate (min max : Option Nat) (unique : Bool) (path : Text) (items : List Text)
  deriving DecidableEq

namespace Command

/-- The names of the commands. -/
inductive Name where
  | check
  | route
  | validate
  deriving DecidableEq

def Name.text : Name → Text
  | check => "check"
  | route => "route"
  | validate => "validate"

def Name.ofText? (t : Text) : Option Name :=
  [check, route, validate].find? fun name => name.text == t

def manifestOption : OptionSpec := ⟨"manifest", some 'm', .path⟩

def Name.grammar : Name → Grammar
  | check => ⟨[manifestOption], 0, some 0⟩
  | route => ⟨[manifestOption, ⟨"host", none, .text⟩], 2, some 2⟩
  | validate =>
    ⟨[⟨"min", none, .number⟩, ⟨"max", none, .number⟩, ⟨"unique", none, .flag⟩,
      ⟨"path", none, .text⟩], 0, none⟩

/-- The path that a report names unless another is given. -/
def defaultPath : Text := "/items"

/-- The command of a name with its arguments. -/
def Name.command (name : Name) (a : Arguments) : Command :=
  match name with
  | check => .check (a.value? "manifest")
  | route =>
    .route (a.value? "manifest") (a.operands.getD 0 []) (a.operands.getD 1 []) (a.value? "host")
  | validate =>
    .validate (a.number? "min") (a.number? "max") (a.isGiven "unique")
      ((a.value? "path").getD defaultPath) a.operands

/-- Help on the commands or on one of them. -/
def helpOn : List Text → UsageError
  | [] => .help
  | [name] => if name = "help" ∨ (Name.ofText? name).isSome then .help else .invalidCommand
  | _ => .invalidCommand

/-- What a double dash in the place of the command leads to. -/
def afterDashes : List Text → UsageError
  | [] => .helpForMissingCommand
  | name :: _ =>
    if name = "help" ∨ (Name.ofText? name).isSome then .unknownArgument else .invalidCommand

/-- An option in the place of the command. -/
def leadingOption (t : Text) : UsageError :=
  let (name, attached) := splitLong t
  if name = "help" then if attached.isSome then .surplusValue else .help
  else if name = "version" then if attached.isSome then .surplusValue else .version
  else .unknownArgument

/-- A letter in the place of the command. -/
def leadingLetter (letter : Char) : UsageError :=
  if letter = 'h' then .help else if letter = 'V' then .version else .unknownArgument

/-- The command that the arguments ask for. -/
def ofArguments : List Text → Except UsageError Command
  | [] => .error .helpForMissingCommand
  | first :: rest =>
    match Name.ofText? first with
    | some name => (arguments name.grammar rest).map name.command
    | none =>
      if first = "help" then .error (helpOn rest)
      else
        match first with
        | ['-', '-'] => .error (afterDashes rest)
        | '-' :: '-' :: name => .error (leadingOption name)
        | '-' :: letter :: _ => .error (leadingLetter letter)
        | _ => .error .invalidCommand

end Command

end RouteBook
