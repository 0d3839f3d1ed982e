import RouteBook.Text.Numeral

/-! Options and operands of a command. The value of an option is checked when the next option or
operand is known to be good, so a fault of the next argument can come first. -/

namespace RouteBook.Command

/-- Why a command line is not carried out. Asking for help or for the version is one of the
reasons. -/
inductive UsageError where
  | help
  | version
  | helpForMissingCommand
  | invalidCommand
  | unknownArgument
  | missingArgument
  | invalidValue
  | malformedValue
  | conflict
  | surplusValue
  deriving DecidableEq

/-- What an option takes: nothing, any text, the path of a file, or a machine word. -/
inductive ValueKind where
  | flag
  | text
  | path
  | number
  deriving DecidableEq

structure OptionSpec where
  long : Text
  short : Option Char
  kind : ValueKind
  deriving DecidableEq

/-- The options of a command and how many operands it takes. -/
structure Grammar where
  options : List OptionSpec
  required : Nat
  limit : Option Nat

/-- An option with the value given to it. -/
structure Given where
  option : OptionSpec
  value : Text

/-- An option that is not checked yet; it may still be without its value. -/
structure Pending where
  option : OptionSpec
  value : Option Text

structure Arguments where
  given : List Given
  operands : List Text
  pending : Option Pending

namespace Arguments

def empty : Arguments := ⟨[], [], none⟩

/-- The value given to an option, by its long name. -/
def value? (a : Arguments) (long : Text) : Option Text :=
  (a.given.find? fun given => given.option.long == long).map (·.value)

def isGiven (a : Arguments) (long : Text) : Bool := (a.value? long).isSome

/-- The number given to an option. -/
def number? (a : Arguments) (long : Text) : Option Nat :=
  (a.value? long).bind (Text.Numeral.word? 10)

/-- Takes an option with its value. -/
def give (a : Arguments) (option : OptionSpec) (value : Text) : Except UsageError Arguments :=
  if a.isGiven option.long then .error .conflict
  else if option.kind = .path ∧ value = [] then .error .invalidValue
  else if option.kind = .number ∧ (Text.Numeral.word? 10 value).isNone then .error .malformedValue
  else .ok { a with given := a.given ++ [⟨option, value⟩] }

/-- Takes the option that is pending. -/
def settle (a : Arguments) : Except UsageError Arguments :=
  match a.pending with
  | none => .ok a
  | some ⟨_, none⟩ => .error .invalidValue
  | some ⟨option, some value⟩ => give { a with pending := none } option value

/-- Takes an option; `attached` is the value that stands in the same argument. -/
def meet (a : Arguments) (option : OptionSpec) (attached : Option Text) :
    Except UsageError Arguments := do
  let a ← a.settle
  match attached with
  | some value => a.give option value
  | none =>
    if option.kind = .flag then a.give option []
    else return { a with pending := some ⟨option, none⟩ }

/-- Takes an operand, if the command has room for it. -/
def operand (a : Arguments) (limit : Option Nat) (t : Text) : Except UsageError Arguments := do
  if limit.any (· ≤ a.operands.length) then throw .unknownArgument
  let a ← a.settle
  return { a with operands := a.operands ++ [t] }

/-- A text that is no option: the value that an option waits for, or an operand. -/
def plain (a : Arguments) (limit : Option Nat) (t : Text) : Except UsageError Arguments :=
  match a.pending with
  | some ⟨option, none⟩ => .ok { a with pending := some ⟨option, some t⟩ }
  | _ => a.operand limit t

end Arguments

/-- A name and, after an equals sign, a value. -/
def splitLong (t : Text) : Text × Option Text :=
  match Text.cut? '=' t with
  | some (name, value) => (name, some value)
  | none => (t, none)

/-- Takes an option by its long name. -/
def longOption (g : Grammar) (a : Arguments) (t : Text) : Except UsageError Arguments := do
  let (name, attached) := splitLong t
  if name = "help" then
    if attached.isSome then throw .surplusValue
    let _ ← a.settle
    throw .help
  match g.options.find? fun option => option.long == name with
  | none => throw .unknownArgument
  | some option =>
    if option.kind = .flag ∧ attached.isSome then throw .surplusValue
    a.meet option attached

/-- Takes an option by its letter; a value may follow it, with or without an equals sign. -/
def shortOption (g : Grammar) (a : Arguments) (letter : Char) (rest : Text) :
    Except UsageError Arguments := do
  if letter = 'h' then
    let _ ← a.settle
    throw .help
  match g.options.find? fun option => option.short == some letter with
  | none => throw .unknownArgument
  | some option =>
    let attached := match rest with
      | [] => none
      | '=' :: value => some value
      | value => some value
    a.meet option attached

/-- Takes one argument after another. After a double dash there are operands only. -/
def takeAll (g : Grammar) (a : Arguments) (operandsOnly : Bool) :
    List Text → Except UsageError Arguments
  | [] => a.settle
  | t :: rest =>
    if operandsOnly then do
      let a ← a.operand g.limit t
      takeAll g a true rest
    else
      match t with
      | ['-', '-'] => takeAll g a true rest
      | '-' :: '-' :: name => do
        let a ← longOption g a name
        takeAll g a false rest
      | '-' :: letter :: value => do
        let a ← shortOption g a letter value
        takeAll g a false rest
      | _ => do
        let a ← a.plain g.limit t
        takeAll g a false rest

/-- The options and operands of a command. -/
def arguments (g : Grammar) (args : List Text) : Except UsageError Arguments := do
  let a ← takeAll g .empty false args
  if a.operands.length < g.required then throw .missingArgument
  return a

end RouteBook.Command
