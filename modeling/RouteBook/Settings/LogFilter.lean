import RouteBook.Text.Numeral
import RouteBook.Text.Utf8

/-! Which events are logged: a level for all targets, and levels for single targets. -/

namespace RouteBook

inductive LogLevel where
  | trace
  | debug
  | info
  | warn
  | error
  | off
  deriving DecidableEq

namespace LogLevel

def text : LogLevel → Text
  | trace => "trace"
  | debug => "debug"
  | info => "info"
  | warn => "warn"
  | error => "error"
  | off => "off"

/-- All levels in the order of their numbers. -/
def all : List LogLevel := [off, error, warn, info, debug, trace]

/-- The level of a name in any case. -/
def ofName? (t : Text) : Option LogLevel := all.find? fun level => level.text == Text.asciiLower t

/-- The level of a number or of a name in any case. -/
def ofText? (t : Text) : Option LogLevel :=
  match Text.Numeral.word? 10 t with
  | some n => all[n]?
  | none => ofName? t

end LogLevel

/-- The level of a target, or of every target that no other directive names. -/
structure LogDirective where
  target : Option Text
  level : LogLevel
  deriving DecidableEq

namespace LogDirective

/-- Whether a directive can begin with this character. -/
def startsDirective (c : Char) : Bool :=
  c.isAlphanum || c = '_' || c = ':' || c = '-' || 0x80 ≤ c.toNat

/-- A target and its level, from a text whose equals sign has so many bytes before it. No level at
all lets everything through. -/
def atSign? (t : Text) (bytes : Nat) : Option LogDirective := do
  let (target, rest) ← Text.Utf8.splitAt? bytes t
  let (_, level) ← Text.Utf8.splitAt? 1 rest
  let level ← if level = [] then some .trace else LogLevel.ofText? level
  return ⟨some target, level⟩

/-- A level, a target with its level, or a target alone, of which everything is logged. Blanks
around the text are left out to find the equals sign, yet the text is cut with them in it, that many
bytes from its front. What has brackets is refused. -/
def parse? (t : Text) : Option LogDirective :=
  let trimmed := Text.trim t
  if trimmed.head?.any startsDirective && !trimmed.contains '[' then
    match Text.cut? '=' trimmed with
    | some (target, _) => atSign? t (Text.Utf8.size target)
    | none =>
      match LogLevel.ofText? t with
      | some level => some ⟨none, level⟩
      | none => some ⟨some t, .trace⟩
  else none

def text (d : LogDirective) : Text :=
  match d.target with
  | some target => target ++ '=' :: d.level.text
  | none => d.level.text

/-- The order in which directives are written: targets of more bytes first, then the greater text;
what has no target comes last. -/
def le (a b : LogDirective) : Bool :=
  match a.target, b.target with
  | _, none => true
  | none, some _ => false
  | some s, some t =>
    let m := Text.Utf8.size s
    let n := Text.Utf8.size t
    n < m || (m == n && Text.le t s)

end LogDirective

/-- Directives with different targets. -/
structure LogFilter where
  directives : List LogDirective
  deriving DecidableEq

namespace LogFilter

/-- A directive takes the place of an earlier one with its target. -/
def add (f : LogFilter) (d : LogDirective) : LogFilter :=
  ⟨f.directives.filter (·.target ≠ d.target) ++ [d]⟩

def ofDirectives (ds : List LogDirective) : LogFilter := ds.foldl add ⟨[]⟩

/-- The pieces between commas that are not empty. -/
def pieces (t : Text) : List Text := (Text.split ',' t).filter (· ≠ [])

/-- The filter of a text, if all of it makes sense. -/
def parse? (t : Text) : Option LogFilter := ((pieces t).mapM LogDirective.parse?).map ofDirectives

/-- The filter with the directives of a text, and the pieces that are none. Blanks
around pieces say nothing. -/
def extend (f : LogFilter) (t : Text) : LogFilter × List Text :=
  let trimmed := ((Text.split ',' t).map Text.trim).filter (· ≠ [])
  ((trimmed.filterMap LogDirective.parse?).foldl add f,
    trimmed.filter fun piece => (LogDirective.parse? piece).isNone)

def text (f : LogFilter) : Text :=
  Text.join [','] ((f.directives.mergeSort LogDirective.le).map LogDirective.text)

end LogFilter

end RouteBook
