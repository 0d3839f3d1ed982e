import RouteBook.Text.Numeral

/-! Bare scalars of TOML: integers, floats, truth values, dates and times. -/

namespace RouteBook.Document.Toml

/-- Digits of a base, with underscores allowed between two of them. -/
def isDigits (base : Nat) : Text → Bool
  | [] => false
  | [c] => (Text.Numeral.digit? base c).isSome
  | c :: '_' :: rest => (Text.Numeral.digit? base c).isSome && isDigits base rest
  | c :: rest => (Text.Numeral.digit? base c).isSome && isDigits base rest

def unsigned (t : Text) : Text :=
  match t with
  | '+' :: rest | '-' :: rest => rest
  | _ => t

/-- Decimal digits without a zero in front of others. -/
def isWhole (t : Text) : Bool := isDigits 10 t && (t.length == 1 || t.head? != some '0')

/-- The number that digits denote. -/
def digits? (base : Nat) (t : Text) : Option Nat :=
  if isDigits base t then Text.Numeral.ofDigits? base (t.filter (· != '_')) else none

/-- The integer a text spells, whatever its size. -/
def integer? (t : Text) : Option Int :=
  match t with
  | '0' :: 'x' :: rest => (digits? 16 rest).map Int.ofNat
  | '0' :: 'o' :: rest => (digits? 8 rest).map Int.ofNat
  | '0' :: 'b' :: rest => (digits? 2 rest).map Int.ofNat
  | '-' :: rest => if isWhole rest then (digits? 10 rest).map fun n => -Int.ofNat n else none
  | _ => if isWhole (unsigned t) then (digits? 10 (unsigned t)).map Int.ofNat else none

/-- A number with a whole part followed by a fraction, a power of ten, or both: its digits as one
integer, and the power of ten that these are multiplied by. -/
def scientific? (t : Text) : Option (Nat × Int) := do
  let t := Text.asciiLower (unsigned t)
  let (mantissa, power) ← match Text.cut? 'e' t with
    | some (mantissa, power) => do
      let digits ← digits? 10 (unsigned power)
      let power := if power.head? = some '-' then -Int.ofNat digits else Int.ofNat digits
      some (mantissa, some power)
    | none => some (t, none)
  match Text.cut? '.' mantissa with
  | some (whole, fraction) => do
    let places := (fraction.filter (· != '_')).length
    let _ ← digits? 10 fraction
    let n ← if isWhole whole then digits? 10 (whole ++ fraction) else none
    return (n, power.getD 0 - places)
  | none => do
    let n ← if isWhole mantissa then digits? 10 mantissa else none
    return (n, ← power)

def isFloat (t : Text) : Bool :=
  let special := unsigned t
  special == "inf" || special == "nan" || (scientific? t).isSome

/-- The shape of a text, with every digit as a nine. -/
def shape (t : Text) : Text := t.map fun c => if c.isDigit then '9' else c

/-- A date, a time or both. A time may leave out the seconds. -/
def isMoment (t : Text) : Bool :=
  let isTime (t : Text) : Bool :=
    t == "99:99"
      || match Text.after? "99:99:99" t with
        | some [] => true
        | some ('.' :: fraction) => !fraction.isEmpty && fraction.all (· == '9')
        | _ => false
  let isOffset (t : Text) : Bool := t == "Z" || t == "z" || t == "+99:99" || t == "-99:99"
  let isZoned (t : Text) : Bool :=
    let time := t.takeWhile fun c => c == '9' || c == ':' || c == '.'
    let offset := t.dropWhile fun c => c == '9' || c == ':' || c == '.'
    isTime time && (offset.isEmpty || isOffset offset)
  let t := shape t
  isTime t
    || match Text.after? "9999-99-99" t with
      | some [] => true
      | some (c :: rest) => (c == 'T' || c == 't') && isZoned rest
      | none => false

def isBareChar (c : Char) : Bool :=
  c.isAlphanum || c = '_' || c = '-' || c = '+' || c = '.' || c = ':'

def isBareValue (t : Text) : Bool :=
  t == "true" || t == "false" || (integer? t).isSome || isFloat t || isMoment t

/-- From here on a number rounds to no float of 64 bits. -/
def floatLimit : Nat := Nat.pow 2 1024 - Nat.pow 2 970

/-- Whether `n` times a power of ten is below the limit. Its digits tell, unless it has
as many as the limit. -/
def fitsFloat (n : Nat) (power : Int) : Bool :=
  let places := (Text.Numeral.decimal n).length + power
  n = 0 || places < 309
    || (places = 309 && n * Nat.pow 10 power.toNat < floatLimit * Nat.pow 10 (-power).toNat)

/-- Whether there is a value for a bare scalar: an integer of 128 bits or a float of 64. A number of
any size may be written, but only such a one may be looked at. -/
def isRepresentable (t : Text) : Bool :=
  match integer? t, scientific? t with
  | some n, _ => -Int.pow 2 127 ≤ n && n < Int.pow 2 128
  | none, some (n, power) => fitsFloat n power
  | none, none => true

end RouteBook.Document.Toml
