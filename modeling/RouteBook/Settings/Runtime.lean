import RouteBook.Text.Numeral

/-! Settings for a run, read from variables. A value that makes no sense is as good as
none. The threshold is a duration in microseconds, shown in the largest unit that has a
part before the point. -/

namespace RouteBook

structure Duration where
  micros : Nat
  deriving DecidableEq

namespace Duration

/-- `micros` as a number of units of `scale` microseconds: a part before the point, and after it as
many digits as are needed. -/
def inUnits (micros scale places : Nat) : Text :=
  let fraction := (Text.Numeral.decimal (micros % scale)).leftpad places '0'
  let shown := (fraction.reverse.dropWhile (· == '0')).reverse
  Text.Numeral.decimal (micros / scale) ++ if shown = [] then [] else '.' :: shown

/-- The text of a duration: seconds, milliseconds or microseconds; none of them has a part of zero,
so an empty duration is given in nanoseconds. -/
def text (d : Duration) : Text :=
  if 1000000 ≤ d.micros then inUnits d.micros 1000000 6 ++ "s"
  else if 1000 ≤ d.micros then inUnits d.micros 1000 3 ++ "ms"
  else if 0 < d.micros then Text.Numeral.decimal d.micros ++ "µs"
  else "0ns"

end Duration

/-- The value of a variable, if it is set. -/
abbrev Lookup := Text → Option Text

namespace Lookup

/-- The value of a variable, unless it is blank. -/
def filled? (lookup : Lookup) (name : Text) : Option Text :=
  (lookup name).filter fun value => Text.trim value ≠ []

end Lookup

structure RuntimeSettings where
  slowMatch : Duration
  manifestPath : Option Text
  deriving DecidableEq

namespace RuntimeSettings

def defaultSlowMicros : Nat := 1000

/-- A number in decimal, or in hexadecimal after `0x`, with blanks around it. -/
def number? (value : Text) : Option Nat :=
  match Text.trim value with
  | '0' :: 'x' :: digits | '0' :: 'X' :: digits => Text.Numeral.word? 16 digits
  | digits => Text.Numeral.word? 10 digits

def ofLookup (lookup : Lookup) : RuntimeSettings where
  slowMatch := ⟨((lookup "SHAPEGATE_SLOW_MATCH_US").bind number?).getD defaultSlowMicros⟩
  manifestPath := lookup.filled? "SHAPEGATE_MANIFEST"

end RuntimeSettings

end RouteBook
