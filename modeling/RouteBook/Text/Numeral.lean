import RouteBook.Text.Basic

/-! Numbers as digits. A number that is read is a natural number; a caller that has room for a
machine word only asks for `word?`, which refuses a larger number and never keeps a part of it. -/

namespace RouteBook.Text

namespace Numeral

/-- The value of a digit; letters of either case follow the nine. -/
def digit? (base : Nat) (c : Char) : Option Nat :=
  let value :=
    if '0' ≤ c ∧ c ≤ '9' then some (c.toNat - 48)
    else if 'a' ≤ c ∧ c ≤ 'z' then some (c.toNat - 87)
    else if 'A' ≤ c ∧ c ≤ 'Z' then some (c.toNat - 55)
    else none
  value.filter (· < base)

theorem digit?_lt {base d : Nat} {c : Char} (h : digit? base c = some d) : d < base := by
  simpa using (Option.filter_eq_some_iff.1 h).2

/-- `acc` with the digits of the text written after it. -/
def extend? (base acc : Nat) : Text → Option Nat
  | [] => some acc
  | c :: rest => (digit? base c).bind fun d => extend? base (acc * base + d) rest

/-- The number that one or more digits denote. -/
def ofDigits? (base : Nat) : Text → Option Nat
  | [] => none
  | t => extend? base 0 t

/-- One past the largest machine word. -/
def wordSize : Nat := Nat.pow 2 64

/-- A machine word: digits, with one plus sign allowed before them. -/
def word? (base : Nat) (t : Text) : Option Nat :=
  let digits := match t with
    | '+' :: rest => rest
    | _ => t
  (ofDigits? base digits).filter (· < wordSize)

/-- The decimal digits of a number. -/
def decimal (n : Nat) : Text := Nat.toDigits 10 n

/-- The lower-case hexadecimal digits of a number, with zeros in front up to `width`. -/
def hexadecimal (width n : Nat) : Text := (Nat.toDigits 16 n).leftpad width '0'

/-- The character that hexadecimal digits number. A surrogate is no character. -/
def char? (digits : Text) : Option Char :=
  (ofDigits? 16 digits).bind fun n =>
    if n < 0xD800 ∨ (0xE000 ≤ n ∧ n < 0x110000) then some (Char.ofNat n) else none

end Numeral

/-! ## Escapes that begin with a backslash

Formats agree on those that give the number of a character and differ in those of one letter. -/

/-- The character of an escape, from what follows the backslash, and how many characters the escape
takes from there on. An `x`, a `u` and a `U` stand before two, four and eight hexadecimal digits. -/
def escaped? (ofLetter? : Char → Option Char) : Text → Option (Char × Nat)
  | 'x' :: a :: b :: _ => (Numeral.char? [a, b]).map (·, 3)
  | 'u' :: a :: b :: c :: d :: _ => (Numeral.char? [a, b, c, d]).map (·, 5)
  | 'U' :: a :: b :: c :: d :: e :: f :: g :: h :: _ =>
    (Numeral.char? [a, b, c, d, e, f, g, h]).map (·, 9)
  | letter :: _ => (ofLetter? letter).map (·, 1)
  | [] => none

end RouteBook.Text
