import RouteBook.Text.Numeral
import RouteBook.Text.Utf8

/-! Percent-escapes. The strict reading, of a path segment or of a parameter, fails at an escape
that two hexadecimal digits do not complete and at bytes that are not UTF-8. The lenient reading of
the bytes keeps a broken escape as it stands; where every escape is complete the two agree. -/

namespace RouteBook.Text

namespace Percent

/-- The byte that two hexadecimal digits denote. -/
def byte? (high low : Char) : Option UInt8 := do
  let h ← Numeral.digit? 16 high
  let l ← Numeral.digit? 16 low
  return UInt8.ofNat (16 * h + l)

/-- The bytes a text stands for, if every `%` begins an escape. -/
def bytes? : Text → Option (List UInt8)
  | [] => some []
  | c :: rest =>
    if c = '%' then
      match rest with
      | high :: low :: rest => (byte? high low).bind fun b => (bytes? rest).map (b :: ·)
      | _ => none
    else (bytes? rest).map (Utf8.encodeChar c ++ ·)

/-- The bytes a text stands for; a `%` that begins no escape stands for itself. -/
def bytesLenient : Text → List UInt8
  | [] => []
  | c :: rest =>
    if c = '%' then
      match rest with
      | high :: low :: rest =>
        match byte? high low with
        | some b => b :: bytesLenient rest
        | none => 0x25 :: bytesLenient (high :: low :: rest)
      | [c] => 0x25 :: bytesLenient [c]
      | [] => [0x25]
    else Utf8.encodeChar c ++ bytesLenient rest

theorem bytesLenient_of_bytes? {t : Text} {bytes : List UInt8} (h : bytes? t = some bytes) :
    bytesLenient t = bytes := by
  fun_induction bytes? t generalizing bytes with
  | case1 => simpa [bytesLenient] using h
  | case2 high low rest ih =>
    obtain ⟨b, hb, h⟩ := Option.bind_eq_some_iff.1 h
    obtain ⟨bs, hbs, rfl⟩ := Option.map_eq_some_iff.1 h
    simp [bytesLenient, hb, ih hbs]
  | case3 => nomatch h
  | case4 c rest hc ih =>
    obtain ⟨bs, hbs, rfl⟩ := Option.map_eq_some_iff.1 h
    rw [bytesLenient.eq_def]
    simp [hc, ih hbs]

/-- The text that an escaped text stands for. -/
def decode? (t : Text) : Option Text := (bytes? t).bind Utf8.decode?

/-- The empty text stands for nothing but itself. -/
theorem ne_nil_of_decode? {s t : Text} (h : decode? s = some t) (ht : t ≠ []) : s ≠ [] := by
  rintro rfl
  exact ht (Option.some.inj h).symm

end Percent

/-! ## Forms

Form-encoded text: pairs between ampersands, an equals sign between key and value, a plus sign for a
space. What a route requires is read leniently, so no text is refused; what a request sends is read
strictly. -/

namespace Form

/-- A plus sign stands for a space. An escaped plus sign is not affected, so this comes first. -/
def spaced (t : Text) : Text := t.map fun c => if c = '+' then ' ' else c

/-- A key or value under the strict reading. -/
def decode? (t : Text) : Option Text := Percent.decode? (spaced t)

/-- A key or value under the lenient reading. -/
def decodeLenient (t : Text) : Text := Utf8.decodeLossy (Percent.bytesLenient (spaced t))

/-- The pieces between ampersands; empty pieces say nothing. -/
def pieces (t : Text) : List Text := (Text.split '&' t).filter (· ≠ [])

/-- The pairs under the lenient reading; a missing value is an empty one. -/
def pairs (t : Text) : List (Text × Text) :=
  (pieces t).map fun piece =>
    match Text.cut? '=' piece with
    | some (key, value) => (decodeLenient key, decodeLenient value)
    | none => (decodeLenient piece, [])

end Form

end RouteBook.Text
