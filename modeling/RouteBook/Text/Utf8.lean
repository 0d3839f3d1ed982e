import RouteBook.Text.Basic

/-! UTF-8. One scan cuts a byte sequence into whole characters and the stretches that belong
to none; a strict reader refuses such a stretch, a lenient one puts U+FFFD in its place. A
stretch is as long as the start of some character, so that three bytes of a broken four-byte
character count as one fault. -/

namespace RouteBook.Text.Utf8

/-- A continuation byte that carries the low six bits of `n`. -/
def tail (n : Nat) : UInt8 := UInt8.ofNat (0x80 + n % 64)

/-- The one to four bytes of a character. -/
def encodeChar (c : Char) : List UInt8 :=
  let n := c.toNat
  if n < 0x80 then [UInt8.ofNat n]
  else if n < 0x800 then [UInt8.ofNat (0xC0 + n / 64), tail n]
  else if n < 0x10000 then [UInt8.ofNat (0xE0 + n / 4096), tail (n / 64), tail n]
  else [UInt8.ofNat (0xF0 + n / 262144), tail (n / 4096), tail (n / 64), tail n]

def encode (t : Text) : List UInt8 := t.flatMap encodeChar

@[simp] theorem encode_nil : encode [] = [] := rfl

@[simp] theorem encode_cons (c : Char) (t : Text) : encode (c :: t) = encodeChar c ++ encode t :=
  rfl

theorem encode_append (s t : Text) : encode (s ++ t) = encode s ++ encode t := by
  simp [encode]

/-- The number of bytes of a text. -/
def size (t : Text) : Nat := (encode t).length

/-- The text before and after a number of bytes, if these are whole characters. -/
def splitAt? (count : Nat) : Text → Option (Text × Text)
  | [] => if count = 0 then some ([], []) else none
  | c :: rest =>
    let width := (encodeChar c).length
    if count = 0 then some ([], c :: rest)
    else if count < width then none
    else (splitAt? (count - width) rest).map fun (front, back) => (c :: front, back)

theorem eq_append_of_splitAt? {count : Nat} {t front back : Text}
    (h : splitAt? count t = some (front, back)) : t = front ++ back ∧ size front = count := by
  induction t generalizing count front with
  | nil =>
    simp only [splitAt?] at h
    split at h
    · obtain ⟨rfl, rfl⟩ := Prod.mk.inj (Option.some.inj h)
      simp_all [size]
    · contradiction
  | cons c rest ih =>
    simp only [splitAt?] at h
    split at h
    · obtain ⟨rfl, rfl⟩ := Prod.mk.inj (Option.some.inj h)
      simp_all [size]
    · split at h
      · contradiction
      · obtain ⟨⟨f, b⟩, hfb, he⟩ := Option.map_eq_some_iff.1 h
        obtain ⟨rfl, rfl⟩ := Prod.mk.inj he
        obtain ⟨rfl, hs⟩ := ih hfb
        refine ⟨rfl, ?_⟩
        simp only [size, encode_cons, List.length_append] at hs ⊢
        omega

/-- What a byte can begin: a character of that many bytes. -/
inductive Lead where
  | one | two | three | four | none

def lead (b : UInt8) : Lead :=
  if b < 0x80 then .one
  else if b < 0xC2 then .none
  else if b < 0xE0 then .two
  else if b < 0xF0 then .three
  else if b < 0xF5 then .four
  else .none

def isTail (b : UInt8) : Bool := 0x80 ≤ b && b < 0xC0

/-- Narrower than `isTail` after four leads: an overlong form, a surrogate or a number past U+10FFFF
shows in the second byte. -/
def isSecond (lead b : UInt8) : Bool :=
  if lead = 0xE0 then 0xA0 ≤ b && b < 0xC0
  else if lead = 0xED then 0x80 ≤ b && b < 0xA0
  else if lead = 0xF0 then 0x90 ≤ b && b < 0xC0
  else if lead = 0xF4 then 0x80 ≤ b && b < 0x90
  else isTail b

/-- The six bits of a continuation byte. -/
def low (b : UInt8) : Nat := b.toNat % 64

/-- Each whole character, and `none` for each stretch that is part of no character. -/
def scan : List UInt8 → List (Option Char)
  | [] => []
  | a :: rest =>
    match lead a with
    | .one => some (Char.ofNat a.toNat) :: scan rest
    | .two =>
      match rest with
      | b :: rest =>
        if isSecond a b then some (Char.ofNat (a.toNat % 32 * 64 + low b)) :: scan rest
        else none :: scan (b :: rest)
      | [] => [none]
    | .three =>
      match rest with
      | b :: rest =>
        if isSecond a b then
          match rest with
          | c :: rest =>
            if isTail c then
              some (Char.ofNat (a.toNat % 16 * 4096 + low b * 64 + low c)) :: scan rest
            else none :: scan (c :: rest)
          | [] => [none]
        else none :: scan (b :: rest)
      | [] => [none]
    | .four =>
      match rest with
      | b :: rest =>
        if isSecond a b then
          match rest with
          | c :: rest =>
            if isTail c then
              match rest with
              | d :: rest =>
                if isTail d then
                  some (Char.ofNat (a.toNat % 8 * 262144 + low b * 4096 + low c * 64 + low d))
                    :: scan rest
                else none :: scan (d :: rest)
              | [] => [none]
            else none :: scan (c :: rest)
          | [] => [none]
        else none :: scan (b :: rest)
      | [] => [none]
    | .none => none :: scan rest

/-- The text of a byte sequence that is UTF-8 throughout. -/
def decode? (bytes : List UInt8) : Option Text := (scan bytes).mapM id

/-- The text of any byte sequence, with U+FFFD for what is not UTF-8. -/
def decodeLossy (bytes : List UInt8) : Text := (scan bytes).map (·.getD '\uFFFD')

end RouteBook.Text.Utf8
