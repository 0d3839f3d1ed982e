import RouteBook.Text.Percent
import RouteBook.Text.Utf8.Lemmas

/-! The ways to write a text with escapes. Any character may be escaped, with all of its bytes and
with digits of either case, and some may also stand for themselves; the strict reader takes every
spelling back to the text. `encode` is the spelling that keeps only the unreserved characters. -/

namespace RouteBook.Text.Percent

/-- The text is one escape for each of the bytes. -/
inductive Escapes : List UInt8 → Text → Prop where
  | nil : Escapes [] []
  | cons {high low : Char} {b : UInt8} {bytes : List UInt8} {t : Text} :
    byte? high low = some b → Escapes bytes t → Escapes (b :: bytes) ('%' :: high :: low :: t)

/-- The first text is a spelling of the second; `kept` says which characters may
stand for themselves. -/
inductive Spelling (kept : Char → Prop) : Text → Text → Prop where
  | nil : Spelling kept [] []
  | kept {c : Char} {s t : Text} : kept c → Spelling kept s t → Spelling kept (c :: s) (c :: t)
  | escaped {c : Char} {e s t : Text} :
    Escapes (Utf8.encodeChar c) e → Spelling kept s t → Spelling kept (e ++ s) (c :: t)

/-- A text spells itself if all its characters may. -/
theorem Spelling.refl {kept : Char → Prop} {t : Text} (h : ∀ c ∈ t, kept c) :
    Spelling kept t t := by
  induction t with
  | nil => exact .nil
  | cons c t ih =>
    obtain ⟨hc, ht⟩ := List.forall_mem_cons.mp h
    exact .kept hc (ih ht)

theorem bytes?_escapes_append {bytes : List UInt8} {e : Text} (h : Escapes bytes e) (rest : Text) :
    bytes? (e ++ rest) = (bytes? rest).map (bytes ++ ·) := by
  induction h with
  | nil => simp
  | cons hb _ ih => simp [bytes?, hb, ih, Function.comp_def]

theorem bytes?_of_spelling {kept : Char → Prop} (hk : ∀ c, kept c → c ≠ '%') {s t : Text}
    (h : Spelling kept s t) : bytes? s = some (Utf8.encode t) := by
  induction h with
  | nil => rfl
  | kept hc _ ih =>
    rw [bytes?.eq_def]
    simp [hk _ hc, ih]
  | escaped he _ ih =>
    rw [bytes?_escapes_append he, ih]
    rfl

/-- Whatever the spelling, the strict reader finds the text. -/
theorem decode?_of_spelling {kept : Char → Prop} (hk : ∀ c, kept c → c ≠ '%') {s t : Text}
    (h : Spelling kept s t) : decode? s = some t := by
  rw [decode?, bytes?_of_spelling hk h]
  exact Utf8.decode?_encode t

/-- An escape is a percent sign and hexadecimal digits. -/
theorem mem_escapes {bytes : List UInt8} {e : Text} (h : Escapes bytes e) {c : Char} (hc : c ∈ e) :
    c = '%' ∨ (Numeral.digit? 16 c).isSome = true := by
  induction h with
  | nil => cases hc
  | cons hb _ ih =>
    obtain ⟨hd, hhigh, hb⟩ := Option.bind_eq_some_iff.mp hb
    obtain ⟨ld, hlow, _⟩ := Option.bind_eq_some_iff.mp hb
    simp only [List.mem_cons] at hc
    rcases hc with rfl | rfl | rfl | hc
    · exact .inl rfl
    · exact .inr (hhigh ▸ rfl)
    · exact .inr (hlow ▸ rfl)
    · exact ih hc

theorem Spelling.mono {kept kept' : Char → Prop} (hk : ∀ c, kept c → kept' c) {s t : Text}
    (h : Spelling kept s t) : Spelling kept' s t := by
  induction h with
  | nil => exact .nil
  | kept hc _ ih => exact .kept (hk _ hc) ih
  | escaped he _ ih => exact .escaped he ih

/-- What a spelling is made of. -/
theorem mem_spelling {kept : Char → Prop} {s t : Text} (h : Spelling kept s t) {c : Char}
    (hc : c ∈ s) :
    kept c ∨ c = '%' ∨ (Numeral.digit? 16 c).isSome = true := by
  induction h with
  | nil => cases hc
  | kept hk _ ih =>
    rcases List.mem_cons.mp hc with rfl | hc
    · exact .inl hk
    · exact ih hc
  | escaped he _ ih =>
    rcases List.mem_append.mp hc with hc | hc
    · exact .inr (mem_escapes he hc)
    · exact ih hc

/-- An upper-case hexadecimal digit. -/
def digit (n : Nat) : Char := Char.ofNat (if n < 10 then 48 + n else 55 + n)

/-- The escape of a byte. -/
def escape (b : UInt8) : Text := ['%', digit (b.toNat / 16), digit (b.toNat % 16)]

/-- A letter, a digit or one of the four marks that no part of a uri gives a meaning. -/
def isUnreserved (c : Char) : Bool := c.isAlphanum || "-._~".toList.contains c

/-- The text with every character escaped that is not unreserved. -/
def encode (t : Text) : Text :=
  t.flatMap fun c => if isUnreserved c then [c] else (Utf8.encodeChar c).flatMap escape

theorem digit?_digit {n : Nat} (h : n < 16) : Numeral.digit? 16 (digit n) = some n := by
  revert n
  decide

theorem byte?_digit (b : UInt8) : byte? (digit (b.toNat / 16)) (digit (b.toNat % 16)) = some b := by
  have hb := b.toNat_lt
  rw [byte?, digit?_digit (by omega), digit?_digit (by omega)]
  simp only [bind, Option.bind, pure]
  rw [Nat.div_add_mod, UInt8.ofNat_toNat]

theorem escapes_flatMap (bytes : List UInt8) : Escapes bytes (bytes.flatMap escape) := by
  induction bytes with
  | nil => exact .nil
  | cons b bytes ih => exact .cons (byte?_digit b) ih

theorem spelling_encode (t : Text) : Spelling (fun c => isUnreserved c = true) (encode t) t := by
  induction t with
  | nil => exact .nil
  | cons c t ih =>
    rw [encode, List.flatMap_cons]
    split
    · next h => exact .kept h ih
    · exact .escaped (escapes_flatMap _) ih

theorem decode?_encode (t : Text) : decode? (encode t) = some t :=
  decode?_of_spelling (fun c h e => by subst e; revert h; decide) (spelling_encode t)

end RouteBook.Text.Percent
