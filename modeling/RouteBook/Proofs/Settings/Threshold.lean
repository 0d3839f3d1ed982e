import RouteBook.Proofs.Text.Digits
import RouteBook.Proofs.Text.Trim
import RouteBook.Settings.Runtime

/-! # What a threshold may look like

A threshold is a machine word in decimal, or in hexadecimal after `0x`, and blanks around it do
not count. Such a text has one number, so the settings hold the number that is written, and
they hold the default exactly where no word is: a number that is too large is no word, and
nothing of it is kept. -/

namespace RouteBook.RuntimeSettings

open Text.Numeral

/-- The text spells the number, in decimal or in hexadecimal. -/
inductive Spells : Text → Nat → Prop where
  | decimal {t : Text} {n : Nat} : Signed 10 t n → Spells t n
  | hexadecimal {x : Char} {t : Text} {n : Nat} :
    x = 'x' ∨ x = 'X' → Signed 16 t n → Spells ('0' :: x :: t) n

/-- The value spells the number, apart from the blanks around it. -/
def Writes (value : Text) (n : Nat) : Prop := ∃ t, Text.Padded value t ∧ Spells t n

variable {value t : Text} {n : Nat}

theorem not_isDigit_x {x : Char} (hx : x = 'x' ∨ x = 'X') {d : Nat} : ¬ IsDigit x d := by
  intro h
  have hne := h.of_all (p := fun c => c != 'x' && c != 'X') (by decide +kernel)
  rcases hx with rfl | rfl
  · cases hne
  · cases hne

theorem not_signed_x {base : Nat} {x : Char} (hx : x = 'x' ∨ x = 'X') (ht : x ∈ t) :
    ¬ Signed base t n := by
  intro h
  rcases h.isDigit ht with rfl | ⟨d, hd, _⟩
  · rcases hx with hx | hx
    · cases hx
    · cases hx
  · exact not_isDigit_x hx hd

theorem spells_hexadecimal_iff {x : Char} (hx : x = 'x' ∨ x = 'X') :
    Spells ('0' :: x :: t) n ↔ Signed 16 t n := by
  constructor
  · intro h
    cases h with
    | decimal h => exact absurd h (not_signed_x hx (by simp))
    | hexadecimal _ h => exact h
  · exact .hexadecimal hx

theorem spells_iff_of_ne (ht : ∀ x digits, x = 'x' ∨ x = 'X' → t ≠ '0' :: x :: digits) :
    Spells t n ↔ Signed 10 t n := by
  constructor
  · intro h
    cases h with
    | decimal h => exact h
    | hexadecimal hx => exact absurd rfl (ht _ _ hx)
  · exact .decimal

/-- What is read is what is spelled between the blanks, if it is a word. -/
theorem number?_eq_some_iff_spells :
    number? value = some n ↔ Spells (Text.trim value) n ∧ n < wordSize := by
  unfold number?
  split
  · next h => rw [h, word?_eq_some_iff (by decide), spells_hexadecimal_iff (.inl rfl)]
  · next h => rw [h, word?_eq_some_iff (by decide), spells_hexadecimal_iff (.inr rfl)]
  · next hx hX =>
    rw [word?_eq_some_iff (by decide), spells_iff_of_ne]
    rintro x digits (rfl | rfl)
    · exact hx digits
    · exact hX digits

/-- A number is spelled in digits, with a plus sign and an `x` at most. -/
theorem Spells.of_all (h : Spells t n) {p : Char → Bool}
    (hp : "0123456789abcdefABCDEF+xX".toList.all p = true) {c : Char} (hc : c ∈ t) :
    p c = true := by
  have hall := List.all_eq_true.mp hp
  have hsub : "0123456789abcdefABCDEF".toList ⊆ "0123456789abcdefABCDEF+xX".toList := by
    decide +kernel
  have hsigned {base : Nat} {t : Text} (h : Signed base t n) {c : Char} (hc : c ∈ t) :
      p c = true := by
    rcases h.isDigit hc with rfl | ⟨d, hd, _⟩
    · exact hall '+' (by simp)
    · exact hd.of_all (List.all_eq_true.mpr fun c hc => hall c (hsub hc))
  cases h with
  | decimal h => exact hsigned h hc
  | @hexadecimal x t _ hx h =>
    simp only [List.mem_cons] at hc
    rcases hc with rfl | rfl | hc
    · exact hall '0' (by simp)
    · rcases hx with rfl | rfl
      · exact hall 'x' (by simp)
      · exact hall 'X' (by simp)
    · exact hsigned h hc

theorem Spells.not_blank (h : Spells t n) {c : Char} (hc : c ∈ t) : Text.isBlank c = false := by
  simpa using h.of_all (p := fun c => !Text.isBlank c) (by decide +kernel) hc

theorem writes_iff_spells : Writes value n ↔ Spells (Text.trim value) n := by
  constructor
  · rintro ⟨t, hpadded, hspells⟩
    rwa [hpadded.trim_eq fun c hc => hspells.not_blank hc]
  · intro h
    exact ⟨Text.trim value, Text.padded_trim value, h⟩

theorem number?_eq_some_iff : number? value = some n ↔ Writes value n ∧ n < wordSize := by
  rw [number?_eq_some_iff_spells, writes_iff_spells]

/-- No text has two readings: what begins a hexadecimal number is no decimal one. -/
theorem Spells.unique {m : Nat} (hn : Spells t n) (hm : Spells t m) : n = m := by
  cases hn with
  | hexadecimal hx hn => exact hn.unique (by decide) ((spells_hexadecimal_iff hx).mp hm)
  | decimal hn =>
    cases hm with
    | decimal hm => exact hn.unique (by decide) hm
    | hexadecimal hx _ => exact absurd hn (not_signed_x hx (by simp))

theorem Writes.unique {m : Nat} (hn : Writes value n) (hm : Writes value m) : n = m :=
  (writes_iff_spells.mp hn).unique (writes_iff_spells.mp hm)

/-! ## Texts that spell no number -/

/-- Texts that come close to a number: nothing but a prefix or a sign, a minus sign
anywhere, a blank inside. -/
inductive NearMiss : Text → Prop where
  | bare {t : Text} : t ∈ (["", "+", "0x", "0X", "0x+", "0X+"] : List Text) → NearMiss t
  | minus {t : Text} : '-' ∈ t → NearMiss t
  | blank {t : Text} {c : Char} : c ∈ t → Text.isBlank c = true → NearMiss t

theorem not_signed_nil {base : Nat} : ¬ Signed base [] n := by
  intro h
  cases h with
  | plain h => exact h.1 rfl

theorem not_signed_plus {base : Nat} : ¬ Signed base ['+'] n :=
  fun h => (signed_plus_iff.mp h).1 rfl

theorem NearMiss.not_spells (h : NearMiss t) : ¬ Spells t n := by
  intro hs
  cases h with
  | bare h =>
    have h : t ∈ [[], ['+'], ['0', 'x'], ['0', 'X'], ['0', 'x', '+'], ['0', 'X', '+']] := by
      simpa using h
    simp only [List.mem_cons, List.not_mem_nil, or_false] at h
    rcases h with rfl | rfl | rfl | rfl | rfl | rfl
    · exact not_signed_nil ((spells_iff_of_ne (by simp)).mp hs)
    · exact not_signed_plus ((spells_iff_of_ne (by simp)).mp hs)
    · exact not_signed_nil ((spells_hexadecimal_iff (.inl rfl)).mp hs)
    · exact not_signed_nil ((spells_hexadecimal_iff (.inr rfl)).mp hs)
    · exact not_signed_plus ((spells_hexadecimal_iff (.inl rfl)).mp hs)
    · exact not_signed_plus ((spells_hexadecimal_iff (.inr rfl)).mp hs)
  | minus h => cases hs.of_all (p := (· != '-')) (by decide +kernel) h
  | blank hc hblank =>
    rw [hs.not_blank hc] at hblank
    cases hblank

/-! ## Texts of a number -/

/-- The text is the number's own: in decimal, or after `0x` in hexadecimal of either case,
with any number of zeros. -/
inductive TextOf (n : Nat) : Text → Prop where
  | decimal : TextOf n (decimal n)
  | lower {x : Char} (width : Nat) : x = 'x' ∨ x = 'X' → TextOf n ('0' :: x :: hexadecimal width n)
  | upper {x : Char} (width : Nat) :
    x = 'x' ∨ x = 'X' → TextOf n ('0' :: x :: Text.asciiUpper (hexadecimal width n))

theorem TextOf.writes (h : TextOf n value) : Writes value n := by
  have hspells : Spells value n := by
    cases h with
    | decimal => exact .decimal (.plain (denotes_decimal n))
    | lower width hx => exact .hexadecimal hx (.plain (denotes_hexadecimal width n))
    | upper width hx => exact .hexadecimal hx (.plain (denotes_hexadecimal width n).asciiUpper)
  exact ⟨value, ⟨[], [], nofun, nofun, (List.append_nil value).symm⟩, hspells⟩

/-! ## The threshold of a run -/

variable {lookup : Lookup}

theorem slowMatch_of_number? (hset : lookup "SHAPEGATE_SLOW_MATCH_US" = some value) :
    (ofLookup lookup).slowMatch = ⟨(number? value).getD defaultSlowMicros⟩ := by
  rw [ofLookup, hset]
  rfl

theorem slowMatch_of_writes (hset : lookup "SHAPEGATE_SLOW_MATCH_US" = some value)
    (h : Writes value n) (hn : n < wordSize) : (ofLookup lookup).slowMatch = ⟨n⟩ := by
  rw [slowMatch_of_number? hset, number?_eq_some_iff.mpr ⟨h, hn⟩, Option.getD_some]

theorem slowMatch_default (hset : lookup "SHAPEGATE_SLOW_MATCH_US" = some value)
    (h : ∀ n, Writes value n → wordSize ≤ n) : (ofLookup lookup).slowMatch = ⟨1000⟩ := by
  have hnone : number? value = none := by
    rw [Option.eq_none_iff_forall_ne_some]
    intro n hn
    obtain ⟨hwrites, hlt⟩ := number?_eq_some_iff.mp hn
    exact Nat.not_lt.mpr (h n hwrites) hlt
  rw [slowMatch_of_number? hset, hnone]
  rfl

theorem lt_wordSize_iff : n < wordSize ↔ n ≤ 2 ^ 64 - 1 := by
  show n < 18446744073709551616 ↔ n ≤ 18446744073709551615
  exact Nat.lt_succ_iff

/-- The threshold is the number that is written, if that is a word, and the default otherwise; so a
text of a number is read as the number, a number that is too large leaves nothing behind, and
neither does a text that only looks like one. -/
theorem slowMatch_exact (hset : lookup "SHAPEGATE_SLOW_MATCH_US" = some value) :
    (∀ n ≤ 2 ^ 64 - 1, Writes value n → (ofLookup lookup).slowMatch = ⟨n⟩) ∧
      ((¬ ∃ n ≤ 2 ^ 64 - 1, Writes value n) → (ofLookup lookup).slowMatch = ⟨1000⟩) ∧
      (∀ n ≥ 2 ^ 64, Writes value n → (ofLookup lookup).slowMatch = ⟨1000⟩) ∧
      (NearMiss (Text.trim value) → (ofLookup lookup).slowMatch = ⟨1000⟩) ∧
      ∀ n ≤ 2 ^ 64 - 1, TextOf n value → (ofLookup lookup).slowMatch = ⟨n⟩ := by
  refine ⟨fun n hn hw => slowMatch_of_writes hset hw (lt_wordSize_iff.mpr hn), fun hnone => ?_,
    fun n hn hw => ?_, fun hmiss => ?_,
    fun n hn htext => slowMatch_of_writes hset htext.writes (lt_wordSize_iff.mpr hn)⟩
  · refine slowMatch_default hset fun n hw => Nat.le_of_not_lt fun hlt => ?_
    exact hnone ⟨n, lt_wordSize_iff.mp hlt, hw⟩
  · -- A second number that is small enough would be a second reading of the same text.
    exact slowMatch_default hset fun m hm => hw.unique hm ▸ hn
  · exact slowMatch_default hset fun n hw => absurd (writes_iff_spells.mp hw) hmiss.not_spells

/-- The largest word, with blanks around it, zeros in front and digits of both cases, is read as it
is; one more is not read as zero. -/
theorem slowMatch_exact_largest :
    let most : Text := "\t0X+00fFfFfFfFfFfFfFfF\u00A0"
    let more : Text := "18446744073709551616"
    Writes most (2 ^ 64 - 1) ∧ (ofLookup fun _ => some most).slowMatch = ⟨2 ^ 64 - 1⟩ ∧
      Writes more (2 ^ 64) ∧ (ofLookup fun _ => some more).slowMatch = ⟨1000⟩ := by
  intro most more
  have hread : number? most = some (2 ^ 64 - 1) := by decide +kernel
  have hmost := (number?_eq_some_iff.mp hread).1
  have htext : more = decimal (2 ^ 64) := by decide +kernel
  have hmore : Writes more (2 ^ 64) := htext ▸ (TextOf.decimal (n := 2 ^ 64)).writes
  obtain ⟨hword, -⟩ := @slowMatch_exact most (fun _ => some most) rfl
  obtain ⟨-, -, hlarge, -⟩ := @slowMatch_exact more (fun _ => some more) rfl
  exact ⟨hmost, hword _ le_rfl hmost, hmore, hlarge _ le_rfl hmore⟩

end RouteBook.RuntimeSettings
