/-! Text is a list of characters: every reader of this library works from the front of its input,
and on a list each step of a reader is a step of a proof. `String` is met at the boundary only. -/

namespace RouteBook

/-- A sequence of Unicode characters. -/
abbrev Text := List Char

instance coeString : Coe String (List Char) := ⟨String.toList⟩

namespace Text

/-- The pieces between the occurrences of `sep`: always one more than there are occurrences. -/
def split (sep : Char) : Text → List Text
  | [] => [[]]
  | c :: rest =>
    if c = sep then [] :: split sep rest
    else
      match split sep rest with
      | [] => [[c]]
      | piece :: pieces => (c :: piece) :: pieces

theorem split_ne_nil (sep : Char) (t : Text) : split sep t ≠ [] := by
  cases t with
  | nil => simp [split]
  | cons c rest => simp only [split]; split <;> (try split) <;> simp

/-- The pieces with `sep` between them. -/
def join (sep : Text) (pieces : List Text) : Text := sep.intercalate pieces

/-- What stands before and after the first `sep`. -/
def cut? (sep : Char) : Text → Option (Text × Text)
  | [] => none
  | c :: rest =>
    if c = sep then some ([], rest) else (cut? sep rest).map fun (front, back) => (c :: front, back)

theorem eq_append_of_cut? {sep : Char} {t front back : Text} (h : cut? sep t = some (front, back)) :
    t = front ++ sep :: back ∧ sep ∉ front := by
  induction t generalizing front with
  | nil => simp [cut?] at h
  | cons c rest ih =>
    simp only [cut?] at h
    split at h
    · obtain ⟨rfl, rfl⟩ := Prod.mk.inj (Option.some.inj h)
      simp_all
    · obtain ⟨⟨f, b⟩, hfb, he⟩ := Option.map_eq_some_iff.1 h
      obtain ⟨rfl, rfl⟩ := Prod.mk.inj he
      obtain ⟨rfl, hf⟩ := ih hfb
      exact ⟨rfl, by simp [hf, Ne.symm ‹_›]⟩

theorem length_of_cut? {sep : Char} {t front back : Text} (h : cut? sep t = some (front, back)) :
    back.length < t.length := by
  rw [(eq_append_of_cut? h).1, List.length_append, List.length_cons]
  omega

/-- What follows `front`, if the text starts with it. -/
def after? : (front : Text) → Text → Option Text
  | [], t => some t
  | _ :: _, [] => none
  | f :: front, c :: rest => if f = c then after? front rest else none

theorem after?_eq_some_iff {front t rest : Text} :
    after? front t = some rest ↔ t = front ++ rest := by
  induction front generalizing t with
  | nil => simp [after?]
  | cons f front ih =>
    cases t with
    | nil => simp [after?]
    | cons c t => by_cases h : f = c <;> simp [after?, h, ih, eq_comm]

/-- The text from the first occurrence of `needle` on. -/
def seek? (needle : Text) : Text → Option Text
  | [] => if needle = [] then some [] else none
  | c :: rest => if needle.isPrefixOf (c :: rest) then some (c :: rest) else seek? needle rest

/-- The order of a dictionary, by code points. -/
def le : Text → Text → Bool
  | [], _ => true
  | _ :: _, [] => false
  | a :: s, b :: t => a.toNat < b.toNat || (a == b && le s t)

theorem le_cons_iff {a b : Char} {s t : Text} :
    le (a :: s) (b :: t) = true ↔ a.toNat < b.toNat ∨ (a = b ∧ le s t = true) := by
  simp [le]

theorem le_total (s t : Text) : le s t = true ∨ le t s = true := by
  induction s generalizing t with
  | nil => exact .inl rfl
  | cons a s ih =>
    cases t with
    | nil => exact .inr rfl
    | cons b t =>
      rw [le_cons_iff, le_cons_iff]
      rcases Nat.lt_trichotomy a.toNat b.toNat with h | h | h
      · exact .inl (.inl h)
      · obtain rfl := Char.toNat_inj.mp h
        exact (ih t).imp (fun h => .inr ⟨rfl, h⟩) (fun h => .inr ⟨rfl, h⟩)
      · exact .inr (.inl h)

theorem le_trans {s t u : Text} (hst : le s t = true) (htu : le t u = true) : le s u = true := by
  induction s generalizing t u with
  | nil => rfl
  | cons a s ih =>
    cases t with
    | nil => cases hst
    | cons b t =>
      cases u with
      | nil => cases htu
      | cons c u =>
        rw [le_cons_iff] at hst htu ⊢
        rcases hst with hab | ⟨rfl, hst⟩
        · rcases htu with hbc | ⟨rfl, _⟩
          · exact .inl (Nat.lt_trans hab hbc)
          · exact .inl hab
        · rcases htu with hac | ⟨rfl, htu⟩
          · exact .inl hac
          · exact .inr ⟨rfl, ih hst htu⟩

theorem le_antisymm {s t : Text} (hst : le s t = true) (hts : le t s = true) : s = t := by
  induction s generalizing t with
  | nil =>
    cases t with
    | nil => rfl
    | cons b t => cases hts
  | cons a s ih =>
    cases t with
    | nil => cases hst
    | cons b t =>
      rw [le_cons_iff] at hst hts
      rcases hst with hab | ⟨rfl, hst⟩
      · rcases hts with hba | ⟨rfl, _⟩
        · exact absurd hab (Nat.lt_asymm hba)
        · exact absurd hab (Nat.lt_irrefl _)
      · rcases hts with haa | ⟨_, hts⟩
        · exact absurd haa (Nat.lt_irrefl _)
        · rw [ih hst hts]

/-- ASCII letters in lower case; every other character is kept. -/
def asciiLower (t : Text) : Text := t.map Char.toLower

/-- ASCII letters in upper case; every other character is kept. -/
def asciiUpper (t : Text) : Text := t.map Char.toUpper

/-- The text without the byte order mark that may stand at its front. -/
def dropMark : Text → Text
  | '\uFEFF' :: rest => rest
  | t => t

/-! ## Blanks

Blank characters are those of the Unicode property White_Space. The table lists all of them, so a
no-break space around a value is trimmed like a space. -/

/-- The property White_Space. -/
def isBlank (c : Char) : Bool :=
  let n := c.toNat
  (0x09 ≤ n && n ≤ 0x0D) || n == 0x20 || n == 0x85 || n == 0xA0 || n == 0x1680
    || (0x2000 ≤ n && n ≤ 0x200A) || n == 0x2028 || n == 0x2029 || n == 0x202F || n == 0x205F
    || n == 0x3000

theorem isBlank_of_isWhitespace {c : Char} (h : c.isWhitespace = true) : isBlank c = true := by
  simp only [Char.isWhitespace, Bool.or_eq_true, decide_eq_true_eq] at h
  rcases h with ((rfl | rfl) | rfl) | rfl <;> decide

/-- The text without the blanks at its front. -/
def trimStart (t : Text) : Text := t.dropWhile isBlank

/-- The text without the blanks at its end. -/
def trimEnd (t : Text) : Text := (trimStart t.reverse).reverse

/-- The text without the blanks around it. -/
def trim (t : Text) : Text := trimEnd (trimStart t)

/-! ## Quoted text for a reader's eye

It stands in double quotes, with a backslash before a quote or a backslash. -/

namespace Quoted

def escape (c : Char) : Text :=
  if c = '\x22' ∨ c = '\\' then ['\\', c] else [c]

def encode (t : Text) : Text := '\x22' :: t.flatMap escape ++ ['\x22']

/-- A bracketed list, with a comma and a space between the elements. -/
def list (elements : List Text) : Text := "[" ++ Text.join ", " elements ++ "]"

end Quoted

end Text

end RouteBook
