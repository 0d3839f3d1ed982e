import RouteBook.Proofs.Text.Pieces
import RouteBook.Request.Basic
import RouteBook.Text.Percent.Spelling

/-! # The spellings of a request

A client is free in how it writes a request: which characters it escapes, in which case the digits
of an escape are, how long the runs of separators are, whether a space of the query is a plus sign.
`Request.Spells` is that freedom, and decoding takes it back: pieces are found first, since no
spelling of a piece holds the separator, and each piece is then read as what it spells. -/

namespace RouteBook

namespace Text.Form

/-- The first text is a spelling of the second in a query, where a plus sign may stand for a
space. -/
inductive Spelling (kept : Char → Prop) : Text → Text → Prop where
  | nil : Spelling kept [] []
  | kept {c : Char} {s t : Text} : kept c → Spelling kept s t → Spelling kept (c :: s) (c :: t)
  | plus {s t : Text} : Spelling kept s t → Spelling kept ('+' :: s) (' ' :: t)
  | escaped {c : Char} {e s t : Text} :
    Percent.Escapes (Utf8.encodeChar c) e → Spelling kept s t → Spelling kept (e ++ s) (c :: t)

/-- The characters that stand for themselves in a value. -/
def ValueKept (c : Char) : Prop := c ≠ '%' ∧ c ≠ '&' ∧ c ≠ '+'

/-- The characters that stand for themselves in a key, which ends at an equals sign. -/
def KeyKept (c : Char) : Prop := ValueKept c ∧ c ≠ '='

instance decidableValueKept (c : Char) : Decidable (ValueKept c) :=
  inferInstanceAs (Decidable (c ≠ '%' ∧ c ≠ '&' ∧ c ≠ '+'))

instance decidableKeyKept (c : Char) : Decidable (KeyKept c) :=
  inferInstanceAs (Decidable (ValueKept c ∧ c ≠ '='))

variable {kept : Char → Prop}

theorem spaced_escapes {bytes : List UInt8} {e : Text} (h : Percent.Escapes bytes e) :
    spaced e = e := by
  refine (List.map_congr_left fun c hc => ?_).trans (List.map_id e)
  have hne : c ≠ '+' := by
    rintro rfl
    rcases Percent.mem_escapes h hc with hp | hd
    · cases hp
    · cases hd
  rw [if_neg hne, id_eq]

/-- With spaces for the plus signs it is a spelling as in a path. -/
theorem spelling_spaced (hk : ∀ c, kept c → c ≠ '+') {s t : Text} (h : Spelling kept s t) :
    Percent.Spelling (fun c => kept c ∨ c = ' ') (spaced s) t := by
  induction h with
  | nil => exact .nil
  | @kept c s t hc _ ih =>
    have hs : spaced (c :: s) = c :: spaced s := by
      rw [spaced, List.map_cons, if_neg (hk c hc), spaced]
    rw [hs]
    exact .kept (.inl hc) ih
  | plus _ ih => exact .kept (.inr rfl) ih
  | @escaped c e s t he _ ih =>
    have hs : spaced (e ++ s) = e ++ spaced s := by
      rw [spaced, List.map_append, ← spaced, ← spaced, spaced_escapes he]
    rw [hs]
    exact .escaped he ih

theorem Spelling.mono {kept' : Char → Prop} (hk : ∀ c, kept c → kept' c) {s t : Text}
    (h : Spelling kept s t) :
    Spelling kept' s t := by
  induction h with
  | nil => exact .nil
  | kept hc _ ih => exact .kept (hk _ hc) ih
  | plus _ ih => exact .plus ih
  | escaped he _ ih => exact .escaped he ih

theorem decode?_of_spelling (hk : ∀ c, kept c → ValueKept c) {s t : Text} (h : Spelling kept s t) :
    decode? s = some t := by
  refine Percent.decode?_of_spelling (fun c hc => ?_)
    (spelling_spaced (fun c hc => (hk c hc).2.2) h)
  rcases hc with hc | rfl
  · exact (hk c hc).1
  · decide

theorem mem_spelling {s t : Text} (h : Spelling kept s t) {c : Char} (hc : c ∈ s) :
    kept c ∨ c = '+' ∨ c = '%' ∨ (Numeral.digit? 16 c).isSome = true := by
  induction h with
  | nil => cases hc
  | kept hk _ ih =>
    rcases List.mem_cons.mp hc with rfl | hc
    · exact .inl hk
    · exact ih hc
  | plus _ ih =>
    rcases List.mem_cons.mp hc with rfl | hc
    · exact .inr (.inl rfl)
    · exact ih hc
  | escaped he _ ih =>
    rcases List.mem_append.mp hc with hc | hc
    · exact .inr (.inr (Percent.mem_escapes he hc))
    · exact ih hc

/-- A character that has to be escaped, and that no escape is made of, separates spellings. -/
theorem not_mem_spelling {s t : Text} (h : Spelling kept s t) {c : Char} (hk : ¬ kept c)
    (hc : c ≠ '+' ∧ c ≠ '%' ∧ (Numeral.digit? 16 c).isSome = false) : c ∉ s := by
  intro hm
  rcases mem_spelling h hm with hkept | hplus | hpercent | hdigit
  · exact hk hkept
  · exact hc.1 hplus
  · exact hc.2.1 hpercent
  · rw [hc.2.2] at hdigit
    cases hdigit

end Text.Form

namespace QueryParams

/-- The piece is a spelling of the pair. A key without a value has no equals sign. -/
inductive PairSpelling : Text → Text × Option Text → Prop where
  | bare {k key : Text} : Text.Form.Spelling Text.Form.KeyKept k key → PairSpelling k (key, none)
  | valued {k key v value : Text} :
    Text.Form.Spelling Text.Form.KeyKept k key → Text.Form.Spelling Text.Form.ValueKept v value →
    PairSpelling (k ++ '=' :: v) (key, some value)

theorem not_mem_key {k key : Text} (h : Text.Form.Spelling Text.Form.KeyKept k key) :
    '=' ∉ k ∧ '&' ∉ k :=
  ⟨Text.Form.not_mem_spelling h (by decide) (by decide),
    Text.Form.not_mem_spelling h (by decide) (by decide)⟩

theorem not_mem_value {v value : Text} (h : Text.Form.Spelling Text.Form.ValueKept v value) :
    '&' ∉ v :=
  Text.Form.not_mem_spelling h (by decide) (by decide)

theorem pair?_of_spelling {piece : Text} {pair : Text × Option Text} (h : PairSpelling piece pair) :
    pair? piece = some pair := by
  cases h with
  | bare hkey =>
    have hc := Text.cut?_eq_none_iff.mpr (not_mem_key hkey).1
    have hd := Text.Form.decode?_of_spelling (fun _ hc => hc.1) hkey
    simp only [pair?, hc, hd, Option.map_some]
  | @valued k key v value hkey hvalue =>
    have hc := Text.cut?_append (not_mem_key hkey).1 v
    have hk := Text.Form.decode?_of_spelling (fun _ hc => hc.1) hkey
    have hv := Text.Form.decode?_of_spelling (fun _ hc => hc) hvalue
    rw [pair?, hc]
    simp only [hk, hv]
    rfl

/-- No piece is lost or broken up, unless it is empty, and only the empty key without
a value is spelled so. -/
theorem ok_of_pairSpelling {piece : Text} {pair : Text × Option Text} (h : PairSpelling piece pair)
    (hp : pair ≠ ([], none)) : piece ≠ [] ∧ '&' ∉ piece := by
  cases h with
  | bare hkey =>
    refine ⟨?_, (not_mem_key hkey).2⟩
    rintro rfl
    have hd := Text.Form.decode?_of_spelling (fun _ hc => hc.1) hkey
    exact hp (Option.some.inj hd ▸ rfl)
  | valued hkey hvalue =>
    refine ⟨by simp, ?_⟩
    simp [(not_mem_key hkey).2, not_mem_value hvalue]

end QueryParams

namespace Request

/-- The characters that stand for themselves in a segment of a path. -/
def PathKept (c : Char) : Prop := c ≠ '%' ∧ c ≠ '/'

instance decidablePathKept (c : Char) : Decidable (PathKept c) :=
  inferInstanceAs (Decidable (c ≠ '%' ∧ c ≠ '/'))

/-- The request is a spelling of the target. No query is a query without pairs. -/
structure Spells (r : Request) (target : Target) : Prop where
  path : ∃ pieces, Text.SeparatedBy '/' r.path pieces ∧
    List.Forall₂ (Text.Percent.Spelling PathKept) pieces target.segments
  query : ∃ pieces, Text.SeparatedBy '&' (r.query.getD []) pieces ∧
    List.Forall₂ QueryParams.PairSpelling pieces target.query.pairs

theorem params?_eq_parse? (query : Option Text) :
    params? query = QueryParams.parse? (query.getD []) := by
  cases query <;> rfl

variable {target : Target} {r : Request}

theorem segments?_of_spells (h : r.Spells target) (hs : ∀ s ∈ target.segments, s ≠ []) :
    segments? r.path = some target.segments := by
  obtain ⟨pieces, hpath, hpieces⟩ := h.path
  refine Text.mapM_filter_split hpath hpieces fun piece s hm hspelling => ?_
  have hd := Text.Percent.decode?_of_spelling (fun c hc => hc.1) hspelling
  refine ⟨hd, Text.Percent.ne_nil_of_decode? hd (hs s hm), fun hc => ?_⟩
  rcases Text.Percent.mem_spelling hspelling hc with hk | hc | hc
  · exact hk.2 rfl
  all_goals cases hc

theorem params?_of_spells (h : r.Spells target) (hp : ([], none) ∉ target.query.pairs) :
    params? r.query = some target.query := by
  obtain ⟨pieces, hquery, hpieces⟩ := h.query
  rw [params?_eq_parse?, QueryParams.parse?, Text.Form.pieces]
  have hread := Text.mapM_filter_split hquery hpieces fun piece pair hm hspelling =>
    ⟨QueryParams.pair?_of_spelling hspelling,
      QueryParams.ok_of_pairSpelling hspelling fun he => hp (he ▸ hm)⟩
  rw [hread]
  rfl

/-- A request is decoded to the target it spells, if the target can be spelled at all: an empty
segment and an empty key without a value leave nothing behind between separators. -/
theorem decode?_of_spells (h : r.Spells target) (hs : ∀ s ∈ target.segments, s ≠ [])
    (hp : ([], none) ∉ target.query.pairs) : r.decode? = some target := by
  rw [decode?, segments?_of_spells h hs, params?_of_spells h hp]
  rfl

end Request

end RouteBook
