import RouteBook.Proofs.Request.Spelled

/-! # Writing a request for given segments and parameters

Any list of segments that are not empty, and any list of parameters, is what some
request sends: with all but the unreserved characters escaped, it is one of the
spellings that decoding takes back. -/

namespace RouteBook

namespace Text

/-- A character that is neither unreserved nor part of an escape separates escaped texts. -/
theorem not_mem_encode {c : Char}
    (h : (Percent.isUnreserved c || c == '%' || (Numeral.digit? 16 c).isSome) = false) (t : Text) :
    c ∉ Percent.encode t := by
  intro hm
  rcases Percent.mem_spelling (Percent.spelling_encode t) hm with hu | rfl | hd
  · rw [hu] at h
    cases h
  · cases h
  · rw [hd, Bool.or_true] at h
    cases h

theorem encode_ne_nil {t : Text} (h : t ≠ []) : Percent.encode t ≠ [] :=
  Percent.ne_nil_of_decode? (Percent.decode?_encode t) h

/-- There is no plus sign to be taken for a space. -/
theorem Form.spelling_of_percent {kept : Char → Prop} {s t : Text} (h : Percent.Spelling kept s t) :
    Form.Spelling kept s t := by
  induction h with
  | nil => exact .nil
  | kept hc _ ih => exact .kept hc ih
  | escaped he _ ih => exact .escaped he ih

theorem Form.keyKept_of_isUnreserved {c : Char} (h : Percent.isUnreserved c = true) :
    Form.KeyKept c := by
  refine ⟨⟨?_, ?_, ?_⟩, ?_⟩
  all_goals
    rintro rfl
    revert h
    decide

theorem Form.spelling_encode (t : Text) : Form.Spelling Form.KeyKept (Percent.encode t) t :=
  spelling_of_percent ((Percent.spelling_encode t).mono fun _ => keyKept_of_isUnreserved)

end Text

namespace Request

/-! ## The path -/

theorem segments?_slash_join {pieces : List Text} (h : ∀ piece ∈ pieces, piece ≠ [] ∧ '/' ∉ piece) :
    segments? ('/' :: Text.join ['/'] pieces) = pieces.mapM Text.Percent.decode? := by
  rw [segments?, Text.filter_split (.skip (Text.separatedBy_join pieces)) h]

def escapedPath (segments : List Text) : Text :=
  '/' :: Text.join ['/'] (segments.map Text.Percent.encode)

theorem pathKept_of_isUnreserved {c : Char} (h : Text.Percent.isUnreserved c = true) :
    PathKept c := by
  constructor
  all_goals
    rintro rfl
    revert h
    decide

/-! ## The query -/

def escapedPair (pair : Text × Text) : Text :=
  Text.Percent.encode pair.1 ++ '=' :: Text.Percent.encode pair.2

def escapedQuery (pairs : List (Text × Text)) : Text := Text.join ['&'] (pairs.map escapedPair)

/-- Parameters that all have a value. -/
def params (pairs : List (Text × Text)) : QueryParams :=
  ⟨pairs.map fun pair => (pair.1, some pair.2)⟩

theorem pairSpelling_escapedPair (pair : Text × Text) :
    QueryParams.PairSpelling (escapedPair pair) (pair.1, some pair.2) :=
  .valued (Text.Form.spelling_encode pair.1)
    ((Text.Form.spelling_encode pair.2).mono fun _ hc => hc.1)

/-! ## The request -/

/-- The request that asks for these segments with these parameters. -/
def written (method : Method) (segments : List Text) (pairs : List (Text × Text))
    (host : Option Text) :
    Request :=
  ⟨method, escapedPath segments, some (escapedQuery pairs), host⟩

theorem spells_written (method : Method) (segments : List Text) (pairs : List (Text × Text))
    (host : Option Text) :
    (written method segments pairs host).Spells ⟨segments, params pairs⟩ where
  path := by
    refine ⟨segments.map Text.Percent.encode, .skip (Text.separatedBy_join _), ?_⟩
    rw [List.forall₂_map_left_iff, List.forall₂_same]
    intro s _
    exact (Text.Percent.spelling_encode s).mono fun _ => pathKept_of_isUnreserved
  query := by
    refine ⟨pairs.map escapedPair, Text.separatedBy_join _, ?_⟩
    rw [params, List.forall₂_map_left_iff, List.forall₂_map_right_iff, List.forall₂_same]
    intro pair _
    exact pairSpelling_escapedPair pair

theorem decode?_written (method : Method) {segments : List Text} (h : ∀ s ∈ segments, s ≠ [])
    (pairs : List (Text × Text)) (host : Option Text) :
    (written method segments pairs host).decode? = some ⟨segments, params pairs⟩ :=
  decode?_of_spells (spells_written method segments pairs host) h (by simp [params])

end Request

end RouteBook
