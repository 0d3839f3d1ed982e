import RouteBook.Proofs.Text.Escapes
import RouteBook.Proofs.Text.Pieces
import RouteBook.Request.Basic

/-! # Requests that cannot be decoded

A request is read as a whole or not at all. It is not read exactly if one of its pieces is not: a
segment of the path that is not empty, or a key or a value between the ampersands of the query,
where a plus sign is a space. -/

namespace RouteBook

open Text Percent

namespace QueryParams

/-- The second text is the key or the value of the first, whose key ends at the first equals sign.
Without an equals sign the first text is a key. -/
inductive IsSide : Text → Text → Prop where
  | key {key : Text} (value : Text) : '=' ∉ key → IsSide (key ++ '=' :: value) key
  | value {key : Text} (value : Text) : '=' ∉ key → IsSide (key ++ '=' :: value) value
  | bare {piece : Text} : '=' ∉ piece → IsSide piece piece

theorem isSide_append_iff {key : Text} (h : '=' ∉ key) (value side : Text) :
    IsSide (key ++ '=' :: value) side ↔ side = key ∨ side = value := by
  constructor
  · generalize hp : key ++ '=' :: value = piece
    intro hside
    cases hside with
    | key _ h' => exact .inl (eq_of_append_sep h' h hp.symm).1
    | value _ h' => exact .inr (eq_of_append_sep h' h hp.symm).2
    | bare h' => exact absurd (hp ▸ List.mem_append_right key List.mem_cons_self) h'
  · rintro (rfl | rfl)
    · exact .key value h
    · exact .value side h

theorem isSide_iff_of_not_mem {piece : Text} (h : '=' ∉ piece) (side : Text) :
    IsSide piece side ↔ side = piece := by
  constructor
  · intro hside
    cases hside with
    | key value _ => exact absurd (List.mem_append_right side List.mem_cons_self) h
    | value value _ => exact absurd (List.mem_append_right _ List.mem_cons_self) h
    | bare _ => rfl
  · rintro rfl
    exact .bare h

/-- A pair is refused with its key or its value. -/
theorem pair?_eq_none_iff {piece : Text} :
    pair? piece = none ↔ ∃ side, IsSide piece side ∧ Form.decode? side = none := by
  rw [pair?]
  cases hcut : cut? '=' piece with
  | none =>
    simp only [isSide_iff_of_not_mem (cut?_eq_none_iff.mp hcut), Option.map_eq_none_iff,
      exists_eq_left]
  | some cut =>
    obtain ⟨key, value⟩ := cut
    obtain ⟨rfl, hkey⟩ := eq_append_of_cut? hcut
    simp only [isSide_append_iff hkey, or_and_right, exists_or, exists_eq_left]
    cases Form.decode? key with
    | none => simp
    | some k => cases Form.decode? value <;> simp

theorem parse?_eq_none_iff {query : Text} :
    parse? query = none ↔
      ∃ piece ∈ split '&' query,
        piece ≠ [] ∧ ∃ side, IsSide piece side ∧ ¬ Decodable (Form.spaced side) := by
  rw [parse?, Option.map_eq_none_iff, mapM_eq_none_iff]
  simp only [Form.pieces, List.mem_filter, decide_eq_true_eq, and_assoc, pair?_eq_none_iff,
    Form.decode?, decode?_eq_none_iff]

end QueryParams

namespace Request

theorem segments?_eq_none_iff {path : Text} :
    segments? path = none ↔ ∃ segment ∈ split '/' path, segment ≠ [] ∧ ¬ Decodable segment := by
  rw [segments?, mapM_eq_none_iff]
  simp only [List.mem_filter, decide_eq_true_eq, and_assoc, decode?_eq_none_iff]

theorem params?_eq_none_iff {query : Option Text} :
    params? query = none ↔ ∃ q, query = some q ∧ QueryParams.parse? q = none := by
  cases query with
  | none => simp [params?]
  | some q => simp [params?]

theorem decode?_eq_none_iff {r : Request} :
    r.decode? = none ↔ segments? r.path = none ∨ params? r.query = none := by
  rw [decode?]
  cases segments? r.path with
  | none => simp
  | some segments => cases params? r.query <;> simp

/-- Strict reading is exact: of a text, of a query and of a request. The two passes over
bytes, of which the first looks for broken escapes and the second knows nothing of them,
are one way to do it. -/
theorem decoding_exact {read : Text → Option Text} (hread : Replaces read) :
    (∀ raw s, Percent.decode? raw = some s ↔
      Complete raw ∧ replaced (Utf8.encode raw) = Utf8.encode s) ∧
    (∀ raw, Percent.decode? raw = none ↔ ¬ Decodable raw) ∧
    (∀ raw, guarded read raw = Percent.decode? raw) ∧
    (∀ raw, scanFrom (Utf8.encode raw) 0 = true ↔ Complete raw) ∧
    (∀ query, QueryParams.parse? query = none ↔
      ∃ piece ∈ split '&' query, piece ≠ [] ∧
        ∃ side, QueryParams.IsSide piece side ∧ ¬ Decodable (Form.spaced side)) ∧
    ∀ r : Request, r.decode? = none ↔
      (∃ segment ∈ split '/' r.path, segment ≠ [] ∧ ¬ Decodable segment) ∨
        ∃ query, r.query = some query ∧ QueryParams.parse? query = none := by
  refine ⟨fun raw s => decode?_eq_some_iff, fun raw => Percent.decode?_eq_none_iff,
    guarded_eq_decode? hread, scanFrom_encode_iff,
    fun query => QueryParams.parse?_eq_none_iff, fun r => ?_⟩
  rw [decode?_eq_none_iff, segments?_eq_none_iff, params?_eq_none_iff]

/-- A letter of two bytes, once escaped and once not, then one of its bytes alone, a broken escape,
and a value and a segment that are refused. -/
theorem decoding_exact_umlaut :
    (Replaces replacing ∧ guarded replacing "a%C3%BCü" = some "aüü" ∧
      Complete "a%C3%BCü" ∧ replaced (Utf8.encode "a%C3%BCü") = Utf8.encode "aüü") ∧
    (Complete "%C3" ∧ ¬ Decodable "%C3" ∧ guarded replacing "%C3" = none) ∧
    (¬ Complete "ü%4" ∧ scanFrom (Utf8.encode "ü%4") 0 = false) ∧
    QueryParams.parse? "a+b&k=%G1" = none ∧
    Request.decode? ⟨⟨"GET", by decide⟩, "//a/%FF", none, none⟩ = none := by
  obtain ⟨hsome, hnone, hguarded, hscan, hquery, hrequest⟩ := decoding_exact replaces_replacing
  have hread : Percent.decode? "a%C3%BCü" = some "aüü" := by decide +kernel
  have hbroken : Percent.decode? "%C3" = none := by decide +kernel
  have hvalue : Percent.decode? "%G1" = none := by decide +kernel
  have hsegment : Percent.decode? "%FF" = none := by decide +kernel
  have hside : QueryParams.IsSide "k=%G1" "%G1" :=
    @QueryParams.IsSide.value "k" "%G1" (by decide +kernel)
  have hshort : scanFrom (Utf8.encode "ü%4") 0 ≠ true := by decide +kernel
  refine ⟨⟨replaces_replacing, (hguarded _).trans hread, (hsome _ _).mp hread⟩,
    ⟨(hscan _).mp (by decide +kernel), (hnone _).mp hbroken, (hguarded _).trans hbroken⟩,
    ⟨fun h => hshort ((hscan _).mpr h), Bool.eq_false_iff.mpr hshort⟩,
    (hquery _).mpr ⟨"k=%G1", by decide +kernel, by decide +kernel, "%G1", hside,
      (hnone _).mp hvalue⟩,
    (hrequest _).mpr (.inl ⟨"%FF", by decide +kernel, by decide +kernel, (hnone _).mp hsegment⟩)⟩

end Request

end RouteBook
