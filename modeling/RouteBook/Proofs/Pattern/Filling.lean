import RouteBook.Proofs.Pattern.Constructed
import RouteBook.Proofs.Request.Written
import RouteBook.Proofs.Table.FirstMatch

/-! # Requests made from the uri of a pattern

A uri with texts put in for its labels is a request target that the pattern matches, and the labels
of the match are the texts. The two readings of a query meet here: the uri was read leniently when
the pattern was made, and the same text is read strictly as part of the target. Where the strict
reading succeeds the lenient one agrees with it, and where it fails the request fits no route. -/

namespace RouteBook

/-! ## The two readings of a query -/

namespace Text.Form

theorem decodeLenient_of_decode? {t s : Text} (h : decode? t = some s) : decodeLenient t = s := by
  obtain ⟨bytes, hb, hs⟩ := Option.bind_eq_some_iff.mp h
  rw [decodeLenient, Percent.bytesLenient_of_bytes? hb, Utf8.decode?_eq_some_iff.mp hs]
  exact Utf8.decodeLossy_encode s

theorem pairs_of_parse? {t : Text} {params : QueryParams} (h : QueryParams.parse? t = some params) :
    pairs t = params.pairs.map fun pair => (pair.1, pair.2.getD []) := by
  obtain ⟨found, hf, rfl⟩ := Option.map_eq_some_iff.mp h
  refine map_eq_of_mapM (fun piece pair hp => ?_) hf
  rw [QueryParams.pair?] at hp
  cases hc : cut? '=' piece with
  | none =>
    rw [hc] at hp
    obtain ⟨k, hk, rfl⟩ := Option.map_eq_some_iff.mp hp
    exact Prod.ext (decodeLenient_of_decode? hk) rfl
  | some cut =>
    rw [hc] at hp
    obtain ⟨k, hk, hp⟩ := Option.bind_eq_some_iff.mp hp
    obtain ⟨v, hv, hp⟩ := Option.bind_eq_some_iff.mp hp
    cases hp
    exact Prod.ext (decodeLenient_of_decode? hk) (decodeLenient_of_decode? hv)

end Text.Form

namespace Pattern

/-- A request with the query text that a pattern was made from has what the pattern requires. -/
theorem requirementMet_of_parse? {t : Text} {params : QueryParams}
    (h : QueryParams.parse? t = some params) {r : QueryRequirement} (hr : r ∈ requirements t) :
    requirementMet params r = true := by
  obtain ⟨pair, hp, rfl⟩ := List.mem_map.mp hr
  rw [Text.Form.pairs_of_parse? h] at hp
  obtain ⟨sent, hs, rfl⟩ := List.mem_map.mp hp
  dsimp only
  split
  · simp only [requirementMet, QueryParams.containsKey, List.any_eq_true]
    exact ⟨sent, hs, by simp⟩
  · simp only [requirementMet, QueryParams.containsPair, List.any_eq_true]
    exact ⟨sent, hs, by simp⟩

/-! ## Filling the labels of a path -/

/-- The segments of a target, from the raw segments of a uri: a text for each label, the pieces of
`rest` for a greedy label, and the literals as they are written. -/
def fill (rest : List Text) : List PathSegment → List Text → List Text → List Text
  | .literal _ :: path, raw :: raws, values => raw :: fill rest path raws values
  | .label :: path, _ :: raws, value :: values =>
    Text.Percent.encode value :: fill rest path raws values
  | .greedy :: _, _, _ => rest.map Text.Percent.encode
  | _, _, _ => []

/-- What is put in for the labels of a path: a text for each label and one or more pieces for a
greedy one, none of them empty. Without a greedy label the pieces are not looked at. -/
structure Filling (path : List PathSegment) where
  values : List Text
  rest : List Text
  values_length : values.length = path.count .label
  values_ne_nil : ∀ value ∈ values, value ≠ []
  rest_ne_nil : rest ≠ []
  pieces_ne_nil : ∀ piece ∈ rest, piece ≠ []

namespace Filling

variable {path : List PathSegment}

/-- The texts in the order of their labels; a greedy label has its pieces with
slashes between them. -/
def labels (f : Filling path) : List Text :=
  f.values ++ if .greedy ∈ path then [Text.join ['/'] f.rest] else []

/-- The uri with its labels filled. The query text stays as it is. -/
def target (f : Filling path) (uri : Text) : Text :=
  '/' :: Text.join ['/'] (fill f.rest path (rawSegments (uriPath uri)) f.values)
    ++ ((uriQuery? uri).map ('?' :: ·)).getD []

end Filling

theorem ne_nil_of_pathSegment {raw : Text} {segment : PathSegment}
    (h : pathSegment raw = .ok segment) :
    raw ≠ [] := by
  rintro rfl
  cases h

theorem mem_fill {rest : List Text} {path : List PathSegment} {raws values : List Text}
    {piece : Text} (h : piece ∈ fill rest path raws values) :
    piece ∈ raws ∨ ∃ t, (t ∈ values ∨ t ∈ rest) ∧ piece = Text.Percent.encode t := by
  fun_induction fill rest path raws values with
  | case1 t path raw raws values ih =>
    rcases List.mem_cons.mp h with rfl | h
    · exact .inl List.mem_cons_self
    · exact (ih h).imp_left (List.mem_cons_of_mem _)
  | case2 path raw raws value values ih =>
    rcases List.mem_cons.mp h with rfl | h
    · exact .inr ⟨value, .inl List.mem_cons_self, rfl⟩
    · rcases ih h with h | ⟨t, ht, he⟩
      · exact .inl (List.mem_cons_of_mem _ h)
      · exact .inr ⟨t, ht.imp_left (List.mem_cons_of_mem _), he⟩
  | case3 path raws values =>
    obtain ⟨t, ht, rfl⟩ := List.mem_map.mp h
    exact .inr ⟨t, .inr ht, rfl⟩
  | case4 => cases h

/-- Decoding gives segments that match, and the labels are what was put in. -/
theorem matchPath_fill {rest : List Text} (hrest : rest ≠ []) {path : List PathSegment}
    (hp : PathOk path) {raws values : List Text}
    (hraws : path = [] ∨ raws.map pathSegment = path.map .ok)
    (hv : values.length = path.count .label) :
    ∃ segments, (fill rest path raws values).mapM Text.Percent.decode? = some segments ∧
      matchPath path segments =
        some (values ++ if .greedy ∈ path then [Text.join ['/'] rest] else []) := by
  induction hp generalizing raws values with
  | nil =>
    obtain rfl := List.length_eq_zero_iff.mp (hv.trans List.count_nil)
    exact ⟨[], rfl, rfl⟩
  | @literal t path ht _ ih =>
    have hraws := hraws.resolve_left (List.cons_ne_nil _ _)
    obtain ⟨raw, raws, rfl⟩ := List.exists_cons_of_ne_nil (l := raws) (by rintro rfl; simp at hraws)
    rw [List.map_cons, List.map_cons, List.cons.injEq] at hraws
    obtain ⟨hraw, hraws⟩ := hraws
    obtain ⟨segments, hd, hm⟩ := ih (.inr hraws) (by simpa using hv)
    refine ⟨t :: segments, ?_, ?_⟩
    · rw [Text.mapM_eq_some_iff] at hd ⊢
      simp only [fill, List.map_cons, hd, (decode?_of_pathSegment hraw).2]
    · simpa [matchPath] using hm
  | @label path _ ih =>
    have hraws := hraws.resolve_left (List.cons_ne_nil _ _)
    obtain ⟨raw, raws, rfl⟩ := List.exists_cons_of_ne_nil (l := raws) (by rintro rfl; simp at hraws)
    obtain ⟨value, values, rfl⟩ :=
      List.exists_cons_of_ne_nil (l := values) (by rintro rfl; simp at hv)
    rw [List.map_cons, List.map_cons, List.cons.injEq] at hraws
    obtain ⟨segments, hd, hm⟩ := ih (.inr hraws.2) (by simpa using hv)
    refine ⟨value :: segments, ?_, ?_⟩
    · rw [Text.mapM_eq_some_iff] at hd ⊢
      simp only [fill, List.map_cons, hd, Text.Percent.decode?_encode]
    · simp [matchPath, hm]
  | greedy =>
    obtain rfl := List.length_eq_zero_iff.mp (hv.trans (by simp))
    refine ⟨rest, ?_, ?_⟩
    · rw [Text.mapM_eq_some_iff, fill, List.map_map]
      exact List.map_congr_left fun t _ => Text.Percent.decode?_encode t
    · obtain ⟨piece, pieces, rfl⟩ := List.exists_cons_of_ne_nil hrest
      simp [matchPath]

/-! ## The filled target -/

/-- No separator is left inside a piece of a filled path. -/
theorem ok_of_mem_fill {path : List PathSegment} (f : Filling path) {uri : Text}
    (hraws : path = [] ∨ (rawSegments (uriPath uri)).map pathSegment = path.map .ok) {piece : Text}
    (h : piece ∈ fill f.rest path (rawSegments (uriPath uri)) f.values) :
    piece ≠ [] ∧ '/' ∉ piece ∧ '?' ∉ piece := by
  rcases mem_fill h with hm | ⟨t, ht, rfl⟩
  · have hs := List.mem_of_mem_drop hm
    refine ⟨?_, Text.not_mem_of_mem_split hs,
      fun hc => not_mem_uriPath uri (Text.mem_of_mem_split hs hc)⟩
    rcases hraws with rfl | hraws
    · cases h
    · obtain ⟨segment, _, he⟩ := List.mem_map.mp (hraws ▸ List.mem_map_of_mem hm)
      exact ne_nil_of_pathSegment he.symm
  · have hne : t ≠ [] := ht.elim (f.values_ne_nil t) (f.pieces_ne_nil t)
    exact ⟨Text.encode_ne_nil hne, Text.not_mem_encode (by decide) t,
      Text.not_mem_encode (by decide) t⟩

theorem ofTarget_target {path : List PathSegment} (f : Filling path) (m : Method) {uri : Text}
    (hraws : path = [] ∨ (rawSegments (uriPath uri)).map pathSegment = path.map .ok) :
    Request.ofTarget m (f.target uri) =
      ⟨m, '/' :: Text.join ['/'] (fill f.rest path (rawSegments (uriPath uri)) f.values),
        uriQuery? uri, none⟩ := by
  have hpath :
      '?' ∉ '/' :: Text.join ['/'] (fill f.rest path (rawSegments (uriPath uri)) f.values) := by
    rw [List.mem_cons, not_or]
    exact ⟨by decide, Text.not_mem_join (by decide) fun piece hp => (ok_of_mem_fill f hraws hp).2.2⟩
  unfold Request.ofTarget Filling.target
  cases uriQuery? uri with
  | none =>
    simp only [Option.map_none, Option.getD_none, List.append_nil, Text.cut?_eq_none_iff.mpr hpath]
  | some query => simp only [Option.map_some, Option.getD_some, Text.cut?_append hpath]

theorem decode?_target {path : List PathSegment} (hp : PathOk path) (f : Filling path) (m : Method)
    {uri : Text} (hraws : path = [] ∨ (rawSegments (uriPath uri)).map pathSegment = path.map .ok) :
    ∃ segments, matchPath path segments = some f.labels ∧
      (Request.ofTarget m (f.target uri)).decode? =
        (Request.params? (uriQuery? uri)).map (⟨segments, ·⟩) := by
  obtain ⟨segments, hd, hm⟩ := matchPath_fill f.rest_ne_nil hp hraws f.values_length
  refine ⟨segments, hm, ?_⟩
  rw [ofTarget_target f m hraws, Request.decode?, Request.segments?_slash_join, hd]
  · cases Request.params? (uriQuery? uri) <;> rfl
  · exact fun piece h => ⟨(ok_of_mem_fill f hraws h).1, (ok_of_mem_fill f hraws h).2.1⟩

theorem matchQuery_of_params? {query? : Option Text} {params : QueryParams}
    (h : Request.params? query? = some params) {p : Pattern}
    (hp : ∀ r ∈ p.query, r ∈ query?.elim [] requirements) : p.matchQuery params = true := by
  rw [matchQuery, List.all_eq_true]
  intro r hr
  cases query? with
  | none => nomatch hp r hr
  | some query => exact requirementMet_of_parse? h (hp r hr)

/-- What the table with this one route answers is decided by whether the query can be read strictly.
A query that can be read meets the requirements, which were made from the same text. -/
theorem resolve_filling {H : Type} {m : Method} {uri : Text} {p : Pattern} (h : parse m uri = .ok p)
    (f : Filling p.path) (handler : H) (slow : Duration) :
    (⟨[⟨p, handler⟩], slow⟩ : RouteTable H).resolve (Request.ofTarget m (f.target uri)) =
      match Request.params? (uriQuery? uri) with
      | some _ => .matched ⟨0, p, handler, f.labels⟩
      | none => .notFound := by
  obtain ⟨_, _, _, segments, hsegments, hparts⟩ := parse_eq_ok_iff.mp h
  obtain ⟨_, hok, _, hp⟩ := ofParts_eq_ok_iff.mp hparts
  have hmethod : p.method = m := congrArg Pattern.method hp
  have hpath : p.path = segments := congrArg Pattern.path hp
  have hquery : p.query = _ := congrArg Pattern.query hp
  have hhost : p.host = none := congrArg Pattern.host hp
  have hraws := hpath ▸ pathSegments_eq_ok hsegments
  obtain ⟨found, hmatch, hdecode⟩ := decode?_target (hpath ▸ hok) f m hraws
  cases hq : Request.params? (uriQuery? uri) with
  | none =>
    rw [hq, Option.map_none] at hdecode
    rw [RouteTable.resolve, hdecode]
  | some params =>
    rw [hq, Option.map_some] at hdecode
    have hmet : p.matchQuery params = true :=
      matchQuery_of_params? hq fun r hr => by rwa [hquery, List.mem_mergeSort] at hr
    have hfits : p.fits ⟨found, params⟩ (Request.ofTarget m (f.target uri)).host = true := by
      simp [fits, hmatch, hmet, matchHost, hhost]
    rw [RouteTable.resolve_single hdecode, labels?_eq_some_iff.mpr ⟨hfits, hmatch⟩,
      ofTarget_target f m hraws]
    exact if_pos hmethod

/-- The uri of a route, with any texts put in for its labels, is a target that the route
matches with these texts, exactly if its query text is well formed as the query of a request.
Otherwise nothing matches. -/
theorem resolve_target {H : Type} {m : Method} {uri : Text} {p : Pattern} (h : parse m uri = .ok p)
    (f : Filling p.path) (handler : H) (slow : Duration) :
    ∃ t, RouteTable.build [⟨p, handler⟩] slow = .ok t ∧
      (t.resolve (Request.ofTarget m (f.target uri)) = .matched ⟨0, p, handler, f.labels⟩ ↔
        ∀ query, uriQuery? uri = some query → (QueryParams.parse? query).isSome = true) ∧
      ∀ query, uriQuery? uri = some query → QueryParams.parse? query = none →
        t.resolve (Request.ofTarget m (f.target uri)) = .notFound := by
  refine ⟨_, RouteTable.build_single p handler slow, ?_⟩
  rw [resolve_filling h f handler slow]
  cases hu : uriQuery? uri with
  | none => simp [Request.params?]
  | some query =>
    rw [show Request.params? (some query) = QueryParams.parse? query from rfl]
    cases hparse : QueryParams.parse? query with
    | none => simp [hparse]
    | some params => simp [hparse]

/-- A label of two bytes, a percent sign among the pieces of a greedy label, and
a value with a space. -/
theorem resolve_target_umlaut :
    let get : Method := ⟨"GET", by decide⟩
    let p : Pattern := ⟨get, [.literal "é/", .label, .greedy], [.value "k" "a b"], none⟩
    let f : Filling p.path := ⟨["ü"], ["x", "%"], rfl, by decide, by decide, by decide⟩
    let uri : Text := "/é%2F/\x7bid\x7d/\x7brest+\x7d?k=a+b"
    parse get uri = .ok p ∧ f.target uri = "/é%2F/%C3%BC/x/%25?k=a+b".toList ∧
      ∃ t, RouteTable.build [⟨p, 0⟩] RouteTable.defaultSlowMatch = .ok t ∧
        t.resolve (Request.ofTarget get (f.target uri)) = .matched ⟨0, p, 0, ["ü", "x/%"]⟩ := by
  have hsegments : pathSegments (uriPath "/é%2F/\x7bid\x7d/\x7brest+\x7d?k=a+b") =
      .ok [.literal "é/", .label, .greedy] := by
    have hpath : uriPath "/é%2F/\x7bid\x7d/\x7brest+\x7d?k=a+b" =
        "/é%2F/\x7bid\x7d/\x7brest+\x7d".toList := by decide +kernel
    have hliteral : Text.Percent.decode? ['é', '%', '2', 'F'] = some ['é', '/'] := by decide +kernel
    rw [hpath]
    simp [pathSegments, Text.split, pathSegment, labelSegment, isDots, hliteral, pure, Except.pure,
      bind, Except.bind]
  intro get p f uri
  have hparse : parse get uri = .ok p := by
    have hquery : (uriQuery? uri).elim [] requirements = p.query := by decide +kernel
    refine parse_eq_ok_iff.mpr ⟨by decide, by decide, by decide, p.path, hsegments, ?_⟩
    rw [hquery, ofParts_eq_ok_iff, List.mergeSort_singleton]
    exact ⟨by decide, pathFault?_eq_none_iff.mp (by decide), ⟨by decide, by decide⟩, rfl⟩
  have hsent : uriQuery? uri = some "k=a+b".toList := by decide +kernel
  have hlabels : f.labels = ["ü".toList, "x/%".toList] := by decide +kernel
  obtain ⟨t, hb, hm, _⟩ := resolve_target hparse f 0 RouteTable.defaultSlowMatch
  rw [hsent, hlabels] at hm
  refine ⟨hparse, by decide +kernel, t, hb, hm.mpr fun query hq => ?_⟩
  cases hq
  decide +kernel

end Pattern

end RouteBook
