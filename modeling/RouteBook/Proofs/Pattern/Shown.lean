import RouteBook.Proofs.Pattern.Faults
import RouteBook.Proofs.Pattern.Filling

/-! # Reading a pattern back from its line

A pattern is shown with new names for its labels, with its requirements in their order, and with
nothing escaped. What follows the method is a uri of the same pattern if the pattern was itself read
from a uri without escapes: then every segment and every requirement is read back from its own text,
and none of these texts holds a separator. -/

namespace RouteBook

namespace Text

/-- A text without escapes stands for itself. -/
theorem Percent.decode?_self {t : Text} (h : '%' ∉ t) : Percent.decode? t = some t := by
  have hs : Percent.Spelling (· ≠ '%') t t := .refl fun _ hc he => h (he ▸ hc)
  exact Percent.decode?_of_spelling (fun _ hc => hc) hs

theorem Form.decodeLenient_self {t : Text} (h : ∀ c ∈ t, Form.ValueKept c) :
    Form.decodeLenient t = t := by
  have hs : Form.Spelling Form.ValueKept t t := Form.spelling_of_percent (.refl h)
  exact Form.decodeLenient_of_decode? (Form.decode?_of_spelling (fun _ hc => hc) hs)

end Text

namespace Pattern

/-! ## The path -/

def segmentText : PathSegment → Text
  | .literal t => t
  | .label => "\x7blabel\x7d"
  | .greedy => "\x7bgreedy+\x7d"

/-- The segment is read from its own text, and the text is one segment of a path. -/
structure SegmentShown (segment : PathSegment) : Prop where
  read : pathSegment (segmentText segment) = .ok segment
  slash : '/' ∉ segmentText segment
  mark : '?' ∉ segmentText segment
  hash : '#' ∉ segmentText segment

theorem slash_join (piece : Text) (pieces : List Text) :
    '/' :: Text.join ['/'] (piece :: pieces) = (piece :: pieces).flatMap ('/' :: ·) := by
  induction pieces generalizing piece with
  | nil => simp [Text.join]
  | cons next pieces ih =>
    rw [Text.join_cons_cons, ih, List.flatMap_cons]
    rfl

theorem pathText_cons (segment : PathSegment) (rest : List PathSegment) :
    pathText (segment :: rest) = '/' :: Text.join ['/'] ((segment :: rest).map segmentText) := by
  rw [List.map_cons, slash_join, ← List.map_cons, List.flatMap_map,
    pathText.eq_2 _ (List.cons_ne_nil _ _)]
  refine congrArg (List.flatMap · _) (funext fun s => ?_)
  cases s with
  | literal t => rfl
  | label => decide
  | greedy => decide

variable {path : List PathSegment} {query : List QueryRequirement}

theorem pathSegments_pathText (h : ∀ segment ∈ path, SegmentShown segment) :
    pathSegments (pathText path) = .ok path := by
  cases path with
  | nil => rfl
  | cons segment rest =>
    have hpiece : ∀ piece ∈ (segment :: rest).map segmentText, '/' ∉ piece :=
      List.forall_mem_map.mpr fun s hs => (h s hs).slash
    have hne : segmentText segment ≠ [] := ne_nil_of_pathSegment (h segment List.mem_cons_self).read
    have hroot : '/' :: Text.join ['/'] ((segment :: rest).map segmentText) ≠ ['/'] :=
      fun he => Text.join_ne_nil hne _ (List.cons.inj he).2
    rw [pathText_cons, pathSegments, if_neg hroot, Text.split_cons_sep, List.drop_one,
      List.tail_cons, Text.split_join (by simp) hpiece, Text.mapM_eq_ok_iff, List.map_map]
    exact List.map_congr_left fun s hs => (h s hs).read

theorem not_mem_pathText {c : Char} (hc : c ≠ '/') (h : ∀ segment ∈ path, c ∉ segmentText segment) :
    c ∉ pathText path := by
  cases path with
  | nil => exact fun hm => hc (List.mem_singleton.mp hm)
  | cons segment rest =>
    rw [pathText_cons, List.mem_cons, not_or]
    exact ⟨hc, Text.not_mem_join hc (List.forall_mem_map.mpr h)⟩

theorem head?_pathText (path : List PathSegment) : (pathText path).head? = some '/' := by
  cases path with
  | nil => rfl
  | cons segment rest => rw [pathText_cons, List.head?_cons]

/-! ## The query -/

/-- What one piece of a query text requires. -/
def pieceRequirement (piece : Text) : QueryRequirement :=
  let (key, value) := match Text.cut? '=' piece with
    | some (key, value) => (Text.Form.decodeLenient key, Text.Form.decodeLenient value)
    | none => (Text.Form.decodeLenient piece, [])
  if value = [] then .present key else .value key value

theorem requirements_eq_map (t : Text) :
    requirements t = (Text.Form.pieces t).map pieceRequirement :=
  List.map_map

/-- The requirement is read from its own text, and the text is one piece of a query. -/
structure RequirementShown (r : QueryRequirement) : Prop where
  read : pieceRequirement (requirementText r) = r
  ne_nil : requirementText r ≠ []
  ampersand : '&' ∉ requirementText r
  mark : '?' ∉ requirementText r
  hash : '#' ∉ requirementText r

theorem requirements_join (h : ∀ r ∈ query, RequirementShown r) :
    requirements (Text.join ['&'] (query.map requirementText)) = query := by
  have hpiece : ∀ piece ∈ query.map requirementText, piece ≠ [] ∧ '&' ∉ piece :=
    List.forall_mem_map.mpr fun r hr => ⟨(h r hr).ne_nil, (h r hr).ampersand⟩
  rw [requirements_eq_map, Text.Form.pieces, Text.filter_split (Text.separatedBy_join _) hpiece,
    List.map_map]
  exact (List.map_congr_left fun r hr => (h r hr).read).trans (List.map_id query)

/-! ## The uri -/

/-- What follows the method in the line of a pattern for any host. -/
def shownUri (p : Pattern) : Text := pathText p.path ++ queryText p.query

theorem text_eq_of_host {p : Pattern} (h : p.host = none) :
    p.text = p.method.text ++ ' ' :: shownUri p := by
  simp [text, h, shownUri]

/-- A pattern for any host is read from its line if all its parts are. -/
theorem parse_shownUri {p : Pattern} (hrules : Rules p) (hhost : p.host = none)
    (hpath : ∀ segment ∈ p.path, SegmentShown segment)
    (hquery : ∀ r ∈ p.query, RequirementShown r) :
    parse p.method (shownUri p) = .ok p := by
  have hparts : ofParts p.method p.path p.query = .ok p := by
    obtain ⟨m, path, query, host⟩ := p
    obtain rfl : host = none := hhost
    exact ofParts_of_sorted (isSupported_iff.mpr hrules.method)
      (pathOk_iff_pathRules.mpr hrules.path) hrules.query
      hrules.sorted
  have hhead : (shownUri p).head? = some '/' := by
    rw [shownUri, List.head?_append, head?_pathText]
    rfl
  have hmark : '?' ∉ pathText p.path := not_mem_pathText (by decide) fun s hs => (hpath s hs).mark
  have hhash : '#' ∉ pathText p.path := not_mem_pathText (by decide) fun s hs => (hpath s hs).hash
  refine parse_eq_ok_iff.mpr ⟨hhead, ?_⟩
  cases hq : p.query with
  | nil =>
    have hshown : shownUri p = pathText p.path := by simp [shownUri, hq, queryText]
    obtain ⟨huri, hnone⟩ := uri_of_not_mem hmark
    rw [hshown, huri, hnone]
    exact ⟨fun h => hmark (List.mem_of_getLast? h), hhash, p.path, pathSegments_pathText hpath,
      hq ▸ hparts⟩
  | cons r rest =>
    have hne : requirementText r ≠ [] := (hquery r (hq ▸ List.mem_cons_self)).ne_nil
    have hmarks : '?' ∉ Text.join ['&'] (p.query.map requirementText) :=
      Text.not_mem_join (by decide) (List.forall_mem_map.mpr fun r hr => (hquery r hr).mark)
    have hhashes : '#' ∉ Text.join ['&'] (p.query.map requirementText) :=
      Text.not_mem_join (by decide) (List.forall_mem_map.mpr fun r hr => (hquery r hr).hash)
    have hshown : shownUri p = pathText p.path ++
        '?' :: Text.join ['&'] (p.query.map requirementText) := by
      simp [shownUri, hq, queryText]
    obtain ⟨huri, hsome⟩ := uri_append hmark (Text.join ['&'] (p.query.map requirementText))
    rw [hshown, huri, hsome]
    refine ⟨fun h => ?_, by simp [hhash, hhashes], p.path, pathSegments_pathText hpath, ?_⟩
    · obtain ⟨c, back, hback⟩ :
          ∃ c back, Text.join ['&'] (p.query.map requirementText) = c :: back :=
        List.exists_cons_of_ne_nil (hq ▸ Text.join_ne_nil hne _)
      rw [hback, List.getLast?_append_cons, List.getLast?_cons_cons, ← hback] at h
      exact hmarks (List.mem_of_getLast? h)
    · rw [Option.elim_some, requirements_join hquery]
      exact hparts

/-! ## Uris without escapes -/

/-- Nothing is escaped in the uri, and only one question mark can be in it. -/
structure Plain (uri : Text) : Prop where
  percent : '%' ∉ uri
  plus : ∀ query, uriQuery? uri = some query → '+' ∉ query
  mark : uri.count '?' ≤ 1

theorem segmentShown_of_mem {uri : Text} (hu : Plain uri) (hf : '#' ∉ uri)
    (hpath : pathSegments (uriPath uri) = .ok path) : ∀ segment ∈ path, SegmentShown segment := by
  intro segment hs
  cases segment with
  | label => exact ⟨rfl, by decide, by decide, by decide⟩
  | greedy => exact ⟨rfl, by decide, by decide, by decide⟩
  | literal t =>
    rcases pathSegments_eq_ok hpath with rfl | hmap
    · cases hs
    · obtain ⟨raw, hraw, hread⟩ := List.mem_map.mp (hmap ▸ List.mem_map_of_mem hs)
      have hsplit := List.mem_of_mem_drop hraw
      have hmem {c : Char} (hc : c ∈ raw) : c ∈ uri :=
        mem_of_mem_uriPath (Text.mem_of_mem_split hsplit hc)
      have hself := Text.Percent.decode?_self fun hc => hu.percent (hmem hc)
      obtain rfl : raw = t := Option.some.inj (hself.symm.trans (decode?_of_pathSegment hread).2)
      exact ⟨hread, Text.not_mem_of_mem_split hsplit,
        fun hc => not_mem_uriPath uri (Text.mem_of_mem_split hsplit hc), fun hc => hf (hmem hc)⟩

/-- A piece without escapes is the text of its requirement, unless it ends in an equals
sign that only drops out. -/
theorem requirementText_pieceRequirement {piece : Text} (h : ∀ c ∈ piece, Text.Form.ValueKept c) :
    requirementText (pieceRequirement piece) = piece ∨
      ∃ key, '=' ∉ key ∧ piece = key ++ ['='] ∧ pieceRequirement piece = .present key := by
  unfold pieceRequirement
  cases hc : Text.cut? '=' piece with
  | none => exact .inl (by simp [requirementText, Text.Form.decodeLenient_self h])
  | some parts =>
    obtain ⟨key, value⟩ := parts
    obtain ⟨rfl, hkey⟩ := Text.eq_append_of_cut? hc
    have hk := Text.Form.decodeLenient_self fun c hm => h c (List.mem_append_left _ hm)
    have hv := Text.Form.decodeLenient_self fun c hm =>
      h c (List.mem_append_right key (List.mem_cons_of_mem _ hm))
    cases value with
    | nil => exact .inr ⟨key, hkey, rfl, by simp [hk, hv]⟩
    | cons c value => exact .inl (by simp [requirementText, hk, hv])

theorem pieceRequirement_of_not_mem {key : Text} (h : ∀ c ∈ key, Text.Form.ValueKept c)
    (hkey : '=' ∉ key) :
    pieceRequirement key = .present key := by
  rw [pieceRequirement, Text.cut?_eq_none_iff.mpr hkey]
  simp [Text.Form.decodeLenient_self h]

theorem requirementShown_of_mem {uri t : Text} (hu : Plain uri) (hf : '#' ∉ uri)
    (ht : uriQuery? uri = some t) {r : QueryRequirement} (hr : r ∈ requirements t)
    (hkey : r.key ≠ []) : RequirementShown r := by
  have hmark : '?' ∉ t := by
    have hcount := hu.mark
    rw [eq_of_uriQuery? ht, List.count_append, List.count_cons_self] at hcount
    exact List.count_eq_zero.mp (by omega)
  have huri {c : Char} (hc : c ∈ t) : c ∈ uri := by
    rw [eq_of_uriQuery? ht]
    exact List.mem_append_right _ (List.mem_cons_of_mem _ hc)
  rw [requirements_eq_map] at hr
  obtain ⟨piece, hp, rfl⟩ := List.mem_map.mp hr
  have hsplit := (List.mem_filter.mp hp).1
  have hmem {c : Char} (hc : c ∈ piece) : c ∈ t := Text.mem_of_mem_split hsplit hc
  have hampersand : '&' ∉ piece := Text.not_mem_of_mem_split hsplit
  have hkept : ∀ c ∈ piece, Text.Form.ValueKept c := fun c hc =>
    ⟨fun he => hu.percent (he ▸ huri (hmem hc)), fun he => hampersand (he ▸ hc),
      fun he => hu.plus t ht (he ▸ hmem hc)⟩
  rcases requirementText_pieceRequirement hkept with he | ⟨key, hn, rfl, he⟩
  · exact ⟨by rw [he], by simpa [he] using (List.mem_filter.mp hp).2, by rwa [he],
      fun hc => hmark (hmem (he ▸ hc)), fun hc => hf (huri (hmem (he ▸ hc)))⟩
  · rw [he] at hkey ⊢
    have hfront {c : Char} (hc : c ∈ key) : c ∈ key ++ ['='] := List.mem_append_left _ hc
    exact ⟨pieceRequirement_of_not_mem (fun c hc => hkept c (hfront hc)) hn, hkey,
      fun hc => hampersand (hfront hc), fun hc => hmark (hmem (hfront hc)),
      fun hc => hf (huri (hmem (hfront hc)))⟩

/-- A pattern that was read from a uri without escapes is read from its line. -/
theorem parse_shownUri_of_parse {m : Method} {uri : Text} {p : Pattern} (h : parse m uri = .ok p)
    (hu : Plain uri) :
    p.text = m.text ++ ' ' :: shownUri p ∧ parse m (shownUri p) = .ok p := by
  have hrules := (Reachable.parse h).rules
  have hhost := host_of_parse h
  obtain ⟨_, _, hf, segments, hsegments, hparts⟩ := parse_eq_ok_iff.mp h
  obtain ⟨_, _, _, hp⟩ := ofParts_eq_ok_iff.mp hparts
  obtain rfl : p.method = m := congrArg Pattern.method hp
  obtain rfl : p.path = segments := congrArg Pattern.path hp
  have hquery : p.query = _ := congrArg Pattern.query hp
  refine ⟨text_eq_of_host hhost, parse_shownUri hrules hhost (segmentShown_of_mem hu hf hsegments)
    fun r hr => ?_⟩
  have hmem := hr
  rw [hquery, List.mem_mergeSort] at hmem
  cases ht : uriQuery? uri with
  | none =>
    rw [ht] at hmem
    cases hmem
  | some t =>
    rw [ht] at hmem
    exact requirementShown_of_mem hu hf ht hmem (hrules.query.key_ne_nil r hr)

/-- A pattern that was read from a uri without escapes is shown, after its method, as a uri that
gives the pattern again and so the same line again. Two such patterns of one method have the same
line exactly if they are equal. -/
theorem parse_shown {m : Method} {uri : Text} {p : Pattern} (h : parse m uri = .ok p)
    (hu : Plain uri) :
    (∃ shown, p.text = m.text ++ ' ' :: shown ∧ parse m shown = .ok p ∧
      ∀ q, parse m shown = .ok q → q.text = p.text) ∧
      ∀ other q, parse m other = .ok q → Plain other → (p.text = q.text ↔ p = q) := by
  obtain ⟨htext, hparse⟩ := parse_shownUri_of_parse h hu
  refine ⟨⟨shownUri p, htext, hparse, fun q hq => ?_⟩,
    fun other q hq ho => ⟨fun he => ?_, congrArg text⟩⟩
  · rw [Except.ok.inj (hq.symm.trans hparse)]
  · obtain ⟨htext', hparse'⟩ := parse_shownUri_of_parse hq ho
    rw [htext, htext'] at he
    have hshown : shownUri p = shownUri q := (List.cons.inj (List.append_cancel_left he)).2
    rw [← hshown] at hparse'
    exact Except.ok.inj (hparse.symm.trans hparse')

/-- Braces inside a literal, names that are forgotten, requirements out of order, an empty
piece and an empty value. -/
theorem parse_shown_braces :
    let get : Method := ⟨"GET", by decide⟩
    let uri : Text := "/a\x7bb\x7dc/\x7bx\x7d\x7by\x7d/\x7b+r\x7d?z&k=v=w&&e="
    let line : Text := "/a\x7bb\x7dc/\x7blabel\x7d/\x7bgreedy+\x7d?e&z&k=v=w"
    let p : Pattern :=
      ⟨get, [.literal "a\x7bb\x7dc", .label, .greedy],
        [.present "e", .present "z", .value "k" "v=w"], none⟩
    parse get uri = .ok p ∧ Plain uri ∧ p.text = "GET ".toList ++ line ∧
      parse get line = .ok p := by
  intro get uri line p
  have hsent : uriQuery? uri = some "z&k=v=w&&e=".toList := by decide +kernel
  have hparse : parse get uri = .ok p := by
    have hsegments : pathSegments (uriPath uri) = .ok p.path := by decide +kernel
    have hquery : requirements "z&k=v=w&&e=" = [.present "z", .value "k" "v=w", .present "e"] := by
      decide +kernel
    have hperm : p.query.Perm [.present "z", .value "k" "v=w", .present "e"] :=
      (List.Perm.swap _ _ _).trans (.cons _ (.swap _ _ _))
    refine parse_eq_ok_iff.mpr ⟨by decide, by decide, by decide, p.path, hsegments, ?_⟩
    rw [hsent, Option.elim_some, hquery, ofParts_eq_ok_iff,
      ← QueryRequirement.eq_mergeSort_iff.mpr ⟨hperm, by decide⟩]
    exact ⟨by decide, pathFault?_eq_none_iff.mp (by decide), ⟨by decide, by decide⟩, rfl⟩
  have hplain : Plain uri := by
    refine ⟨by decide, fun query hq => ?_, by decide⟩
    obtain rfl := Option.some.inj (hsent.symm.trans hq)
    decide
  obtain ⟨⟨shown, htext, hback, _⟩, _⟩ := parse_shown hparse hplain
  have hline : p.text = "GET ".toList ++ line := by decide +kernel
  have hshown : shown = line := (List.cons.inj (List.append_cancel_left (htext.symm.trans hline))).2
  exact ⟨hparse, hplain, hline, hshown ▸ hback⟩

end Pattern

end RouteBook
