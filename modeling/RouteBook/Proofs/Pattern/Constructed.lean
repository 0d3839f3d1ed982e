import RouteBook.Pattern.Host
import RouteBook.Pattern.Parse
import RouteBook.Proofs.Text.Pieces

/-! # What the constructors of patterns check

Each scan for a fault is read back as a property of the whole list, and each constructor
as the conditions under which it returns a pattern. Later proofs use these and never
open the scans again. -/

namespace RouteBook.Pattern

/-! ## Paths -/

/-- No literal is empty, and nothing follows a greedy label. -/
inductive PathOk : List PathSegment → Prop where
  | nil : PathOk []
  | literal {t : Text} {rest : List PathSegment} :
    t ≠ [] → PathOk rest → PathOk (.literal t :: rest)
  | label {rest : List PathSegment} : PathOk rest → PathOk (.label :: rest)
  | greedy : PathOk [.greedy]

theorem pathFault?_true_eq_none_iff {path : List PathSegment} :
    pathFault? true path = none ↔ path = [] := by
  cases path with
  | nil => simp [pathFault?]
  | cons segment rest =>
    cases segment with
    | literal t => cases t <;> simp [pathFault?]
    | label => simp [pathFault?]
    | greedy => simp [pathFault?]

theorem pathFault?_eq_none_iff {path : List PathSegment} :
    pathFault? false path = none ↔ PathOk path := by
  induction path with
  | nil => exact ⟨fun _ => .nil, fun _ => rfl⟩
  | cons segment rest ih =>
    cases segment with
    | literal t =>
      cases t with
      | nil =>
        refine ⟨(by cases ·), fun h => ?_⟩
        cases h with
        | literal ht _ => exact absurd rfl ht
      | cons c t =>
        refine ⟨fun h => .literal (by simp) (ih.mp h), fun h => ?_⟩
        cases h with
        | literal _ hr => exact ih.mpr hr
    | label =>
      refine ⟨fun h => .label (ih.mp h), fun h => ?_⟩
      cases h with
      | label hr => exact ih.mpr hr
    | greedy =>
      have hr : pathFault? false (.greedy :: rest) = pathFault? true rest := rfl
      rw [hr, pathFault?_true_eq_none_iff]
      refine ⟨fun h => h ▸ .greedy, fun h => ?_⟩
      cases h
      rfl

/-! ## Queries -/

/-- No key is empty and no two are the same. -/
structure QueryOk (query : List QueryRequirement) : Prop where
  key_ne_nil : ∀ r ∈ query, r.key ≠ []
  keys_nodup : (query.map (·.key)).Nodup

theorem QueryOk.perm {query sorted : List QueryRequirement} (h : QueryOk query)
    (hp : sorted.Perm query) :
    QueryOk sorted :=
  ⟨fun r hr => h.key_ne_nil r (hp.mem_iff.mp hr), (hp.map (·.key)).nodup_iff.mpr h.keys_nodup⟩

theorem queryFault?_eq_none_iff {seen : List Text} {query : List QueryRequirement} :
    queryFault? seen query = none ↔ QueryOk query ∧ ∀ r ∈ query, r.key ∉ seen := by
  induction query generalizing seen with
  | nil =>
    refine ⟨fun _ => ⟨⟨nofun, .nil⟩, nofun⟩, fun _ => rfl⟩
  | cons r rest ih =>
    unfold queryFault?
    constructor
    · intro h
      split at h
      · cases h
      · next hk =>
        split at h
        · cases h
        · next hs =>
          obtain ⟨⟨hne, hnd⟩, hseen⟩ := ih.mp h
          refine ⟨⟨List.forall_mem_cons.mpr ⟨hk, hne⟩, ?_⟩,
            List.forall_mem_cons.mpr ⟨hs, fun s hm hc => ?_⟩⟩
          · rw [List.map_cons, List.nodup_cons]
            refine ⟨fun hm => ?_, hnd⟩
            obtain ⟨s, hs, he⟩ := List.mem_map.mp hm
            exact hseen s hs (he ▸ List.mem_cons_self)
          · exact hseen s hm (List.mem_cons_of_mem _ hc)
    · rintro ⟨⟨hne, hnd⟩, hseen⟩
      obtain ⟨hk, hne⟩ := List.forall_mem_cons.mp hne
      obtain ⟨hs, hseen⟩ := List.forall_mem_cons.mp hseen
      rw [List.map_cons, List.nodup_cons] at hnd
      rw [if_neg hk, if_neg hs, ih]
      refine ⟨⟨hne, hnd.2⟩, fun s hm hc => ?_⟩
      rcases List.mem_cons.mp hc with he | hc
      · exact hnd.1 (he ▸ List.mem_map_of_mem hm)
      · exact hseen s hm hc

theorem ofParts_eq_ok_iff {m : Method} {path : List PathSegment} {query : List QueryRequirement}
    {p : Pattern} :
    ofParts m path query = .ok p ↔
      m.isSupported = true ∧ PathOk path ∧ QueryOk query ∧
        p = ⟨m, path, query.mergeSort QueryRequirement.le, none⟩ := by
  have hquery : queryFault? [] query = none ↔ QueryOk query := by simp [queryFault?_eq_none_iff]
  rw [← pathFault?_eq_none_iff, ← hquery]
  unfold ofParts
  cases hm : m.isSupported with
  | false => simp
  | true =>
    cases hp : pathFault? false path with
    | some e => simp
    | none =>
      cases hq : queryFault? [] query with
      | some e => simp
      | none => simp [eq_comm]

theorem host_of_ofParts {m : Method} {path : List PathSegment} {query : List QueryRequirement}
    {p : Pattern} (h : ofParts m path query = .ok p) : p.host = none :=
  congrArg Pattern.host (ofParts_eq_ok_iff.mp h).2.2.2

/-! ## Uris -/

/-- The path of a uri. -/
def uriPath (uri : Text) : Text := ((Text.cut? '?' uri).map (·.1)).getD uri

/-- The query text of a uri, if it has one. -/
def uriQuery? (uri : Text) : Option Text := (Text.cut? '?' uri).map (·.2)

theorem not_mem_uriPath (uri : Text) : '?' ∉ uriPath uri := by
  unfold uriPath
  cases h : Text.cut? '?' uri with
  | none => exact Text.cut?_eq_none_iff.mp h
  | some parts => exact (Text.eq_append_of_cut? h).2

theorem uri_of_not_mem {t : Text} (h : '?' ∉ t) : uriPath t = t ∧ uriQuery? t = none := by
  rw [uriPath, uriQuery?, Text.cut?_eq_none_iff.mpr h]
  exact ⟨rfl, rfl⟩

theorem uri_append {front : Text} (h : '?' ∉ front) (back : Text) :
    uriPath (front ++ '?' :: back) = front ∧ uriQuery? (front ++ '?' :: back) = some back := by
  rw [uriPath, uriQuery?, Text.cut?_append h]
  exact ⟨rfl, rfl⟩

theorem eq_of_uriQuery? {uri query : Text} (h : uriQuery? uri = some query) :
    uri = uriPath uri ++ '?' :: query := by
  unfold uriQuery? uriPath at *
  cases hc : Text.cut? '?' uri with
  | none =>
    rw [hc] at h
    cases h
  | some parts =>
    rw [hc] at h
    cases h
    exact (Text.eq_append_of_cut? hc).1

theorem mem_of_mem_uriPath {uri : Text} {c : Char} (h : c ∈ uriPath uri) : c ∈ uri := by
  unfold uriPath at h
  cases hc : Text.cut? '?' uri with
  | none => simpa [hc] using h
  | some parts =>
    rw [(Text.eq_append_of_cut? hc).1]
    rw [hc] at h
    exact List.mem_append_left _ h

theorem parse_eq_ok_iff {m : Method} {uri : Text} {p : Pattern} :
    parse m uri = .ok p ↔
      uri.head? = some '/' ∧ uri.getLast? ≠ some '?' ∧ '#' ∉ uri ∧
        ∃ segments, pathSegments (uriPath uri) = .ok segments ∧
          ofParts m segments ((uriQuery? uri).elim [] requirements) = .ok p := by
  unfold parse uriPath uriQuery?
  by_cases hs : uri.head? = some '/'
  · by_cases hq : uri.getLast? = some '?'
    · simp [hs, hq]
    · by_cases hf : '#' ∈ uri
      · simp [hs, hq, hf]
      · cases hc : Text.cut? '?' uri with
        | none => cases hp : pathSegments uri <;> simp [hs, hq, hf, hp]
        | some parts => cases hp : pathSegments parts.1 <;> simp [hs, hq, hf, hp]
  · simp [hs]

theorem host_of_parse {m : Method} {uri : Text} {p : Pattern} (h : parse m uri = .ok p) :
    p.host = none := by
  obtain ⟨_, _, _, segments, _, hparts⟩ := parse_eq_ok_iff.mp h
  exact host_of_ofParts hparts

/-- The pieces of a path between its slashes. -/
def rawSegments (path : Text) : List Text := (Text.split '/' path).drop 1

theorem pathSegments_eq_ok {path : Text} {segments : List PathSegment}
    (h : pathSegments path = .ok segments) :
    segments = [] ∨ (rawSegments path).map pathSegment = segments.map .ok := by
  unfold pathSegments at h
  split at h
  · cases h
    exact .inl rfl
  · exact .inr (Text.mapM_eq_ok_iff.mp h)

theorem decode?_of_pathSegment {raw t : Text} (h : pathSegment raw = .ok (.literal t)) :
    raw ≠ [] ∧ Text.Percent.decode? raw = some t := by
  unfold pathSegment at h
  split at h
  · cases h
  · split at h
    · cases h
    · split at h
      · exfalso
        unfold labelSegment at h
        split at h
        · split at h <;> cases h
        · split at h <;> cases h
      · cases h
      · cases h
      · split at h
        · cases h
        · next hd =>
          split at h
          · cases h
          · cases h
            exact ⟨by simp, hd⟩

end RouteBook.Pattern
