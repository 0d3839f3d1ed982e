import RouteBook.Proofs.Pattern.Faults
import RouteBook.Proofs.Pattern.Path
import RouteBook.Proofs.Table.FirstMatch

/-! # The labels of a match account for the path

Putting the labels of a match back into the path of its pattern gives the segments of the request
again. Only a greedy label holds more than one of them, with slashes between, and it is the last: a
path that the constructors let through has nothing after it. No label is empty, since no escape
stands for no character. -/

namespace RouteBook

/-! ## Decoded segments are not empty -/

namespace Text

theorem Utf8.encodeChar_ne_nil (c : Char) : Utf8.encodeChar c ≠ [] := by
  unfold Utf8.encodeChar
  dsimp only
  split
  · simp
  · split
    · simp
    · split <;> simp

theorem Percent.eq_nil_of_bytes? {s : Text} (h : Percent.bytes? s = some []) : s = [] := by
  unfold Percent.bytes? at h
  split at h
  · rfl
  · split at h
    · split at h
      · obtain ⟨b, _, h⟩ := Option.bind_eq_some_iff.mp h
        obtain ⟨bytes, _, he⟩ := Option.map_eq_some_iff.mp h
        cases he
      · cases h
    · obtain ⟨bytes, _, he⟩ := Option.map_eq_some_iff.mp h
      exact absurd (List.append_eq_nil_iff.mp he).1 (Utf8.encodeChar_ne_nil _)

/-- Nothing but the empty text stands for it. -/
theorem Percent.eq_nil_of_decode? {s : Text} (h : Percent.decode? s = some []) : s = [] := by
  obtain ⟨bytes, hb, hd⟩ := Option.bind_eq_some_iff.mp h
  rw [Utf8.decode?_eq_some_iff] at hd
  subst hd
  exact eq_nil_of_bytes? hb

end Text

namespace Request

theorem ne_nil_of_segments? {path : Text} {segments : List Text}
    (h : segments? path = some segments) :
    ∀ s ∈ segments, s ≠ [] := by
  intro s hs
  rw [segments?, Text.mapM_eq_some_iff] at h
  obtain ⟨raw, hraw, hd⟩ := List.mem_map.mp (h ▸ List.mem_map_of_mem hs)
  rintro rfl
  have hne := (List.mem_filter.mp hraw).2
  rw [Text.Percent.eq_nil_of_decode? hd] at hne
  cases hne

end Request

namespace Pattern

/-! ## What labels capture -/

/-- The labels that a path captures of the segments. Nothing comes after a greedy label. -/
inductive Captures : List PathSegment → List Text → List Text → Prop where
  | nil : Captures [] [] []
  | literal (t : Text) {path : List PathSegment} {segments labels : List Text} :
    Captures path segments labels → Captures (.literal t :: path) (t :: segments) labels
  | label (s : Text) {path : List PathSegment} {segments labels : List Text} :
    Captures path segments labels → Captures (.label :: path) (s :: segments) (s :: labels)
  | greedy (s : Text) (segments : List Text) :
    Captures [.greedy] (s :: segments) [Text.join ['/'] (s :: segments)]

theorem captures_of_matchPath {path : List PathSegment} (hp : PathOk path)
    {segments labels : List Text} (h : matchPath path segments = some labels) :
    Captures path segments labels := by
  induction hp generalizing segments labels with
  | nil =>
    cases segments with
    | nil =>
      cases h
      exact .nil
    | cons s segments => cases h
  | @literal t _ _ _ ih =>
    cases segments with
    | nil => cases h
    | cons s segments =>
      rw [matchPath] at h
      split at h
      · next hs =>
        subst hs
        exact .literal s (ih h)
      · cases h
  | label _ ih =>
    cases segments with
    | nil => cases h
    | cons s segments =>
      obtain ⟨more, hm, rfl⟩ := Option.map_eq_some_iff.mp h
      exact .label s (ih hm)
  | greedy =>
    cases segments with
    | nil => cases h
    | cons s segments =>
      cases h
      exact .greedy s segments

/-- The path with the labels, in order, in the places of its label segments. -/
def restore : List PathSegment → List Text → List Text
  | .literal t :: path, labels => t :: restore path labels
  | .label :: path, label :: labels => label :: restore path labels
  | .greedy :: path, label :: labels => label :: restore path labels
  | _, _ => []

namespace Captures

variable {path : List PathSegment} {segments labels : List Text}

theorem length_labels (h : Captures path segments labels) :
    labels.length = path.count .label + path.count .greedy := by
  induction h with
  | nil => rfl
  | literal t _ ih => simpa using ih
  | label s _ ih =>
    rw [List.length_cons, ih, List.count_cons_self, List.count_cons_of_ne (by simp)]
    omega
  | greedy s segments => rfl

theorem label_ne_nil (h : Captures path segments labels) (hs : ∀ s ∈ segments, s ≠ []) :
    ∀ label ∈ labels, label ≠ [] := by
  induction h with
  | nil => exact nofun
  | literal t _ ih => exact ih (List.forall_mem_cons.mp hs).2
  | label s _ ih =>
    obtain ⟨hne, hs⟩ := List.forall_mem_cons.mp hs
    exact List.forall_mem_cons.mpr ⟨hne, ih hs⟩
  | greedy s segments =>
    rw [List.forall_mem_singleton]
    exact Text.join_ne_nil (List.forall_mem_cons.mp hs).1 segments

/-- Without a greedy label every label is one segment. A greedy label takes the place of the
segments that are left. -/
theorem restore_eq (h : Captures path segments labels) :
    (.greedy ∉ path ∧ restore path labels = segments) ∨
      ∃ init front rest, path = init ++ [.greedy] ∧ init.length = front.length ∧
        segments = front ++ rest ∧ rest ≠ [] ∧
        restore path labels = front ++ [Text.join ['/'] rest] := by
  induction h with
  | nil => exact .inl ⟨nofun, rfl⟩
  | literal t _ ih =>
    rcases ih with ⟨hg, he⟩ | ⟨init, front, rest, rfl, hl, rfl, hr, he⟩
    · exact .inl ⟨by simpa using hg, congrArg (t :: ·) he⟩
    · exact .inr ⟨.literal t :: init, t :: front, rest, rfl, congrArg (· + 1) hl, rfl, hr,
        congrArg (t :: ·) he⟩
  | label s _ ih =>
    rcases ih with ⟨hg, he⟩ | ⟨init, front, rest, rfl, hl, rfl, hr, he⟩
    · exact .inl ⟨by simpa using hg, congrArg (s :: ·) he⟩
    · exact .inr ⟨.label :: init, s :: front, rest, rfl, congrArg (· + 1) hl, rfl, hr,
        congrArg (s :: ·) he⟩
  | greedy s segments =>
    exact .inr ⟨[], [], s :: segments, rfl, rfl, rfl, List.cons_ne_nil _ _, rfl⟩

end Captures

/-- What the labels of a match hold: each one segment, but for a greedy label,
which holds the rest. -/
structure Accounts (path : List PathSegment) (segments labels : List Text) : Prop where
  length : labels.length = path.count .label + path.count .greedy
  ne_nil : ∀ label ∈ labels, label ≠ []
  exact : .greedy ∉ path → restore path labels = segments
  rest : .greedy ∈ path → path.getLast? = some .greedy ∧ path.length ≤ segments.length ∧
    restore path labels =
      segments.take (path.length - 1) ++ [Text.join ['/'] (segments.drop (path.length - 1))]
  join : Text.join ['/'] (restore path labels) = Text.join ['/'] segments

theorem Captures.accounts {path : List PathSegment} {segments labels : List Text}
    (h : Captures path segments labels) (hs : ∀ s ∈ segments, s ≠ []) :
    Accounts path segments labels := by
  have hl := h.length_labels
  have hn := h.label_ne_nil hs
  rcases h.restore_eq with ⟨hg, he⟩ | ⟨init, front, rest, rfl, hlength, rfl, hr, he⟩
  · exact ⟨hl, hn, fun _ => he, fun h => absurd h hg, by rw [he]⟩
  · have hfront : (init ++ [PathSegment.greedy]).length - 1 = front.length := by simp [hlength]
    refine ⟨hl, hn, fun h => absurd (by simp) h, fun _ => ⟨by simp, ?_, ?_⟩, ?_⟩
    · have := List.length_pos_iff.mpr hr
      simp only [List.length_append, List.length_singleton]
      omega
    · rw [hfront, List.take_left, List.drop_left, he]
    · rw [he, Text.join_concat_join hr]

/-! ## What a path matches -/

/-- The segments are as many as the path asks for and hold its literals. -/
structure Suits (path : List PathSegment) (segments : List Text) : Prop where
  length : if .greedy ∈ path then path.length ≤ segments.length else segments.length = path.length
  literal : ∀ (i : Nat) (t : Text), path[i]? = some (.literal t) → segments[i]? = some t

theorem not_suits_nil (segment : PathSegment) (path : List PathSegment) :
    ¬ Suits (segment :: path) [] := by
  intro h
  have hl := h.length
  split at hl <;> simp at hl

theorem suits_cons_iff {segment : PathSegment} (hg : segment ≠ .greedy) {path : List PathSegment}
    {s : Text} {segments : List Text} :
    Suits (segment :: path) (s :: segments) ↔
      (∀ t, segment = .literal t → s = t) ∧ Suits path segments := by
  have hmem : .greedy ∈ segment :: path ↔ .greedy ∈ path := by simp [hg.symm]
  constructor
  · intro ⟨hl, ht⟩
    refine ⟨fun t he => ?_, by simpa [hmem] using hl, fun i t hi => ht (i + 1) t hi⟩
    exact Option.some.inj (ht 0 t (congrArg some he))
  · intro ⟨hs, hl, ht⟩
    refine ⟨by simpa [hmem] using hl, fun i t hi => ?_⟩
    cases i with
    | zero => exact congrArg some (hs t (Option.some.inj hi))
    | succ i => exact ht i t hi

/-- Matching is decided by the number of segments and by the literals. -/
theorem matchesPath_iff_suits {path : List PathSegment} (hp : PathOk path) {segments : List Text} :
    matchesPath path segments = true ↔ Suits path segments := by
  induction hp generalizing segments with
  | nil =>
    rw [matchesPath_nil, List.isEmpty_iff]
    exact ⟨fun h => ⟨by simp [h], nofun⟩, fun h => by simpa using h.length⟩
  | @literal t path _ _ ih =>
    cases segments with
    | nil => simp [not_suits_nil]
    | cons s segments => simp [suits_cons_iff, ih]
  | @label path _ ih =>
    cases segments with
    | nil => simp [not_suits_nil]
    | cons s segments => simp [suits_cons_iff, ih]
  | greedy =>
    cases segments with
    | nil => simp [not_suits_nil]
    | cons s segments =>
      refine iff_of_true (matchesPath_greedy [] s segments) ⟨by simp, fun i t hi => ?_⟩
      cases List.mem_singleton.mp (List.mem_of_getElem? hi)

end Pattern

namespace RouteTable

variable {H : Type}

/-- The labels of a match hold all of the path between them and the literals of the pattern.
Conversely a pattern matches whatever path has as many segments as it asks for and its
literals in their places. -/
theorem labels_account {t : RouteTable H} (ht : ∀ route ∈ t.routes, route.pattern.Reachable) :
    (∀ r m, t.resolve r = .matched m → ∃ segments, Request.segments? r.path = some segments ∧
      Pattern.Accounts m.pattern.path segments m.labels) ∧
      ∀ p : Pattern, p.Reachable → ∀ segments,
        (Pattern.matchPath p.path segments).isSome = true ↔ Pattern.Suits p.path segments := by
  refine ⟨fun r m h => ?_, fun p hp segments => ?_⟩
  · have hans := answers_resolve t r
    rw [h] at hans
    cases hans with
    | @matched target i route labels hd hi _ _ _ hm =>
      obtain ⟨segments, hs, hd⟩ := Option.bind_eq_some_iff.mp hd
      obtain ⟨params, _, hd⟩ := Option.bind_eq_some_iff.mp hd
      cases hd
      have hpath := Pattern.pathOk_iff_pathRules.mpr (ht route (List.mem_of_getElem? hi)).rules.path
      exact ⟨segments, hs,
        (Pattern.captures_of_matchPath hpath hm).accounts (Request.ne_nil_of_segments? hs)⟩
  · exact Pattern.matchesPath_iff_suits (Pattern.pathOk_iff_pathRules.mpr hp.rules.path)

/-- An escaped slash stays in its label, and the greedy label has the slashes of the segments it
takes. Two segments are too few. -/
theorem labels_account_escaped_slash :
    let get : Method := ⟨"GET", by decide⟩
    let p : Pattern := ⟨get, [.literal "f", .label, .greedy], [], none⟩
    let t : RouteTable Nat := ⟨[⟨p, 0⟩], defaultSlowMatch⟩
    let r : Request := ⟨get, "/f//a%2Fb/c/d/", none, none⟩
    p.Reachable ∧ t.resolve r = .matched ⟨0, p, 0, ["a/b", "c/d"]⟩ ∧
      Pattern.Accounts p.path ["f", "a/b", "c", "d"] ["a/b", "c/d"] ∧
      (Pattern.matchPath p.path ["f", "a/b"]).isSome = false := by
  intro get p t r
  have hp : p.Reachable := .ofParts <| Pattern.ofParts_of_sorted (by decide)
    (Pattern.pathFault?_eq_none_iff.mp (by decide)) ⟨nofun, .nil⟩ .nil
  have ht : ∀ route ∈ t.routes, route.pattern.Reachable := List.forall_mem_singleton.mpr hp
  have hs : Request.segments? r.path = some ["f".toList, "a/b".toList, "c".toList, "d".toList] := by
    decide +kernel
  have hd : r.decode? = some ⟨["f", "a/b", "c", "d"], ⟨[]⟩⟩ := by decide +kernel
  have hm : t.resolve r = .matched ⟨0, p, 0, ["a/b", "c/d"]⟩ :=
    resolve_single hd p 0 defaultSlowMatch
  obtain ⟨haccount, hmatch⟩ := labels_account ht
  obtain ⟨segments, hsegments, ha⟩ := haccount r _ hm
  obtain rfl := Option.some.inj (hs.symm.trans hsegments)
  refine ⟨hp, hm, ha, Bool.eq_false_iff.mpr fun h => ?_⟩
  exact absurd ((hmatch p hp _).mp h).length (by decide)

end RouteTable

end RouteBook
