import RouteBook.Proofs.Pattern.Faults
import RouteBook.Proofs.Pattern.Path
import RouteBook.Proofs.Table.FirstMatch

/-! # Duplicates are the routes that match the same requests

Method, path, query and host of a pattern are compared one at a time: a request that one
pattern matches is kept as it is but for the part in question, and that part is varied
over all that a request can send. What each part has to satisfy for the comparison is what
the constructors check. -/

namespace RouteBook

namespace Pattern

/-- A pattern that the constructors return, with a host prefix that was read
from text if it has one. -/
inductive Constructed : Pattern → Prop where
  | ofParts {m : Method} {path : List PathSegment} {query : List QueryRequirement} {p : Pattern} :
    ofParts m path query = .ok p → Constructed p
  | parse {m : Method} {uri : Text} {p : Pattern} : parse m uri = .ok p → Constructed p
  | withHost {p q : Pattern} {t : Text} {segments : List HostSegment} :
    Constructed p → parseHost t = .ok segments → p.withHost segments = .ok q → Constructed q

/-- What the constructors check, part by part. -/
structure WellFormed (p : Pattern) : Prop where
  path : PathOk p.path
  query : QueryOk p.query
  sorted : p.query.Pairwise fun r s => QueryRequirement.le r s = true
  host : ∀ segments, p.host = some segments → HostWritten segments

theorem Constructed.reachable {p : Pattern} (h : Constructed p) : Reachable p := by
  induction h with
  | ofParts h => exact .ofParts h
  | parse h => exact .parse h
  | withHost _ _ h ih => exact .withHost ih h

theorem Constructed.hostWritten {p : Pattern} (h : Constructed p) {segments : List HostSegment}
    (hs : p.host = some segments) : HostWritten segments := by
  induction h with
  | ofParts h => cases hs.symm.trans (host_of_ofParts h)
  | parse h => cases hs.symm.trans (host_of_parse h)
  | withHost _ hparse h _ =>
    obtain ⟨hw, rfl⟩ := hostWritten_of_withHost hparse h
    exact Option.some.inj hs ▸ hw

theorem Constructed.wellFormed {p : Pattern} (h : Constructed p) : WellFormed p :=
  have hr := h.reachable.rules
  ⟨pathOk_iff_pathRules.mpr hr.path, hr.query, hr.sorted, fun _ => h.hostWritten⟩

/-! ## Requests that a pattern matches -/

/-- The pattern as the only route of a table matches the request. -/
def Matches (p : Pattern) (r : Request) : Prop :=
  ((⟨[⟨p, ()⟩], RouteTable.defaultSlowMatch⟩ : RouteTable Unit).resolve r).isMatched = true

theorem matches_iff {p : Pattern} {r : Request} {target : Target} (hd : r.decode? = some target) :
    p.Matches r ↔ p.method = r.method ∧ p.fits target r.host = true := by
  rw [Matches, RouteTable.resolve_single hd]
  cases hl : p.labels? target r.host with
  | none => simp [Resolution.isMatched, labels?_eq_none_iff.mp hl]
  | some labels =>
    have hf := (labels?_eq_some_iff.mp hl).1
    by_cases hm : p.method = r.method <;> simp [Resolution.isMatched, hm, hf]

theorem matches_written {p : Pattern} {m : Method} {segments : List Text}
    (hs : ∀ s ∈ segments, s ≠ []) {pairs : List (Text × Text)} {host : Option Text} :
    p.Matches (Request.written m segments pairs host) ↔
      p.method = m ∧ p.fits ⟨segments, Request.params pairs⟩ host = true :=
  matches_iff (Request.decode?_written m hs pairs host)

theorem fits_iff {p : Pattern} {segments : List Text} {params : QueryParams} {host : Option Text} :
    p.fits ⟨segments, params⟩ host = true ↔
      matchesPath p.path segments = true ∧ p.query.all (requirementMet params) = true ∧
        p.matchHost host = true := by
  simp only [fits, matchesPath, matchQuery, Bool.and_eq_true, and_assoc]

theorem matchHost_none (p : Pattern) : p.matchHost none = true := by
  cases hp : p.host <;> simp [matchHost, hp]

theorem all_sampleParams (p : Pattern) (free : Text) :
    p.query.all (requirementMet (Request.params (sampleParams free p.query))) = true :=
  List.all_eq_true.mpr (requirementMet_sampleParams free)

/-! ## One part at a time -/

/-- The second pattern matches what the first does. -/
def MatchesNoMore (p q : Pattern) : Prop := ∀ r, p.Matches r → q.Matches r

variable {p q : Pattern}

theorem MatchesNoMore.method (h : MatchesNoMore p q) (hp : WellFormed p) : q.method = p.method := by
  have hs := ne_nil_of_mem_sampleSegments hp.path
  have hfits :=
    fits_iff.mpr ⟨matchesPath_sampleSegments hp.path, all_sampleParams p [], matchHost_none p⟩
  exact ((matches_written hs).mp (h _ ((matches_written hs).mpr ⟨rfl, hfits⟩))).1

theorem MatchesNoMore.fits (h : MatchesNoMore p q) {segments : List Text}
    (hs : ∀ s ∈ segments, s ≠ []) {pairs : List (Text × Text)} {host : Option Text}
    (hf : p.fits ⟨segments, Request.params pairs⟩ host = true) :
    q.fits ⟨segments, Request.params pairs⟩ host = true :=
  ((matches_written hs).mp (h _ ((matches_written hs).mpr ⟨rfl, hf⟩))).2

theorem MatchesNoMore.path (h : MatchesNoMore p q) {segments : List Text}
    (hs : ∀ s ∈ segments, s ≠ []) (hm : matchesPath p.path segments = true) :
    matchesPath q.path segments = true :=
  (fits_iff.mp (h.fits hs (fits_iff.mpr ⟨hm, all_sampleParams p [], matchHost_none p⟩))).1

theorem MatchesNoMore.query (h : MatchesNoMore p q) (hp : WellFormed p) {pairs : List (Text × Text)}
    (hm : p.query.all (requirementMet (Request.params pairs)) = true) :
    q.query.all (requirementMet (Request.params pairs)) = true :=
  (fits_iff.mp (h.fits (ne_nil_of_mem_sampleSegments hp.path)
    (fits_iff.mpr ⟨matchesPath_sampleSegments hp.path, hm, matchHost_none p⟩))).2.1

theorem MatchesNoMore.host (h : MatchesNoMore p q) (hp : WellFormed p) {host : Option Text}
    (hm : p.matchHost host = true) : q.matchHost host = true :=
  (fits_iff.mp (h.fits (ne_nil_of_mem_sampleSegments hp.path)
    (fits_iff.mpr ⟨matchesPath_sampleSegments hp.path, all_sampleParams p [], hm⟩))).2.2

/-- Well-formed patterns that match the same requests are equal. -/
theorem WellFormed.ext (hp : WellFormed p) (hq : WellFormed q)
    (h : ∀ r, p.Matches r ↔ q.Matches r) :
    p = q := by
  have hpq : MatchesNoMore p q := fun r => (h r).mp
  have hqp : MatchesNoMore q p := fun r => (h r).mpr
  have hpath : p.path = q.path := path_ext hp.path hq.path fun segments hs =>
    Bool.eq_iff_iff.mpr ⟨hpq.path hs, hqp.path hs⟩
  have hperm : p.query.Perm q.query := query_perm hp.query hq.query fun pairs =>
    Bool.eq_iff_iff.mpr ⟨hpq.query hp, hqp.query hq⟩
  have hquery : p.query = q.query :=
    hperm.eq_of_pairwise (fun _ _ _ _ => QueryRequirement.le_antisymm) hp.sorted hq.sorted
  have hhost : p.host = q.host := host_ext hp.host hq.host fun host =>
    Bool.eq_iff_iff.mpr ⟨hpq.host hp, hqp.host hq⟩
  have hmethod := hqp.method hq
  cases p
  cases q
  simp_all

end Pattern

/-- The first position whose element occurs before, and the one position where it does. -/
structure FirstRepeat {α : Type} (xs : List α) (index first : Nat) (x : α) : Prop where
  here : xs[index]? = some x
  before : first < index ∧ xs[first]? = some x
  only : ∀ i < index, xs[i]? = some x → i = first
  least : ∀ j < index, ∀ i < j, xs[i]? ≠ xs[j]?

theorem FirstRepeat.unique {α : Type} {xs : List α} {index other first second : Nat} {x y : α}
    (h : FirstRepeat xs index first x) (h' : FirstRepeat xs other second y) :
    index = other ∧ first = second ∧ x = y := by
  have hle {index other first second : Nat} {x y : α} (h : FirstRepeat xs index first x)
      (h' : FirstRepeat xs other second y) : other ≤ index := by
    by_contra hlt
    exact h'.least index (by omega) first h.before.1 (h.before.2.trans h.here.symm)
  obtain rfl : index = other := Nat.le_antisymm (hle h' h) (hle h h')
  obtain rfl : x = y := Option.some.inj (h.here.symm.trans h'.here)
  exact ⟨rfl, h'.only first h.before.1 h.before.2, rfl⟩

namespace RouteTable

variable {H : Type}

/-! ## The check for duplicates -/

theorem duplicate?_eq_none_iff {earlier patterns : List Pattern} :
    duplicate? earlier patterns = none ↔ patterns.Nodup ∧ ∀ p ∈ patterns, p ∉ earlier := by
  induction patterns generalizing earlier with
  | nil => simp [duplicate?]
  | cons p rest ih =>
    rw [duplicate?, List.nodup_cons, List.forall_mem_cons]
    cases hi : earlier.idxOf? p with
    | some first =>
      have hm : p ∈ earlier := List.isSome_idxOf?.mp (hi ▸ rfl)
      simp [hm]
    | none =>
      rw [List.idxOf?_eq_none_iff] at hi
      simp only [ih, List.mem_append, List.mem_singleton, not_or]
      constructor
      · rintro ⟨hn, he⟩
        exact ⟨⟨fun hm => (he p hm).2 rfl, hn⟩, hi, fun q hq => (he q hq).1⟩
      · rintro ⟨⟨hm, hn⟩, _, he⟩
        exact ⟨hn, fun q hq => ⟨he q hq, fun hqp => hm (hqp ▸ hq)⟩⟩

theorem firstRepeat_of_idxOf? {earlier rest : List Pattern} {p : Pattern} {first : Nat}
    (hn : earlier.Nodup) (h : earlier.idxOf? p = some first) :
    FirstRepeat (earlier ++ p :: rest) earlier.length first p := by
  obtain ⟨hlt, hfirst, _⟩ := List.idxOf?_eq_some_iff.mp h
  have hget : ∀ i < earlier.length, (earlier ++ p :: rest)[i]? = earlier[i]? := fun i hi =>
    List.getElem?_append_left hi
  have hsome : earlier[first]? = some p := by rw [List.getElem?_eq_getElem hlt, hfirst]
  constructor
  · simp
  · exact ⟨hlt, by rw [hget first hlt, hsome]⟩
  · intro i hi he
    rw [hget i hi, ← hsome] at he
    exact (List.getElem?_inj hi hn).mp he
  · intro j hj i hij he
    rw [hget j hj, hget i (by omega)] at he
    have := (List.getElem?_inj (by omega) hn).mp he
    omega

theorem firstRepeat_of_duplicate? {earlier patterns : List Pattern} {index first : Nat}
    {p : Pattern} (hn : earlier.Nodup)
    (h : duplicate? earlier patterns = some (.duplicateRoute index first p)) :
    FirstRepeat (earlier ++ patterns) index first p := by
  induction patterns generalizing earlier with
  | nil => cases h
  | cons q rest ih =>
    rw [duplicate?] at h
    split at h
    · cases h
      next hi => exact firstRepeat_of_idxOf? hn hi
    · next hi =>
      have hq : q ∉ earlier := List.idxOf?_eq_none_iff.mp hi
      have hn' : (earlier ++ [q]).Nodup := List.nodup_append.mpr ⟨hn, by simp, by grind⟩
      rw [List.append_cons]
      exact ih hn' h

theorem build_eq_ok_iff {routes : List (Route H)} {slow : Duration} {t : RouteTable H} :
    build routes slow = .ok t ↔ (routes.map (·.pattern)).Nodup ∧ t = ⟨routes, slow⟩ := by
  have hnone : duplicate? [] (routes.map (·.pattern)) = none ↔ (routes.map (·.pattern)).Nodup := by
    simp [duplicate?_eq_none_iff]
  rw [← hnone, build]
  cases duplicate? [] (routes.map (·.pattern)) with
  | none => simp [eq_comm]
  | some e => simp

theorem build_eq_error_iff {routes : List (Route H)} {slow : Duration} {index first : Nat}
    {p : Pattern} :
    build routes slow = .error (.duplicateRoute index first p) ↔
      FirstRepeat (routes.map (·.pattern)) index first p := by
  have hfound {index first : Nat} {p : Pattern} :
      duplicate? [] (routes.map (·.pattern)) = some (.duplicateRoute index first p) →
        FirstRepeat (routes.map (·.pattern)) index first p := firstRepeat_of_duplicate? .nil
  constructor
  · intro h
    rw [build] at h
    split at h
    · cases h
      next hd => exact hfound hd
    · cases h
  · intro h
    cases hb : build routes slow with
    | ok t =>
      have hn := (build_eq_ok_iff.mp hb).1
      have hlt := (List.getElem?_eq_some_iff.mp h.before.2).1
      have := (List.getElem?_inj hlt hn).mp (h.before.2.trans h.here.symm)
      have := h.before.1
      omega
    | error e =>
      rw [build] at hb
      split at hb
      · cases hb
        next hd =>
          obtain ⟨index', first', p'⟩ := e
          obtain ⟨rfl, rfl, rfl⟩ := (hfound hd).unique h
          rfl
      · cases hb

theorem build_error_iff {routes : List (Route H)} {slow : Duration} :
    (∃ index first pattern, build routes slow = .error (.duplicateRoute index first pattern)) ↔
      ¬ (routes.map (·.pattern)).Nodup := by
  cases hb : build routes slow with
  | ok t => simp [(build_eq_ok_iff.mp hb).1]
  | error e =>
    have hn : ¬ (routes.map (·.pattern)).Nodup := by
      intro hn
      rw [build_eq_ok_iff.mpr ⟨hn, rfl⟩] at hb
      cases hb
    obtain ⟨index, first, pattern⟩ := e
    simp [hn]

theorem not_nodup_iff {routes : List (Route H)} :
    ¬ (routes.map (·.pattern)).Nodup ↔
      ∃ (i j : Nat) (a b : Route H), i < j ∧ routes[i]? = some a ∧ routes[j]? = some b ∧
        a.pattern = b.pattern := by
  rw [List.nodup_iff_getElem?_ne_getElem?]
  simp only [List.length_map, List.getElem?_map, ne_eq, not_forall, not_not]
  constructor
  · rintro ⟨i, j, hij, hj, he⟩
    refine ⟨i, j, routes[i], routes[j], hij, List.getElem?_eq_getElem (by omega),
      List.getElem?_eq_getElem hj, ?_⟩
    rw [List.getElem?_eq_getElem (by omega), List.getElem?_eq_getElem hj] at he
    exact Option.some.inj he
  · rintro ⟨i, j, a, b, hij, ha, hb, he⟩
    obtain ⟨hj, _⟩ := List.getElem?_eq_some_iff.mp hb
    exact ⟨i, j, hij, hj, by rw [ha, hb, Option.map_some, Option.map_some, he]⟩

/-- Two patterns are equal exactly if the same requests match them, so a table is refused as having
a duplicate exactly if two of its routes match the same requests. -/
theorem eq_iff_matches_and_build_error_iff {p q : Pattern} (hp : p.Constructed) (hq : q.Constructed)
    {routes : List (Route H)} (hroutes : ∀ route ∈ routes, route.pattern.Constructed)
    (slow : Duration) :
    (p = q ↔ ∀ r, p.Matches r ↔ q.Matches r) ∧
      ((∃ index first pattern, build routes slow = .error (.duplicateRoute index first pattern)) ↔
        ∃ (i j : Nat) (a b : Route H), i < j ∧ routes[i]? = some a ∧ routes[j]? = some b ∧
          ∀ r, a.pattern.Matches r ↔ b.pattern.Matches r) := by
  have heq {p q : Pattern} (hp : p.Constructed) (hq : q.Constructed) :
      p = q ↔ ∀ r, p.Matches r ↔ q.Matches r :=
    ⟨fun he _ => he ▸ Iff.rfl, hp.wellFormed.ext hq.wellFormed⟩
  refine ⟨heq hp hq, ?_⟩
  rw [build_error_iff, not_nodup_iff]
  refine exists_congr fun i => exists_congr fun j => exists_congr fun a => exists_congr fun b => ?_
  refine and_congr_right fun _ => and_congr_right fun ha => and_congr_right fun hb => ?_
  exact heq (hroutes a (List.mem_of_getElem? ha)) (hroutes b (List.mem_of_getElem? hb))

/-- Two prefixes of which one asks for a longer literal: some host tells the patterns apart, and the
third route is a duplicate of the first. -/
theorem eq_iff_matches_longer_literal :
    let get : Method := ⟨"GET", by decide⟩
    let p : Pattern := ⟨get, [.literal "b", .label], [], some [.label, .literal "a"]⟩
    let q : Pattern := ⟨get, [.literal "b", .label], [], some [.label, .literal "aa"]⟩
    let routes : List (Route Nat) := [⟨p, 0⟩, ⟨q, 1⟩, ⟨p, 2⟩]
    p.Constructed ∧ q.Constructed ∧ (¬ ∀ r, p.Matches r ↔ q.Matches r) ∧
      ∃ index first pattern,
        build routes defaultSlowMatch = .error (.duplicateRoute index first pattern) := by
  intro get p q routes
  have hparts : Pattern.ofParts get [.literal "b", .label] [] =
      .ok ⟨get, [.literal "b", .label], [], none⟩ := by
    rw [Pattern.ofParts_eq_ok_iff, List.mergeSort_nil]
    exact ⟨by decide, Pattern.pathFault?_eq_none_iff.mp (by decide), ⟨nofun, .nil⟩, rfl⟩
  have hbase := Pattern.Constructed.ofParts hparts
  have hshort : Pattern.parseHost "\x7bx\x7da" = .ok [.label, .literal "a"] := by decide +kernel
  have hlong : Pattern.parseHost "\x7bx\x7daa" = .ok [.label, .literal "aa"] := by decide +kernel
  have hp : p.Constructed := .withHost hbase hshort rfl
  have hq : q.Constructed := .withHost hbase hlong rfl
  have hroutes : ∀ route ∈ routes, route.pattern.Constructed := by
    simp only [routes, List.forall_mem_cons]
    exact ⟨hp, hq, hp, nofun⟩
  obtain ⟨heq, hbuild⟩ := eq_iff_matches_and_build_error_iff hp hq hroutes defaultSlowMatch
  have hne : p ≠ q := by decide
  exact ⟨hp, hq, fun h => hne (heq.mpr h),
    hbuild.mpr ⟨0, 2, _, _, by decide, rfl, rfl, fun _ => Iff.rfl⟩⟩

end RouteTable

end RouteBook
