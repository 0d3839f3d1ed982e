import RouteBook.Manifest.Basic
import RouteBook.Proofs.Table.Duplicates
import RouteBook.Proofs.Text.Trim
import RouteBook.Settings.Runtime

/-! # What a manifest is compiled to

Every manifest has one of three outcomes: a table with a route for each entry, the fault of the
first entry that has one, or, where all entries are good, the first entry that could never be
reached. A relation states when each of them is due, and compiling meets it and nothing else. How an
entry writes its method does not count. -/

namespace RouteBook

namespace ManifestEntry

/-- The route has the pattern of the entry and leads to its operation. -/
structure Routed (e : ManifestEntry) (route : Route Text) : Prop where
  pattern : e.pattern = .ok route.pattern
  operation : route.handler = e.operation

/-- The entry with its method in other letter cases and with blanks around it. -/
inductive Respelled (e : ManifestEntry) : ManifestEntry → Prop where
  | intro {method before after : Text} : Text.asciiUpper method = Text.asciiUpper e.method →
    (∀ c ∈ before, Text.isBlank c = true) → (∀ c ∈ after, Text.isBlank c = true) →
    Respelled e { e with method := before ++ method ++ after }

theorem Respelled.refl (e : ManifestEntry) : Respelled e e := by
  simpa using @Respelled.intro e e.method [] [] rfl nofun nofun

end ManifestEntry

namespace Method

/-- Blanks and letter case do not count in a method, so what is read does not change. -/
theorem ofSpelling?_respelled {t method before after : Text}
    (h : Text.asciiUpper method = Text.asciiUpper t) (hb : ∀ c ∈ before, Text.isBlank c = true)
    (ha : ∀ c ∈ after, Text.isBlank c = true) :
    ofSpelling? (before ++ method ++ after) = ofSpelling? t := by
  rw [ofSpelling?, ofSpelling?, Text.trim_append_blank ha, Text.trim_blank_append hb,
    ← Text.trim_asciiUpper, h, Text.trim_asciiUpper]

end Method

namespace ManifestEntry

/-- The pattern stays as it is. Only the error that quotes the method quotes it
as the entry writes it. -/
theorem Respelled.pattern {e e' : ManifestEntry} (h : Respelled e e') :
    e'.pattern = e.pattern ∨
      e.pattern = .error (.invalidMethod e.method) ∧
        e'.pattern = .error (.invalidMethod e'.method) := by
  cases h with
  | @intro method before after hm hb ha =>
    unfold ManifestEntry.pattern
    simp only [Method.ofSpelling?_respelled hm hb ha]
    cases Method.ofSpelling? e.method with
    | none => exact .inr ⟨rfl, rfl⟩
    | some m => exact .inl rfl

theorem Respelled.operation {e e' : ManifestEntry} (h : Respelled e e') :
    e'.operation = e.operation := by
  cases h
  rfl

theorem Respelled.pattern_ok {e e' : ManifestEntry} (h : Respelled e e') {pattern : Pattern}
    (hp : e.pattern = .ok pattern) : e'.pattern = .ok pattern := by
  rcases h.pattern with he | ⟨he, _⟩
  · exact he.trans hp
  · cases he.symm.trans hp

theorem Respelled.routed {e e' : ManifestEntry} (h : Respelled e e') {route : Route Text}
    (hr : e.Routed route) :
    e'.Routed route :=
  ⟨h.pattern_ok hr.pattern, hr.operation.trans h.operation.symm⟩

end ManifestEntry

namespace Manifest

/-! ## The outcome of compiling -/

/-- When each outcome is due. -/
inductive Compiles (m : Manifest) (slow : Duration) :
    Except ManifestError (RouteTable Text) → Prop where
  | table {routes : List (Route Text)} : List.Forall₂ ManifestEntry.Routed m.routes routes →
    (routes.map (·.pattern)).Nodup → Compiles m slow (.ok ⟨routes, slow⟩)
  | faulty {earlier later : List ManifestEntry} {e : ManifestEntry} {error : ManifestError} :
    m.routes = earlier ++ e :: later → (∀ good ∈ earlier, ∃ pattern, good.pattern = .ok pattern) →
    e.pattern = .error error → Compiles m slow (.error error)
  | unreachable {routes : List (Route Text)} {index first : Nat} {pattern : Pattern}
      {e : ManifestEntry} :
    List.Forall₂ ManifestEntry.Routed m.routes routes →
    FirstRepeat (routes.map (·.pattern)) index first pattern → m.routes[index]? = some e →
    Compiles m slow (.error (.unreachable e.operation (.duplicateRoute index first pattern)))

theorem route_eq_ok_iff {e : ManifestEntry} {r : Route Text} : route e = .ok r ↔ e.Routed r := by
  unfold route
  obtain ⟨pattern, operation⟩ := r
  cases hp : e.pattern with
  | error error => exact ⟨nofun, fun h => by cases hp.symm.trans h.pattern⟩
  | ok p =>
    constructor
    · intro h
      cases h
      exact ⟨hp, rfl⟩
    · intro h
      cases hp.symm.trans h.pattern
      cases h.operation
      rfl

theorem route_eq_error_iff {e : ManifestEntry} {error : ManifestError} :
    route e = .error error ↔ e.pattern = .error error := by
  unfold route
  cases e.pattern <;> simp [Except.map]

theorem mapM_route_eq_ok_iff {m : Manifest} {routes : List (Route Text)} :
    m.routes.mapM route = .ok routes ↔ List.Forall₂ ManifestEntry.Routed m.routes routes := by
  simp only [Text.mapM_eq_ok_iff_forall₂, route_eq_ok_iff]

theorem mapM_route_eq_error {m : Manifest} {error : ManifestError}
    (h : m.routes.mapM route = .error error) :
    ∃ earlier e later, m.routes = earlier ++ e :: later ∧
      (∀ good ∈ earlier, ∃ pattern, good.pattern = .ok pattern) ∧ e.pattern = .error error := by
  obtain ⟨earlier, e, later, he, hgood, herror⟩ := Text.mapM_eq_error_iff.mp h
  refine ⟨earlier, e, later, he, fun good hm => ?_, route_eq_error_iff.mp herror⟩
  obtain ⟨r, hr⟩ := hgood good hm
  exact ⟨r.pattern, (route_eq_ok_iff.mp hr).pattern⟩

theorem buildTable_of_error {m : Manifest} {slow : Duration} {error : ManifestError}
    (h : m.routes.mapM route = .error error) : m.buildTable slow = .error error := by
  rw [buildTable, h]
  rfl

theorem buildTable_of_ok {m : Manifest} {slow : Duration} {routes : List (Route Text)}
    (h : m.routes.mapM route = .ok routes) :
    m.buildTable slow = (RouteTable.build routes slow).mapError fun
      | .duplicateRoute index first pattern =>
        .unreachable (m.operationAt index) (.duplicateRoute index first pattern) := by
  rw [buildTable, h]
  rfl

/-- The position of a repeated pattern is the position of an entry. -/
theorem exists_entry {m : Manifest} {routes : List (Route Text)} {index first : Nat}
    {pattern : Pattern} (h : List.Forall₂ ManifestEntry.Routed m.routes routes)
    (hr : FirstRepeat (routes.map (·.pattern)) index first pattern) :
    ∃ e, m.routes[index]? = some e := by
  have hlt := (List.getElem?_eq_some_iff.mp hr.here).1
  rw [List.length_map, ← h.length_eq] at hlt
  exact ⟨m.routes[index], List.getElem?_eq_getElem hlt⟩

theorem compiles_buildTable (m : Manifest) (slow : Duration) :
    m.Compiles slow (m.buildTable slow) := by
  cases hm : m.routes.mapM route with
  | error error =>
    obtain ⟨earlier, e, later, he, hgood, herror⟩ := mapM_route_eq_error hm
    rw [buildTable_of_error hm]
    exact .faulty he hgood herror
  | ok routes =>
    have hrouted := mapM_route_eq_ok_iff.mp hm
    rw [buildTable_of_ok hm]
    cases hb : RouteTable.build routes slow with
    | ok t =>
      obtain ⟨hn, rfl⟩ := RouteTable.build_eq_ok_iff.mp hb
      exact .table hrouted hn
    | error error =>
      obtain ⟨index, first, pattern⟩ := error
      have hr := RouteTable.build_eq_error_iff.mp hb
      obtain ⟨e, he⟩ := exists_entry hrouted hr
      have hop : m.operationAt index = e.operation := by rw [operationAt, he]
      show m.Compiles slow (.error (.unreachable (m.operationAt index) _))
      rw [hop]
      exact .unreachable hrouted hr he

theorem Compiles.eq_buildTable {m : Manifest} {slow : Duration}
    {outcome : Except ManifestError (RouteTable Text)} (h : m.Compiles slow outcome) :
    m.buildTable slow = outcome := by
  cases h with
  | table hrouted hn =>
    rw [buildTable_of_ok (mapM_route_eq_ok_iff.mpr hrouted),
      RouteTable.build_eq_ok_iff.mpr ⟨hn, rfl⟩]
    rfl
  | faulty he hgood herror =>
    refine buildTable_of_error (Text.mapM_eq_error_iff.mpr ⟨_, _, _, he, fun good hm => ?_, ?_⟩)
    · obtain ⟨pattern, hp⟩ := hgood good hm
      exact ⟨⟨pattern, good.operation⟩, route_eq_ok_iff.mpr ⟨hp, rfl⟩⟩
    · exact route_eq_error_iff.mpr herror
  | unreachable hrouted hr he =>
    rw [buildTable_of_ok (mapM_route_eq_ok_iff.mpr hrouted), RouteTable.build_eq_error_iff.mpr hr]
    simp only [Except.mapError, operationAt, he]

/-! ## Other spellings of the methods -/

/-- The outcomes are the same, but for the method that both errors quote from the same entry. -/
inductive SameOutcome (m m' : Manifest) (slow : Duration) : Prop where
  | equal : m'.buildTable slow = m.buildTable slow → SameOutcome m m' slow
  | quoted {i : Nat} {e e' : ManifestEntry} : m.routes[i]? = some e → m'.routes[i]? = some e' →
    m.buildTable slow = .error (.invalidMethod e.method) →
    m'.buildTable slow = .error (.invalidMethod e'.method) → SameOutcome m m' slow

theorem exists_respelled {m m' : Manifest} {i : Nat} {e : ManifestEntry}
    (h : List.Forall₂ ManifestEntry.Respelled m.routes m'.routes) (he : m.routes[i]? = some e) :
    ∃ e', m'.routes[i]? = some e' ∧ e.Respelled e' := by
  obtain ⟨hi, rfl⟩ := List.getElem?_eq_some_iff.mp he
  have hi' : i < m'.routes.length := h.length_eq ▸ hi
  exact ⟨m'.routes[i], List.getElem?_eq_getElem hi', h.get hi hi'⟩

theorem exists_respelled_of_append {earlier later entries : List ManifestEntry} {e : ManifestEntry}
    (h : List.Forall₂ ManifestEntry.Respelled (earlier ++ e :: later) entries) :
    ∃ earlier' e' later', entries = earlier' ++ e' :: later' ∧
      List.Forall₂ ManifestEntry.Respelled earlier earlier' ∧ e.Respelled e' := by
  induction earlier generalizing entries with
  | nil =>
    cases h with
    | cons he _ => exact ⟨[], _, _, rfl, .nil, he⟩
  | cons good earlier ih =>
    cases h with
    | cons hgood hrest =>
      obtain ⟨earlier', e', later', rfl, hearlier, he⟩ := ih hrest
      exact ⟨_ :: earlier', e', later', rfl, .cons hgood hearlier, he⟩

theorem routed_of_respelled {entries entries' : List ManifestEntry} {routes : List (Route Text)}
    (h : List.Forall₂ ManifestEntry.Respelled entries entries')
    (hr : List.Forall₂ ManifestEntry.Routed entries routes) :
    List.Forall₂ ManifestEntry.Routed entries' routes := by
  induction h generalizing routes with
  | nil => exact hr
  | cons he _ ih =>
    cases hr with
    | cons hroute hrest => exact .cons (he.routed hroute) (ih hrest)

theorem good_of_respelled {entries entries' : List ManifestEntry}
    (h : List.Forall₂ ManifestEntry.Respelled entries entries')
    (hgood : ∀ good ∈ entries, ∃ pattern, good.pattern = .ok pattern) :
    ∀ good ∈ entries', ∃ pattern, good.pattern = .ok pattern := by
  induction h with
  | nil => exact hgood
  | cons he _ ih =>
    obtain ⟨⟨pattern, hp⟩, hrest⟩ := List.forall_mem_cons.mp hgood
    exact List.forall_mem_cons.mpr ⟨⟨pattern, he.pattern_ok hp⟩, ih hrest⟩

/-- Which outcome is due is decided by patterns and operations, and the only thing that another
spelling can change is the text of a method that no spelling makes good. -/
theorem sameOutcome_of_respelled {m m' : Manifest} (slow : Duration)
    (h : List.Forall₂ ManifestEntry.Respelled m.routes m'.routes) : SameOutcome m m' slow := by
  have hm := compiles_buildTable m slow
  generalize houtcome : m.buildTable slow = outcome at hm
  cases hm with
  | table hrouted hn =>
    have hm' : m'.Compiles slow _ := .table (routed_of_respelled h hrouted) hn
    exact .equal (hm'.eq_buildTable.trans houtcome.symm)
  | unreachable hrouted hr he =>
    obtain ⟨e', he', hre⟩ := exists_respelled h he
    have hm' := @Compiles.unreachable m' slow _ _ _ _ _ (routed_of_respelled h hrouted) hr he'
    rw [hre.operation] at hm'
    exact .equal (hm'.eq_buildTable.trans houtcome.symm)
  | @faulty earlier later e error he hgood herror =>
    obtain ⟨earlier', e', later', he', hearlier, hre⟩ := exists_respelled_of_append (he ▸ h)
    have hgood' := good_of_respelled hearlier hgood
    rcases hre.pattern with hp | ⟨hp, hp'⟩
    · have hm' := @Compiles.faulty m' slow _ _ _ _ he' hgood' (hp.trans herror)
      exact .equal (hm'.eq_buildTable.trans houtcome.symm)
    · cases hp.symm.trans herror
      have hm' := @Compiles.faulty m' slow _ _ _ _ he' hgood' hp'
      have hget : m.routes[earlier.length]? = some e := by simp [he]
      have hget' : m'.routes[earlier.length]? = some e' := by simp [he', hearlier.length_eq]
      exact .quoted hget hget' houtcome hm'.eq_buildTable

/-- Compiling gives the one outcome that is due, for every manifest, and another spelling of its
methods changes at most which text an error about a method quotes. -/
theorem buildTable_eq_iff_and_sameOutcome (m : Manifest) (settings : RuntimeSettings) :
    (∀ outcome, m.buildTable settings.slowMatch = outcome ↔ m.Compiles settings.slowMatch outcome) ∧
      ∀ m', List.Forall₂ ManifestEntry.Respelled m.routes m'.routes →
        SameOutcome m m' settings.slowMatch :=
  ⟨fun _ => ⟨fun h => h ▸ compiles_buildTable m settings.slowMatch, Compiles.eq_buildTable⟩,
    fun _ => sameOutcome_of_respelled settings.slowMatch⟩

/-- The second entry repeats the first and writes its method in another way, but the third is
faulty, and that is reported. Without the third the second could never be reached, and so it is if
it writes its method as the first. -/
theorem buildTable_faulty_after_repeat :
    let pattern : Pattern := ⟨⟨"GET", by decide⟩, [.literal "x"], [], none⟩
    let a : ManifestEntry := ⟨"A", "GET", "/x", none⟩
    let b : ManifestEntry := ⟨"B", "GET", "/x", none⟩
    let b' : ManifestEntry := ⟨"B", " get", "/x", none⟩
    let c : ManifestEntry := ⟨"C", "GE T", "/y", none⟩
    let settings : RuntimeSettings := ⟨⟨5⟩, none⟩
    (Manifest.mk [a, b', c]).buildTable settings.slowMatch = .error (.invalidMethod "GE T") ∧
      (Manifest.mk [a, b']).buildTable settings.slowMatch =
        .error (.unreachable "B" (.duplicateRoute 1 0 pattern)) ∧
      SameOutcome ⟨[a, b]⟩ ⟨[a, b']⟩ settings.slowMatch := by
  intro pattern a b b' c settings
  have ha : a.pattern = .ok pattern := by decide +kernel
  have hb' : b'.pattern = .ok pattern := by decide +kernel
  have hc : c.pattern = .error (.invalidMethod "GE T") := by decide +kernel
  have hrouted : List.Forall₂ ManifestEntry.Routed [a, b'] [⟨pattern, "A"⟩, ⟨pattern, "B"⟩] :=
    .cons ⟨ha, rfl⟩ (.cons ⟨hb', rfl⟩ .nil)
  have hrepeat : FirstRepeat [pattern, pattern] 1 0 pattern :=
    ⟨rfl, ⟨by decide, rfl⟩, fun i hi _ => by omega, fun j hj i hi => by omega⟩
  have hspelled : b.Respelled b' :=
    @ManifestEntry.Respelled.intro b "get" [' '] [] rfl (List.forall_mem_singleton.mpr rfl) nofun
  refine ⟨?_, ?_, ?_⟩
  · refine ((buildTable_eq_iff_and_sameOutcome ⟨[a, b', c]⟩ settings).1 _).mpr
      (@Compiles.faulty _ _ [a, b'] [] c _ rfl ?_ hc)
    simpa using ⟨⟨pattern, ha⟩, pattern, hb'⟩
  · exact ((buildTable_eq_iff_and_sameOutcome ⟨[a, b']⟩ settings).1 _).mpr
      (.unreachable hrouted hrepeat rfl)
  · exact (buildTable_eq_iff_and_sameOutcome ⟨[a, b]⟩ settings).2 ⟨[a, b']⟩
      (.cons (.refl a) (.cons hspelled .nil))

end Manifest

end RouteBook
