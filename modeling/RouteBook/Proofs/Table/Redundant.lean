import RouteBook.Proofs.Table.Duplicates

/-! # Only routes that could never be reached are refused

Two declarations ask for the same if they differ in nothing but the order of the requirements and
the case of the host. Patterns are made so that this is equality, hence the table is refused at the
first declaration that asks for the same as an earlier one. Such a route loses nothing: in the list
as it was declared it is never selected, and without it every request has the same answer. -/

namespace RouteBook

/-- The parts that a route is declared with. -/
structure Declaration where
  method : Method
  path : List PathSegment
  query : List QueryRequirement
  host : Option (List HostSegment)

namespace Declaration

/-- The pattern of a declaration, if the constructors take its parts. -/
def pattern (d : Declaration) : Except PatternError Pattern := do
  let pattern ← Pattern.ofParts d.method d.path d.query
  match d.host with
  | none => return pattern
  | some segments => pattern.withHost segments

/-- The declarations ask for the same: order does not count in the query, nor
letter case in the host. -/
structure Duplicates (d e : Declaration) : Prop where
  method : d.method = e.method
  path : d.path = e.path
  query : d.query.Perm e.query
  host : d.host.map (·.map Pattern.HostSegment.lower) = e.host.map (·.map Pattern.HostSegment.lower)

theorem pattern_eq_ok_iff {d : Declaration} {p : Pattern} :
    d.pattern = .ok p ↔
      (d.method.isSupported = true ∧ Pattern.PathOk d.path ∧ Pattern.QueryOk d.query) ∧
        (∀ segments, d.host = some segments → segments ≠ [] ∧ Pattern.HostOk segments) ∧
        p = ⟨d.method, d.path, d.query.mergeSort QueryRequirement.le,
          d.host.map (·.map Pattern.HostSegment.lower)⟩ := by
  have hbind : d.pattern = .ok p ↔ ∃ base, Pattern.ofParts d.method d.path d.query = .ok base ∧
      d.host.elim (.ok base) base.withHost = .ok p := by
    unfold pattern
    cases Pattern.ofParts d.method d.path d.query <;> cases d.host <;>
      simp [bind, Except.bind, pure, Except.pure]
  rw [hbind]
  constructor
  · intro ⟨base, hbase, h⟩
    obtain ⟨hm, hp, hq, rfl⟩ := Pattern.ofParts_eq_ok_iff.mp hbase
    refine ⟨⟨hm, hp, hq⟩, ?_⟩
    cases hhost : d.host with
    | none =>
      rw [hhost] at h
      exact ⟨nofun, (Except.ok.inj h).symm⟩
    | some segments =>
      rw [hhost] at h
      obtain ⟨hne, hok, rfl⟩ := Pattern.withHost_eq_ok_iff.mp h
      exact ⟨fun _ he => Option.some.inj he ▸ ⟨hne, hok⟩, rfl⟩
  · intro ⟨⟨hm, hp, hq⟩, hhost, he⟩
    refine ⟨_, Pattern.ofParts_eq_ok_iff.mpr ⟨hm, hp, hq, rfl⟩, ?_⟩
    rw [he]
    cases hd : d.host with
    | none => rfl
    | some segments =>
      exact Pattern.withHost_eq_ok_iff.mpr ⟨(hhost segments hd).1, (hhost segments hd).2, rfl⟩

/-- What a declaration leaves open is gone from its pattern. -/
theorem eq_iff_duplicates {d e : Declaration} {p q : Pattern} (hd : d.pattern = .ok p)
    (he : e.pattern = .ok q) :
    p = q ↔ d.Duplicates e := by
  obtain ⟨_, _, rfl⟩ := pattern_eq_ok_iff.mp hd
  obtain ⟨_, _, rfl⟩ := pattern_eq_ok_iff.mp he
  rw [Pattern.mk.injEq, QueryRequirement.mergeSort_eq_iff_perm]
  exact ⟨fun ⟨hm, hp, hq, hh⟩ => ⟨hm, hp, hq, hh⟩, fun ⟨hm, hp, hq, hh⟩ => ⟨hm, hp, hq, hh⟩⟩

/-! ## Positions of duplicates -/

/-- The declarations at the two positions ask for the same. -/
def DuplicateAt (declared : List Declaration) (i j : Nat) : Prop :=
  ∃ d e, declared[i]? = some d ∧ declared[j]? = some e ∧ d.Duplicates e

/-- The first position that duplicates an earlier one, and the one position that it duplicates. -/
structure FirstDuplicate (declared : List Declaration) (index first : Nat) : Prop where
  here : first < index ∧ DuplicateAt declared first index
  only : ∀ i < index, DuplicateAt declared i index → i = first
  least : ∀ j < index, ∀ i < j, ¬ DuplicateAt declared i j

variable {H : Type} {declared : List Declaration} {routes : List (Route H)}

/-- The routes have the patterns of the declarations, one by one. -/
abbrev Routed (declared : List Declaration) (routes : List (Route H)) : Prop :=
  List.Forall₂ (fun d route => d.pattern = .ok route.pattern) declared routes

theorem exists_declared_iff (h : Routed declared routes) {i : Nat} {p : Pattern} :
    (routes.map (·.pattern))[i]? = some p ↔ ∃ d, declared[i]? = some d ∧ d.pattern = .ok p := by
  induction h generalizing i with
  | nil => simp
  | @cons d route declared routes hd _ ih =>
    cases i with
    | zero => simp [hd]
    | succ i => simpa using ih

theorem exists_pattern (h : Routed declared routes) {d : Declaration} (hd : d ∈ declared) :
    ∃ p, d.pattern = .ok p := by
  induction h with
  | nil => cases hd
  | @cons e route _ _ he _ ih =>
    rcases List.mem_cons.mp hd with rfl | hd
    · exact ⟨route.pattern, he⟩
    · exact ih hd

theorem duplicateAt_iff (h : Routed declared routes) {i j : Nat} :
    DuplicateAt declared i j ↔
      ∃ p, (routes.map (·.pattern))[i]? = some p ∧ (routes.map (·.pattern))[j]? = some p := by
  simp only [exists_declared_iff h]
  constructor
  · intro ⟨d, e, hi, hj, hdup⟩
    obtain ⟨p, hd⟩ := exists_pattern h (List.mem_of_getElem? hi)
    obtain ⟨q, he⟩ := exists_pattern h (List.mem_of_getElem? hj)
    obtain rfl := (eq_iff_duplicates hd he).mpr hdup
    exact ⟨p, ⟨d, hi, hd⟩, e, hj, he⟩
  · intro ⟨p, ⟨d, hi, hd⟩, e, hj, he⟩
    exact ⟨d, e, hi, hj, (eq_iff_duplicates hd he).mp rfl⟩

theorem duplicateAt_iff_pattern_eq (h : Routed declared routes) {i j : Nat} :
    DuplicateAt declared i j ↔
      ∃ a b, routes[i]? = some a ∧ routes[j]? = some b ∧ a.pattern = b.pattern := by
  simp only [duplicateAt_iff h, List.getElem?_map, Option.map_eq_some_iff]
  constructor
  · intro ⟨_, ⟨a, ha, rfl⟩, b, hb, he⟩
    exact ⟨a, b, ha, hb, he.symm⟩
  · intro ⟨a, b, ha, hb, he⟩
    exact ⟨a.pattern, ⟨a, ha, rfl⟩, b, hb, he.symm⟩

theorem firstRepeat_iff (h : Routed declared routes) {index first : Nat} {p : Pattern} :
    FirstRepeat (routes.map (·.pattern)) index first p ↔
      FirstDuplicate declared index first ∧ (routes.map (·.pattern))[index]? = some p := by
  constructor
  · intro hr
    have hdup : DuplicateAt declared first index :=
      (duplicateAt_iff h).mpr ⟨p, hr.before.2, hr.here⟩
    refine ⟨⟨⟨hr.before.1, hdup⟩, fun i hi hd => ?_, fun j hj i hi hd => ?_⟩, hr.here⟩
    · obtain ⟨q, hq, hq'⟩ := (duplicateAt_iff h).mp hd
      exact hr.only i hi (hq.trans (hq'.symm.trans hr.here))
    · obtain ⟨q, hq, hq'⟩ := (duplicateAt_iff h).mp hd
      exact hr.least j hj i hi (hq.trans hq'.symm)
  · intro ⟨⟨⟨hlt, hd⟩, honly, hleast⟩, hp⟩
    obtain ⟨q, hq, hq'⟩ := (duplicateAt_iff h).mp hd
    obtain rfl := Option.some.inj (hp.symm.trans hq')
    refine ⟨hp, ⟨hlt, hq⟩, fun i hi he => honly i hi ((duplicateAt_iff h).mpr ⟨p, he, hp⟩),
      fun j hj i hi he => ?_⟩
    have hindex := (List.getElem?_eq_some_iff.mp hp).1
    have hj' := List.getElem?_eq_getElem (hj.trans hindex)
    exact hleast j hj i hi ((duplicateAt_iff h).mpr ⟨_, he.trans hj', hj'⟩)

end Declaration

/-- Where position `i` moves when the one at `j` is taken out. -/
def indexWithout (j i : Nat) : Nat := if j < i then i - 1 else i

theorem getElem?_indexWithout {α : Type} (xs : List α) {i j : Nat} (h : i ≠ j) :
    (xs.eraseIdx j)[indexWithout j i]? = xs[i]? := by
  rw [List.getElem?_eraseIdx, indexWithout]
  split
  · rw [if_neg (by omega), Nat.sub_add_cancel (by omega)]
  · rw [if_pos (by omega)]

theorem exists_of_lt_indexWithout {α : Type} (xs : List α) {i j k : Nat}
    (h : k < indexWithout j i) :
    ∃ k' < i, (xs.eraseIdx j)[k]? = xs[k']? := by
  rw [indexWithout] at h
  rw [List.getElem?_eraseIdx]
  split
  · exact ⟨k, by split at h <;> omega, rfl⟩
  · exact ⟨k + 1, by split at h <;> omega, rfl⟩

/-- The outcome when the route at `j` is taken out. -/
def Resolution.without {H : Type} (j : Nat) : Resolution H → Resolution H
  | .matched m => .matched { m with index := indexWithout j m.index }
  | .methodNotAllowed allowed => .methodNotAllowed allowed
  | .notFound => .notFound

namespace RouteTable

variable {H : Type} {routes : List (Route H)}

/-! ## Taking out a repeated route -/

/-- The route at `j` has the pattern of an earlier one. -/
def RepeatedAt (routes : List (Route H)) (j : Nat) : Prop :=
  ∃ i a b, i < j ∧ routes[i]? = some a ∧ routes[j]? = some b ∧ a.pattern = b.pattern

theorem eraseDups_append_cons_of_mem {α : Type} [DecidableEq α] {x : α} {front : List α}
    (h : x ∈ front) (back : List α) :
    (front ++ x :: back).eraseDups = (front ++ back).eraseDups := by
  rw [List.eraseDups_append, List.eraseDups_append]
  simp [List.removeAll, h]

theorem mem_eraseIdx_of_mem {j : Nat} (hj : RepeatedAt routes j) {route : Route H}
    (h : route ∈ routes) :
    ∃ other ∈ routes.eraseIdx j, other.pattern = route.pattern := by
  obtain ⟨i, a, b, hij, ha, hb, he⟩ := hj
  obtain ⟨k, hk⟩ := List.mem_iff_getElem?.mp h
  by_cases hkj : k = j
  · obtain rfl := Option.some.inj (hb.symm.trans (hkj ▸ hk))
    exact ⟨a, List.mem_eraseIdx_iff_getElem?.mpr ⟨i, by omega, ha⟩, he⟩
  · exact ⟨route, List.mem_eraseIdx_iff_getElem?.mpr ⟨k, hkj, hk⟩, rfl⟩

theorem acceptedMethods_eraseIdx {j : Nat} (hj : RepeatedAt routes j) (target : Target)
    (host : Option Text) :
    acceptedMethods target host (routes.eraseIdx j) = acceptedMethods target host routes := by
  obtain ⟨i, a, b, hij, ha, hb, he⟩ := hj
  obtain ⟨hlt, rfl⟩ := List.getElem?_eq_some_iff.mp hb
  have hsplit : routes = routes.take j ++ routes[j] :: routes.drop (j + 1) := by simp
  have hmem : a ∈ routes.take j :=
    List.mem_of_getElem? (i := i) (by rw [List.getElem?_take_of_lt hij, ha])
  conv_rhs => rw [hsplit]
  rw [List.eraseIdx_eq_take_drop_succ]
  simp only [acceptedMethods, List.filter_append, List.filter_cons, List.map_append]
  split
  · next hf =>
    rw [List.map_cons, eraseDups_append_cons_of_mem]
    exact List.mem_map.mpr ⟨a, List.mem_filter.mpr ⟨hmem, he ▸ hf⟩, congrArg Pattern.method he⟩
  · rfl

/-- A repeated route is passed over, since the earlier one is selected where it would be. -/
theorem Answers.index_ne {j : Nat} (hj : RepeatedAt routes j) {r : Request} {m : RouteMatch H}
    (h : Answers routes r (.matched m)) : m.index ≠ j := by
  obtain ⟨i, a, b, hij, ha, hb, he⟩ := hj
  cases h with
  | matched hd hk hf hm hleast hp =>
    rintro rfl
    obtain rfl := Option.some.inj (hb.symm.trans hk)
    exact hleast i a hij ha (he ▸ hf) (he ▸ hm)

theorem Answers.eraseIdx {j : Nat} (hj : RepeatedAt routes j) {r : Request} {outcome : Resolution H}
    (h : Answers routes r outcome) : Answers (routes.eraseIdx j) r (outcome.without j) := by
  cases h with
  | undecodable hd => exact .undecodable hd
  | @matched target i route labels hd hi hf hm hleast hp =>
    have hne : i ≠ j := Answers.index_ne hj (.matched hd hi hf hm hleast hp)
    refine .matched hd ((getElem?_indexWithout routes hne).trans hi) hf hm
      (fun k other hk ho => ?_) hp
    obtain ⟨k', hk', he⟩ := exists_of_lt_indexWithout routes hk
    exact hleast k' other hk' (he.symm.trans ho)
  | methodNotAllowed hd hex hno =>
    obtain ⟨route, hr, hf⟩ := hex
    obtain ⟨other, ho, he⟩ := mem_eraseIdx_of_mem hj hr
    rw [Resolution.without, ← acceptedMethods_eraseIdx hj]
    exact .methodNotAllowed hd ⟨other, ho, he ▸ hf⟩ fun route hr =>
      hno route (List.eraseIdx_subset hr)
  | notFound hd hno => exact .notFound hd fun route hr => hno route (List.eraseIdx_subset hr)

/-- Without a repeated route every request has the same answer. -/
theorem resolve_eraseIdx {j : Nat} (hj : RepeatedAt routes j) (slow : Duration) (r : Request) :
    (⟨routes.eraseIdx j, slow⟩ : RouteTable H).resolve r =
      ((⟨routes, slow⟩ : RouteTable H).resolve r).without j :=
  (answers_resolve ⟨routes.eraseIdx j, slow⟩ r).unique
    ((answers_resolve ⟨routes, slow⟩ r).eraseIdx hj)

theorem build_error_iff_duplicateAt {declared : List Declaration}
    (h : Declaration.Routed declared routes) (slow : Duration) :
    (∃ e, build routes slow = .error e) ↔ ∃ i j, i < j ∧ Declaration.DuplicateAt declared i j := by
  have herror : (∃ e, build routes slow = .error e) ↔
      ∃ index first pattern, build routes slow = .error (.duplicateRoute index first pattern) :=
    ⟨fun ⟨⟨index, first, pattern⟩, he⟩ => ⟨index, first, pattern, he⟩, fun ⟨_, _, _, he⟩ => ⟨_, he⟩⟩
  rw [herror, build_error_iff, not_nodup_iff]
  simp only [Declaration.duplicateAt_iff_pattern_eq h, exists_and_left]

/-- A table is refused exactly if a declaration duplicates an earlier one. The first that does is
reported, with the one that it duplicates; otherwise the table has all routes in their order. A
route that is refused so is never selected in the list as declared, and every request has the
same answer without it. -/
theorem build_declared {declared : List Declaration} (h : Declaration.Routed declared routes)
    (slow : Duration) :
    ((∃ e, build routes slow = .error e) ↔ ∃ i j, i < j ∧ Declaration.DuplicateAt declared i j) ∧
      (∀ index first p, build routes slow = .error (.duplicateRoute index first p) ↔
        Declaration.FirstDuplicate declared index first ∧ (routes.map (·.pattern))[index]? =
          some p) ∧
      (∀ t, build routes slow = .ok t → t.routes = routes) ∧
      ∀ i j, i < j → Declaration.DuplicateAt declared i j → ∀ r,
        (∀ m, (⟨routes, slow⟩ : RouteTable H).resolve r = .matched m → m.index ≠ j) ∧
          (⟨routes.eraseIdx j, slow⟩ : RouteTable H).resolve r =
            ((⟨routes, slow⟩ : RouteTable H).resolve r).without j := by
  refine ⟨build_error_iff_duplicateAt h slow, fun index first p => ?_, fun t => routes_of_build,
    fun i j hij hd r => ?_⟩
  · rw [build_eq_error_iff, Declaration.firstRepeat_iff h]
  · obtain ⟨a, b, ha, hb, he⟩ := (Declaration.duplicateAt_iff_pattern_eq h).mp hd
    have hj : RepeatedAt routes j := ⟨i, a, b, hij, ha, hb, he⟩
    exact ⟨fun m hm => Answers.index_ne hj (hm ▸ answers_resolve ⟨routes, slow⟩ r),
      resolve_eraseIdx hj slow r⟩

/-- Requirements in another order and a host in capitals: the third declaration
duplicates the first. -/
theorem build_declared_capitals :
    let get : Method := ⟨"GET", by decide⟩
    let declared : List Declaration :=
      [⟨get, [.label], [.value "k" "v", .present "a"], some [.literal "b."]⟩,
        ⟨get, [.label], [], none⟩,
        ⟨get, [.label], [.present "a", .value "k" "v"], some [.literal "B."]⟩]
    let p : Pattern := ⟨get, [.label], [.present "a", .value "k" "v"], some [.literal "b."]⟩
    let routes : List (Route Nat) := [⟨p, 0⟩, ⟨⟨get, [.label], [], none⟩, 1⟩, ⟨p, 2⟩]
    Declaration.Routed declared routes ∧ Declaration.DuplicateAt declared 0 2 ∧
      build routes defaultSlowMatch = .error (.duplicateRoute 2 0 p) ∧
      Declaration.FirstDuplicate declared 2 0 := by
  intro get declared p routes
  have hpattern (query : List QueryRequirement) (hq : Pattern.QueryOk query)
    (hperm : p.query.Perm query)
      (t : Text) (ht : t ≠ []) (hlower : Text.asciiLower t = "b.".toList) :
      Declaration.pattern ⟨get, [.label], query, some [.literal t]⟩ = .ok p := by
    have hsorted : p.query = query.mergeSort QueryRequirement.le :=
      QueryRequirement.eq_mergeSort_iff.mpr ⟨hperm, by decide⟩
    refine Declaration.pattern_eq_ok_iff.mpr ⟨⟨rfl, .label .nil, hq⟩, fun segments hs => ?_, ?_⟩
    · cases hs
      exact ⟨List.cons_ne_nil _ _, .literal ht .nil⟩
    · simp [← hsorted, Pattern.HostSegment.lower, hlower, p]
  have h : Declaration.Routed declared routes :=
    .cons (hpattern _ ⟨by decide, by decide⟩ (.swap _ _ _) "b." (by decide) (by decide))
      (.cons (by decide +kernel)
        (.cons (hpattern _ ⟨by decide, by decide⟩ (.refl _) "B." (by decide) (by decide)) .nil))
  have hb : build routes defaultSlowMatch = .error (.duplicateRoute 2 0 p) := rfl
  have hfirst := (((build_declared h defaultSlowMatch).2.1 2 0 p).mp hb).1
  exact ⟨h, hfirst.here.2, hb, hfirst⟩

end RouteTable

end RouteBook
