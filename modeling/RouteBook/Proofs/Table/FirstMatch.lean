import RouteBook.Table.Resolve

/-! # What a table answers, said without a walk

`Answers` gives the outcome of a request in terms of which routes fit it. The walk keeps the
methods of the fitting routes it has passed; that this list is `acceptedMethods` of the passed
routes, and that none of them has the method of the request, is the invariant from which the
outcome at the end is read off. -/

namespace RouteBook

namespace Pattern

/-- All but the method fits. -/
def fits (p : Pattern) (target : Target) (host : Option Text) : Bool :=
  (matchPath p.path target.segments).isSome && p.matchQuery target.query && p.matchHost host

theorem labels?_eq_some_iff {p : Pattern} {target : Target} {host : Option Text}
    {labels : List Text} :
    p.labels? target host = some labels ↔
      p.fits target host = true ∧ matchPath p.path target.segments = some labels := by
  unfold labels? fits
  cases h : matchPath p.path target.segments with
  | none => simp
  | some found => simp

theorem labels?_eq_none_iff {p : Pattern} {target : Target} {host : Option Text} :
    p.labels? target host = none ↔ p.fits target host = false := by
  unfold labels? fits
  cases h : matchPath p.path target.segments with
  | none => simp
  | some found => simp

end Pattern

namespace RouteTable

variable {H : Type}

/-- The methods of the routes that fit in all but the method, in the order of the
routes and each once. -/
def acceptedMethods (target : Target) (host : Option Text) (routes : List (Route H)) :
    List Method :=
  ((routes.filter (·.pattern.fits target host)).map (·.pattern.method)).eraseDups

/-- The outcome of a request by the routes that fit it. A route with the method of the request
is selected if no earlier one fits with that method; the allowed methods are told only if
there is no such route. -/
inductive Answers (routes : List (Route H)) (r : Request) : Resolution H → Prop where
  | undecodable : r.decode? = none → Answers routes r .notFound
  | matched {target : Target} {i : Nat} {route : Route H} {labels : List Text} :
    r.decode? = some target → routes[i]? = some route →
    route.pattern.fits target r.host = true → route.pattern.method = r.method →
    (∀ j other, j < i → routes[j]? = some other → other.pattern.fits target r.host = true →
      other.pattern.method ≠ r.method) →
    Pattern.matchPath route.pattern.path target.segments = some labels →
    Answers routes r (.matched ⟨i, route.pattern, route.handler, labels⟩)
  | methodNotAllowed {target : Target} :
    r.decode? = some target →
    (∃ route ∈ routes, route.pattern.fits target r.host = true) →
    (∀ route ∈ routes, route.pattern.fits target r.host = true → route.pattern.method ≠ r.method) →
    Answers routes r (.methodNotAllowed (acceptedMethods target r.host routes))
  | notFound {target : Target} :
    r.decode? = some target → (∀ route ∈ routes, route.pattern.fits target r.host = false) →
    Answers routes r .notFound

/-! ## The accepted methods of a prefix -/

theorem mem_acceptedMethods {target : Target} {host : Option Text} {routes : List (Route H)}
    {m : Method} :
    m ∈ acceptedMethods target host routes ↔
      ∃ route ∈ routes, route.pattern.fits target host = true ∧ route.pattern.method = m := by
  simp only [acceptedMethods, List.mem_eraseDups, List.mem_map, List.mem_filter, and_assoc]

theorem acceptedMethods_eq_nil_iff {target : Target} {host : Option Text}
    {routes : List (Route H)} :
    acceptedMethods target host routes = [] ↔
      ∀ route ∈ routes, route.pattern.fits target host = false := by
  simp only [List.eq_nil_iff_forall_not_mem, mem_acceptedMethods, not_exists, not_and]
  constructor
  · intro h route hr
    exact Bool.eq_false_iff.mpr fun hf => h _ route hr hf rfl
  · intro h m route hr hf _
    rw [h route hr] at hf
    cases hf

theorem acceptedMethods_concat_of_not_fits {target : Target} {host : Option Text} {route : Route H}
    (h : route.pattern.fits target host = false) (before : List (Route H)) :
    acceptedMethods target host (before ++ [route]) = acceptedMethods target host before := by
  simp [acceptedMethods, h]

theorem eraseDups_concat {α : Type} [DecidableEq α] (xs : List α) (x : α) :
    (xs ++ [x]).eraseDups = if x ∈ xs.eraseDups then xs.eraseDups else xs.eraseDups ++ [x] := by
  rw [List.eraseDups_append]
  by_cases h : x ∈ xs
  · simp [h, List.removeAll]
  · simp [h, List.removeAll, List.eraseDups_cons]

/-- What the walk does with the method of a route that fits. -/
theorem acceptedMethods_concat_of_fits {target : Target} {host : Option Text} {route : Route H}
    (h : route.pattern.fits target host = true) (before : List (Route H)) :
    acceptedMethods target host (before ++ [route]) =
      if route.pattern.method ∈ acceptedMethods target host before then
        acceptedMethods target host before
      else acceptedMethods target host before ++ [route.pattern.method] := by
  simp only [acceptedMethods, List.filter_append, List.map_append, List.filter_cons, h, if_true,
    List.filter_nil, List.map_cons, List.map_nil]
  exact eraseDups_concat _ _

theorem nodup_eraseDups {α : Type} [DecidableEq α] (xs : List α) : xs.eraseDups.Nodup := by
  induction hn : xs.length using Nat.strongRecOn generalizing xs with
  | ind n ih =>
    cases xs with
    | nil => simp
    | cons x xs =>
      rw [List.eraseDups_cons, List.nodup_cons]
      have hl := List.length_filter_le (fun y => !y == x) xs
      rw [List.length_cons] at hn
      refine ⟨?_, ih _ (by omega) _ rfl⟩
      rw [List.mem_eraseDups]
      simp

/-! ## The walk -/

/-- At the end of the walk no route has been selected. -/
theorem answers_of_passed {r : Request} {target : Target} (hd : r.decode? = some target)
    {routes : List (Route H)}
    (hp : ∀ route ∈ routes, route.pattern.fits target r.host = true →
      route.pattern.method ≠ r.method) :
    Answers routes r (if acceptedMethods target r.host routes = [] then .notFound
      else .methodNotAllowed (acceptedMethods target r.host routes)) := by
  split
  · next h => exact .notFound hd (acceptedMethods_eq_nil_iff.mp h)
  · next h =>
    obtain ⟨m, hm⟩ := List.exists_mem_of_ne_nil _ h
    obtain ⟨route, hr, hf, _⟩ := mem_acceptedMethods.mp hm
    exact .methodNotAllowed hd ⟨route, hr, hf⟩ hp

/-- The walk over `rest`, once the routes of `before` have been passed. -/
theorem answers_walk {r : Request} {target : Target} (hd : r.decode? = some target)
    (before rest : List (Route H))
    (hb : ∀ route ∈ before, route.pattern.fits target r.host = true →
      route.pattern.method ≠ r.method) :
    Answers (before ++ rest) r
      (walk r.method target r.host before.length (acceptedMethods target r.host before) rest) := by
  induction rest generalizing before with
  | nil =>
    rw [List.append_nil]
    exact answers_of_passed hd hb
  | cons route rest ih =>
    have hsplit : before ++ route :: rest = (before ++ [route]) ++ rest := by simp
    have hlen : before.length + 1 = (before ++ [route]).length := by simp
    -- passing a route that is not selected keeps the invariant
    have pass (hr : route.pattern.fits target r.host = true → route.pattern.method ≠ r.method) :
        Answers ((before ++ [route]) ++ rest) r
          (walk r.method target r.host (before ++ [route]).length
          (acceptedMethods target r.host (before ++ [route])) rest) := by
      refine ih (before ++ [route]) fun other hm hf => ?_
      rcases List.mem_append.mp hm with hm | hm
      · exact hb other hm hf
      · rw [List.mem_singleton.mp hm] at hf ⊢
        exact hr hf
    unfold walk
    cases hl : route.pattern.labels? target r.host with
    | none =>
      have hf := Pattern.labels?_eq_none_iff.mp hl
      rw [hsplit, hlen, ← acceptedMethods_concat_of_not_fits hf before]
      exact pass fun h => by rw [hf] at h; cases h
    | some labels =>
      obtain ⟨hf, hp⟩ := Pattern.labels?_eq_some_iff.mp hl
      by_cases hm : route.pattern.method = r.method
      · simp only [if_pos hm]
        refine .matched hd (by simp) hf hm (fun j other hj ho => ?_) hp
        rw [List.getElem?_append_left hj] at ho
        exact hb other (List.mem_of_getElem? ho)
      · simp only [if_neg hm]
        rw [hsplit, hlen, ← acceptedMethods_concat_of_fits hf before]
        exact pass fun _ => hm

theorem routes_of_build {routes : List (Route H)} {slow : Duration} {t : RouteTable H}
    (h : build routes slow = .ok t) : t.routes = routes := by
  unfold build at h
  split at h
  · cases h
  · cases h
    rfl

theorem answers_resolve (t : RouteTable H) (r : Request) : Answers t.routes r (t.resolve r) := by
  unfold resolve
  cases hd : r.decode? with
  | none => exact .undecodable hd
  | some target => exact answers_walk hd [] t.routes (fun _ hm => nomatch hm)

/-! ## The conditions of the outcomes exclude one another -/

theorem Answers.eq_matched {routes : List (Route H)} {r : Request} {outcome : Resolution H}
    (h : Answers routes r outcome) {target : Target} {i : Nat} {route : Route H}
    {labels : List Text} (hd : r.decode? = some target) (hi : routes[i]? = some route)
    (hf : route.pattern.fits target r.host = true) (hm : route.pattern.method = r.method)
    (hmin : ∀ j other, j < i → routes[j]? = some other → other.pattern.fits target r.host = true →
      other.pattern.method ≠ r.method)
    (hp : Pattern.matchPath route.pattern.path target.segments = some labels) :
    outcome = .matched ⟨i, route.pattern, route.handler, labels⟩ := by
  cases h with
  | undecodable hd' =>
    rw [hd] at hd'
    cases hd'
  | @matched target' i' route' labels' hd' hi' hf' hm' hmin' hp' =>
    obtain rfl : target = target' := Option.some.inj (hd.symm.trans hd')
    have hle : ¬ i' < i := fun hlt => hmin i' route' hlt hi' hf' hm'
    have hge : ¬ i < i' := fun hlt => hmin' i route hlt hi hf hm
    obtain rfl : i = i' := by omega
    obtain rfl : route = route' := Option.some.inj (hi.symm.trans hi')
    obtain rfl : labels = labels' := Option.some.inj (hp.symm.trans hp')
    rfl
  | methodNotAllowed hd' _ hno =>
    obtain rfl := Option.some.inj (hd.symm.trans hd')
    exact absurd hm (hno route (List.mem_of_getElem? hi) hf)
  | notFound hd' hno =>
    obtain rfl := Option.some.inj (hd.symm.trans hd')
    rw [hno route (List.mem_of_getElem? hi)] at hf
    cases hf

theorem Answers.eq_notFound {routes : List (Route H)} {r : Request} {outcome : Resolution H}
    (h : Answers routes r outcome)
    (hnone : ∀ target, r.decode? = some target →
      ∀ route ∈ routes, route.pattern.fits target r.host = false) :
    outcome = .notFound := by
  cases h with
  | undecodable _ | notFound _ _ => rfl
  | matched hd hi hf _ _ _ =>
    rw [hnone _ hd _ (List.mem_of_getElem? hi)] at hf
    cases hf
  | methodNotAllowed hd hex _ =>
    obtain ⟨route, hr, hf⟩ := hex
    rw [hnone _ hd route hr] at hf
    cases hf

theorem Answers.unique {routes : List (Route H)} {r : Request} {a b : Resolution H}
    (ha : Answers routes r a) (hb : Answers routes r b) : a = b := by
  cases ha with
  | undecodable hd =>
    refine (hb.eq_notFound fun target hd' => ?_).symm
    rw [hd] at hd'
    cases hd'
  | matched hd hi hf hm hmin hp => exact (hb.eq_matched hd hi hf hm hmin hp).symm
  | methodNotAllowed hd hex hno =>
    have ha : Answers routes r _ := .methodNotAllowed hd hex hno
    cases hb with
    | methodNotAllowed hd' _ _ => rw [Option.some.inj (hd.symm.trans hd')]
    | matched hd' hi hf hm hmin hp => exact ha.eq_matched hd' hi hf hm hmin hp
    | undecodable hd' =>
      refine ha.eq_notFound fun target hd => ?_
      rw [hd'] at hd
      cases hd
    | notFound hd' hnone =>
      refine ha.eq_notFound fun target hd => ?_
      rwa [← Option.some.inj (hd'.symm.trans hd)]
  | notFound hd hnone =>
    refine (hb.eq_notFound fun target hd' => ?_).symm
    rwa [← Option.some.inj (hd.symm.trans hd')]

/-! ## What a table answers -/

/-- A table answers what its routes say: the first route that fits with the method of the request,
else the methods of the routes that fit, else nothing. The methods told are never none, differ from
one another and from the one of the request. -/
theorem resolve_eq_iff {routes : List (Route H)} {slow : Duration} {t : RouteTable H}
    (h : build routes slow = .ok t) (r : Request) (outcome : Resolution H) :
    (t.resolve r = outcome ↔ Answers routes r outcome) ∧
      ∀ allowed, t.resolve r = .methodNotAllowed allowed →
        allowed ≠ [] ∧ allowed.Nodup ∧ r.method ∉ allowed := by
  have hans := routes_of_build h ▸ answers_resolve t r
  refine ⟨⟨fun he => he ▸ hans, hans.unique⟩, fun allowed he => ?_⟩
  rw [he] at hans
  cases hans with
  | methodNotAllowed _ hex hno =>
    obtain ⟨route, hr, hf⟩ := hex
    refine ⟨List.ne_nil_of_mem (mem_acceptedMethods.mpr ⟨route, hr, hf, rfl⟩),
      nodup_eraseDups _, ?_⟩
    intro hm
    obtain ⟨other, ho, hof, hom⟩ := mem_acceptedMethods.mp hm
    exact hno other ho hof hom

/-- Three routes of which a `DELETE` fits all in all but the method; `GET` is told once. -/
theorem answers_delete :
    let get : Method := ⟨"GET", by decide⟩
    let post : Method := ⟨"POST", by decide⟩
    let routes : List (Route Nat) :=
      [⟨⟨get, [.literal "a", .label], [], none⟩, 0⟩,
        ⟨⟨post, [.literal "a", .literal "b"], [], none⟩, 1⟩,
        ⟨⟨get, [.literal "a", .literal "b"], [], none⟩, 2⟩]
    let delete : Request := ⟨⟨"DELETE", by decide⟩, "/a/%62", none, none⟩
    ∃ t, build routes defaultSlowMatch = .ok t ∧
      Answers routes delete (.methodNotAllowed [get, post]) := by
  intro get post routes delete
  have hb : build routes defaultSlowMatch = .ok ⟨routes, defaultSlowMatch⟩ := rfl
  exact ⟨_, hb, (resolve_eq_iff hb delete _).1.mp rfl⟩

/-! ## A table with one route -/

theorem build_single (p : Pattern) (handler : H) (slow : Duration) :
    build [⟨p, handler⟩] slow = .ok ⟨[⟨p, handler⟩], slow⟩ := rfl

theorem resolve_single {r : Request} {target : Target} (hd : r.decode? = some target) (p : Pattern)
    (handler : H) (slow : Duration) :
    (⟨[⟨p, handler⟩], slow⟩ : RouteTable H).resolve r =
      match p.labels? target r.host with
      | none => .notFound
      | some labels =>
        if p.method = r.method then .matched ⟨0, p, handler, labels⟩
        else .methodNotAllowed [p.method] := by
  simp only [resolve, hd, walk]
  cases p.labels? target r.host with
  | none => rfl
  | some labels => by_cases hm : p.method = r.method <;> simp [hm]

end RouteTable

end RouteBook
