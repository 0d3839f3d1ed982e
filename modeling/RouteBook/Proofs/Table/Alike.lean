import RouteBook.Proofs.Request.Spelled
import RouteBook.Table.Resolve

/-! # Requests that a table treats alike

The outcome depends on the path and the query only through what they decode to, and on the
parameters only through the values of the keys that the routes declare. So a client may spell
a request as it likes, and parameters that no route declares, their order and their
repetition change nothing. -/

namespace RouteBook

namespace RouteTable

variable {H : Type}

/-! ## Respelled requests -/

theorem resolve_congr (t : RouteTable H) {r s : Request} (hmethod : r.method = s.method)
    (hhost : r.host = s.host) (h : r.decode? = s.decode?) : t.resolve r = t.resolve s := by
  rw [resolve, resolve, hmethod, hhost, h]

/-- Every spelling of a target is decoded to it, so a table answers two of them alike. -/
theorem resolve_respelled {target : Target} (hsegments : ∀ s ∈ target.segments, s ≠ [])
    (hpairs : ([], none) ∉ target.query.pairs) {r s : Request} (hr : r.Spells target)
    (hs : s.Spells target) :
    r.decode? = some target ∧
      (r.method = s.method → r.host = s.host → ∀ t : RouteTable H, t.resolve r = t.resolve s) := by
  have hdr := Request.decode?_of_spells hr hsegments hpairs
  have hds := Request.decode?_of_spells hs hsegments hpairs
  exact ⟨hdr, fun hmethod hhost t => resolve_congr t hmethod hhost (hdr.trans hds.symm)⟩

/-- A letter of two bytes with digits of either case, a slash and a plus sign that are
part of the texts, and runs of separators. A table with a route for the target matches
both with the same labels. -/
theorem resolve_respelled_umlaut :
    let target : Target := ⟨["é", "a/b"], ⟨[("k", some "+ "), ("f", none)]⟩⟩
    let get : Method := ⟨"GET", by decide⟩
    let r : Request := ⟨get, "/%C3%a9//a%2Fb/", some "k=%2b+&f", none⟩
    let s : Request := ⟨get, "é/%61%2fb", some "&%6B=%2B%20&&f", none⟩
    let table : RouteTable Nat :=
      ⟨[⟨⟨get, [.label, .label], [.present "f", .value "k" "+ "], none⟩, 7⟩], defaultSlowMatch⟩
    r.Spells target ∧ s.Spells target ∧ r.decode? = some target ∧
      (∀ t : RouteTable Nat, t.resolve r = t.resolve s) ∧
      (table.resolve r).match?.map (·.labels) = some target.segments ∧
      (table.resolve s).match?.map (·.labels) = some target.segments := by
  intro target get r s table
  have hr : r.Spells target := by
    constructor
    · refine ⟨["%C3%a9", "a%2Fb"], .skip (.cons "%C3%a9" (.skip (.cons "a%2Fb" .nil))),
        .cons ?_ (.cons ?_ .nil)⟩
      · exact .escaped (e := "%C3%a9") (.cons rfl (.cons rfl .nil)) .nil
      · exact .kept (by decide) (.escaped (e := "%2F") (.cons rfl .nil) (.kept (by decide) .nil))
    · refine ⟨["k=%2b+", "f"], .cons "k=%2b+" (.last "f"), .cons ?_ (.cons ?_ .nil)⟩
      · exact .valued (k := "k") (.kept (by decide) .nil)
          (.escaped (e := "%2b") (.cons rfl .nil) (.plus .nil))
      · exact .bare (.kept (by decide) .nil)
  have hs : s.Spells target := by
    constructor
    · refine ⟨["é", "%61%2fb"], .cons "é" (.last "%61%2fb"), .cons ?_ (.cons ?_ .nil)⟩
      · exact .kept (by decide) .nil
      · exact .escaped (e := "%61") (.cons rfl .nil)
          (.escaped (e := "%2f") (.cons rfl .nil) (.kept (by decide) .nil))
    · refine ⟨["%6B=%2B%20", "f"], .skip (.cons "%6B=%2B%20" (.skip (.last "f"))),
        .cons ?_ (.cons ?_ .nil)⟩
      · exact .valued (k := "%6B") (.escaped (e := "%6B") (.cons rfl .nil) .nil)
          (.escaped (e := "%2B") (.cons rfl .nil) (.escaped (e := "%20") (.cons rfl .nil) .nil))
      · exact .bare (.kept (by decide) .nil)
  obtain ⟨hd, halike⟩ := resolve_respelled (by decide) (by decide) hr hs
  have hlabels : (table.resolve r).match?.map (·.labels) = some target.segments := by
    decide +kernel
  exact ⟨hr, hs, hd, halike rfl rfl, hlabels, halike rfl rfl table ▸ hlabels⟩

end RouteTable

/-! ## Parameters -/

namespace QueryParams

/-- The key has the value at some of its occurrences; a missing value counts as an empty one. -/
def Has (q : QueryParams) (key value : Text) : Prop := ∃ v, (key, v) ∈ q.pairs ∧ v.getD [] = value

theorem containsKey_iff {q : QueryParams} {key : Text} :
    q.containsKey key = true ↔ ∃ value, q.Has key value := by
  simp [containsKey, Has]

theorem containsPair_iff {q : QueryParams} {key value : Text} :
    q.containsPair key value = true ↔ q.Has key value := by
  simp only [containsPair, Has, List.any_eq_true, Bool.and_eq_true, beq_iff_eq, Prod.exists]
  constructor
  · rintro ⟨k, v, hm, rfl, hv⟩
    exact ⟨v, hm, hv⟩
  · rintro ⟨v, hm, hv⟩
    exact ⟨key, v, hm, rfl, hv⟩

/-- The keys in question have the same values. -/
def AgreeOn (keys : Text → Prop) (a b : QueryParams) : Prop :=
  ∀ key, keys key → ∀ value, a.Has key value ↔ b.Has key value

/-- Changes of the parameters that no reader of the keys in question sees. -/
inductive Edit (keys : Text → Prop) :
    List (Text × Option Text) → List (Text × Option Text) → Prop where
  | permuted {a b : List (Text × Option Text)} : a.Perm b → Edit keys a b
  | repeated {a : List (Text × Option Text)} {pair : Text × Option Text} :
    pair ∈ a → Edit keys a (pair :: a)
  | undeclared {a : List (Text × Option Text)} {key : Text} (value : Option Text) :
    ¬ keys key → Edit keys a ((key, value) :: a)
  | bare (a : List (Text × Option Text)) (key : Text) :
    Edit keys ((key, some []) :: a) ((key, none) :: a)
  | symm {a b : List (Text × Option Text)} : Edit keys a b → Edit keys b a
  | trans {a b c : List (Text × Option Text)} : Edit keys a b → Edit keys b c → Edit keys a c

variable {keys : Text → Prop}

theorem has_cons {pair : Text × Option Text} {pairs : List (Text × Option Text)}
    {key value : Text} :
    Has ⟨pair :: pairs⟩ key value ↔
      (pair.1 = key ∧ pair.2.getD [] = value) ∨ Has ⟨pairs⟩ key value := by
  simp only [Has, List.mem_cons]
  constructor
  · rintro ⟨v, rfl | hm, hv⟩
    · exact .inl ⟨rfl, hv⟩
    · exact .inr ⟨v, hm, hv⟩
  · rintro (⟨rfl, hv⟩ | ⟨v, hm, hv⟩)
    · exact ⟨pair.2, .inl rfl, hv⟩
    · exact ⟨v, .inr hm, hv⟩

theorem agreeOn_of_edit {a b : List (Text × Option Text)} (h : Edit keys a b) :
    AgreeOn keys ⟨a⟩ ⟨b⟩ := by
  induction h with
  | permuted hp =>
    intro key _ value
    simp only [Has, hp.mem_iff]
  | repeated hm =>
    intro key _ value
    rw [has_cons]
    constructor
    · exact .inr
    · rintro (⟨rfl, rfl⟩ | h)
      · exact ⟨_, hm, rfl⟩
      · exact h
  | undeclared v hk =>
    intro key hkey value
    rw [has_cons]
    constructor
    · exact .inr
    · rintro (⟨rfl, _⟩ | h)
      · exact absurd hkey hk
      · exact h
  | bare a k =>
    intro key _ value
    rw [has_cons, has_cons]
    rfl
  | symm _ ih =>
    intro key hkey value
    exact (ih key hkey value).symm
  | trans _ _ ih ih' =>
    intro key hkey value
    exact (ih key hkey value).trans (ih' key hkey value)

end QueryParams

namespace Pattern

theorem requirementMet_congr {keys : Text → Prop} {a b : QueryParams} (h : a.AgreeOn keys b)
    {r : QueryRequirement} (hr : keys r.key) : requirementMet a r = requirementMet b r := by
  rw [Bool.eq_iff_iff]
  cases r with
  | present key =>
    simp only [requirementMet, QueryParams.containsKey_iff]
    exact exists_congr (h key hr)
  | value key value =>
    simp only [requirementMet, QueryParams.containsPair_iff]
    exact h key hr value

theorem labels?_congr {keys : Text → Prop} {a b : QueryParams} (h : a.AgreeOn keys b) {p : Pattern}
    (hp : ∀ r ∈ p.query, keys r.key) (segments : List Text) (host : Option Text) :
    p.labels? ⟨segments, a⟩ host = p.labels? ⟨segments, b⟩ host := by
  have hquery : p.matchQuery a = p.matchQuery b := by
    rw [Bool.eq_iff_iff, matchQuery, matchQuery, List.all_eq_true, List.all_eq_true]
    exact forall₂_congr fun r hr => by rw [requirementMet_congr h (hp r hr)]
  simp only [labels?, hquery]

end Pattern

namespace RouteTable

variable {H : Type}

/-- The key is mentioned in a requirement of a route. -/
def Declares (t : RouteTable H) (key : Text) : Prop :=
  ∃ route ∈ t.routes, ∃ r ∈ route.pattern.query, r.key = key

instance decidableDeclares (t : RouteTable H) (key : Text) : Decidable (t.Declares key) :=
  inferInstanceAs (Decidable (∃ route ∈ t.routes, ∃ r ∈ route.pattern.query, r.key = key))

/-- The walk sees a target only through the routes it tries. -/
theorem walk_congr {a b : Target} {host : Option Text} {routes : List (Route H)}
    (h : ∀ route ∈ routes, route.pattern.labels? a host = route.pattern.labels? b host)
    (method : Method) (index : Nat) (allowed : List Method) :
    walk method a host index allowed routes = walk method b host index allowed routes := by
  induction routes generalizing index allowed with
  | nil => rfl
  | cons route rest ih =>
    obtain ⟨hroute, hrest⟩ := List.forall_mem_cons.mp h
    unfold walk
    rw [hroute]
    cases route.pattern.labels? b host with
    | none => exact ih hrest _ _
    | some labels =>
      by_cases hm : route.pattern.method = method
      · simp only [if_pos hm]
      · simp only [if_neg hm]
        exact ih hrest _ _

theorem resolve_of_agreeOn (t : RouteTable H) {r s : Request} (hmethod : r.method = s.method)
    (hpath : r.path = s.path) (hhost : r.host = s.host) {a b : QueryParams}
    (ha : Request.params? r.query = some a) (hb : Request.params? s.query = some b)
    (h : a.AgreeOn t.Declares b) : t.resolve r = t.resolve s := by
  rw [resolve, resolve, Request.decode?, Request.decode?, ha, hb, hpath, hmethod, hhost]
  cases Request.segments? s.path with
  | none => rfl
  | some segments =>
    refine walk_congr (fun route hroute => ?_) s.method 0 []
    exact Pattern.labels?_congr h (fun q hq => ⟨route, hroute, q, hq, rfl⟩) segments s.host

/-- Two requests that differ in their queries only are answered alike if the keys that the routes
declare have the same values in both. So the order of the parameters, their repetition, those that
no route declares, and whether an empty value is written with an equals sign, change nothing. -/
theorem resolve_eq_of_declared (t : RouteTable H) {r s : Request} (hmethod : r.method = s.method)
    (hpath : r.path = s.path) (hhost : r.host = s.host) {a b : QueryParams}
    (ha : Request.params? r.query = some a) (hb : Request.params? s.query = some b) :
    (a.AgreeOn t.Declares b → t.resolve r = t.resolve s) ∧
      (QueryParams.Edit t.Declares a.pairs b.pairs → t.resolve r = t.resolve s) := by
  have hagree := resolve_of_agreeOn t hmethod hpath hhost ha hb
  exact ⟨hagree, fun h => hagree (QueryParams.agreeOn_of_edit h)⟩

/-- A parameter that no route declares, another order, a parameter sent twice and an empty value
written with an equals sign. -/
theorem resolve_eq_of_declared_reordered :
    let get : Method := ⟨"GET", by decide⟩
    let t : RouteTable Nat :=
      ⟨[⟨⟨get, [.literal "a"], [.present "f", .value "k" ""], none⟩, 0⟩,
          ⟨⟨get, [.literal "a"], [.present "f"], none⟩, 1⟩], defaultSlowMatch⟩
    let r : Request := ⟨get, "/a", some "k&f=1&f=2", none⟩
    let s : Request := ⟨get, "/a", some "f=2&z=9&k=&f=1&f=2", none⟩
    (t.resolve r).isMatched = true ∧ t.resolve r = t.resolve s := by
  intro get t r s
  have ha : Request.params? r.query = some ⟨[("k", none), ("f", some "1"), ("f", some "2")]⟩ := by
    decide +kernel
  have hb : Request.params? s.query =
      some
        ⟨[("f", some "2"), ("z", some "9"), ("k", some []), ("f", some "1"), ("f", some "2")]⟩ := by
    decide +kernel
  have hz : ¬ t.Declares "z" := by decide +kernel
  have hf : ("f".toList, some "2".toList) ∈
    [("k".toList, some []), ("f", some "1"), ("f", some "2")] := by simp
  refine ⟨by decide +kernel, (resolve_eq_of_declared t (r := r) (s := s) rfl rfl rfl ha hb).2 ?_⟩
  refine .trans (.symm (.bare _ _)) ?_
  refine .trans (.repeated hf) ?_
  refine .trans (.undeclared (some "9") hz) ?_
  exact .permuted (.swap _ _ _)

end RouteTable

end RouteBook
