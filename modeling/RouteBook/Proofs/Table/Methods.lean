import RouteBook.Proofs.Table.FirstMatch

/-! # The methods that a refused request is told

They are the methods with which the same request would be matched. The walks for different methods
stop at different routes, but which routes fit in all but the method is the same for all of them, so
one list of methods tells the outcome of every walk. -/

namespace RouteBook

/-- The same request with another method. -/
def Request.withMethod (r : Request) (m : Method) : Request := { r with method := m }

namespace RouteTable

variable {H : Type}

/-- With this method the request is matched. -/
def Serves (t : RouteTable H) (r : Request) (m : Method) : Prop :=
  (t.resolve (r.withMethod m)).isMatched = true

/-- The methods of the routes that fit the request, whatever its own method is. -/
def accepted (t : RouteTable H) (r : Request) : List Method :=
  (r.decode?.map fun target => acceptedMethods target r.host t.routes).getD []

theorem accepted_of_decode? {t : RouteTable H} {r : Request} {target : Target}
    (hd : r.decode? = some target) :
    t.accepted r = acceptedMethods target r.host t.routes := by
  rw [accepted, hd, Option.map_some, Option.getD_some]

theorem nodup_accepted (t : RouteTable H) (r : Request) : (t.accepted r).Nodup := by
  unfold accepted
  cases r.decode? with
  | none => exact .nil
  | some target => exact nodup_eraseDups _

/-- The outcome is decided by whether the method of the request is among the accepted ones. -/
theorem resolve_of_accepted (t : RouteTable H) (r : Request) :
    (r.method ∈ t.accepted r ∧ ∃ found, t.resolve r = .matched found) ∨
      (r.method ∉ t.accepted r ∧
        t.resolve r =
          if t.accepted r = [] then .notFound else .methodNotAllowed (t.accepted r)) := by
  have hans := answers_resolve t r
  generalize t.resolve r = outcome at hans ⊢
  cases hans with
  | undecodable hd =>
    have ha : t.accepted r = [] := by rw [accepted, hd, Option.map_none, Option.getD_none]
    exact .inr ⟨by simp [ha], (if_pos ha).symm⟩
  | matched hd hi hf hm _ _ =>
    rw [accepted_of_decode? hd]
    exact .inl ⟨mem_acceptedMethods.mpr ⟨_, List.mem_of_getElem? hi, hf, hm⟩, _, rfl⟩
  | methodNotAllowed hd hex hno =>
    rw [accepted_of_decode? hd]
    obtain ⟨route, hr, hf⟩ := hex
    refine .inr ⟨fun hm => ?_, (if_neg ?_).symm⟩
    · obtain ⟨other, ho, hof, hom⟩ := mem_acceptedMethods.mp hm
      exact hno other ho hof hom
    · exact List.ne_nil_of_mem (mem_acceptedMethods.mpr ⟨route, hr, hf, rfl⟩)
  | notFound hd hnone =>
    have ha : t.accepted r = [] :=
      (accepted_of_decode? hd).trans (acceptedMethods_eq_nil_iff.mpr hnone)
    exact .inr ⟨by simp [ha], (if_pos ha).symm⟩

/-- The accepted methods are the same for every method of the request. -/
theorem resolve_withMethod (t : RouteTable H) (r : Request) (m : Method) :
    (m ∈ t.accepted r ∧ ∃ found, t.resolve (r.withMethod m) = .matched found) ∨
      (m ∉ t.accepted r ∧
        t.resolve (r.withMethod m) =
          if t.accepted r = [] then .notFound else .methodNotAllowed (t.accepted r)) :=
  resolve_of_accepted t (r.withMethod m)

theorem mem_accepted {t : RouteTable H} {r : Request} {m : Method} :
    m ∈ t.accepted r ↔ t.Serves r m := by
  rw [Serves]
  rcases resolve_withMethod t r m with ⟨hm, found, he⟩ | ⟨hm, he⟩
  · rw [he]
    exact ⟨fun _ => rfl, fun _ => hm⟩
  · rw [he]
    refine ⟨fun h => absurd h hm, fun h => ?_⟩
    split at h <;> cases h

theorem accepted_eq_nil_iff {t : RouteTable H} {r : Request} :
    t.accepted r = [] ↔ ∀ m, ¬ t.Serves r m := by
  simp only [List.eq_nil_iff_forall_not_mem, mem_accepted]

theorem accepted_ne_nil_iff {t : RouteTable H} {r : Request} :
    t.accepted r ≠ [] ↔ ∃ m, t.Serves r m := by
  constructor
  · intro h
    obtain ⟨m, hm⟩ := List.exists_mem_of_ne_nil _ h
    exact ⟨m, mem_accepted.mp hm⟩
  · rintro ⟨m, hm⟩
    exact List.ne_nil_of_mem (mem_accepted.mpr hm)

/-- The methods that a refused request is told are exactly those with which it would be
matched, each once, and the list does not depend on the method that was refused. A request is
not found if there are none. -/
theorem methodNotAllowed_iff_serves (t : RouteTable H) (r : Request) :
    (t.accepted r).Nodup ∧ (∀ m, m ∈ t.accepted r ↔ t.Serves r m) ∧
      ∀ m,
        ((∃ found, t.resolve (r.withMethod m) = .matched found) ↔ t.Serves r m) ∧
          (∀ allowed, t.resolve (r.withMethod m) = .methodNotAllowed allowed ↔
            ¬ t.Serves r m ∧ (∃ n, t.Serves r n) ∧ allowed = t.accepted r) ∧
          (t.resolve (r.withMethod m) = .notFound ↔ ∀ n, ¬ t.Serves r n) := by
  refine ⟨nodup_accepted t r, fun m => mem_accepted, fun m => ?_⟩
  rw [← accepted_ne_nil_iff, ← accepted_eq_nil_iff, ← mem_accepted]
  rcases resolve_withMethod t r m with ⟨hm, found, he⟩ | ⟨hm, he⟩
  · have hne : t.accepted r ≠ [] := List.ne_nil_of_mem hm
    rw [he]
    exact ⟨⟨fun _ => hm, fun _ => ⟨found, rfl⟩⟩, fun allowed => ⟨nofun, fun h => absurd hm h.1⟩,
      nofun, fun h => absurd h hne⟩
  · rw [he]
    by_cases ha : t.accepted r = []
    · rw [if_pos ha]
      exact ⟨⟨nofun, fun h => absurd h hm⟩, fun allowed => ⟨nofun, fun h => absurd ha h.2.1⟩,
        fun _ => ha, fun _ => rfl⟩
    · rw [if_neg ha]
      refine ⟨⟨nofun, fun h => absurd h hm⟩, fun allowed => ⟨?_, ?_⟩, nofun, fun h => absurd h ha⟩
      · rintro ⟨rfl⟩
        exact ⟨hm, ha, rfl⟩
      · rintro ⟨_, _, rfl⟩
        rfl

end RouteTable

end RouteBook
