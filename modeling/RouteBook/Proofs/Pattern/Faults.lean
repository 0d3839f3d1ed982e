import RouteBook.Proofs.Pattern.Host
import RouteBook.Proofs.Pattern.Query

/-! # Which parts make a pattern, and what is wrong with the others

The rules for paths, queries and hosts are said by position, and so is the fault that a position
has. A constructor takes exactly the parts that follow the rules and of any others it reports the
first fault: the scans for faults are all one scan, which stops at the first element that its check
refuses. So every pattern that the constructors lead to follows the rules, also the one that lets
matching stop at a greedy label. -/

namespace RouteBook.Pattern

/-! ## The first fault of a list -/

/-- The fault of the first position that has one. -/
def FirstFault (faultAt : Nat → PatternError → Prop) (e : PatternError) : Prop :=
  ∃ i, faultAt i e ∧ ∀ j < i, ∀ other, ¬ faultAt j other

theorem FirstFault.congr {faultAt faultAt' : Nat → PatternError → Prop}
    (h : ∀ i e, faultAt i e ↔ faultAt' i e) (e : PatternError) :
    FirstFault faultAt e ↔ FirstFault faultAt' e := by
  simp only [FirstFault, h]

section Scan

variable {α σ : Type} (check : σ → α → Option PatternError) (next : σ → α → σ)

/-- A scan that stops at the first element its check refuses; `next` is what it
remembers of an element. -/
def scan? : σ → List α → Option PatternError
  | _, [] => none
  | s, x :: xs => (check s x).or (scan? (next s x) xs)

/-- The fault of the element at a position, with what is remembered of the elements before it. -/
def FaultAt (s : σ) (xs : List α) (i : Nat) (e : PatternError) : Prop :=
  ∃ x, xs[i]? = some x ∧ check ((xs.take i).foldl next s) x = some e

variable {check next}

theorem faultAt_zero {s : σ} {x : α} {xs : List α} {e : PatternError} :
    FaultAt check next s (x :: xs) 0 e ↔ check s x = some e := by
  simp [FaultAt]

theorem faultAt_succ {s : σ} {x : α} {xs : List α} {i : Nat} {e : PatternError} :
    FaultAt check next s (x :: xs) (i + 1) e ↔ FaultAt check next (next s x) xs i e := by
  simp [FaultAt]

theorem scan?_eq_some_iff {s : σ} {xs : List α} {e : PatternError} :
    scan? check next s xs = some e ↔ FirstFault (FaultAt check next s xs) e := by
  induction xs generalizing s with
  | nil => simp [scan?, FirstFault, FaultAt]
  | cons x xs ih =>
    rw [scan?]
    cases hx : check s x with
    | some found =>
      rw [Option.some_or]
      constructor
      · intro h
        exact ⟨0, faultAt_zero.mpr (hx.trans h), nofun⟩
      · intro ⟨i, hi, hleast⟩
        cases i with
        | zero => exact hx.symm.trans (faultAt_zero.mp hi)
        | succ i => exact absurd (faultAt_zero.mpr hx) (hleast 0 (Nat.zero_lt_succ i) found)
    | none =>
      rw [Option.none_or, ih]
      constructor
      · intro ⟨i, hi, hleast⟩
        refine ⟨i + 1, faultAt_succ.mpr hi, fun j hj other ho => ?_⟩
        cases j with
        | zero => cases hx.symm.trans (faultAt_zero.mp ho)
        | succ j => exact hleast j (Nat.lt_of_succ_lt_succ hj) other (faultAt_succ.mp ho)
      · intro ⟨i, hi, hleast⟩
        cases i with
        | zero => cases hx.symm.trans (faultAt_zero.mp hi)
        | succ i =>
          exact ⟨i, faultAt_succ.mp hi, fun j hj other ho =>
            hleast (j + 1) (Nat.succ_lt_succ hj) other (faultAt_succ.mpr ho)⟩

end Scan

/-! ## Faults of a path -/

/-- What is wrong at a position of a path. An empty literal is not looked at further. -/
inductive PathFault (path : List PathSegment) (i : Nat) : PatternError → Prop where
  | emptyLiteral : path[i]? = some (.literal []) → PathFault path i .emptyPathSegment
  | secondGreedy : path[i]? = some .greedy → .greedy ∈ path.take i →
    PathFault path i .multipleGreedy
  | afterGreedy {segment : PathSegment} :
    path[i]? = some segment → segment ≠ .literal [] → segment ≠ .greedy →
    .greedy ∈ path.take i → PathFault path i .greedyNotLast

/-- The check of one segment; `greedy` says whether a greedy label stands before it. -/
def segmentFault? (greedy : Bool) : PathSegment → Option PatternError
  | .literal [] => some .emptyPathSegment
  | .greedy => if greedy then some .multipleGreedy else none
  | _ => if greedy then some .greedyNotLast else none

def greedyUpTo (greedy : Bool) (segment : PathSegment) : Bool :=
  greedy || decide (segment = .greedy)

theorem pathFault?_eq_scan? (greedy : Bool) (path : List PathSegment) :
    pathFault? greedy path = scan? segmentFault? greedyUpTo greedy path := by
  induction path generalizing greedy with
  | nil => rfl
  | cons segment rest ih =>
    cases segment with
    | literal t =>
      cases t <;> cases greedy <;> simp [pathFault?, scan?, segmentFault?, greedyUpTo, ih]
    | label => cases greedy <;> simp [pathFault?, scan?, segmentFault?, greedyUpTo, ih]
    | greedy => cases greedy <;> simp [pathFault?, scan?, segmentFault?, greedyUpTo, ih]

theorem foldl_greedyUpTo (front : List PathSegment) (greedy : Bool) :
    front.foldl greedyUpTo greedy = true ↔ greedy = true ∨ .greedy ∈ front := by
  induction front generalizing greedy with
  | nil => simp
  | cons segment front ih =>
    rw [List.foldl_cons, ih, List.mem_cons, greedyUpTo, Bool.or_eq_true, decide_eq_true_eq,
      or_assoc, eq_comm (a := segment)]

theorem segmentFault?_eq_some_iff {greedy : Bool} {segment : PathSegment} {e : PatternError} :
    segmentFault? greedy segment = some e ↔
      (segment = .literal [] ∧ e = .emptyPathSegment) ∨
        (segment = .greedy ∧ greedy = true ∧ e = .multipleGreedy) ∨
        (segment ≠ .literal [] ∧ segment ≠ .greedy ∧ greedy = true ∧ e = .greedyNotLast) := by
  cases segment with
  | literal t => cases t <;> simp [segmentFault?, eq_comm]
  | label => simp [segmentFault?, eq_comm]
  | greedy => simp [segmentFault?, eq_comm]

theorem faultAt_iff_pathFault {path : List PathSegment} {i : Nat} {e : PatternError} :
    FaultAt segmentFault? greedyUpTo false path i e ↔ PathFault path i e := by
  simp only [FaultAt, segmentFault?_eq_some_iff, foldl_greedyUpTo, Bool.false_eq_true, false_or]
  constructor
  · rintro ⟨segment, hi, ⟨rfl, rfl⟩ | ⟨rfl, hg, rfl⟩ | ⟨hl, hs, hg, rfl⟩⟩
    · exact .emptyLiteral hi
    · exact .secondGreedy hi hg
    · exact .afterGreedy hi hl hs hg
  · intro h
    cases h with
    | emptyLiteral hi => exact ⟨_, hi, .inl ⟨rfl, rfl⟩⟩
    | secondGreedy hi hg => exact ⟨_, hi, .inr (.inl ⟨rfl, hg, rfl⟩)⟩
    | afterGreedy hi hl hs hg => exact ⟨_, hi, .inr (.inr ⟨hl, hs, hg, rfl⟩)⟩

theorem pathFault?_eq_some_iff {path : List PathSegment} {e : PatternError} :
    pathFault? false path = some e ↔ FirstFault (PathFault path) e := by
  rw [pathFault?_eq_scan?, scan?_eq_some_iff]
  exact FirstFault.congr (fun _ _ => faultAt_iff_pathFault) e

/-- The rules for a path: a greedy label only stands at its end. -/
structure PathRules (path : List PathSegment) : Prop where
  literal_ne_nil : ∀ t, .literal t ∈ path → t ≠ []
  greedy_once : path.count .greedy ≤ 1
  greedy_last : ∀ i, path[i]? = some .greedy → i + 1 = path.length

theorem PathRules.cons (segment : PathSegment) (hg : segment ≠ .greedy)
    (hl : ∀ t, segment = .literal t → t ≠ []) {path : List PathSegment} (h : PathRules path) :
    PathRules (segment :: path) where
  literal_ne_nil t ht := (List.mem_cons.mp ht).elim (fun he => hl t he.symm) (h.literal_ne_nil t)
  greedy_once := by
    rw [List.count_cons_of_ne hg]
    exact h.greedy_once
  greedy_last i hi := by
    cases i with
    | zero => exact absurd (Option.some.inj hi) hg
    | succ i => exact congrArg (· + 1) (h.greedy_last i hi)

theorem PathRules.tail {segment : PathSegment} {path : List PathSegment}
    (h : PathRules (segment :: path)) :
    PathRules path where
  literal_ne_nil t ht := h.literal_ne_nil t (List.mem_cons_of_mem _ ht)
  greedy_once := List.count_le_count_cons.trans h.greedy_once
  greedy_last i hi := Nat.succ.inj (h.greedy_last (i + 1) hi)

theorem pathOk_iff_pathRules {path : List PathSegment} : PathOk path ↔ PathRules path := by
  constructor
  · intro h
    induction h with
    | nil => exact ⟨nofun, Nat.zero_le 1, nofun⟩
    | @literal t _ ht _ ih =>
      exact .cons (.literal t) nofun (fun u hu => PathSegment.literal.inj hu ▸ ht) ih
    | label _ ih => exact .cons .label nofun nofun ih
    | greedy =>
      refine ⟨by simp, by simp, fun i hi => ?_⟩
      have := (List.getElem?_eq_some_iff.mp hi).1
      rw [List.length_singleton] at this ⊢
      omega
  · intro h
    induction path with
    | nil => exact .nil
    | cons segment path ih =>
      cases segment with
      | literal t => exact .literal (h.literal_ne_nil t List.mem_cons_self) (ih h.tail)
      | label => exact .label (ih h.tail)
      | greedy =>
        obtain rfl : path = [] :=
          List.length_eq_zero_iff.mp (Nat.succ.inj (h.greedy_last 0 rfl)).symm
        exact .greedy

/-! ## Faults of a query -/

/-- What is wrong at a position of a list of requirements. An empty key does not count as
repeated. -/
inductive QueryFault (query : List QueryRequirement) (i : Nat) : PatternError → Prop where
  | emptyKey {r : QueryRequirement} :
    query[i]? = some r → r.key = [] → QueryFault query i .emptyQueryKey
  | repeatedKey {r : QueryRequirement} : query[i]? = some r → r.key ≠ [] →
    r.key ∈ (query.take i).map (·.key) → QueryFault query i (.duplicateQueryKey r.key)

/-- The check of one requirement; `seen` holds the keys before it. -/
def requirementFault? (seen : List Text) (r : QueryRequirement) : Option PatternError :=
  if r.key = [] then some .emptyQueryKey
  else if seen.contains r.key then some (.duplicateQueryKey r.key) else none

def keysUpTo (seen : List Text) (r : QueryRequirement) : List Text := r.key :: seen

theorem queryFault?_eq_scan? (seen : List Text) (query : List QueryRequirement) :
    queryFault? seen query = scan? requirementFault? keysUpTo seen query := by
  induction query generalizing seen with
  | nil => rfl
  | cons r rest ih =>
    rw [queryFault?, scan?, requirementFault?, ih, keysUpTo]
    simp only [List.contains_iff_mem]
    split
    · rfl
    · split <;> rfl

theorem mem_foldl_keysUpTo {front : List QueryRequirement} {seen : List Text} {key : Text} :
    key ∈ front.foldl keysUpTo seen ↔ key ∈ seen ∨ key ∈ front.map (·.key) := by
  induction front generalizing seen with
  | nil => simp
  | cons r front ih =>
    rw [List.foldl_cons, ih, keysUpTo, List.mem_cons, List.map_cons, List.mem_cons, or_left_comm,
      or_assoc]

theorem faultAt_iff_queryFault {query : List QueryRequirement} {i : Nat} {e : PatternError} :
    FaultAt requirementFault? keysUpTo [] query i e ↔ QueryFault query i e := by
  unfold FaultAt requirementFault?
  simp only [List.contains_iff_mem, mem_foldl_keysUpTo, List.not_mem_nil, false_or]
  constructor
  · intro ⟨r, hi, hf⟩
    split at hf
    · next hk =>
      cases hf
      exact .emptyKey hi hk
    · next hk =>
      split at hf
      · next hs =>
        cases hf
        exact .repeatedKey hi hk hs
      · cases hf
  · intro h
    cases h with
    | emptyKey hi hk => exact ⟨_, hi, if_pos hk⟩
    | repeatedKey hi hk hs => exact ⟨_, hi, by rw [if_neg hk, if_pos hs]⟩

theorem queryFault?_eq_some_iff {query : List QueryRequirement} {e : PatternError} :
    queryFault? [] query = some e ↔ FirstFault (QueryFault query) e := by
  rw [queryFault?_eq_scan?, scan?_eq_some_iff]
  exact FirstFault.congr (fun _ _ => faultAt_iff_queryFault) e

/-! ## Hosts -/

/-- The rules for the host of a pattern. -/
structure HostRules (segments : List HostSegment) : Prop where
  ne_nil : segments ≠ []
  literal_ne_nil : ∀ t, .literal t ∈ segments → t ≠ []
  labels_apart : ∀ i, segments[i]? = some .label → segments[i + 1]? ≠ some .label

theorem HostOk.literal_ne_nil {segments : List HostSegment} (h : HostOk segments) {t : Text}
    (ht : .literal t ∈ segments) : t ≠ [] := by
  induction h with
  | nil => cases ht
  | literal hu _ ih =>
    rcases List.mem_cons.mp ht with he | ht
    · exact HostSegment.literal.inj he ▸ hu
    · exact ih ht
  | label _ _ ih =>
    rcases List.mem_cons.mp ht with he | ht
    · cases he
    · exact ih ht

theorem HostOk.labels_apart {segments : List HostSegment} (h : HostOk segments) (i : Nat)
    (hi : segments[i]? = some .label) : segments[i + 1]? ≠ some .label := by
  induction h generalizing i with
  | nil => cases hi
  | literal _ _ ih =>
    cases i with
    | zero => cases hi
    | succ i => exact ih i hi
  | label hh _ ih =>
    cases i with
    | zero => simpa [List.head?_eq_getElem?] using hh
    | succ i => exact ih i hi

theorem hostRules_iff {segments : List HostSegment} :
    HostRules segments ↔ segments ≠ [] ∧ HostOk segments := by
  refine ⟨fun h => ⟨h.ne_nil, ?_⟩, fun h => ⟨h.1, fun _ => h.2.literal_ne_nil, h.2.labels_apart⟩⟩
  obtain ⟨_, hl, ha⟩ := h
  induction segments with
  | nil => exact .nil
  | cons segment rest ih =>
    have hrest : HostOk rest := by
      cases rest with
      | nil => exact .nil
      | cons next rest =>
        exact ih (List.cons_ne_nil _ _) (fun t ht => hl t (List.mem_cons_of_mem _ ht))
          fun i => ha (i + 1)
    cases segment with
    | literal t => exact .literal (hl t List.mem_cons_self) hrest
    | label => exact .label (by simpa [List.head?_eq_getElem?] using ha 0 rfl) hrest

theorem HostRules.map_lower {segments : List HostSegment} (h : HostRules segments) :
    HostRules (segments.map HostSegment.lower) := by
  rw [hostRules_iff] at h ⊢
  exact ⟨by simpa using h.1, h.2.map_lower⟩

/-! ## Patterns -/

theorem isSupported_iff {m : Method} : m.isSupported = true ↔ m.text ∈ Method.supported :=
  List.contains_iff_mem

/-- Why parts make no pattern: the method is looked at first, then the path, then the query. -/
inductive PartsFault (m : Method) (path : List PathSegment) (query : List QueryRequirement) :
    PatternError → Prop where
  | method : m.text ∉ Method.supported → PartsFault m path query (.unsupportedMethod m.text)
  | path {e : PatternError} : m.text ∈ Method.supported → FirstFault (PathFault path) e →
    PartsFault m path query e
  | query {e : PatternError} : m.text ∈ Method.supported → PathRules path →
    FirstFault (QueryFault query) e →
    PartsFault m path query e

theorem ofParts_eq_error_iff {m : Method} {path : List PathSegment} {query : List QueryRequirement}
    {e : PatternError} : ofParts m path query = .error e ↔ PartsFault m path query e := by
  constructor
  · intro h
    unfold ofParts at h
    split at h
    · next hm =>
      have hm := isSupported_iff.mp hm
      split at h
      · next hp =>
        cases h
        exact .path hm (pathFault?_eq_some_iff.mp hp)
      · next hp =>
        have hp := pathOk_iff_pathRules.mp (pathFault?_eq_none_iff.mp hp)
        split at h
        · next hq =>
          cases h
          exact .query hm hp (queryFault?_eq_some_iff.mp hq)
        · cases h
    · next hm =>
      cases h
      exact .method fun hs => hm (isSupported_iff.mpr hs)
  · intro h
    cases h with
    | method hm => rw [ofParts, if_neg fun hs => hm (isSupported_iff.mp hs)]
    | path hm hp => rw [ofParts, if_pos (isSupported_iff.mpr hm), pathFault?_eq_some_iff.mpr hp]
    | query hm hp hq =>
      rw [ofParts, if_pos (isSupported_iff.mpr hm),
        pathFault?_eq_none_iff.mpr (pathOk_iff_pathRules.mpr hp), queryFault?_eq_some_iff.mpr hq]

/-- A pattern that the constructors lead to, by any steps. -/
inductive Reachable : Pattern → Prop where
  | ofParts {m : Method} {path : List PathSegment} {query : List QueryRequirement} {p : Pattern} :
    ofParts m path query = .ok p → Reachable p
  | parse {m : Method} {uri : Text} {p : Pattern} : parse m uri = .ok p → Reachable p
  | withHost {p q : Pattern} {segments : List HostSegment} :
    Reachable p → p.withHost segments = .ok q → Reachable q

/-- The rules for a pattern. -/
structure Rules (p : Pattern) : Prop where
  method : p.method.text ∈ Method.supported
  path : PathRules p.path
  query : QueryOk p.query
  sorted : p.query.Pairwise fun r s => QueryRequirement.le r s = true
  host : ∀ segments, p.host = some segments → HostRules segments
  lower : ∀ segments, p.host = some segments → segments.map HostSegment.lower = segments

theorem rules_of_ofParts {m : Method} {path : List PathSegment} {query : List QueryRequirement}
    {p : Pattern} (h : ofParts m path query = .ok p) : Rules p := by
  obtain ⟨hm, hpath, hquery, rfl⟩ := ofParts_eq_ok_iff.mp h
  exact ⟨isSupported_iff.mp hm, pathOk_iff_pathRules.mp hpath,
    hquery.perm (List.mergeSort_perm query _),
    List.pairwise_mergeSort QueryRequirement.le_trans QueryRequirement.le_total query, nofun, nofun⟩

theorem Reachable.rules {p : Pattern} (h : Reachable p) : Rules p := by
  induction h with
  | ofParts h => exact rules_of_ofParts h
  | parse h =>
    obtain ⟨_, _, _, segments, _, hparts⟩ := parse_eq_ok_iff.mp h
    exact rules_of_ofParts hparts
  | withHost _ h ih =>
    obtain ⟨hn, hok, rfl⟩ := withHost_eq_ok_iff.mp h
    refine ⟨ih.method, ih.path, ih.query, ih.sorted, fun segments hs => ?_, fun segments hs => ?_⟩
    · cases hs
      exact (hostRules_iff.mpr ⟨hn, hok⟩).map_lower
    · cases hs
      rw [List.map_map]
      exact List.map_congr_left fun segment _ => lower_lower segment

/-- The constructors take exactly the parts that follow the rules, keep them but for the order of
the requirements and the case of the host, and report the first fault of any others. Whatever they
lead to follows the rules, so nothing comes after a greedy label. -/
theorem constructors_exact :
    (∀ m path query p, ofParts m path query = .ok p ↔
      m.text ∈ Method.supported ∧ PathRules path ∧ QueryOk query ∧
        p.method = m ∧ p.path = path ∧
          (p.query.Perm query ∧ p.query.Pairwise fun r s => QueryRequirement.le r s = true) ∧
            p.host = none) ∧
      (∀ m path query e, ofParts m path query = .error e ↔ PartsFault m path query e) ∧
      (∀ p segments q, withHost p segments = .ok q ↔
        HostRules segments ∧ q = { p with host := some (segments.map HostSegment.lower) }) ∧
      ∀ p, Reachable p → Rules p ∧ ∀ front rest, p.path = front ++ .greedy :: rest → rest = [] := by
  refine ⟨fun m path query p => ?_, fun m path query e => ofParts_eq_error_iff,
    fun p segments q => ?_, fun p h => ⟨h.rules, fun front rest he => ?_⟩⟩
  · rw [ofParts_eq_ok_iff, isSupported_iff, pathOk_iff_pathRules,
      ← QueryRequirement.eq_mergeSort_iff]
    obtain ⟨method, path', query', host⟩ := p
    simp only [mk.injEq]
  · rw [withHost_eq_ok_iff, hostRules_iff, and_assoc]
  · have hlast := h.rules.path.greedy_last front.length (by simp [he])
    rw [he, List.length_append, List.length_cons] at hlast
    exact List.length_eq_zero_iff.mp (by omega)

/-- Requirements given out of order and a host in capitals make a pattern that follows
the rules. Of a second greedy label, an empty literal between the two and an empty key,
the literal is reported. -/
theorem rules_of_capitals :
    let get : Method := ⟨"GET", by decide⟩
    let path : List PathSegment := [.literal "a", .greedy]
    let p : Pattern := ⟨get, path, [.present "b", .value "a" "1"], none⟩
    let q : Pattern := { p with host := some [.literal "api.", .label] }
    ofParts get path [.value "a" "1", .present "b"] = .ok p ∧
      withHost p [.literal "API.", .label] = .ok q ∧ Reachable q ∧ Rules q ∧
      ofParts get [.greedy, .literal [], .greedy] [.present []] = .error .emptyPathSegment := by
  intro get path p q
  obtain ⟨hok, herror, hhost, hrules⟩ := constructors_exact
  have hpath : PathRules path := pathOk_iff_pathRules.mp (pathFault?_eq_none_iff.mp (by decide))
  have hp : ofParts get path [.value "a" "1", .present "b"] = .ok p :=
    (hok _ _ _ _).mpr
      ⟨by decide, hpath, ⟨by decide, by decide⟩, rfl, rfl, ⟨List.Perm.swap _ _ _, by decide⟩, rfl⟩
  have hq : withHost p [.literal "API.", .label] = .ok q :=
    (hhost _ _ _).mpr ⟨hostRules_iff.mpr ⟨by simp, .literal (by decide) (.label nofun .nil)⟩, rfl⟩
  have hreachable : Reachable q := .withHost (.ofParts hp) hq
  refine ⟨hp, hq, hreachable, (hrules q hreachable).1,
    (herror _ _ _ _).mpr (.path (by decide) ⟨1, ?_, ?_⟩)⟩
  · exact .emptyLiteral rfl
  · intro j hj other ho
    obtain rfl : j = 0 := by omega
    cases ho with
    | emptyLiteral hi => cases hi
    | secondGreedy _ hg | afterGreedy _ _ _ hg => cases hg

end RouteBook.Pattern
