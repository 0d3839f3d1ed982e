import RouteBook.Proofs.Pattern.Host

/-! # Matching a host never has to go back

Each label ends where the next literal occurs first. If some later occurrence led to a match, the
first one does too: what follows a literal of a prefix that was read from text is a label, and a
label can take what the later occurrence left out. So what is taken of a host is the shortest part
that splits along the prefix, and only a label at the end of the prefix needs a rule of its own. -/

namespace RouteBook

namespace Text

/-- A needle that occurs is found, and nowhere after that occurrence. -/
theorem exists_seek?_append (front needle back : Text) :
    ∃ skipped after, seek? needle (front ++ (needle ++ back)) = some (needle ++ after) ∧
      front ++ (needle ++ back) = skipped ++ (needle ++ after) ∧ skipped.length ≤ front.length := by
  induction front with
  | nil => exact ⟨[], back, seek?_append needle back, rfl, Nat.le_refl _⟩
  | cons c front ih =>
    rw [List.cons_append, seek?]
    split
    · next hp =>
      obtain ⟨after, ha⟩ := List.isPrefixOf_iff_prefix.mp hp
      exact ⟨[], after, congrArg some ha.symm, ha.symm, Nat.zero_le _⟩
    · obtain ⟨skipped, after, hs, he, hle⟩ := ih
      exact ⟨c :: skipped, after, hs, by rw [he]; rfl, Nat.succ_le_succ hle⟩

end Text

namespace Pattern

/-! ## Prefixes that end in a literal -/

/-- Each label stands before a literal, and no two literals are adjacent. -/
inductive Closed : List HostSegment → Prop where
  | nil : Closed []
  | literal {t : Text} {rest : List HostSegment} :
    (∀ u, rest.head? ≠ some (.literal u)) → Closed rest → Closed (.literal t :: rest)
  | label {t : Text} {rest : List HostSegment} :
    Closed (.literal t :: rest) → Closed (.label :: .literal t :: rest)

theorem getLast?_of_cons {segment last : HostSegment} {segments : List HostSegment}
    (h : (segment :: segments).getLast? ≠ some last) : segments.getLast? ≠ some last := by
  cases segments with
  | nil => simp
  | cons next rest => simpa using h

theorem closed_of_hostOk : ∀ {segments : List HostSegment}, HostOk segments → Separated segments →
    segments.getLast? ≠ some .label → Closed segments
  | [], _, _, _ => .nil
  | .literal _ :: _, .literal _ hok, .literal _ hhead hs, hlast =>
    .literal hhead (closed_of_hostOk hok hs (getLast?_of_cons hlast))
  | [.label], _, _, hlast => absurd rfl hlast
  | .label :: .label :: _, .label hhead _, _, _ => absurd rfl hhead
  | .label :: .literal _ :: _, .label _ hok, .label hs, hlast =>
    .label (closed_of_hostOk hok hs (getLast?_of_cons hlast))

theorem HostOk.of_append_label {segments : List HostSegment} (h : HostOk (segments ++ [.label])) :
    HostOk segments ∧ segments.getLast? ≠ some .label := by
  induction segments with
  | nil => exact ⟨.nil, by simp⟩
  | cons segment rest ih =>
    cases h with
    | literal ht hok =>
      obtain ⟨hok, hlast⟩ := ih hok
      refine ⟨.literal ht hok, ?_⟩
      cases rest with
      | nil => simp
      | cons next rest => simpa using hlast
    | label hhead hok =>
      obtain ⟨hok, hlast⟩ := ih hok
      cases rest with
      | nil => exact absurd rfl hhead
      | cons next rest => exact ⟨.label hhead hok, by simpa using hlast⟩

theorem Separated.of_append {segments more : List HostSegment} (h : Separated (segments ++ more)) :
    Separated segments := by
  induction segments with
  | nil => exact .nil
  | cons segment rest ih =>
    cases h with
    | literal ht hhead hs =>
      refine .literal ht (fun u hu => ?_) (ih hs)
      cases rest with
      | nil => cases hu
      | cons next rest => exact hhead u hu
    | label hs => exact .label (ih hs)

/-! ## What is left of a host -/

/-- What is left of a host when each label takes as little as it can before the literal after it. -/
def rest? : List HostSegment → Text → Option Text
  | [], host => some host
  | .literal t :: segments, host => (Text.after? t host).bind (rest? segments)
  | .label :: .literal t :: segments, _ :: host =>
    (Text.seek? t host).bind (rest? (.literal t :: segments))
  | .label :: _, _ => none

/-- The part of the host splits along the segments, and no shorter part does. -/
structure ShortestSplit (segments : List HostSegment) (host front tail : Text) : Prop where
  eq : host = front ++ tail
  splits : Splits segments front
  least : ∀ front' tail', host = front' ++ tail' → Splits segments front' →
    front.length ≤ front'.length

theorem rest?_literal (t rest : Text) (segments : List HostSegment) :
    rest? (.literal t :: segments) (t ++ rest) = rest? segments rest := by
  rw [rest?, Text.after?_eq_some_iff.mpr rfl]
  rfl

theorem splits_of_rest? {segments : List HostSegment} (hc : Closed segments) {host tail : Text}
    (h : rest? segments host = some tail) :
    ∃ front, host = front ++ tail ∧ Splits segments front := by
  induction hc generalizing host with
  | nil =>
    cases h
    exact ⟨[], rfl, .nil⟩
  | @literal t _ _ _ ih =>
    obtain ⟨rest, hr, h⟩ := Option.bind_eq_some_iff.mp h
    obtain ⟨front, rfl, hs⟩ := ih h
    exact ⟨t ++ front, by rw [Text.after?_eq_some_iff.mp hr, List.append_assoc], .literal hs⟩
  | label _ ih =>
    cases host with
    | nil => cases h
    | cons c host =>
      obtain ⟨found, hf, hrest⟩ := Option.bind_eq_some_iff.mp h
      obtain ⟨skipped, rfl⟩ := Text.eq_append_of_seek? hf
      obtain ⟨front, rfl, hs⟩ := ih hrest
      exact ⟨c :: skipped ++ front, by simp, .label (by simp) hs⟩

/-- A label at the front can take more, so what splits along the segments need not begin at once. -/
theorem splits_append {segments : List HostSegment}
    (hhead : ∀ u, segments.head? ≠ some (.literal u)) (skipped : Text) {front : Text}
    (hs : Splits segments front) :
    ∃ front' gap, skipped ++ front = front' ++ gap ∧ Splits segments front' := by
  cases hs with
  | nil => exact ⟨[], skipped ++ [], rfl, .nil⟩
  | @literal t => exact absurd rfl (hhead t)
  | @label w rest _ hw hs => exact ⟨skipped ++ w ++ rest, [], by simp, .label (by simp [hw]) hs⟩

/-- Wherever the host splits, the leftmost literals lead to a split that is no longer. -/
theorem rest?_of_splits {segments : List HostSegment} (hc : Closed segments) {front : Text}
    (hs : Splits segments front) (tail : Text) :
    ∃ front' tail', rest? segments (front ++ tail) = some tail' ∧ front ++ tail = front' ++ tail' ∧
      front'.length ≤ front.length := by
  induction hc generalizing front tail with
  | nil =>
    cases hs
    exact ⟨[], tail, rfl, rfl, Nat.le_refl _⟩
  | @literal t _ _ _ ih =>
    cases hs with
    | @literal _ rest _ hs =>
      obtain ⟨front', tail', hrest, he, hle⟩ := ih hs tail
      refine ⟨t ++ front', tail', ?_, ?_, ?_⟩
      · rw [List.append_assoc, rest?_literal, hrest]
      · rw [List.append_assoc, he, List.append_assoc]
      · rw [List.length_append, List.length_append]
        omega
  | @label t segments hc ih =>
    cases hc with
    | literal hhead _ =>
      cases hs with
      | @label w _ _ hw hs =>
        cases hs with
        | @literal _ rest _ hs =>
          obtain ⟨c, w, rfl⟩ := List.exists_cons_of_ne_nil hw
          obtain ⟨skipped, after, hseek, he, hle⟩ := Text.exists_seek?_append w t (rest ++ tail)
          have hlength := congrArg List.length he
          simp only [List.length_append] at hlength
          -- The first occurrence leaves all that the other one leaves and what stands between them.
          obtain ⟨between, rfl⟩ : (rest ++ tail) <:+ after :=
            List.suffix_of_suffix_length_le ⟨w ++ t, List.append_assoc w t _⟩
              ⟨skipped ++ t, (List.append_assoc skipped t after).trans he.symm⟩
              (by rw [List.length_append]; omega)
          obtain ⟨front', gap, hgap, hs'⟩ := splits_append hhead between hs
          obtain ⟨front'', tail', hrest, he', hle'⟩ := ih (.literal hs') (gap ++ tail)
          have hafter : t ++ (between ++ (rest ++ tail)) = t ++ front' ++ (gap ++ tail) := by
            rw [← List.append_assoc between, hgap, List.append_assoc, List.append_assoc]
          have hhost : c :: w ++ (t ++ rest) ++ tail = c :: (w ++ (t ++ (rest ++ tail))) := by simp
          refine ⟨c :: skipped ++ front'', tail', ?_, ?_, ?_⟩
          · rw [hhost, rest?, hseek, Option.bind_some, hafter, hrest]
          · rw [hhost, he, hafter, he']
            simp
          · have hlen := congrArg List.length hgap
            simp only [List.length_append, List.length_cons] at hlen hlength hle' ⊢
            omega

theorem rest?_eq_some_iff {segments : List HostSegment} (hc : Closed segments) {host tail : Text} :
    rest? segments host = some tail ↔ ∃ front, ShortestSplit segments host front tail := by
  constructor
  · intro h
    obtain ⟨front, rfl, hs⟩ := splits_of_rest? hc h
    refine ⟨front, rfl, hs, fun other left he ho => ?_⟩
    obtain ⟨front', tail', hrest, he', hle⟩ := rest?_of_splits hc ho left
    rw [← he, h] at hrest
    obtain rfl := Option.some.inj hrest
    rw [List.append_cancel_right (he.trans he')]
    exact hle
  · intro h
    obtain ⟨front, rfl, hs, hleast⟩ := h
    obtain ⟨front', tail', hrest, he, hle⟩ := rest?_of_splits hc hs tail
    obtain ⟨front'', he'', hs''⟩ := splits_of_rest? hc hrest
    obtain rfl := List.append_cancel_right (he.symm.trans he'')
    have hge := hleast front' tail' he hs''
    obtain ⟨_, rfl⟩ := List.append_inj he (by omega)
    exact hrest

theorem exists_shortestSplit_iff {segments : List HostSegment} (hc : Closed segments)
    {host : Text} :
    (∃ front tail, ShortestSplit segments host front tail) ↔
      ∃ front tail, host = front ++ tail ∧ Splits segments front := by
  constructor
  · intro ⟨front, tail, h⟩
    exact ⟨front, tail, h.eq, h.splits⟩
  · intro ⟨front, tail, he, hs⟩
    obtain ⟨_, tail', hrest, _⟩ := rest?_of_splits hc hs tail
    obtain ⟨front', h⟩ := (rest?_eq_some_iff hc).mp hrest
    exact ⟨front', tail', he ▸ h⟩

/-! ## Matching -/

/-- Matching goes on with what is left, whatever the further segments ask. -/
theorem hostMatches_append {segments : List HostSegment} (hc : Closed segments)
    (more : List HostSegment) (host : Text) :
    hostMatches (segments ++ more) host = (rest? segments host).any (hostMatches more) := by
  induction hc generalizing host with
  | nil => rfl
  | @literal t _ _ _ ih =>
    rw [List.cons_append, hostMatches, rest?]
    cases Text.after? t host with
    | none => rfl
    | some rest => exact ih rest
  | @label t _ _ ih =>
    cases host with
    | nil => rfl
    | cons c host =>
      rw [rest?, List.cons_append, List.cons_append, hostMatches]
      cases Text.seek? t host with
      | none => rfl
      | some found => exact ih found

theorem hostMatches_append_iff {segments : List HostSegment} (hc : Closed segments)
    {more : List HostSegment} {host : Text} :
    hostMatches (segments ++ more) host = true ↔
      ∃ front tail, ShortestSplit segments host front tail ∧ hostMatches more tail = true := by
  rw [hostMatches_append hc, Option.any_eq_true]
  constructor
  · intro ⟨tail, hrest, hm⟩
    obtain ⟨front, h⟩ := (rest?_eq_some_iff hc).mp hrest
    exact ⟨front, tail, h, hm⟩
  · intro ⟨front, tail, h, hm⟩
    exact ⟨tail, (rest?_eq_some_iff hc).mpr ⟨front, h⟩, hm⟩

theorem hostMatches_closed_iff {segments : List HostSegment} (hc : Closed segments) {host : Text} :
    hostMatches segments host = true ↔
      ∃ front tail, host = front ++ tail ∧ Splits segments front := by
  have h := @hostMatches_append_iff _ hc [] host
  rw [List.append_nil] at h
  rw [h, ← exists_shortestSplit_iff hc]
  simp [hostMatches]

theorem hostMatches_label_iff {host : Text} :
    hostMatches [.label] host = true ↔ host ≠ [] ∧ host.head? ≠ some '.' := by
  cases host with
  | nil => simp [hostMatches]
  | cons c rest => simp [hostMatches]

/-- A host is matched exactly if it splits along the prefix, though nothing is ever tried twice. A
label at the end of the prefix asks for one more character, other than a dot, after the shortest
part that splits along the rest. -/
theorem matchHost_iff_splits {t : Text} {segments : List HostSegment} {p q : Pattern}
    (hparse : parseHost t = .ok segments) (hhost : p.withHost segments = .ok q) :
    (∀ front literal, segments = front ++ [.literal literal] → ∀ host,
      q.matchHost (some host) = true ↔
        ∃ taken tail, Text.asciiLower host = taken ++ tail ∧
          Splits (segments.map HostSegment.lower) taken) ∧
      (∀ front, segments = front ++ [.label] → ∀ host,
        q.matchHost (some host) = true ↔
          ∃ taken tail,
            ShortestSplit (front.map HostSegment.lower) (Text.asciiLower host) taken tail ∧
            tail ≠ [] ∧ tail.head? ≠ some '.') ∧
      q.matchHost none = true := by
  obtain ⟨hw, rfl⟩ := hostWritten_of_withHost hparse hhost
  refine ⟨fun front literal he host => ?_, fun front he host => ?_, rfl⟩
  · have hlast : (segments.map HostSegment.lower).getLast? ≠ some .label := by
      simp [he, HostSegment.lower]
    exact hostMatches_closed_iff (closed_of_hostOk hw.ok hw.separated hlast)
  · have hsplit : segments.map HostSegment.lower = front.map HostSegment.lower ++ [.label] := by
      rw [he, List.map_append]
      rfl
    obtain ⟨hok, hlast⟩ := (hsplit ▸ hw.ok).of_append_label
    have hc := closed_of_hostOk hok (hsplit ▸ hw.separated).of_append hlast
    simp only [matchHost, hsplit, hostMatches_append_iff hc, hostMatches_label_iff]

/-- A literal that overlaps itself: the first label takes one letter, so in four equal letters the
literal is found from the second on and the last label begins with the fourth. A host that holds the
literal at its front only does not split. -/
theorem matchHost_overlapping_literal :
    let p : Pattern := ⟨⟨"GET", by decide⟩, [], [], none⟩
    let q : Pattern := { p with host := some [.label, .literal "aa", .label] }
    let r : Pattern := { p with host := some [.label, .literal "aa"] }
    Pattern.parseHost "\x7bx\x7dAA\x7by\x7d" = .ok [.label, .literal "AA", .label] ∧
      p.withHost [.label, .literal "AA", .label] = .ok q ∧ q.matchHost none = true ∧
      (∃ taken tail, ShortestSplit [.label, .literal "aa"] "aaaab.c" taken tail ∧
        tail ≠ [] ∧ tail.head? ≠ some '.') ∧
      Pattern.parseHost "\x7bx\x7daa" = .ok [.label, .literal "aa"] ∧
      p.withHost [.label, .literal "aa"] = .ok r ∧
      ¬ ∃ taken tail, Text.asciiLower "Aab" = taken ++ tail ∧
        Splits [.label, .literal "aa"] taken := by
  intro p q r
  have hq : Pattern.parseHost "\x7bx\x7dAA\x7by\x7d" = .ok [.label, .literal "AA", .label] := by
    decide +kernel
  have hr : Pattern.parseHost "\x7bx\x7daa" = .ok [.label, .literal "aa"] := by decide +kernel
  obtain ⟨_, hlabel, hnone⟩ := matchHost_iff_splits hq (show p.withHost _ = .ok q from rfl)
  obtain ⟨hliteral, _, _⟩ := matchHost_iff_splits hr (show p.withHost _ = .ok r from rfl)
  have hmatch : q.matchHost (some "AAaab.c") = true := by decide +kernel
  have hmiss : ¬ r.matchHost (some "Aab") = true := by decide +kernel
  refine ⟨hq, rfl, hnone, ?_, hr, rfl, ?_⟩
  · exact (hlabel [.label, .literal "AA"] rfl "AAaab.c").mp hmatch
  · exact fun h => hmiss ((hliteral [.label] "aa" rfl "Aab").mpr h)

end Pattern

end RouteBook
