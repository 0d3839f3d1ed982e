import Mathlib
import RouteBook.Pattern.Build
import RouteBook.Pattern.Host

/-! # Host prefixes and the hosts they match

A host that a prefix matches splits along it, every label taking a character or more. The shortest
such host puts one opening brace for each label. No literal that was read from text holds a brace,
so this host gives the prefix away: a prefix that matches the shortest host of another, and the
other way round, is the same prefix. -/

namespace RouteBook

namespace Text

theorem seek?_append (needle rest : Text) :
    seek? needle (needle ++ rest) = some (needle ++ rest) := by
  cases h : needle ++ rest with
  | nil => rw [List.append_eq_nil_iff] at h; simp [seek?, h.1]
  | cons c t =>
    have hp : needle.isPrefixOf (c :: t) = true := by
      rw [← h, List.isPrefixOf_iff_prefix]
      exact List.prefix_append needle rest
    simp [seek?, hp]

theorem eq_append_of_seek? {needle t found : Text} (h : seek? needle t = some found) :
    ∃ skipped, t = skipped ++ found := by
  induction t with
  | nil =>
    rw [seek?] at h
    split at h
    · cases h
      exact ⟨[], rfl⟩
    · cases h
  | cons c rest ih =>
    rw [seek?] at h
    split at h
    · cases h
      exact ⟨[], rfl⟩
    · obtain ⟨skipped, rfl⟩ := ih h
      exact ⟨c :: skipped, rfl⟩

theorem asciiLower_asciiLower (t : Text) : asciiLower (asciiLower t) = asciiLower t := by
  simp [asciiLower, List.map_map, Function.comp_def]

/-- Only a letter can stand for another character in lower case. -/
theorem eq_of_toLower_eq {c d : Char} (hd : d.isAlpha = false) (h : c.toLower = d) : c = d := by
  have ha : c.isAlpha = false := by
    rw [← Char.isLower_toLower_eq_isAlpha, h]; simp_all [Char.isAlpha]
  have hu : ¬ c.isUpper := by
    intro hu
    simp [Char.isAlpha, hu] at ha
  rw [← h, Char.toLower_eq_of_not_isUpper hu]

theorem mem_of_mem_asciiLower {d : Char} {t : Text} (hd : d.isAlpha = false)
    (h : d ∈ asciiLower t) : d ∈ t := by
  obtain ⟨c, hc, he⟩ := List.mem_map.mp h
  exact eq_of_toLower_eq hd he ▸ hc

end Text

namespace Pattern

/-! ## What the constructors check -/

/-- No literal is empty and no two labels are adjacent. -/
inductive HostOk : List HostSegment → Prop where
  | nil : HostOk []
  | literal {t : Text} {rest : List HostSegment} :
    t ≠ [] → HostOk rest → HostOk (.literal t :: rest)
  | label {rest : List HostSegment} :
    rest.head? ≠ some .label → HostOk rest → HostOk (.label :: rest)

/-- No literal holds an opening brace and no two literals are adjacent. -/
inductive Separated : List HostSegment → Prop where
  | nil : Separated []
  | literal {t : Text} {rest : List HostSegment} :
    '\x7b' ∉ t → (∀ u, rest.head? ≠ some (.literal u)) → Separated rest →
      Separated (.literal t :: rest)
  | label {rest : List HostSegment} : Separated rest → Separated (.label :: rest)

theorem hostFault?_eq_none_iff {label : Bool} {segments : List HostSegment} :
    hostFault? label segments = none ↔
      HostOk segments ∧ (label = true → segments.head? ≠ some .label) := by
  induction segments generalizing label with
  | nil => simp [hostFault?, HostOk.nil]
  | cons segment rest ih =>
    cases segment with
    | literal t =>
      have hh (h : HostOk (.literal t :: rest)) : t ≠ [] ∧ HostOk rest := by
        cases h with
        | literal ht hr => exact ⟨ht, hr⟩
      cases t with
      | nil => simpa [hostFault?] using fun h => absurd rfl (hh h).1
      | cons c t =>
        simp only [hostFault?, ih]
        simpa using ⟨fun h => .literal (by simp) h, fun h => (hh h).2⟩
    | label =>
      have hh : HostOk (.label :: rest) ↔ rest.head? ≠ some .label ∧ HostOk rest := by
        refine ⟨fun h => ?_, fun h => .label h.1 h.2⟩
        cases h with
        | label hl hr => exact ⟨hl, hr⟩
      cases label with
      | true => simp [hostFault?]
      | false => simp [hostFault?, ih, hh, and_comm]

theorem exists_of_map_eq_ok {ε α β : Type} {f : α → β} {x : Except ε α} {y : β}
    (h : x.map f = .ok y) :
    ∃ z, x = .ok z ∧ f z = y := by
  cases x with
  | error e => cases h
  | ok z => exact ⟨z, rfl, Except.ok.inj h⟩

theorem separated_of_hostSegments {whole t : Text} {segments : List HostSegment}
    (h : hostSegments whole t = .ok segments) :
    Separated segments ∧
      (t.head? = none ∨ t.head? = some '\x7b' → ∀ u, segments.head? ≠ some (.literal u)) := by
  fun_induction hostSegments whole t generalizing segments with
  | case1 =>
    cases h
    exact ⟨.nil, fun _ u => by simp⟩
  | case2 => cases h
  | case3 => cases h
  | case4 _ _ _ _ _ _ ih =>
    obtain ⟨found, hf, rfl⟩ := exists_of_map_eq_ok h
    exact ⟨.label (ih hf).1, fun _ u => by simp⟩
  | case5 => cases h
  | case6 c rest hc =>
    rename_i ih
    obtain ⟨found, hf, rfl⟩ := exists_of_map_eq_ok h
    obtain ⟨hs, hh⟩ := ih hf
    refine ⟨.literal ?_ (hh ?_) hs, ?_⟩
    · intro hm
      rcases List.mem_cons.mp hm with he | hm
      · exact hc he.symm
      · simpa using List.mem_takeWhile_imp hm
    · cases hd : rest.dropWhile (· != '\x7b') with
      | nil => exact .inl rfl
      | cons d tail =>
        have := List.head?_dropWhile_not (· != '\x7b') rest
        rw [hd] at this
        exact .inr (by simpa using this)
    · rintro (he | he)
      · cases he
      · exact absurd (Option.some.inj he) hc

/-- What a prefix that was read from text and accepted for a pattern satisfies. -/
structure HostWritten (segments : List HostSegment) : Prop where
  ne_nil : segments ≠ []
  ok : HostOk segments
  separated : Separated segments
  lower : segments.map HostSegment.lower = segments

theorem lower_lower (segment : HostSegment) :
    HostSegment.lower (HostSegment.lower segment) = HostSegment.lower segment := by
  cases segment with
  | literal t => exact congrArg HostSegment.literal (Text.asciiLower_asciiLower t)
  | label => rfl

theorem head?_map_lower_ne_label {segments : List HostSegment} (h : segments.head? ≠ some .label) :
    (segments.map HostSegment.lower).head? ≠ some .label := by
  cases segments with
  | nil => simp
  | cons segment rest =>
    cases segment with
    | literal t => simp [HostSegment.lower]
    | label => exact absurd rfl h

theorem head?_map_lower_ne_literal {segments : List HostSegment}
    (h : ∀ u, segments.head? ≠ some (.literal u)) (u : Text) :
    (segments.map HostSegment.lower).head? ≠ some (.literal u) := by
  cases segments with
  | nil => simp
  | cons segment rest =>
    cases segment with
    | literal t => exact absurd rfl (h t)
    | label => simp [HostSegment.lower]

theorem HostOk.map_lower {segments : List HostSegment} (h : HostOk segments) :
    HostOk (segments.map HostSegment.lower) := by
  induction h with
  | nil => exact .nil
  | literal ht _ ih => exact .literal (by simpa [Text.asciiLower] using ht) ih
  | label hh _ ih => exact .label (head?_map_lower_ne_label hh) ih

theorem Separated.map_lower {segments : List HostSegment} (h : Separated segments) :
    Separated (segments.map HostSegment.lower) := by
  induction h with
  | nil => exact .nil
  | literal ht hh _ ih =>
    exact .literal (fun hm => ht (Text.mem_of_mem_asciiLower rfl hm))
      (head?_map_lower_ne_literal hh) ih
  | label _ ih => exact .label ih

theorem withHost_eq_ok_iff {p q : Pattern} {segments : List HostSegment} :
    p.withHost segments = .ok q ↔
      segments ≠ [] ∧ HostOk segments ∧
        q = { p with host := some (segments.map HostSegment.lower) } := by
  have hfault : hostFault? false segments = none ↔ HostOk segments := by
    simp [hostFault?_eq_none_iff]
  rw [← hfault]
  unfold withHost
  by_cases hn : segments = []
  · simp [hn]
  · cases hf : hostFault? false segments <;> simp [hn, eq_comm]

theorem hostWritten_of_withHost {t : Text} {segments : List HostSegment} {p q : Pattern}
    (hparse : parseHost t = .ok segments) (h : p.withHost segments = .ok q) :
    HostWritten (segments.map HostSegment.lower) ∧
      q = { p with host := some (segments.map HostSegment.lower) } := by
  obtain ⟨hn, hok, hq⟩ := withHost_eq_ok_iff.mp h
  refine ⟨⟨by simpa using hn, hok.map_lower, (separated_of_hostSegments hparse).1.map_lower, ?_⟩,
    hq⟩
  rw [List.map_map]
  exact List.map_congr_left fun segment _ => lower_lower segment

/-! ## Splitting a host along a prefix -/

/-- The text splits along the segments, with a character or more for each label. -/
inductive Splits : List HostSegment → Text → Prop where
  | nil : Splits [] []
  | literal {t rest : Text} {segments : List HostSegment} :
    Splits segments rest → Splits (.literal t :: segments) (t ++ rest)
  | label {w rest : Text} {segments : List HostSegment} :
    w ≠ [] → Splits segments rest → Splits (.label :: segments) (w ++ rest)

/-- What a label takes is one character and what is skipped to find the next
literal, or the next dot. -/
theorem splits_of_hostMatches {segments : List HostSegment} {host : Text}
    (h : hostMatches segments host = true) :
    ∃ front tail, host = front ++ tail ∧ Splits segments front := by
  induction segments generalizing host with
  | nil => exact ⟨[], host, rfl, .nil⟩
  | cons segment segments ih =>
    cases segment with
    | literal t =>
      rw [hostMatches] at h
      split at h
      · next rest hr =>
        obtain ⟨front, tail, rfl, hs⟩ := ih h
        exact ⟨t ++ front, tail, by simp [Text.after?_eq_some_iff.mp hr], .literal hs⟩
      · cases h
    | label =>
      have grow {c : Char} {skipped rest : Text} (hm : hostMatches segments rest = true) :
          ∃ front tail, c :: (skipped ++ rest) = front ++ tail ∧
            Splits (.label :: segments) front := by
        obtain ⟨front, tail, rfl, hs⟩ := ih hm
        exact ⟨(c :: skipped) ++ front, tail, by simp, .label (by simp) hs⟩
      cases host with
      | nil => cases h
      | cons c rest =>
        unfold hostMatches at h
        split at h
        · split at h
          · next found hf =>
            obtain ⟨skipped, rfl⟩ := Text.eq_append_of_seek? hf
            exact grow h
          · cases h
        · rw [Bool.and_eq_true] at h
          rw [← List.takeWhile_append_dropWhile (p := (· != '.')) (l := rest)]
          exact grow h.2

/-- The shortest host that a prefix matches: a brace for each label. -/
def sampleHost (segments : List HostSegment) : Text :=
  segments.flatMap fun
    | .literal t => t
    | .label => ['\x7b']

@[simp] theorem sampleHost_nil : sampleHost [] = [] := rfl

@[simp] theorem sampleHost_literal (t : Text) (segments : List HostSegment) :
    sampleHost (.literal t :: segments) = t ++ sampleHost segments := rfl

@[simp] theorem sampleHost_label (segments : List HostSegment) :
    sampleHost (.label :: segments) = '\x7b' :: sampleHost segments := rfl

theorem hostMatches_sampleHost {segments : List HostSegment} (h : HostOk segments) :
    hostMatches segments (sampleHost segments) = true := by
  induction h with
  | nil => rfl
  | @literal t rest _ _ ih =>
    rw [sampleHost_literal, hostMatches, Text.after?_eq_some_iff.mpr rfl]
    exact ih
  | @label rest hh _ ih =>
    cases rest with
    | nil => rfl
    | cons segment rest =>
      cases segment with
      | label => exact absurd rfl hh
      | literal u =>
        rw [sampleHost_label, sampleHost_literal]
        simp only [hostMatches, Text.seek?_append]
        exact ih

/-- The characters of a text but the opening braces. -/
def plainCount (t : Text) : Nat := t.countP (· != '\x7b')

theorem le_of_splits {segments : List HostSegment} {t : Text} (h : Splits segments t) :
    (sampleHost segments).length ≤ t.length ∧ plainCount (sampleHost segments) ≤ plainCount t := by
  induction h with
  | nil => exact ⟨Nat.le_refl _, Nat.le_refl _⟩
  | literal _ ih =>
    simp only [sampleHost_literal, plainCount, List.length_append, List.countP_append] at ih ⊢
    omega
  | @label w _ _ hw _ ih =>
    have := List.length_pos_iff.mpr hw
    simp only [sampleHost_label, plainCount, List.length_append, List.countP_append,
      List.length_cons, List.countP_cons, bne_self_eq_false, Bool.false_eq_true, if_false] at ih ⊢
    omega

/-- Nothing else that is as short, with as many braces, splits along the segments. -/
theorem eq_sampleHost_of_splits {segments : List HostSegment} {t : Text} (h : Splits segments t)
    (hl : t.length ≤ (sampleHost segments).length)
    (hc : plainCount t ≤ plainCount (sampleHost segments)) :
    t = sampleHost segments := by
  induction h with
  | nil => rfl
  | literal _ ih =>
    simp only [sampleHost_literal, plainCount, List.length_append, List.countP_append] at ih hl hc ⊢
    rw [ih (by omega) (by omega)]
  | @label w rest segments hw hs ih =>
    have hle := le_of_splits hs
    have hpos := List.length_pos_iff.mpr hw
    simp only [sampleHost_label, plainCount, List.length_append, List.countP_append,
      List.length_cons, List.countP_cons, bne_self_eq_false, Bool.false_eq_true,
      if_false] at ih hle hl hc ⊢
    obtain ⟨c, rfl⟩ := List.length_eq_one_iff.mp (show w.length = 1 by omega)
    have hbrace : c = '\x7b' := by
      have : [c].countP (· != '\x7b') = 0 := by omega
      simpa using this
    rw [hbrace, ih (by omega) (by omega)]
    rfl

/-! ## A prefix is known by its hosts -/

/-- The literal at the front is what stands before the first brace. -/
theorem takeWhile_sampleHost {t : Text} (ht : '\x7b' ∉ t) {rest : List HostSegment}
    (hr : ∀ u, rest.head? ≠ some (.literal u)) :
    (sampleHost (.literal t :: rest)).takeWhile (· != '\x7b') = t := by
  have hne : ∀ c ∈ t, (c != '\x7b') = true := fun c hc => bne_iff_ne.mpr fun he => ht (he ▸ hc)
  have hrest : (sampleHost rest).takeWhile (· != '\x7b') = [] := by
    cases rest with
    | nil => rfl
    | cons segment rest =>
      cases segment with
      | literal u => exact absurd rfl (hr u)
      | label => rfl
  rw [sampleHost_literal, List.takeWhile_append_of_pos hne, hrest, List.append_nil]

theorem sampleHost_literal_ne_label {t : Text} (hn : t ≠ []) (ht : '\x7b' ∉ t)
    (p q : List HostSegment) :
    sampleHost (.literal t :: p) ≠ sampleHost (.label :: q) := by
  intro he
  obtain ⟨c, t, rfl⟩ := List.exists_cons_of_ne_nil hn
  rw [sampleHost_literal, sampleHost_label, List.cons_append, List.cons.injEq] at he
  exact ht (he.1 ▸ List.mem_cons_self)

theorem sampleHost_injective {p q : List HostSegment} (hp : HostOk p) (hps : Separated p)
    (hq : HostOk q) (hqs : Separated q) (h : sampleHost p = sampleHost q) : p = q := by
  induction hps generalizing q with
  | nil =>
    cases hq with
    | nil => rfl
    | literal hu _ => exact absurd (List.append_eq_nil_iff.mp h.symm).1 hu
    | label => cases h
  | @literal t p ht hpr hps ih =>
    cases hp with
    | literal hn hp =>
      cases hqs with
      | nil => exact absurd (List.append_eq_nil_iff.mp h).1 hn
      | @literal u q hu hqr hqs =>
        cases hq with
        | literal _ hq =>
          obtain rfl : t = u := by
            rw [← takeWhile_sampleHost ht hpr, h, takeWhile_sampleHost hu hqr]
          rw [ih hp hq hqs (List.append_cancel_left h)]
      | label => exact absurd h (sampleHost_literal_ne_label hn ht _ _)
  | @label p hps ih =>
    cases hp with
    | label _ hp =>
      cases hqs with
      | nil => cases h
      | @literal u q hu _ _ =>
        cases hq with
        | literal hn _ => exact absurd h.symm (sampleHost_literal_ne_label hn hu _ _)
      | label hqs =>
        cases hq with
        | label _ hq => rw [ih hp hq hqs (List.cons.inj h).2]

theorem le_of_hostMatches {segments : List HostSegment} {host : Text}
    (h : hostMatches segments host = true) :
    (sampleHost segments).length ≤ host.length ∧ plainCount (sampleHost segments) ≤
      plainCount host := by
  obtain ⟨front, tail, rfl, hs⟩ := splits_of_hostMatches h
  have := le_of_splits hs
  simp only [plainCount, List.length_append, List.countP_append] at this ⊢
  omega

/-- Each shortest host is no longer than the other, so the second splits it with
one character a label. -/
theorem sampleHost_eq_of_hostMatches {p q : List HostSegment}
    (hp : hostMatches q (sampleHost p) = true) (hq : hostMatches p (sampleHost q) = true) :
    sampleHost p = sampleHost q := by
  have hle := le_of_hostMatches hq
  have hge := le_of_hostMatches hp
  obtain ⟨front, tail, he, hs⟩ := splits_of_hostMatches hp
  rw [he] at hle hge ⊢
  simp only [plainCount, List.length_append, List.countP_append] at hle hge
  have hfront := le_of_splits hs
  obtain rfl : tail = [] := List.length_eq_zero_iff.mp (by omega)
  rw [List.append_nil]
  exact eq_sampleHost_of_splits hs (by omega) (by simp only [plainCount]; omega)

theorem asciiLower_sampleHost (segments : List HostSegment) :
    Text.asciiLower (sampleHost segments) = sampleHost (segments.map HostSegment.lower) := by
  induction segments with
  | nil => rfl
  | cons segment segments ih =>
    cases segment with
    | literal t =>
      rw [sampleHost_literal, Text.asciiLower, List.map_append]
      exact congrArg (Text.asciiLower t ++ ·) ih
    | label => exact congrArg ('\x7b' :: ·) ih

theorem matchHost_sampleHost {p : Pattern} {segments written : List HostSegment}
    (hp : p.host = some segments) (hw : HostWritten written) :
    p.matchHost (some (sampleHost written)) = hostMatches segments (sampleHost written) := by
  simp only [matchHost, hp, asciiLower_sampleHost, hw.lower]

/-- An empty host is matched by a pattern that asks for none only. -/
theorem matchHost_empty {p : Pattern} {segments : List HostSegment} (hp : p.host = some segments)
    (hw : HostWritten segments) : p.matchHost (some []) = false := by
  have hm : hostMatches segments [] = false := by
    cases hw.ok with
    | nil => exact absurd rfl hw.ne_nil
    | @literal t rest ht _ =>
      obtain ⟨c, t, rfl⟩ := List.exists_cons_of_ne_nil ht
      rfl
    | label => rfl
  simpa [matchHost, hp, Text.asciiLower] using hm

/-- What a pattern asks of the host is determined by the hosts that it matches. -/
theorem host_ext {p q : Pattern} (hp : ∀ segments, p.host = some segments → HostWritten segments)
    (hq : ∀ segments, q.host = some segments → HostWritten segments)
    (h : ∀ host, p.matchHost host = q.matchHost host) : p.host = q.host := by
  cases hph : p.host with
  | none =>
    cases hqh : q.host with
    | none => rfl
    | some segments =>
      have he := h (some [])
      rw [matchHost_empty hqh (hq _ hqh)] at he
      simp [matchHost, hph] at he
  | some segments =>
    have hpw := hp _ hph
    cases hqh : q.host with
    | none =>
      have he := h (some [])
      rw [matchHost_empty hph hpw] at he
      simp [matchHost, hqh] at he
    | some others =>
      have hqw := hq _ hqh
      have hqp : hostMatches others (sampleHost segments) = true := by
        rw [← matchHost_sampleHost hqh hpw, ← h, matchHost_sampleHost hph hpw]
        exact hostMatches_sampleHost hpw.ok
      have hpq : hostMatches segments (sampleHost others) = true := by
        rw [← matchHost_sampleHost hph hqw, h, matchHost_sampleHost hqh hqw]
        exact hostMatches_sampleHost hqw.ok
      have he := sampleHost_eq_of_hostMatches hqp hpq
      rw [sampleHost_injective hpw.ok hpw.separated hqw.ok hqw.separated he]

end Pattern

end RouteBook
