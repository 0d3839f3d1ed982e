import RouteBook.Proofs.Pattern.Shown

/-! # Braces inside a segment

A segment is a label if a brace opens it and a brace closes it; nothing between the two is looked at
for braces. So a segment of an accepted uri is one whole label exactly if all its braces stand at
its ends: two labels side by side pass for one, and braces in the middle of a segment are text. -/

namespace RouteBook.Pattern

def braced (inner : Text) : Text := '\x7b' :: (inner ++ ['\x7d'])

theorem tail_braced (inner : Text) : (braced inner).tail = inner ++ ['\x7d'] := rfl

theorem dropLast_braced (inner : Text) : (braced inner).dropLast = '\x7b' :: inner := by
  rw [braced, ← List.cons_append, List.dropLast_concat]

theorem eq_braced {c : Char} {rest : Text} (hc : c = '\x7b')
    (hlast : (c :: rest).getLast? = some '\x7d') :
    c :: rest = braced rest.dropLast := by
  subst hc
  cases rest with
  | nil => cases hlast
  | cons d rest =>
    rw [List.getLast?_cons_cons] at hlast
    rw [braced, List.dropLast_append_getLast? '\x7d' hlast]

/-- One label and nothing else: a name without braces stands between two braces, and next to the
name a plus sign if the label is greedy. -/
inductive WholeLabel : Text → Prop where
  | label {name : Text} : name ≠ [] → '\x7b' ∉ name → '\x7d' ∉ name → WholeLabel (braced name)
  | plusBehind {name : Text} : name ≠ [] → '\x7b' ∉ name → '\x7d' ∉ name →
    WholeLabel (braced (name ++ ['+']))
  | plusBefore {name : Text} : name ≠ [] → '\x7b' ∉ name → '\x7d' ∉ name →
    WholeLabel (braced ('+' :: name))

theorem WholeLabel.braces {t : Text} (h : WholeLabel t) :
    '\x7b' ∉ t.tail ∧ '\x7d' ∉ t.dropLast := by
  cases h with
  | label _ hopen hclose => simp [tail_braced, dropLast_braced, hopen, hclose]
  | plusBehind _ hopen hclose => simp [tail_braced, dropLast_braced, hopen, hclose]
  | plusBefore _ hopen hclose => simp [tail_braced, dropLast_braced, hopen, hclose]

/-! ## What a segment is read as -/

/-- What a segment is read as. Only its ends decide whether it is a label, and a plus sign at an end
of what the braces hold whether the label is greedy. -/
inductive ReadsAs : Text → PathSegment → Prop where
  | label {inner : Text} : inner ≠ [] → inner.head? ≠ some '+' → inner.getLast? ≠ some '+' →
    ReadsAs (braced inner) .label
  | greedy {inner : Text} : inner ≠ ['+'] → inner.head? = some '+' ∨ inner.getLast? = some '+' →
    ReadsAs (braced inner) .greedy
  | literal {t u : Text} : t ≠ [] → t.head? ≠ some '\x7b' → t.getLast? ≠ some '\x7d' →
    Text.Percent.decode? t = some u → isDots u = false → ReadsAs t (.literal u)

theorem pathSegment_braced (inner : Text) : pathSegment (braced inner) = labelSegment inner := by
  have hlast : ('\x7b' :: (inner ++ ['\x7d'])).getLast? = some '\x7d' :=
    List.getLast?_concat (l := '\x7b' :: inner)
  have hdots : isDots ('\x7b' :: (inner ++ ['\x7d'])) = false := by simp [isDots]
  simp [braced, pathSegment, hdots, hlast]

theorem labelSegment_eq (inner : Text) :
    labelSegment inner =
      if inner = [] ∨ inner = ['+'] then .error .emptyLabel
      else if inner.head? = some '+' ∨ inner.getLast? = some '+' then .ok .greedy
      else .ok .label := by
  cases inner with
  | nil => rfl
  | cons c rest =>
    by_cases hlast : (c :: rest).getLast? = some '+'
    · cases rest with
      | nil => simp_all [labelSegment]
      | cons d rest => simp [labelSegment, hlast]
    · by_cases hc : c = '+'
      · subst hc
        have hrest : rest ≠ [] := by
          rintro rfl
          exact hlast rfl
        simp [labelSegment, hlast, hrest]
      · simp [labelSegment, hlast, hc]

theorem readsAs_of_labelSegment {inner : Text} {segment : PathSegment}
    (h : labelSegment inner = .ok segment) :
    ReadsAs (braced inner) segment := by
  rw [labelSegment_eq] at h
  split at h
  · cases h
  · next hne =>
    rw [not_or] at hne
    split at h
    · next hplus =>
      cases h
      exact .greedy hne.2 hplus
    · next hplus =>
      cases h
      rw [not_or] at hplus
      exact .label hne.1 hplus.1 hplus.2

theorem readsAs_of_pathSegment {t : Text} {segment : PathSegment}
    (h : pathSegment t = .ok segment) :
    ReadsAs t segment := by
  cases t with
  | nil => cases h
  | cons c rest =>
    simp only [pathSegment] at h
    split at h
    · cases h
    · split at h
      · next hopen hclose =>
        rw [eq_braced (beq_iff_eq.mp hopen) (beq_iff_eq.mp hclose)]
        exact readsAs_of_labelSegment h
      · cases h
      · cases h
      · next hopen hclose =>
        split at h
        · cases h
        · next u hread =>
          split at h
          · cases h
          · next hdots =>
            cases h
            exact .literal (List.cons_ne_nil _ _) (by simpa using hopen)
              (by simpa using hclose) hread (by simpa using hdots)

theorem isDots_of_decode? {t u : Text} (h : Text.Percent.decode? t = some u)
    (ht : isDots t = true) : isDots u = true := by
  rw [isDots, Bool.or_eq_true, beq_iff_eq, beq_iff_eq] at ht
  have hself : Text.Percent.decode? t = some t := by
    rcases ht with rfl | rfl
    · exact Text.Percent.decode?_self (by decide)
    · exact Text.Percent.decode?_self (by decide)
  obtain rfl := Option.some.inj (hself.symm.trans h)
  rcases ht with rfl | rfl <;> rfl

theorem pathSegment_of_readsAs {t : Text} {segment : PathSegment} (h : ReadsAs t segment) :
    pathSegment t = .ok segment := by
  cases h with
  | label hne hfirst hlast =>
    have hplus : ∀ inner : Text, inner.head? ≠ some '+' → inner ≠ ['+'] :=
      fun inner hi he => hi (he ▸ rfl)
    rw [pathSegment_braced, labelSegment_eq, if_neg (not_or.mpr ⟨hne, hplus _ hfirst⟩),
      if_neg (not_or.mpr ⟨hfirst, hlast⟩)]
  | @greedy inner hne hplus =>
    have hnil : inner ≠ [] := by
      rintro rfl
      simp at hplus
    rw [pathSegment_braced, labelSegment_eq, if_neg (not_or.mpr ⟨hnil, hne⟩), if_pos hplus]
  | literal hne hopen hclose hread hdots =>
    obtain ⟨c, rest, rfl⟩ := List.exists_cons_of_ne_nil hne
    have hraw : isDots (c :: rest) = false := by
      rw [← Bool.not_eq_true]
      intro ht
      rw [isDots_of_decode? hread ht] at hdots
      cases hdots
    have hc : (c == '\x7b') = false := by simpa using hopen
    have hlast : ((c :: rest).getLast? == some '\x7d') = false := by simpa using hclose
    simp only [pathSegment, hraw, hc, hlast, hread, hdots]
    rfl

theorem pathSegment_eq_ok_iff {t : Text} {segment : PathSegment} :
    pathSegment t = .ok segment ↔ ReadsAs t segment :=
  ⟨readsAs_of_pathSegment, pathSegment_of_readsAs⟩

/-! ## Segments with braces -/

theorem wholeLabel_of_readsAs {t : Text} {segment : PathSegment} (h : ReadsAs t segment)
    (hbrace : '\x7b' ∈ t ∨ '\x7d' ∈ t) (hopen : '\x7b' ∉ t.tail) (hclose : '\x7d' ∉ t.dropLast) :
    WholeLabel t := by
  cases h with
  | label hne _ _ =>
    rw [tail_braced, List.mem_append, not_or] at hopen
    rw [dropLast_braced, List.mem_cons, not_or] at hclose
    exact .label hne hopen.1 hclose.2
  | @greedy inner hne hplus =>
    rw [tail_braced, List.mem_append, not_or] at hopen
    rw [dropLast_braced, List.mem_cons, not_or] at hclose
    rcases hplus with hfirst | hlast
    · obtain ⟨name, rfl⟩ := List.head?_eq_some_iff.mp hfirst
      simp only [List.mem_cons, not_or] at hopen hclose
      exact .plusBefore (by simpa using hne) hopen.1.2 hclose.2.2
    · obtain ⟨name, rfl⟩ := List.getLast?_eq_some_iff.mp hlast
      simp only [List.mem_append, not_or] at hopen hclose
      exact .plusBehind (by simpa using hne) hopen.1.1 hclose.2.1
  | literal hne hfirst hlast _ _ =>
    exfalso
    rcases hbrace with hm | hm
    · obtain ⟨c, rest, rfl⟩ := List.exists_cons_of_ne_nil hne
      rcases List.mem_cons.mp hm with rfl | hm
      · exact hfirst rfl
      · exact hopen hm
    · obtain ⟨front, c, rfl⟩ := (List.eq_nil_or_concat' t).resolve_left hne
      rw [List.dropLast_concat] at hclose
      rcases List.mem_append.mp hm with hm | hm
      · exact hclose hm
      · rw [List.mem_singleton.mp hm, List.getLast?_concat] at hlast
        exact hlast rfl

theorem pathSegments_eq_ok_iff {path : Text} {segments : List PathSegment} :
    pathSegments path = .ok segments ↔
      path = ['/'] ∧ segments = [] ∨ path ≠ ['/'] ∧
        List.Forall₂ ReadsAs (rawSegments path) segments := by
  have hreads : (fun raw segment => pathSegment raw = .ok segment) = ReadsAs :=
    funext fun _ => funext fun _ => propext pathSegment_eq_ok_iff
  rw [pathSegments, ← rawSegments]
  by_cases hroot : path = ['/']
  · simp [hroot, eq_comm]
  · rw [if_neg hroot, Text.mapM_eq_ok_iff_forall₂, hreads]
    simp [hroot]

theorem exists_readsAs_of_mem {raws : List Text} {segments : List PathSegment}
    (h : List.Forall₂ ReadsAs raws segments) {raw : Text} (hraw : raw ∈ raws) :
    ∃ segment, ReadsAs raw segment := by
  induction h with
  | nil => cases hraw
  | cons hread _ ih =>
    rcases List.mem_cons.mp hraw with rfl | hraw
    · exact ⟨_, hread⟩
    · exact ih hraw

/-- Every segment of an accepted uri is read by its ends. One that holds a brace is one
whole label exactly if no opening brace stands behind its first character and no closing
brace before its last. -/
theorem wholeLabel_iff_of_parse {m : Method} {uri : Text} {p : Pattern} (h : parse m uri = .ok p) :
    (uriPath uri = ['/'] ∧ p.path = [] ∨
        uriPath uri ≠ ['/'] ∧ List.Forall₂ ReadsAs (rawSegments (uriPath uri)) p.path) ∧
      ∀ raw ∈ rawSegments (uriPath uri), '\x7b' ∈ raw ∨ '\x7d' ∈ raw →
        (WholeLabel raw ↔ '\x7b' ∉ raw.tail ∧ '\x7d' ∉ raw.dropLast) := by
  obtain ⟨_, _, _, segments, hsegments, hparts⟩ := parse_eq_ok_iff.mp h
  obtain rfl : p.path = segments := congrArg Pattern.path (ofParts_eq_ok_iff.mp hparts).2.2.2
  have hreads := pathSegments_eq_ok_iff.mp hsegments
  refine ⟨hreads, fun raw hraw hbrace => ⟨WholeLabel.braces, fun ⟨hopen, hclose⟩ => ?_⟩⟩
  rcases hreads with ⟨hroot, _⟩ | ⟨_, hreads⟩
  · rw [hroot] at hraw
    obtain rfl : raw = [] := List.mem_singleton.mp hraw
    simp at hbrace
  · obtain ⟨segment, hread⟩ := exists_readsAs_of_mem hreads hraw
    exact wholeLabel_of_readsAs hread hbrace hopen hclose

/-- A greedy label with the plus sign before its name is whole, and so is a label without one. -/
theorem wholeLabel_iff_of_parse_plus :
    let get : Method := ⟨"GET", by decide⟩
    let uri : Text := "/a/\x7bid\x7d/\x7b+rest\x7d"
    parse get uri = .ok ⟨get, [.literal "a", .label, .greedy], [], none⟩ ∧
      "\x7b+rest\x7d".toList ∈ rawSegments (uriPath uri) ∧ WholeLabel "\x7b+rest\x7d" := by
  intro get uri
  have hparse : parse get uri = .ok ⟨get, [.literal "a", .label, .greedy], [], none⟩ := by
    decide +kernel
  have hraw : "\x7b+rest\x7d".toList ∈ rawSegments (uriPath uri) := by decide +kernel
  exact ⟨hparse, hraw, ((wholeLabel_iff_of_parse hparse).2 _ hraw (by decide)).mpr (by decide)⟩

/-- Two labels in one segment are accepted as one label, two greedy labels as one greedy label, and
a label between letters as text that holds braces. -/
theorem parse_not_wholeLabel :
    let get : Method := ⟨"GET", by decide⟩
    (parse get "/\x7ba\x7d\x7bb\x7d" = .ok ⟨get, [.label], [], none⟩ ∧
      rawSegments (uriPath "/\x7ba\x7d\x7bb\x7d") = ["\x7ba\x7d\x7bb\x7d".toList] ∧
        ¬ WholeLabel "\x7ba\x7d\x7bb\x7d") ∧
    (parse get "/\x7ba+\x7d\x7bb+\x7d" = .ok ⟨get, [.greedy], [], none⟩ ∧
      rawSegments (uriPath "/\x7ba+\x7d\x7bb+\x7d") = ["\x7ba+\x7d\x7bb+\x7d".toList] ∧
      ¬ WholeLabel "\x7ba+\x7d\x7bb+\x7d") ∧
    (parse get "/x\x7by\x7dz" = .ok ⟨get, [.literal "x\x7by\x7dz"], [], none⟩ ∧
      rawSegments (uriPath "/x\x7by\x7dz") = ["x\x7by\x7dz".toList] ∧
        ¬ WholeLabel "x\x7by\x7dz") := by
  intro get
  have hbraces {t : Text} (h : ¬ ('\x7b' ∉ t.tail ∧ '\x7d' ∉ t.dropLast)) : ¬ WholeLabel t :=
    fun ht => h ht.braces
  refine ⟨⟨?_, ?_, hbraces (by decide)⟩, ⟨?_, ?_, hbraces (by decide)⟩, ?_, ?_,
    hbraces (by decide)⟩ <;> decide +kernel

end RouteBook.Pattern
