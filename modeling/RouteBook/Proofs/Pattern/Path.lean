import RouteBook.Proofs.Pattern.Constructed
import RouteBook.Table.Resolve

/-! # Paths and the segments they match

Two different paths that the constructors let through are told apart by some list of segments. The
segments of a request are never empty, so the lists considered here hold no empty segment either. -/

namespace RouteBook.Pattern

def matchesPath (path : List PathSegment) (segments : List Text) : Bool :=
  (matchPath path segments).isSome

@[simp] theorem matchesPath_nil (segments : List Text) :
    matchesPath [] segments = segments.isEmpty := by
  cases segments <;> rfl

@[simp] theorem matchesPath_cons_nil (segment : PathSegment) (path : List PathSegment) :
    matchesPath (segment :: path) [] = false := by
  cases segment <;> rfl

@[simp] theorem matchesPath_literal (t : Text) (path : List PathSegment) (s : Text)
    (segments : List Text) :
    matchesPath (.literal t :: path) (s :: segments) =
      (decide (s = t) && matchesPath path segments) := by
  by_cases h : s = t <;> simp [matchesPath, matchPath, h]

@[simp] theorem matchesPath_label (path : List PathSegment) (s : Text) (segments : List Text) :
    matchesPath (.label :: path) (s :: segments) = matchesPath path segments := by
  simp [matchesPath, matchPath]

@[simp] theorem matchesPath_greedy (path : List PathSegment) (s : Text) (segments : List Text) :
    matchesPath (.greedy :: path) (s :: segments) = true := rfl

/-- Segments that a path matches. -/
def sampleSegments : List PathSegment → List Text
  | [] => []
  | .literal t :: path => t :: sampleSegments path
  | .label :: path => ['x'] :: sampleSegments path
  | .greedy :: _ => [['x']]

theorem matchesPath_sampleSegments {path : List PathSegment} (h : PathOk path) :
    matchesPath path (sampleSegments path) = true := by
  induction h with
  | nil => rfl
  | literal _ _ ih => simpa [sampleSegments] using ih
  | label _ ih => simpa [sampleSegments] using ih
  | greedy => rfl

theorem ne_nil_of_mem_sampleSegments {path : List PathSegment} (h : PathOk path) :
    ∀ s ∈ sampleSegments path, s ≠ [] := by
  induction h with
  | nil => exact nofun
  | literal ht _ ih => exact List.forall_mem_cons.mpr ⟨ht, ih⟩
  | label _ ih => exact List.forall_mem_cons.mpr ⟨by simp, ih⟩
  | greedy => simp [sampleSegments]

/-- Some list of segments fits one of the paths only. -/
def PathsDiffer (p q : List PathSegment) : Prop :=
  ∃ segments, (∀ s ∈ segments, s ≠ []) ∧ matchesPath p segments ≠ matchesPath q segments

theorem PathsDiffer.symm {p q : List PathSegment} (h : PathsDiffer p q) : PathsDiffer q p := by
  obtain ⟨segments, hs, hne⟩ := h
  exact ⟨segments, hs, hne.symm⟩

theorem PathsDiffer.literal_cons {p q : List PathSegment} {t : Text} (ht : t ≠ [])
    (h : PathsDiffer p q) :
    PathsDiffer (.literal t :: p) (.literal t :: q) := by
  obtain ⟨segments, hs, hne⟩ := h
  exact ⟨t :: segments, List.forall_mem_cons.mpr ⟨ht, hs⟩, by simpa using hne⟩

theorem PathsDiffer.label_cons {p q : List PathSegment} (h : PathsDiffer p q) :
    PathsDiffer (.label :: p) (.label :: q) := by
  obtain ⟨segments, hs, hne⟩ := h
  exact ⟨['x'] :: segments, List.forall_mem_cons.mpr ⟨by simp, hs⟩, by simpa using hne⟩

theorem pathsDiffer_nil_cons (segment : PathSegment) (path : List PathSegment) :
    PathsDiffer [] (segment :: path) :=
  ⟨[], nofun, by simp⟩

theorem pathsDiffer_literals {t u : Text} (hne : t ≠ u) (ht : t ≠ []) {p : List PathSegment}
    (hp : PathOk p) (q : List PathSegment) : PathsDiffer (.literal t :: p) (.literal u :: q) := by
  refine ⟨t :: sampleSegments p, List.forall_mem_cons.mpr ⟨ht, ne_nil_of_mem_sampleSegments hp⟩, ?_⟩
  simp [hne, matchesPath_sampleSegments hp]

/-- A label takes a text longer than the literal. -/
theorem pathsDiffer_label_literal {p : List PathSegment} (hp : PathOk p) (t : Text)
    (q : List PathSegment) :
    PathsDiffer (.label :: p) (.literal t :: q) := by
  refine ⟨('x' :: t) :: sampleSegments p,
    List.forall_mem_cons.mpr ⟨by simp, ne_nil_of_mem_sampleSegments hp⟩, ?_⟩
  simp [matchesPath_sampleSegments hp]

theorem pathsDiffer_greedy_literal (t : Text) (q : List PathSegment) :
    PathsDiffer [.greedy] (.literal t :: q) :=
  ⟨['x' :: t], by simp, by simp⟩

/-- A greedy label takes one segment, and it takes two. -/
theorem pathsDiffer_greedy_label (q : List PathSegment) : PathsDiffer [.greedy] (.label :: q) := by
  cases q with
  | nil => exact ⟨[['x'], ['x']], by simp, by simp⟩
  | cons segment q => exact ⟨[['x']], by simp, by simp⟩

theorem pathsDiffer_of_ne {p q : List PathSegment} (hp : PathOk p) (hq : PathOk q) (hne : p ≠ q) :
    PathsDiffer p q := by
  induction hp generalizing q with
  | nil =>
    cases q with
    | nil => exact absurd rfl hne
    | cons segment q => exact pathsDiffer_nil_cons segment q
  | @literal t p ht hp ih =>
    cases hq with
    | nil => exact (pathsDiffer_nil_cons _ _).symm
    | @literal u q _ hq =>
      by_cases htu : t = u
      · subst htu
        exact (ih hq fun he => hne (he ▸ rfl)).literal_cons ht
      · exact pathsDiffer_literals htu ht hp q
    | label hq => exact (pathsDiffer_label_literal hq t p).symm
    | greedy => exact (pathsDiffer_greedy_literal t p).symm
  | @label p hp ih =>
    cases hq with
    | nil => exact (pathsDiffer_nil_cons _ _).symm
    | literal _ hq => exact pathsDiffer_label_literal hp _ _
    | label hq => exact (ih hq fun he => hne (he ▸ rfl)).label_cons
    | greedy => exact (pathsDiffer_greedy_label p).symm
  | greedy =>
    cases hq with
    | nil => exact (pathsDiffer_nil_cons _ _).symm
    | literal _ hq => exact pathsDiffer_greedy_literal _ _
    | label hq => exact pathsDiffer_greedy_label _
    | greedy => exact absurd rfl hne

/-- A path is determined by the lists of segments that it matches. -/
theorem path_ext {p q : List PathSegment} (hp : PathOk p) (hq : PathOk q)
    (h : ∀ segments, (∀ s ∈ segments, s ≠ []) → matchesPath p segments = matchesPath q segments) :
    p = q := by
  refine Decidable.byContradiction fun hne => ?_
  obtain ⟨segments, hs, hdiffer⟩ := pathsDiffer_of_ne hp hq hne
  exact hdiffer (h segments hs)

end RouteBook.Pattern
