import Mathlib.Data.List.Induction
import RouteBook.Constraint.Report
import RouteBook.Constraint.Validation
import RouteBook.Proofs.Constraint.Repeats

/-! # What the check of a collection finds

A collection keeps its constraints if its length lies in the bound and, where that is asked, its
items are distinct. The check accepts exactly these collections, and of every other it reports
exactly what is broken, the length before the repeats. -/

namespace RouteBook

namespace Constraint

variable {α : Type}

/-- The number lies between the ends that the bound has. -/
def LengthBound.Admits (bound : LengthBound) (length : Nat) : Prop :=
  (∀ min ∈ bound.min?, min ≤ length) ∧ ∀ max ∈ bound.max?, length ≤ max

def bound? : Constraint → Option LengthBound
  | .length bound => some bound
  | .uniqueItems => none

/-- The bound that is in force: the last one. -/
def lastBound? (cs : List Constraint) : Option LengthBound := (cs.filterMap bound?).getLast?

/-- The length is reported before the repeats, and nothing twice. -/
inductive Violation.Before : Violation α → Violation α → Prop where
  | intro (actual : Nat) (bound : LengthBound) (duplicates : List Nat) (items : List α) :
    Before (.length actual bound) (.uniqueItems duplicates items)

theorem Report.exists_of_ne_nil {found : List (Violation α)} (h : found ≠ []) (path : Text) :
    ∃ report, Report.ofViolations found path = some report ∧
      report.fields = found.map (·.fieldMessage path) := by
  obtain ⟨v, rest, rfl⟩ := List.exists_cons_of_ne_nil h
  exact ⟨_, rfl, rfl⟩

end Constraint

namespace Constraints

open Constraint

/-! ## Collecting constraints -/

theorem ofList_concat (cs : List Constraint) (c : Constraint) :
    ofList (cs ++ [c]) = (ofList cs).add c := by
  rw [ofList, List.foldl_append]
  rfl

theorem ofList_eq (cs : List Constraint) :
    ofList cs = ⟨lastBound? cs, decide (.uniqueItems ∈ cs)⟩ := by
  induction cs using List.reverseRecOn with
  | nil => rfl
  | append_singleton cs c ih =>
    rw [ofList_concat, ih]
    cases c with
    | length bound => simp [add, lastBound?, bound?, List.filterMap_append]
    | uniqueItems => simp [add, lastBound?, bound?, List.filterMap_append]

variable {α : Type}

/-! ## What is broken -/

/-- The collection breaks none of the constraints. -/
structure KeptBy (c : Constraints) (items : List α) : Prop where
  length : ∀ bound ∈ c.length, bound.Admits items.length
  distinct : c.uniqueItems = true → items.Nodup

theorem lengthViolations_eq (c : Constraints) (items : List α) :
    (c.lengthViolations items = [] ∧ ∀ bound ∈ c.length, bound.Admits items.length) ∨
      ∃ bound, c.length = some bound ∧ ¬ bound.Admits items.length ∧
        c.lengthViolations items = [.length items.length bound] := by
  unfold lengthViolations
  cases c.length with
  | none => exact .inl ⟨rfl, nofun⟩
  | some bound =>
    by_cases hb : bound.Admits items.length
    · refine .inl ⟨if_pos ((bound.contains_iff _).mpr hb), ?_⟩
      rintro _ ⟨rfl⟩
      exact hb
    · exact .inr ⟨bound, rfl, hb, if_neg fun h => hb ((bound.contains_iff _).mp h)⟩

variable [DecidableEq α]

/-- What a collection breaks, with what is told about it. -/
inductive Breaks (c : Constraints) (items : List α) : Violation α → Prop where
  | length {bound : LengthBound} :
    c.length = some bound → ¬ bound.Admits items.length →
      Breaks c items (.length items.length bound)
  | uniqueItems :
    c.uniqueItems = true → ¬ items.Nodup →
      Breaks c items (.uniqueItems (duplicateIndices items) items)

theorem uniqueViolations_eq (c : Constraints) (items : List α) :
    (c.uniqueViolations items = [] ∧ (c.uniqueItems = true → items.Nodup)) ∨
      c.uniqueItems = true ∧ ¬ items.Nodup ∧
        c.uniqueViolations items = [.uniqueItems (duplicateIndices items) items] := by
  unfold uniqueViolations
  by_cases hu : c.uniqueItems = true
  · rw [if_pos hu]
    cases hd : duplicateIndices items with
    | nil => exact .inl ⟨rfl, fun _ => duplicateIndices_eq_nil_iff.mp hd⟩
    | cons position positions =>
      refine .inr ⟨hu, fun h => ?_, rfl⟩
      rw [duplicateIndices_eq_nil_iff.mpr h] at hd
      cases hd
  · exact .inl ⟨if_neg hu, fun h => absurd h hu⟩

/-- All violations of a collection. -/
def violations (c : Constraints) (items : List α) : List (Violation α) :=
  c.lengthViolations items ++ c.uniqueViolations items

theorem mem_violations {c : Constraints} {items : List α} {v : Violation α} :
    v ∈ c.violations items ↔ c.Breaks items v := by
  rw [violations, List.mem_append]
  constructor
  · rintro (hv | hv)
    · rcases lengthViolations_eq c items with ⟨he, _⟩ | ⟨bound, hc, hb, he⟩
      · rw [he] at hv
        cases hv
      · rw [he, List.mem_singleton] at hv
        exact hv ▸ .length hc hb
    · rcases uniqueViolations_eq c items with ⟨he, _⟩ | ⟨hc, hn, he⟩
      · rw [he] at hv
        cases hv
      · rw [he, List.mem_singleton] at hv
        exact hv ▸ .uniqueItems hc hn
  · intro h
    cases h with
    | length hc hb =>
      rcases lengthViolations_eq c items with ⟨_, ha⟩ | ⟨bound, hc', _, he⟩
      · exact absurd (ha _ hc) hb
      · rw [Option.some.inj (hc.symm.trans hc'), he]
        exact .inl List.mem_cons_self
    | uniqueItems hc hn =>
      rcases uniqueViolations_eq c items with ⟨_, ha⟩ | ⟨_, _, he⟩
      · exact absurd (ha hc) hn
      · rw [he]
        exact .inr List.mem_cons_self

theorem pairwise_violations (c : Constraints) (items : List α) :
    (c.violations items).Pairwise Violation.Before := by
  rw [violations]
  rcases lengthViolations_eq c items with ⟨hl, _⟩ | ⟨_, _, _, hl⟩ <;>
    rcases uniqueViolations_eq c items with ⟨hu, _⟩ | ⟨_, _, hu⟩ <;>
    rw [hl, hu]
  · exact .nil
  · exact List.pairwise_singleton _ _
  · exact List.pairwise_singleton _ _
  · exact List.pairwise_pair.mpr (.intro _ _ _ _)

theorem violations_eq_nil_iff {c : Constraints} {items : List α} :
    c.violations items = [] ↔ c.KeptBy items := by
  constructor
  · intro h
    have hno : ∀ v, ¬ c.Breaks items v := by
      intro v hv
      have hm := mem_violations.mpr hv
      rw [h] at hm
      cases hm
    constructor
    · intro bound hc
      exact Classical.byContradiction fun hb => hno _ (.length hc hb)
    · intro hc
      exact Classical.byContradiction fun hn => hno _ (.uniqueItems hc hn)
  · intro h
    refine List.eq_nil_iff_forall_not_mem.mpr fun v hv => ?_
    cases mem_violations.mp hv with
    | length hc hb => exact hb (h.length _ hc)
    | uniqueItems hc hn => exact hn (h.distinct hc)

/-- What is broken and the order of violations leave one report only. -/
theorem eq_violations {c : Constraints} {items : List α} {found : List (Violation α)}
    (hm : ∀ v, v ∈ found ↔ c.Breaks items v) (hp : found.Pairwise Violation.Before) :
    found = c.violations items := by
  have hirrefl {v w : Violation α} (h : v.Before w) : v ≠ w := by
    cases h
    exact nofun
  have hperm : found.Perm (c.violations items) := by
    rw [List.perm_ext_iff_of_nodup (hp.imp hirrefl) ((pairwise_violations c items).imp hirrefl)]
    intro v
    rw [hm, mem_violations]
  refine hperm.eq_of_pairwise (fun v w _ _ h h' => ?_) hp (pairwise_violations c items)
  cases h
  cases h'

/-! ## The check -/

theorem validate_eq (c : Constraints) (items : List α) :
    c.validate items =
      if c.violations items = [] then .ok items else .error (c.violations items) := by
  rw [validate, ← violations]
  cases c.violations items <;> rfl

theorem validate_eq_ok_iff {c : Constraints} {items kept : List α} :
    c.validate items = .ok kept ↔ kept = items ∧ c.KeptBy items := by
  rw [validate_eq, ← violations_eq_nil_iff]
  split
  · next h => simp [h, eq_comm]
  · next h => simp [h]

theorem validate_eq_error_iff {c : Constraints} {items : List α} {found : List (Violation α)} :
    c.validate items = .error found ↔ found ≠ [] ∧ found = c.violations items := by
  rw [validate_eq]
  split
  · next h => simp [h]
  · next h =>
    constructor
    · rintro ⟨rfl⟩
      exact ⟨h, rfl⟩
    · rintro ⟨_, rfl⟩
      rfl

theorem ofItems_eq_ok {c : Constraints} {items : List α} {k : Constrained c α}
    (h : Constrained.ofItems c items = .ok k) : k.items = items ∧ c.KeptBy items := by
  unfold Constrained.ofItems at h
  split at h
  · next kept hv =>
    cases h
    exact validate_eq_ok_iff.mp hv
  · cases h

theorem ofItems_eq_error_iff {c : Constraints} {items : List α} {found : List (Violation α)} :
    Constrained.ofItems c items = .error found ↔ c.validate items = .error found := by
  unfold Constrained.ofItems
  split
  · next kept hv => simp [hv]
  · next other hv => simp [hv]

/-- The constraints of a list are its last bound and whether it asks for distinct items. The
check returns the items exactly if they keep these, and otherwise one or more violations,
which are exactly what is broken. So a collection is made of such items only, and every
refused one can be reported. -/
theorem validate_exact (items : List α) :
    (∀ cs : List Constraint, ofList cs = ⟨lastBound? cs, decide (.uniqueItems ∈ cs)⟩) ∧
      ∀ c : Constraints,
        (∀ kept, c.validate items = .ok kept ↔ kept = items ∧ c.KeptBy items) ∧
          (∀ found, c.validate items = .error found ↔
            found ≠ [] ∧ (∀ v, v ∈ found ↔ c.Breaks items v) ∧ found.Pairwise Violation.Before) ∧
          (∀ k, Constrained.ofItems c items = .ok k → k.items = items ∧ c.KeptBy items) ∧
          (∀ found, Constrained.ofItems c items = .error found ↔ c.validate items = .error found) ∧
          ∀ found path, c.validate items = .error found →
            ∃ report, Report.ofViolations found path = some report ∧
              report.fields = found.map (·.fieldMessage path) := by
  refine ⟨ofList_eq, fun c => ⟨fun kept => validate_eq_ok_iff, fun found => ?_,
    fun k => ofItems_eq_ok, fun found => ofItems_eq_error_iff, fun found path h => ?_⟩⟩
  · rw [validate_eq_error_iff]
    refine and_congr_right fun _ => ⟨?_, fun h => eq_violations h.1 h.2⟩
    rintro rfl
    exact ⟨fun v => mem_violations, pairwise_violations c items⟩
  · exact Report.exists_of_ne_nil (validate_eq_error_iff.mp h).1 path

/-- Both rules are broken, and the first bound is not in force. -/
example : (ofList [.length (.atLeast 5), .uniqueItems, .length (.atMost 3)]).validate [1, 2, 1, 3] =
    .error [.length 4 (.atMost 3), .uniqueItems [0, 2] [1, 2, 1, 3]] := by
  decide +kernel

end Constraints

end RouteBook
