import RouteBook.Command.Run
import RouteBook.Proofs.Constraint.Validation
import RouteBook.Proofs.Document.JsonIndented

/-! # Validating a collection from the command line

The options of the command say what a collection must keep, and the command ends in one of three
ways: there is no such bound and nothing is written, the items keep everything, or a report is
written that can be read back. The report has one sentence for each thing that is broken and no
other, so there is always a first one for its headline. -/

namespace RouteBook

namespace Constraint

variable {min max : Option Nat} {b b' : LengthBound}

/-- A bound is known by its ends, and it has one. -/
theorem LengthBound.eq_of_ends (hmin : b.min? = b'.min?) (hmax : b.max? = b'.max?) : b = b' := by
  cases b <;> cases b' <;> simp_all [LengthBound.min?, LengthBound.max?]

theorem LengthBound.ends_ne_none (b : LengthBound) : ¬ (b.min? = none ∧ b.max? = none) := by
  cases b <;> simp [LengthBound.min?, LengthBound.max?]

theorem Report.quoted_node (r : Report) : r.node.Quoted := by
  refine .record (by simp [Node.field]) ?_
  simp only [List.forall_mem_cons, Node.field, List.not_mem_nil, false_implies, implies_true,
    and_true]
  refine ⟨.string _, .list (List.forall_mem_map.mpr fun f _ => ?_)⟩
  refine .record (by simp [Node.field]) ?_
  simp only [List.forall_mem_cons, Node.field, List.not_mem_nil, false_implies, implies_true,
    and_true]
  exact ⟨.string _, .string _⟩

end Constraint

namespace Command

open Constraint Text.Numeral

variable {min max : Option Nat} {unique : Bool} {items : List Text} {length : Option LengthBound}

/-! ## What the options ask for -/

/-- Both ends are given, and the least number of items is more than the largest. -/
def Inverted (min max : Option Nat) : Prop := ∃ lo hi, min = some lo ∧ max = some hi ∧ hi < lo

/-- The number lies between the ends that are given. -/
def Between (min max : Option Nat) (n : Nat) : Prop := (∀ lo ∈ min, lo ≤ n) ∧ ∀ hi ∈ max, n ≤ hi

/-- The items are as the options ask. -/
structure Accepts (min max : Option Nat) (unique : Bool) (items : List Text) : Prop where
  length : Between min max items.length
  distinct : unique = true → items.Nodup

/-- What the items are not as the options ask. -/
inductive Violates (min max : Option Nat) (unique : Bool) (items : List Text) :
    Violation Text → Prop where
  | length {bound : LengthBound} : bound.min? = min → bound.max? = max →
    ¬ Between min max items.length →
    Violates min max unique items (.length items.length bound)
  | uniqueItems : unique = true → ¬ items.Nodup →
    Violates min max unique items (.uniqueItems (duplicateIndices items) items)

theorem boundOf_eq_error_iff {e : RunError} :
    boundOf min max = .error e ↔
      ∃ lo hi, min = some lo ∧ max = some hi ∧ hi < lo ∧ e = .invertedBounds lo hi := by
  cases min with
  | none => cases max <;> simp [boundOf]
  | some lo =>
    cases max with
    | none => simp [boundOf]
    | some hi =>
      by_cases hle : lo ≤ hi
      · simp [boundOf, LengthBound.between?, hle, Except.map, Except.mapError, Nat.not_lt.mpr hle]
      · simp [boundOf, LengthBound.between?, hle, Except.map, Except.mapError, Nat.not_le.mp hle,
          eq_comm]

/-- The bound in force has the ends that are given. -/
structure EndsOf (min max : Option Nat) (length : Option LengthBound) : Prop where
  min : length.bind LengthBound.min? = min
  max : length.bind LengthBound.max? = max

theorem exists_boundOf (h : ¬ Inverted min max) :
    ∃ length, boundOf min max = .ok length ∧ EndsOf min max length := by
  cases min with
  | none =>
    cases max with
    | none => exact ⟨none, rfl, rfl, rfl⟩
    | some hi => exact ⟨some (.atMost hi), rfl, rfl, rfl⟩
  | some lo =>
    cases max with
    | none => exact ⟨some (.atLeast lo), rfl, rfl, rfl⟩
    | some hi =>
      have hle : lo ≤ hi := Nat.le_of_not_lt fun hlt => h ⟨lo, hi, rfl, rfl, hlt⟩
      refine ⟨some (.between lo hi hle), ?_, rfl, rfl⟩
      simp [boundOf, LengthBound.between?, hle, Except.map, Except.mapError]

theorem EndsOf.admits_iff (h : EndsOf min max length) {n : Nat} :
    (∀ bound ∈ length, bound.Admits n) ↔ Between min max n := by
  obtain ⟨rfl, rfl⟩ := h
  cases length with
  | none => simp [Between]
  | some bound => simp [LengthBound.Admits, Between]

theorem EndsOf.eq_some (h : EndsOf min max length) {bound : LengthBound} (hmin : bound.min? = min)
    (hmax : bound.max? = max) : length = some bound := by
  obtain ⟨hlo, hhi⟩ := h
  cases length with
  | none => exact absurd ⟨hmin.trans hlo.symm, hmax.trans hhi.symm⟩ bound.ends_ne_none
  | some other => rw [LengthBound.eq_of_ends (hlo.trans hmin.symm) (hhi.trans hmax.symm)]

theorem EndsOf.keptBy_iff (h : EndsOf min max length) :
    (Constraints.mk length unique).KeptBy items ↔ Accepts min max unique items :=
  ⟨fun hk => ⟨h.admits_iff.mp hk.length, hk.distinct⟩,
    fun ha => ⟨h.admits_iff.mpr ha.length, ha.distinct⟩⟩

theorem EndsOf.breaks_iff (h : EndsOf min max length) {v : Violation Text} :
    (Constraints.mk length unique).Breaks items v ↔ Violates min max unique items v := by
  have hadmits {bound : LengthBound} (hb : length = some bound) :
      bound.Admits items.length ↔ Between min max items.length := by
    simpa [hb] using h.admits_iff (n := items.length)
  constructor
  · intro hv
    cases hv with
    | length hb hn =>
      obtain rfl : length = some _ := hb
      exact .length h.min h.max fun hbetween => hn ((hadmits rfl).mpr hbetween)
    | uniqueItems hu hn => exact .uniqueItems hu hn
  · intro hv
    cases hv with
    | length hmin hmax hn =>
      have hb := h.eq_some hmin hmax
      exact .length hb fun ha => hn ((hadmits hb).mp ha)
    | uniqueItems hu hn => exact .uniqueItems hu hn

/-! ## What is written -/

/-- The words for what is asked of the number of items. -/
inductive Asked : Option Nat → Option Nat → Text → Prop where
  | between (lo hi : Nat) :
    Asked (some lo) (some hi) ("between " ++ decimal lo ++ " and " ++ decimal hi ++ ", inclusive")
  | atLeast (lo : Nat) : Asked (some lo) none ("greater than or equal to " ++ decimal lo)
  | atMost (hi : Nat) : Asked none (some hi) ("less than or equal to " ++ decimal hi)

/-- The sentence on a violation. -/
inductive Sentence (path : Text) : Violation Text → Text → Prop where
  | length {bound : LengthBound} {asked : Text} (actual : Nat) :
    Asked bound.min? bound.max? asked →
    Sentence path (.length actual bound)
      ("Value with length " ++ decimal actual ++ " at '" ++ path
        ++ "' failed to satisfy constraint: Member must have length " ++ asked)
  | uniqueItems (positions : List Nat) (items : List Text) :
    Sentence path (.uniqueItems positions items)
      ("Value with repeated values at indices "
        ++ ("[" ++ Text.join ", " (positions.map decimal) ++ "]") ++ " at '" ++ path
        ++ "' failed to satisfy constraint: Member must have unique values")

/-- The headline counts the sentences and repeats the first of them. -/
inductive Headline : List Text → Text → Prop where
  | one (first : Text) : Headline [first] ("1 validation error detected. " ++ first)
  | several (first second : Text) (more : List Text) :
    Headline (first :: second :: more)
      (decimal (more.length + 2) ++ " validation errors detected. " ++ first)

/-- A sentence in the report, with the path that it is about. -/
def entry (path sentence : Text) : Node :=
  .record [(.string "message", .string sentence), (.string "path", .string path)]

/-- The document, read back, tells all that the items are not as the options ask, in order, and the
first of it in the headline too. -/
def Reports (min max : Option Nat) (unique : Bool) (path : Text) (items : List Text)
    (document : Text) : Prop :=
  ∃ (found : List (Violation Text)) (sentences : List Text) (headline : Text),
    (∀ v, v ∈ found ↔ Violates min max unique items v) ∧ found.Pairwise Violation.Before ∧
    List.Forall₂ (Sentence path) found sentences ∧ Headline sentences headline ∧
    Document.Json.read? document = some (.record
      [(.string "message", .string headline),
        (.string "fieldList", .list (sentences.map (entry path)))])

theorem asked_text (bound : LengthBound) : Asked bound.min? bound.max? bound.text := by
  cases bound with
  | atLeast lo => exact .atLeast lo
  | atMost hi => exact .atMost hi
  | between lo hi _ => exact .between lo hi

theorem sentence_fieldMessage (path : Text) (v : Violation Text) :
    Sentence path v (v.fieldMessage path).message := by
  cases v with
  | length actual bound => exact @Sentence.length path bound bound.text actual (asked_text bound)
  | uniqueItems positions items => exact @Sentence.uniqueItems path positions items

theorem headline_headlineOf (first : FieldMessage) (rest : List FieldMessage) :
    Headline ((first :: rest).map (·.message)) (Report.headlineOf (rest.length + 1) first) := by
  cases rest with
  | nil =>
    have hone : Report.headlineOf 1 first = "1 validation error detected. " ++ first.message := by
      rw [Report.headlineOf, if_pos rfl]
      exact congrArg (· ++ first.message) (by decide +kernel)
    rw [List.length_nil, Nat.zero_add, hone]
    exact .one first.message
  | cons second more =>
    have h := Headline.several first.message second.message (more.map (·.message))
    rw [List.length_map] at h
    rw [Report.headlineOf, if_neg (by simp)]
    exact h

theorem fieldNode_fieldMessage (path : Text) (found : List (Violation Text)) :
    (found.map (·.fieldMessage path)).map Report.fieldNode =
      ((found.map (·.fieldMessage path)).map (·.message)).map (entry path) := by
  rw [List.map_map, List.map_map, List.map_map]
  rfl

/-- What is broken is not nothing, so the report has a first sentence. -/
theorem exists_report {found : List (Violation Text)} (hne : found ≠ []) (path : Text) :
    ∃ (report : Report) (sentences : List Text),
      Report.ofViolations found path = some report ∧
      List.Forall₂ (Sentence path) found sentences ∧ Headline sentences report.headline ∧
      report.node = .record [(.string "message", .string report.headline),
        (.string "fieldList", .list (sentences.map (entry path)))] := by
  obtain ⟨first, more, rfl⟩ := List.exists_cons_of_ne_nil hne
  let fields := (first :: more).map (·.fieldMessage path)
  refine ⟨_, fields.map (·.message), rfl, ?_, headline_headlineOf _ _, ?_⟩
  · rw [List.forall₂_map_right_iff, List.forall₂_map_right_iff]
    exact List.forall₂_same.mpr fun v _ => sentence_fieldMessage path v
  · rw [← fieldNode_fieldMessage]
    rfl

/-! ## The three ends of a run -/

theorem outcome_inverted {e : RunError} (h : boundOf min max = .error e) (path : Text) :
    (runValidate min max unique path items).outcome = .error ⟨e, []⟩ := by
  rw [runValidate, h]
  rfl

theorem outcome_eq (h : boundOf min max = .ok length) (path : Text) :
    (runValidate min max unique path items).outcome =
      (writeValidation path ((Constraints.mk length unique).validate items)).outcome := by
  rw [runValidate, h]
  rfl

theorem outcome_accepted (h : boundOf min max = .ok length) (hends : EndsOf min max length)
    (ha : Accepts min max unique items) (path : Text) :
    (runValidate min max unique path items).outcome =
      .ok ⟨.success, "valid: " ++ decimal items.length ++ " items\n"⟩ := by
  rw [outcome_eq h, Constraints.validate_eq_ok_iff.mpr ⟨rfl, hends.keptBy_iff.mpr ha⟩]
  have hline : ("valid: " ++ decimal items.length ++ " items" ++ "\n" : Text) =
      "valid: " ++ decimal items.length ++ " items\n" := List.append_assoc _ _ _
  rw [← hline]
  rfl

theorem outcome_refused (h : boundOf min max = .ok length) (hends : EndsOf min max length)
    (hn : ¬ Accepts min max unique items) (path : Text) :
    ∃ document, (runValidate min max unique path items).outcome = .ok ⟨.failed, document ++ "\n"⟩ ∧
      Reports min max unique path items document := by
  have hne : (Constraints.mk length unique).violations items ≠ [] := fun he =>
    hn (hends.keptBy_iff.mp (Constraints.violations_eq_nil_iff.mp he))
  obtain ⟨report, sentences, hreport, hsentences, hheadline, hnode⟩ := exists_report hne path
  refine ⟨Document.Json.pretty report.node, ?_, _, sentences, report.headline, fun v => ?_,
    Constraints.pairwise_violations _ items, hsentences, hheadline, ?_⟩
  · rw [outcome_eq h, Constraints.validate_eq_error_iff.mpr ⟨hne, rfl⟩, writeValidation, hreport]
    rfl
  · rw [Constraints.mem_violations, hends.breaks_iff]
  · rw [Document.Json.read?_pretty report.quoted_node, hnode]

/-- A run ends in one of three ways. -/
inductive Ends (min max : Option Nat) (unique : Bool) (path : Text) (items : List Text) :
    Except Failure Outcome → Prop where
  | inverted {lo hi : Nat} : min = some lo → max = some hi → hi < lo →
    Ends min max unique path items (.error ⟨.invertedBounds lo hi, []⟩)
  | accepted : ¬ Inverted min max → Accepts min max unique items →
    Ends min max unique path items
      (.ok ⟨.success, "valid: " ++ decimal items.length ++ " items\n"⟩)
  | refused {document : Text} : ¬ Inverted min max → ¬ Accepts min max unique items →
    Reports min max unique path items document →
    Ends min max unique path items (.ok ⟨.failed, document ++ "\n"⟩)

theorem ends_runValidate (min max : Option Nat) (unique : Bool) (path : Text)
    (items : List Text) :
    Ends min max unique path items (runValidate min max unique path items).outcome := by
  by_cases hinv : Inverted min max
  · obtain ⟨lo, hi, hlo, hhi, hlt⟩ := hinv
    rw [outcome_inverted (boundOf_eq_error_iff.mpr ⟨lo, hi, hlo, hhi, hlt, rfl⟩)]
    exact .inverted hlo hhi hlt
  · obtain ⟨length, hbound, hends⟩ := exists_boundOf hinv
    by_cases ha : Accepts min max unique items
    · rw [outcome_accepted hbound hends ha]
      exact .accepted hinv ha
    · obtain ⟨document, hrun, hreports⟩ := outcome_refused hbound hends ha path
      rw [hrun]
      exact .refused hinv ha hreports

variable {path : Text} {result : Except Failure Outcome}

theorem Ends.error_iff (h : Ends min max unique path items result) {e : RunError} {output : Text} :
    result = .error ⟨e, output⟩ ↔
      (∃ lo hi, min = some lo ∧ max = some hi ∧ hi < lo ∧ e = .invertedBounds lo hi) ∧
        output = [] := by
  constructor
  · rintro rfl
    cases h with
    | inverted hlo hhi hlt => exact ⟨⟨_, _, hlo, hhi, hlt, rfl⟩, rfl⟩
  · rintro ⟨⟨lo, hi, hlo, hhi, hlt, rfl⟩, rfl⟩
    cases h with
    | inverted hlo' hhi' _ =>
      rw [Option.some.inj (hlo'.symm.trans hlo), Option.some.inj (hhi'.symm.trans hhi)]
    | accepted hinv _ => exact absurd ⟨lo, hi, hlo, hhi, hlt⟩ hinv
    | refused hinv _ _ => exact absurd ⟨lo, hi, hlo, hhi, hlt⟩ hinv

theorem Ends.success_iff (h : Ends min max unique path items result) {output : Text} :
    result = .ok ⟨.success, output⟩ ↔
      ¬ Inverted min max ∧ Accepts min max unique items ∧
        output = "valid: " ++ decimal items.length ++ " items\n" := by
  constructor
  · rintro rfl
    cases h with
    | accepted hinv ha => exact ⟨hinv, ha, rfl⟩
  · rintro ⟨hinv, ha, rfl⟩
    cases h with
    | inverted hlo hhi hlt => exact absurd ⟨_, _, hlo, hhi, hlt⟩ hinv
    | accepted _ _ => rfl
    | refused _ hn _ => exact absurd ha hn

theorem Ends.failed_iff (h : Ends min max unique path items result) :
    (∃ output, result = .ok ⟨.failed, output⟩) ↔
      ¬ Inverted min max ∧ ¬ Accepts min max unique items := by
  constructor
  · rintro ⟨output, rfl⟩
    cases h with
    | refused hinv hn _ => exact ⟨hinv, hn⟩
  · rintro ⟨hinv, hn⟩
    cases h with
    | inverted hlo hhi hlt => exact absurd ⟨_, _, hlo, hhi, hlt⟩ hinv
    | accepted _ ha => exact absurd ha hn
    | refused _ _ _ => exact ⟨_, rfl⟩

theorem Ends.reports {output : Text} (h : Ends min max unique path items (.ok ⟨.failed, output⟩)) :
    ∃ document, output = document ++ "\n" ∧ Reports min max unique path items document := by
  cases h with
  | refused _ _ hreports => exact ⟨_, rfl, hreports⟩

/-- The options and the items tell how a run of the command ends. An error is about the bounds, and
nothing is written before it; all else that goes wrong is in the report, one sentence for each thing
that is broken. -/
theorem run_validate (files : Files) (settings : RuntimeSettings) (min max : Option Nat)
    (unique : Bool) (path : Text) (items : List Text) :
    (∀ e output, run files settings (.validate min max unique path items) = .error ⟨e, output⟩ ↔
        (∃ lo hi, min = some lo ∧ max = some hi ∧ hi < lo ∧ e = .invertedBounds lo hi) ∧
          output = []) ∧
      (∀ output,
        run files settings (.validate min max unique path items) = .ok ⟨.success, output⟩ ↔
          ¬ Inverted min max ∧ Accepts min max unique items ∧
            output = "valid: " ++ decimal items.length ++ " items\n") ∧
      ((∃ output,
        run files settings (.validate min max unique path items) = .ok ⟨.failed, output⟩) ↔
          ¬ Inverted min max ∧ ¬ Accepts min max unique items) ∧
      (∀ output,
        run files settings (.validate min max unique path items) = .ok ⟨.failed, output⟩ →
          ∃ document, output = document ++ "\n" ∧ Reports min max unique path items document) ∧
      ∀ output,
        run files settings (.validate min max unique path items) ≠
          .error ⟨.unexplained, output⟩ := by
  rw [run, session]
  have hends := ends_runValidate min max unique path items
  refine ⟨fun e output => hends.error_iff, fun output => hends.success_iff, hends.failed_iff,
    fun output h => Ends.reports (h ▸ hends), fun output h => ?_⟩
  obtain ⟨⟨_, _, _, _, _, hcause⟩, _⟩ := hends.error_iff.mp h
  cases hcause

/-- Both rules are broken, and the path has a quote and a line break in it. Then a run that is
content and one whose bounds are the wrong way round. -/
theorem run_validate_both :
    let path : Text := "/a\"b\n"
    let items : List Text := ["x", "y", "x"]
    let document : Text := "\x7b\n"
      ++ "  \"message\": \"2 validation errors detected. Value with length 3 at '/a\\\"b\\n' "
      ++ "failed to satisfy constraint: Member must have length between 4 and 8, inclusive\",\n"
      ++ "  \"fieldList\": [\n"
      ++ "    \x7b\n"
      ++ "      \"message\": \"Value with length 3 at '/a\\\"b\\n' failed to satisfy constraint: "
      ++ "Member must have length between 4 and 8, inclusive\",\n"
      ++ "      \"path\": \"/a\\\"b\\n\"\n"
      ++ "    \x7d,\n"
      ++ "    \x7b\n"
      ++ "      \"message\": \"Value with repeated values at indices [0, 2] at '/a\\\"b\\n' "
      ++ "failed to satisfy constraint: Member must have unique values\",\n"
      ++ "      \"path\": \"/a\\\"b\\n\"\n"
      ++ "    \x7d\n"
      ++ "  ]\n"
      ++ "\x7d"
    let settings := RuntimeSettings.ofLookup fun _ => none
    let validate (min max : Option Nat) (items : List Text) :=
      run (fun _ => none) settings (.validate min max true path items)
    validate (some 4) (some 8) items = .ok ⟨.failed, document ++ "\n"⟩ ∧
      Reports (some 4) (some 8) true path items document ∧
      validate none (some 3) ["x", "y"] = .ok ⟨.success, "valid: 2 items\n"⟩ ∧
      validate (some 3) (some 1) items = .error ⟨.invertedBounds 3 1, []⟩ := by
  intro path items document settings validate
  have hrun : validate (some 4) (some 8) items = .ok ⟨.failed, document ++ "\n"⟩ := by
    decide +kernel
  obtain ⟨-, -, -, hfailed, -⟩ :=
    run_validate (fun _ => none) settings (some 4) (some 8) true path items
  obtain ⟨-, hsuccess, -⟩ :=
    run_validate (fun _ => none) settings none (some 3) true path ["x", "y"]
  obtain ⟨herror, -⟩ :=
    run_validate (fun _ => none) settings (some 3) (some 1) true path items
  obtain ⟨other, hother, hreports⟩ := hfailed _ hrun
  obtain rfl := List.append_cancel_right hother
  have haccepts : Accepts none (some 3) true ["x", "y"] := by
    refine ⟨⟨nofun, fun hi h => ?_⟩, fun _ => by decide⟩
    obtain rfl := Option.some.inj h
    decide
  have hline : ("valid: 2 items\n" : Text) = "valid: " ++ decimal 2 ++ " items\n" := by
    decide +kernel
  refine ⟨hrun, hreports, (hsuccess _).mpr ⟨nofun, haccepts, hline⟩, ?_⟩
  exact (herror _ _).mpr ⟨⟨3, 1, rfl, rfl, by decide, rfl⟩, rfl⟩

end Command

end RouteBook
