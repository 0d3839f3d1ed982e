import Mathlib.Data.List.Nodup
import RouteBook.Proofs.Pattern.Constructed
import RouteBook.Proofs.Request.Written
import RouteBook.Table.Resolve

/-! # Requirements and the parameters that meet them

The requirements of a pattern are kept in an order in which no two different ones are equal, so two
patterns that require the same have the same list. Requirements with distinct keys are in turn
determined by the lists of parameters that meet them. -/

namespace RouteBook

namespace QueryRequirement

/-! ## The order of requirements -/

theorem le_value_iff {a v b w : Text} :
    le (.value a v) (.value b w) = true ↔
      (a ≠ b ∧ Text.le a b = true) ∨ (a = b ∧ Text.le v w = true) := by
  by_cases h : a = b <;> simp [le, h]

theorem le_total (a b : QueryRequirement) : (le a b || le b a) = true := by
  rw [Bool.or_eq_true]
  cases a with
  | present k =>
    cases b with
    | present l => exact Text.le_total k l
    | value l w => exact .inl rfl
  | value k v =>
    cases b with
    | present l => exact .inr rfl
    | value l w =>
      rw [le_value_iff, le_value_iff]
      by_cases hkl : k = l
      · exact (Text.le_total v w).imp (fun h => .inr ⟨hkl, h⟩) (fun h => .inr ⟨hkl.symm, h⟩)
      · exact (Text.le_total k l).imp (fun h => .inl ⟨hkl, h⟩) (fun h => .inl ⟨Ne.symm hkl, h⟩)

theorem le_trans (a b c : QueryRequirement) (hab : le a b = true) (hbc : le b c = true) :
    le a c = true := by
  cases a with
  | present k =>
    cases c with
    | value m x => rfl
    | present m =>
      cases b with
      | value l w => cases hbc
      | present l => exact Text.le_trans (t := l) hab hbc
  | value k v =>
    cases b with
    | present l => cases hab
    | value l w =>
      cases c with
      | present m => cases hbc
      | value m x =>
        rw [le_value_iff] at hab hbc ⊢
        rcases hab with ⟨hne, hkl⟩ | ⟨rfl, hvw⟩
        · rcases hbc with ⟨_, hlm⟩ | ⟨rfl, _⟩
          · refine .inl ⟨?_, Text.le_trans hkl hlm⟩
            rintro rfl
            exact hne (Text.le_antisymm hkl hlm)
          · exact .inl ⟨hne, hkl⟩
        · rcases hbc with hlm | ⟨rfl, hwx⟩
          · exact .inl hlm
          · exact .inr ⟨rfl, Text.le_trans hvw hwx⟩

theorem le_antisymm {a b : QueryRequirement} (hab : le a b = true) (hba : le b a = true) :
    a = b := by
  cases a with
  | present k =>
    cases b with
    | value l w => cases hba
    | present l => rw [Text.le_antisymm (s := k) hab hba]
  | value k v =>
    cases b with
    | present l => cases hab
    | value l w =>
      rw [le_value_iff] at hab hba
      rcases hab with ⟨hne, hkl⟩ | ⟨rfl, hvw⟩
      · rcases hba with ⟨_, hlk⟩ | ⟨heq, _⟩
        · exact absurd (Text.le_antisymm hkl hlk) hne
        · exact absurd heq.symm hne
      · rcases hba with ⟨hne, _⟩ | ⟨_, hwv⟩
        · exact absurd rfl hne
        · rw [Text.le_antisymm hvw hwv]

/-- A list of requirements has one order. -/
theorem eq_mergeSort_iff {p sorted : List QueryRequirement} :
    sorted = p.mergeSort le ↔ sorted.Perm p ∧ sorted.Pairwise fun r s => le r s = true := by
  have hpairwise := List.pairwise_mergeSort le_trans le_total p
  constructor
  · rintro rfl
    exact ⟨List.mergeSort_perm p le, hpairwise⟩
  · intro ⟨hperm, hs⟩
    exact (hperm.trans (List.mergeSort_perm p le).symm).eq_of_pairwise
      (fun _ _ _ _ => le_antisymm) hs hpairwise

/-- Sorting forgets the order in which requirements were given, and nothing else. -/
theorem mergeSort_eq_iff_perm {p q : List QueryRequirement} :
    p.mergeSort le = q.mergeSort le ↔ p.Perm q := by
  have hsorted := eq_mergeSort_iff.mp (Eq.refl (p.mergeSort le))
  rw [eq_mergeSort_iff]
  exact ⟨fun h => hsorted.1.symm.trans h.1, fun h => ⟨hsorted.1.trans h, hsorted.2⟩⟩

end QueryRequirement

namespace Pattern

theorem ofParts_of_sorted {m : Method} (hm : m.isSupported = true) {path : List PathSegment}
    (hp : PathOk path) {query : List QueryRequirement} (hq : QueryOk query)
    (hs : query.Pairwise fun r s => QueryRequirement.le r s = true) :
    ofParts m path query = .ok ⟨m, path, query, none⟩ :=
  ofParts_eq_ok_iff.mpr ⟨hm, hp, hq, by rw [List.mergeSort_of_pairwise hs]⟩

/-! ## Parameters that tell requirements apart -/

theorem requirementMet_present {pairs : List (Text × Text)} {key : Text} :
    requirementMet (Request.params pairs) (.present key) = true ↔
      ∃ value, (key, value) ∈ pairs := by
  simp [requirementMet, QueryParams.containsKey, Request.params]

theorem requirementMet_value {pairs : List (Text × Text)} {key value : Text} :
    requirementMet (Request.params pairs) (.value key value) = true ↔ (key, value) ∈ pairs := by
  simp [requirementMet, QueryParams.containsPair, Request.params]

/-- The parameters that requirements ask for; where any value will do it is `free`. -/
def sampleParams (free : Text) (query : List QueryRequirement) : List (Text × Text) :=
  query.map fun
    | .present key => (key, free)
    | .value key value => (key, value)

theorem mem_sampleParams {free : Text} {query : List QueryRequirement} {key value : Text} :
    (key, value) ∈ sampleParams free query ↔
      .value key value ∈ query ∨ (.present key ∈ query ∧ value = free) := by
  simp only [sampleParams, List.mem_map]
  constructor
  · rintro ⟨r, hr, he⟩
    cases r with
    | present k =>
      cases he
      exact .inr ⟨hr, rfl⟩
    | value k v =>
      cases he
      exact .inl hr
  · rintro (h | ⟨h, rfl⟩)
    · exact ⟨_, h, rfl⟩
    · exact ⟨_, h, rfl⟩

theorem requirementMet_sampleParams (free : Text) {query : List QueryRequirement} :
    ∀ r ∈ query, requirementMet (Request.params (sampleParams free query)) r = true := by
  intro r hr
  cases r with
  | present key => exact requirementMet_present.mpr ⟨free, mem_sampleParams.mpr (.inr ⟨hr, rfl⟩)⟩
  | value key value => exact requirementMet_value.mpr (mem_sampleParams.mpr (.inl hr))

/-- Every list of parameters that meets the second list meets the first. -/
def RequiresNoMore (p q : List QueryRequirement) : Prop :=
  ∀ pairs, q.all (requirementMet (Request.params pairs)) = true →
    p.all (requirementMet (Request.params pairs)) = true

theorem RequiresNoMore.met {p q : List QueryRequirement} (h : RequiresNoMore p q) (free : Text)
    {r : QueryRequirement} (hr : r ∈ p) :
    requirementMet (Request.params (sampleParams free q)) r = true :=
  List.all_eq_true.mp (h _ (List.all_eq_true.mpr (requirementMet_sampleParams free))) r hr

/-- A value that is not required can be avoided. -/
theorem RequiresNoMore.value_mem {p q : List QueryRequirement} (h : RequiresNoMore p q)
    {key value : Text} (hr : .value key value ∈ p) : .value key value ∈ q := by
  rcases mem_sampleParams.mp (requirementMet_value.mp (h.met ('x' :: value) hr)) with hm | ⟨_, he⟩
  · exact hm
  · exact absurd he.symm (List.cons_ne_self _ _)

/-- A key that must be present is required with a value by neither list, since
its list has it once. -/
theorem RequiresNoMore.mem {p q : List QueryRequirement} (hp : QueryOk p) (h : RequiresNoMore p q)
    (h' : RequiresNoMore q p) {r : QueryRequirement} (hr : r ∈ p) : r ∈ q := by
  cases r with
  | value key value => exact h.value_mem hr
  | present key =>
    obtain ⟨value, hm⟩ := requirementMet_present.mp (h.met [] hr)
    rcases mem_sampleParams.mp hm with hm | ⟨hm, _⟩
    · cases List.inj_on_of_nodup_map hp.keys_nodup hr (h'.value_mem hm) rfl
    · exact hm

/-- Requirements are determined, up to their order, by the parameters that meet them. -/
theorem query_perm {p q : List QueryRequirement} (hp : QueryOk p) (hq : QueryOk q)
    (h : ∀ pairs, p.all (requirementMet (Request.params pairs)) =
      q.all (requirementMet (Request.params pairs))) : p.Perm q := by
  have hpq : RequiresNoMore p q := fun pairs hm => (h pairs).trans hm
  have hqp : RequiresNoMore q p := fun pairs hm => (h pairs).symm.trans hm
  rw [List.perm_ext_iff_of_nodup hp.keys_nodup.of_map hq.keys_nodup.of_map]
  exact fun r => ⟨hpq.mem hp hqp, hqp.mem hq hpq⟩

end Pattern

end RouteBook
