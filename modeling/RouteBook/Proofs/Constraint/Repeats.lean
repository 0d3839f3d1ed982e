import Mathlib.Data.List.Induction
import Mathlib.Data.List.Nodup
import Mathlib.Order.Nat
import RouteBook.Constraint.Repeats

/-! # Repeated items

What the scan does with one item depends on whether it was noted before: a new item is noted at the
end, and an old one displaces its latest position. So after a part of the items the notes hold the
last position of each item of that part, and the next equal item displaces it. Every position of a
repeated item but the last has a next one, so the displaced positions and the last ones are all of
them, and none is both. -/

namespace RouteBook.Constraint

variable {α : Type}

/-! ## Positions of equal items -/

/-- The item stands at the position and at no later one. -/
structure LastAt (items : List α) (item : α) (i : Nat) : Prop where
  here : items[i]? = some item
  later : ∀ j, i < j → items[j]? ≠ some item

/-- The position holds an item that another position holds too. -/
def Repeated (items : List α) (i : Nat) : Prop :=
  ∃ item, items[i]? = some item ∧ ∃ j, j ≠ i ∧ items[j]? = some item

/-- The same positions hold equal items. -/
structure SameRepeats {β : Type} (items : List α) (others : List β) : Prop where
  length : others.length = items.length
  iff : ∀ i < items.length, ∀ j < items.length, others[i]? = others[j]? ↔ items[i]? = items[j]?

theorem LastAt.lt {items : List α} {item : α} {i : Nat} (h : LastAt items item i) :
    i < items.length :=
  (List.getElem?_eq_some_iff.mp h.here).1

theorem LastAt.unique {items : List α} {item : α} {i j : Nat} (hi : LastAt items item i)
    (hj : LastAt items item j) :
    i = j := by
  rcases Nat.lt_trichotomy i j with h | h | h
  · exact absurd hj.here (hi.later j h)
  · exact h
  · exact absurd hi.here (hj.later i h)

/-- A further item is the last one of its kind, and it changes the last position of no other
item. -/
theorem lastAt_concat {items : List α} {x item : α} {i : Nat} :
    LastAt (items ++ [x]) item i ↔
      (item ≠ x ∧ LastAt items item i) ∨ (item = x ∧ i = items.length) := by
  have hnone : ∀ j, items.length < j → (items ++ [x])[j]? = none := fun j hj =>
    List.getElem?_eq_none (by simp; omega)
  have hleft : ∀ j, j < items.length → (items ++ [x])[j]? = items[j]? := fun j hj =>
    List.getElem?_append_left hj
  have hx : (items ++ [x])[items.length]? = some x := List.getElem?_concat_length
  constructor
  · intro h
    rcases Nat.lt_trichotomy i items.length with hi | rfl | hi
    · have hne : item ≠ x := fun he => h.later items.length hi (he ▸ hx)
      refine .inl ⟨hne, by rw [← hleft i hi, h.here], fun j hj he => ?_⟩
      exact h.later j hj (by rw [hleft j (List.getElem?_eq_some_iff.mp he).1, he])
    · have he := h.here
      rw [hx] at he
      exact .inr ⟨(Option.some.inj he).symm, rfl⟩
    · have he := h.here
      rw [hnone i hi] at he
      cases he
  · intro h
    rcases h with ⟨hne, h⟩ | ⟨rfl, rfl⟩
    · refine ⟨by rw [hleft i h.lt, h.here], fun j hj he => ?_⟩
      rcases Nat.lt_trichotomy j items.length with hlt | rfl | hlt
      · exact h.later j hj (by rw [← hleft j hlt, he])
      · rw [hx] at he
        exact hne (Option.some.inj he).symm
      · rw [hnone j hlt] at he
        cases he
    · refine ⟨hx, fun j hj he => ?_⟩
      rw [hnone j hj] at he
      cases he

theorem exists_lastAt {items : List α} {item : α} (h : item ∈ items) :
    ∃ i, LastAt items item i := by
  induction items using List.reverseRecOn with
  | nil => cases h
  | append_singleton items x ih =>
    by_cases hx : item = x
    · exact ⟨items.length, lastAt_concat.mpr (.inr ⟨hx, rfl⟩)⟩
    · obtain ⟨i, hi⟩ := ih (by simpa [hx] using h)
      exact ⟨i, lastAt_concat.mpr (.inl ⟨hx, hi⟩)⟩

/-! ## Notes -/

/-- The first note of an item. -/
theorem exists_first_note {item : α} {notes : List (Sighting α)} (h : item ∈ notes.map (·.item)) :
    ∃ front s back, notes = front ++ s :: back ∧ item ∉ front.map (·.item) ∧ s.item = item := by
  obtain ⟨names, others, he, hn⟩ := List.eq_append_cons_of_mem h
  obtain ⟨front, rest, rfl, rfl, hrest⟩ := List.map_eq_append_iff.mp he
  obtain ⟨s, back, rfl, hs, _⟩ := List.map_eq_cons_iff.mp hrest
  exact ⟨front, s, back, rfl, hn, hs⟩

/-- The note on an item that was seen at one position only. -/
def Sighting.once (entry : α × Nat) : Sighting α := ⟨entry.1, entry.2, false⟩

theorem pairwise_lastRepeats (notes : List (Sighting α)) :
    (lastRepeats notes).Pairwise (· ≤ ·) := by
  refine List.Pairwise.imp of_decide_eq_true (List.pairwise_mergeSort ?_ ?_ _)
  · intro a b c hab hbc
    rw [decide_eq_true_eq] at hab hbc ⊢
    exact Nat.le_trans hab hbc
  · intro a b
    rw [Bool.or_eq_true, decide_eq_true_eq, decide_eq_true_eq]
    exact Nat.le_total a b

/-- The last positions do not depend on the order of the notes. -/
theorem lastRepeats_perm {notes others : List (Sighting α)} (h : notes.Perm others) :
    lastRepeats notes = lastRepeats others := by
  have hperm : (lastRepeats notes).Perm (lastRepeats others) :=
    (List.mergeSort_perm _ _).trans (((h.filter _).map _).trans (List.mergeSort_perm _ _).symm)
  exact hperm.eq_of_pairwise (fun _ _ _ _ => Nat.le_antisymm) (pairwise_lastRepeats notes)
    (pairwise_lastRepeats others)

variable [DecidableEq α]

theorem sight_of_not_mem {item : α} {notes : List (Sighting α)} (h : item ∉ notes.map (·.item))
    (position : Nat) :
    sight item position notes = (none, notes ++ [.once (item, position)]) := by
  induction notes with
  | nil => rfl
  | cons s rest ih =>
    rw [List.map_cons, List.mem_cons, not_or] at h
    rw [sight, if_neg (Ne.symm h.1), ih h.2]
    rfl

theorem sight_of_mem {item : α} {front back : List (Sighting α)} {s : Sighting α}
    (h : item ∉ front.map (·.item)) (hs : s.item = item) (position : Nat) :
    sight item position (front ++ s :: back) =
      (some s.latest, front ++ ⟨item, position, true⟩ :: back) := by
  induction front with
  | nil => rw [List.nil_append, sight, if_pos hs, List.nil_append]
  | cons f front ih =>
    rw [List.map_cons, List.mem_cons, not_or] at h
    rw [List.cons_append, sight, if_neg (Ne.symm h.1), ih h.2]
    rfl

/-- The notes on a part of the items: one for each item, with its last position and whether the item
stands before that too. -/
structure Noted (seen : List α) (notes : List (Sighting α)) : Prop where
  distinct : (notes.map (·.item)).Nodup
  mem_iff : ∀ s, s ∈ notes ↔
    LastAt seen s.item s.latest ∧ s.repeated = decide (s.item ∈ seen.take s.latest)

theorem noted_nil : Noted ([] : List α) [] := by
  refine ⟨.nil, fun s => ⟨nofun, fun h => ?_⟩⟩
  cases h.1.here

theorem Noted.mem_items {seen : List α} {notes : List (Sighting α)} (h : Noted seen notes)
    {item : α} :
    item ∈ notes.map (·.item) ↔ item ∈ seen := by
  constructor
  · intro hm
    obtain ⟨s, hs, rfl⟩ := List.mem_map.mp hm
    exact List.mem_of_getElem? ((h.mem_iff s).mp hs).1.here
  · intro hm
    obtain ⟨i, hi⟩ := exists_lastAt hm
    exact List.mem_map.mpr ⟨⟨item, i, decide (item ∈ seen.take i)⟩,
      (h.mem_iff _).mpr ⟨hi, rfl⟩, rfl⟩

/-- What the notes on one more item must be: the note on that item is new and the
others are as before. -/
theorem Noted.concat_iff {seen : List α} {notes : List (Sighting α)} (h : Noted seen notes)
    {item : α} {s : Sighting α} :
    LastAt (seen ++ [item]) s.item s.latest ∧
      s.repeated = decide (s.item ∈ (seen ++ [item]).take s.latest) ↔
      (s.item ≠ item ∧ s ∈ notes) ∨ s = ⟨item, seen.length, decide (item ∈ seen)⟩ := by
  obtain ⟨x, latest, repeated⟩ := s
  rw [lastAt_concat, h.mem_iff]
  constructor
  · intro ⟨hlast, hrep⟩
    rcases hlast with ⟨hne, hlast⟩ | ⟨rfl, rfl⟩
    · rw [List.take_append_of_le_length hlast.lt.le] at hrep
      exact .inl ⟨hne, hlast, hrep⟩
    · rw [List.take_left] at hrep
      exact .inr (congrArg _ hrep)
  · intro hs
    rcases hs with ⟨hne, hlast, hrep⟩ | hs
    · rw [List.take_append_of_le_length hlast.lt.le]
      exact ⟨.inl ⟨hne, hlast⟩, hrep⟩
    · cases hs
      rw [List.take_left]
      exact ⟨.inr ⟨rfl, rfl⟩, rfl⟩

/-- One item displaces its last position, if it has one, and the notes hold of what
was seen and the item. -/
theorem Noted.sight {seen : List α} {notes : List (Sighting α)} (h : Noted seen notes) (item : α) :
    (∀ i, (sight item seen.length notes).1 = some i ↔ LastAt seen item i) ∧
      Noted (seen ++ [item]) (sight item seen.length notes).2 := by
  by_cases hm : item ∈ notes.map (·.item)
  · have hseen := h.mem_items.mp hm
    obtain ⟨front, s, back, rfl, hfront, rfl⟩ := exists_first_note hm
    have hs := ((h.mem_iff s).mp (by simp)).1
    have hback : s.item ∉ back.map (·.item) := by
      have := h.distinct
      simp only [List.map_append, List.map_cons, List.nodup_append, List.nodup_cons] at this
      exact this.2.1.1
    have hne : ∀ u ∈ front ++ back, u.item ≠ s.item := by
      intro u hu he
      rcases List.mem_append.mp hu with hu | hu
      · exact hfront (he ▸ List.mem_map_of_mem hu)
      · exact hback (he ▸ List.mem_map_of_mem hu)
    rw [sight_of_mem hfront rfl]
    refine ⟨fun i => ⟨fun he => Option.some.inj he ▸ hs, fun hi => congrArg some (hs.unique hi)⟩,
      ⟨by simpa using h.distinct, fun t => ?_⟩⟩
    rw [h.concat_iff, decide_eq_true hseen]
    have := hne t
    grind
  · have hseen : item ∉ seen := fun hs => hm (h.mem_items.mpr hs)
    rw [sight_of_not_mem hm]
    refine ⟨fun i => ⟨nofun, fun hi => absurd (List.mem_of_getElem? hi.here) hseen⟩,
      ⟨?_, fun t => ?_⟩⟩
    · rw [List.map_append, List.nodup_append]
      refine ⟨h.distinct, by simp, fun x hx y hy he => ?_⟩
      have hy : y = item := List.mem_singleton.mp hy
      exact hm (hy ▸ he ▸ hx)
    · rw [h.concat_iff, decide_eq_false hseen, List.mem_append, List.mem_singleton]
      have hne : t ∈ notes → t.item ≠ item := fun ht he => hm (he ▸ List.mem_map_of_mem ht)
      exact or_congr_left ⟨fun ht => ⟨hne ht, ht⟩, And.right⟩

/-! ## The order of the positions -/

/-- The last position before this one that holds the same item. -/
def previous? (items : List α) (j : Nat) : Option Nat :=
  ((List.range j).filter fun i => items[i]? = items[j]?).getLast?

/-- For each position whose item stands before, in ascending order, the last position
that it stands at before. -/
def previousPositions (items : List α) : List Nat :=
  (List.range items.length).filterMap (previous? items)

/-- The positions whose item stands before and not after, in ascending order. -/
def finalPositions (items : List α) : List Nat :=
  (List.range items.length).filter fun i =>
    (∃ j < i, items[j]? = items[i]?) ∧ ∀ j < items.length, i < j → items[j]? ≠ items[i]?

omit [DecidableEq α] in
theorem getLast?_filter_range {p : Nat → Bool} {n i : Nat} :
    ((List.range n).filter p).getLast? = some i ↔
      i < n ∧ p i = true ∧ ∀ k, i < k → k < n → p k = false := by
  induction n with
  | zero => simp
  | succ n ih =>
    rw [List.range_succ, List.filter_append]
    cases hp : p n with
    | true =>
      rw [List.filter_cons_of_pos hp, List.filter_nil, List.getLast?_concat]
      constructor
      · intro he
        obtain rfl := Option.some.inj he
        exact ⟨by omega, hp, by omega⟩
      · intro ⟨hi, hpi, hk⟩
        by_contra hne
        have hlt : i < n := Nat.lt_of_le_of_ne (by omega) fun he => hne (congrArg some he.symm)
        cases hp.symm.trans (hk n hlt (by omega))
    | false =>
      rw [List.filter_cons_of_neg (by simp [hp]), List.filter_nil, List.append_nil, ih]
      constructor
      · intro ⟨hi, hpi, hk⟩
        refine ⟨by omega, hpi, fun k hik hkn => ?_⟩
        rcases Nat.lt_succ_iff_lt_or_eq.mp hkn with h | rfl
        · exact hk k hik h
        · exact hp
      · intro ⟨hi, hpi, hk⟩
        have hne : i ≠ n := fun he => by cases (he ▸ hpi).symm.trans hp
        exact ⟨by omega, hpi, fun k hik hkn => hk k hik (by omega)⟩

theorem previous?_eq_some_iff {items : List α} {i j : Nat} :
    previous? items j = some i ↔
      i < j ∧ items[i]? = items[j]? ∧ ∀ k, i < k → k < j → items[k]? ≠ items[j]? := by
  rw [previous?, getLast?_filter_range]
  simp

/-- The previous position of an item is its last one among those before it. -/
theorem previous?_append {seen items : List α} {item : α} {i : Nat} :
    previous? (seen ++ item :: items) seen.length = some i ↔ LastAt seen item i := by
  have hhere : (seen ++ item :: items)[seen.length]? = some item := by simp
  have hleft : ∀ k, k < seen.length → (seen ++ item :: items)[k]? = seen[k]? := fun k hk =>
    List.getElem?_append_left hk
  rw [previous?_eq_some_iff, hhere]
  constructor
  · intro ⟨hi, he, hk⟩
    refine ⟨by rw [← hleft i hi, he], fun j hj he' => ?_⟩
    have hlt := (List.getElem?_eq_some_iff.mp he').1
    exact hk j hj hlt (by rw [hleft j hlt, he'])
  · intro h
    refine ⟨h.lt, by rw [hleft i h.lt, h.here], fun k hik hk he => ?_⟩
    exact h.later k hik (by rw [← hleft k hk, he])

theorem Noted.previous? {seen items : List α} {notes : List (Sighting α)} (h : Noted seen notes)
    (item : α) :
    previous? (seen ++ item :: items) seen.length =
      (Constraint.sight item seen.length notes).1 := by
  refine Option.ext fun i => ?_
  rw [previous?_append, (h.sight item).1]

/-- Whatever was seen before, the scan displaces the previous position of each item and
leaves the notes on all. -/
theorem Noted.displacedFrom {seen items : List α} {notes : List (Sighting α)}
    (h : Noted seen notes) :
    (displacedFrom seen.length notes items).1 =
        (List.range' seen.length items.length).filterMap (Constraint.previous? (seen ++ items)) ∧
      Noted (seen ++ items) (displacedFrom seen.length notes items).2 := by
  induction items generalizing seen notes with
  | nil => simpa [Constraint.displacedFrom] using h
  | cons item items ih =>
    obtain ⟨hd, hn⟩ := ih (h.sight item).2
    rw [List.length_append, List.length_singleton, List.append_assoc, List.singleton_append]
      at hd hn
    refine ⟨?_, hn⟩
    have hstep : (Constraint.displacedFrom seen.length notes (item :: items)).1 =
        (Constraint.sight item seen.length notes).1.toList ++
          (Constraint.displacedFrom (seen.length + 1)
            (Constraint.sight item seen.length notes).2 items).1 := rfl
    rw [hstep, hd, List.length_cons, List.range'_succ, List.filterMap_cons, h.previous?]
    cases (Constraint.sight item seen.length notes).1 <;> rfl

theorem mem_finalPositions {items : List α} {i : Nat} :
    i ∈ finalPositions items ↔ ∃ item, LastAt items item i ∧ item ∈ items.take i := by
  simp only [finalPositions, List.mem_filter, List.mem_range, decide_eq_true_eq]
  constructor
  · intro ⟨hi, ⟨j, hj, he⟩, hlater⟩
    have hitem := List.getElem?_eq_getElem hi
    refine ⟨items[i], ⟨hitem, fun k hk he => ?_⟩, List.mem_take_iff_getElem.mpr ?_⟩
    · exact hlater k (List.getElem?_eq_some_iff.mp he).1 hk (he.trans hitem.symm)
    · obtain ⟨hlt, heq⟩ := List.getElem?_eq_some_iff.mp (he.trans hitem)
      exact ⟨j, by omega, heq⟩
  · intro ⟨item, hlast, hm⟩
    obtain ⟨j, hj, he⟩ := List.mem_take_iff_getElem.mp hm
    refine ⟨hlast.lt, ⟨j, by omega, ?_⟩, fun k _ hk => ?_⟩
    · rw [List.getElem?_eq_getElem (by omega), he, hlast.here]
    · rw [hlast.here]
      exact hlast.later k hk

theorem Noted.mem_lastRepeats {items : List α} {notes : List (Sighting α)} (h : Noted items notes)
    {i : Nat} :
    i ∈ lastRepeats notes ↔ i ∈ finalPositions items := by
  rw [mem_finalPositions, lastRepeats, List.mem_mergeSort, List.mem_map]
  constructor
  · intro ⟨s, hs, he⟩
    obtain ⟨hm, hr⟩ := List.mem_filter.mp hs
    obtain ⟨hlast, hrep⟩ := (h.mem_iff s).mp hm
    subst he
    exact ⟨s.item, hlast, of_decide_eq_true (hrep ▸ hr)⟩
  · intro ⟨item, hlast, hm⟩
    have hs : ⟨item, i, true⟩ ∈ notes := (h.mem_iff _).mpr ⟨hlast, (decide_eq_true hm).symm⟩
    exact ⟨_, List.mem_filter.mpr ⟨hs, rfl⟩, rfl⟩

/-- Notes at the same position are on the same item. -/
theorem Noted.eq_of_latest {items : List α} {notes : List (Sighting α)} (h : Noted items notes)
    {s t : Sighting α} (hs : s ∈ notes) (ht : t ∈ notes) (he : s.latest = t.latest) : s = t := by
  obtain ⟨hslast, hsrep⟩ := (h.mem_iff s).mp hs
  obtain ⟨htlast, htrep⟩ := (h.mem_iff t).mp ht
  obtain ⟨x, latest, repeated⟩ := s
  obtain ⟨y, latest', repeated'⟩ := t
  obtain rfl : latest = latest' := he
  obtain rfl : x = y := Option.some.inj (hslast.here.symm.trans htlast.here)
  exact congrArg _ (hsrep.trans htrep.symm)

theorem pairwise_finalPositions (items : List α) : (finalPositions items).Pairwise (· < ·) :=
  List.pairwise_lt_range.filter _

theorem Noted.lastRepeats {items : List α} {notes : List (Sighting α)} (h : Noted items notes) :
    lastRepeats notes = finalPositions items := by
  have hnodup : (Constraint.lastRepeats notes).Nodup := by
    refine (List.mergeSort_perm _ _).nodup_iff.mpr (List.Nodup.map_on (fun s hs t ht he => ?_) ?_)
    · exact h.eq_of_latest (List.mem_of_mem_filter hs) (List.mem_of_mem_filter ht) he
    · exact h.distinct.of_map.filter _
  have hsorted := pairwise_finalPositions items
  have hperm : (Constraint.lastRepeats notes).Perm (finalPositions items) :=
    (List.perm_ext_iff_of_nodup hnodup (hsorted.imp Nat.ne_of_lt)).mpr fun _ => h.mem_lastRepeats
  exact hperm.eq_of_pairwise (fun _ _ _ _ => Nat.le_antisymm) (pairwise_lastRepeats notes)
    (hsorted.imp Nat.le_of_lt)

theorem duplicateIndices_eq (items : List α) :
    duplicateIndices items = previousPositions items ++ finalPositions items := by
  obtain ⟨hd, hn⟩ := @Noted.displacedFrom α _ [] items [] noted_nil
  rw [List.length_nil, List.nil_append, ← List.range_eq_range'] at hd
  exact congrArg₂ _ hd hn.lastRepeats

/-! ## Which positions -/

theorem mem_previousPositions {items : List α} {i : Nat} :
    i ∈ previousPositions items ↔
      ∃ item, items[i]? = some item ∧ ∃ j, i < j ∧ items[j]? = some item := by
  simp only [previousPositions, List.mem_filterMap, List.mem_range, previous?_eq_some_iff]
  constructor
  · intro ⟨j, hj, hij, he, _⟩
    have hitem := List.getElem?_eq_getElem hj
    exact ⟨items[j], he.trans hitem, j, hij, hitem⟩
  · intro ⟨item, hi, hex⟩
    obtain ⟨hij, hj⟩ := Nat.find_spec hex
    refine ⟨Nat.find hex, (List.getElem?_eq_some_iff.mp hj).1, hij, hi.trans hj.symm,
      fun k hik hk he => ?_⟩
    exact Nat.find_min hex hk ⟨hik, he.trans hj⟩

/-- A position is previous to one other at most: of two, the first would stand
between it and the second. -/
theorem nodup_previousPositions (items : List α) : (previousPositions items).Nodup := by
  have hle {i j k : Nat} (hj : previous? items j = some i) (hk : previous? items k = some i) :
      k ≤ j := by
    obtain ⟨hij, he, _⟩ := previous?_eq_some_iff.mp hj
    obtain ⟨_, he', hbetween⟩ := previous?_eq_some_iff.mp hk
    by_contra hlt
    exact hbetween j hij (by omega) (he.symm.trans he')
  exact List.Nodup.filterMap
    (fun j k i hj hk => Nat.le_antisymm (hle hk hj) (hle hj hk)) List.nodup_range

theorem mem_duplicateIndices {items : List α} {i : Nat} :
    i ∈ duplicateIndices items ↔ Repeated items i := by
  rw [duplicateIndices_eq, List.mem_append, mem_previousPositions, mem_finalPositions]
  constructor
  · intro h
    rcases h with ⟨item, hi, j, hij, hj⟩ | ⟨item, hlast, hm⟩
    · exact ⟨item, hi, j, by omega, hj⟩
    · obtain ⟨j, hj, he⟩ := List.mem_take_iff_getElem.mp hm
      exact ⟨item, hlast.here, j, by omega, List.getElem?_eq_some_iff.mpr ⟨by omega, he⟩⟩
  · intro ⟨item, hi, j, hne, hj⟩
    by_cases hlater : ∃ k, i < k ∧ items[k]? = some item
    · exact .inl ⟨item, hi, hlater⟩
    · have hlast : LastAt items item i := ⟨hi, fun k hk he => hlater ⟨k, hk, he⟩⟩
      have hji : j < i := Nat.lt_of_le_of_ne (Nat.le_of_not_lt fun hij => hlater ⟨j, hij, hj⟩) hne
      obtain ⟨hlt, he⟩ := List.getElem?_eq_some_iff.mp hj
      exact .inr ⟨item, hlast, List.mem_take_iff_getElem.mpr ⟨j, by omega, he⟩⟩

theorem nodup_duplicateIndices (items : List α) : (duplicateIndices items).Nodup := by
  rw [duplicateIndices_eq, List.nodup_append]
  refine ⟨nodup_previousPositions items, (pairwise_finalPositions items).imp Nat.ne_of_lt,
    fun i hi k hk he => ?_⟩
  subst he
  obtain ⟨item, hitem, j, hij, hj⟩ := mem_previousPositions.mp hi
  obtain ⟨other, hlast, _⟩ := mem_finalPositions.mp hk
  obtain rfl : item = other := Option.some.inj (hitem.symm.trans hlast.here)
  exact hlast.later j hij hj

/-- No position is reported exactly if all items are distinct. -/
theorem duplicateIndices_eq_nil_iff {items : List α} :
    duplicateIndices items = [] ↔ items.Nodup := by
  rw [List.eq_nil_iff_forall_not_mem, List.nodup_iff_getElem?_ne_getElem?]
  simp only [mem_duplicateIndices]
  constructor
  · intro h i j hij hj he
    have hitem := List.getElem?_eq_getElem hj
    exact h i ⟨items[j], he.trans hitem, j, by omega, hitem⟩
  · intro h i ⟨item, hi, j, hne, hj⟩
    rcases Nat.lt_or_gt_of_ne hne with hlt | hlt
    · exact h j i hlt (List.getElem?_eq_some_iff.mp hi).1 (hj.trans hi.symm)
    · exact h i j hlt (List.getElem?_eq_some_iff.mp hj).1 (hi.trans hj.symm)

/-! ## Other items at the same positions -/

variable {β : Type} [DecidableEq β]

theorem SameRepeats.previousPositions {items : List α} {others : List β}
    (h : SameRepeats items others) :
    previousPositions others = previousPositions items := by
  rw [Constraint.previousPositions, Constraint.previousPositions, h.length]
  refine List.filterMap_congr fun j hj => congrArg List.getLast? (List.filter_congr fun i hi => ?_)
  rw [List.mem_range] at hi hj
  exact decide_eq_decide.mpr (h.iff i (by omega) j hj)

theorem SameRepeats.finalPositions {items : List α} {others : List β}
    (h : SameRepeats items others) :
    finalPositions others = finalPositions items := by
  rw [Constraint.finalPositions, Constraint.finalPositions, h.length]
  refine List.filter_congr fun i hi => decide_eq_decide.mpr (and_congr ?_ ?_)
  · rw [List.mem_range] at hi
    exact exists_congr fun j => and_congr_right fun hj => h.iff j (by omega) i hi
  · rw [List.mem_range] at hi
    exact forall_congr' fun j => forall_congr' fun hj => imp_congr_right fun _ =>
      not_congr (h.iff j hj i hi)

theorem SameRepeats.duplicateIndices {items : List α} {others : List β}
    (h : SameRepeats items others) :
    duplicateIndices others = duplicateIndices items := by
  rw [duplicateIndices_eq, duplicateIndices_eq, h.previousPositions, h.finalPositions]

omit [DecidableEq α] [DecidableEq β] in
theorem sameRepeats_map {f : α → β} (hf : Function.Injective f) (items : List α) :
    SameRepeats items (items.map f) := by
  refine ⟨List.length_map f, fun i _ j _ => ?_⟩
  rw [List.getElem?_map, List.getElem?_map]
  exact (Option.map_injective hf).eq_iff

/-- The positions of the repeated items, each once: first the previous position of every item that
stands before, then the last ones. Neither the order of the notes nor the items themselves count,
only which of them are equal. -/
theorem duplicateIndices_exact (items : List α) :
    (∀ i, i ∈ duplicateIndices items ↔ Repeated items i) ∧ (duplicateIndices items).Nodup ∧
      duplicateIndices items = previousPositions items ++ finalPositions items ∧
      (∀ notes, notes.Perm (displacedFrom 0 [] items).2 →
        (displacedFrom 0 [] items).1 ++ lastRepeats notes = duplicateIndices items) ∧
      (∀ (β : Type) [DecidableEq β] (others : List β), SameRepeats items others →
        duplicateIndices others = duplicateIndices items) ∧
      ∀ (β : Type) [DecidableEq β] (f : α → β), Function.Injective f →
        duplicateIndices (items.map f) = duplicateIndices items := by
  refine ⟨fun i => mem_duplicateIndices, nodup_duplicateIndices items, duplicateIndices_eq items,
    ?_, ?_, ?_⟩
  · intro notes hperm
    exact congrArg _ (lastRepeats_perm hperm)
  · intro β _ others h
    exact h.duplicateIndices
  · intro β _ f hf
    exact (sameRepeats_map hf items).duplicateIndices

/-- Two chains of repeats, over numbers and over characters. -/
theorem duplicateIndices_chains :
    duplicateIndices [1, 2, 1, 1, 2] = [0, 2, 1, 3, 4] ∧
      SameRepeats [1, 2, 1, 1, 2] ['x', 'y', 'x', 'x', 'y'] ∧
      duplicateIndices ['x', 'y', 'x', 'x', 'y'] = [0, 2, 1, 3, 4] := by
  have hnumbers : duplicateIndices [1, 2, 1, 1, 2] = [0, 2, 1, 3, 4] := by
    rw [duplicateIndices_eq]
    decide
  have hsame : SameRepeats [1, 2, 1, 1, 2] ['x', 'y', 'x', 'x', 'y'] := ⟨rfl, by decide⟩
  obtain ⟨_, _, _, _, hothers, _⟩ := duplicateIndices_exact [1, 2, 1, 1, 2]
  exact ⟨hnumbers, hsame, (hothers Char _ hsame).trans hnumbers⟩

end RouteBook.Constraint
