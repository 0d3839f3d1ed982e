import RouteBook.Proofs.Table.PublishSafety

/-! # Swaps told from generations, and no caller left without a next step

A swap could compare generations where the cell compares addresses, which is the same because no
generation is used twice. And every call that has not returned can take its next step. -/

namespace RouteBook

variable {H : Type} {first : RouteTable H}

namespace SharedTable

/-- Puts `next` in the place of `seen`, unless another table is there by now. Generations are not
reused, so they tell whether it is the same table. -/
def swap? (s : SharedTable H) (seen next : PublishedTable H) : Option (SharedTable H) :=
  if s.current.generation = seen.generation then some ⟨next⟩ else none

/-- With nobody else at work a single try succeeds. -/
theorem swap?_load (s : SharedTable H) (table : RouteTable H) :
    s.swap? s.load (s.load.next table) = some (s.publish table).2 := by
  simp [swap?, load, publish]

end SharedTable

namespace World

/-- An address that was current still is if its value has the generation of the current one. -/
theorem Consistent.current_of_generation {w : World H} (hw : Consistent first w) {seen : Nat}
    (hseen : seen ∈ w.installed) {p : PublishedTable H} (hp : w.values[seen]? = some p)
    (hg : 1 + w.swaps.length = p.generation) : seen = w.current := by
  obtain ⟨k, hk⟩ := List.getElem?_of_mem hseen
  obtain ⟨q, hq, hqg⟩ := hw.value_installed hk
  obtain rfl : p = q := Option.some.inj (hp.symm.trans hq)
  obtain rfl : k = w.swaps.length := by omega
  exact Option.some.inj (hk.symm.trans w.installed_last)

/-- Whether a swap succeeds can be told from the generations. -/
theorem Consistent.swap? {w : World H} (hw : Consistent first w) {i : Nat} {c : Call H}
    {seen next : Nat} (hi : w.calls[i]? = some c) (hphase : c.phase = .swapping seen next)
    {p : PublishedTable H} (hp : w.values[seen]? = some p) {s : SharedTable H}
    (hs : w.shared? = some s) (new : PublishedTable H) :
    s.swap? p new = if w.cells[c.cell]? = some seen then some ⟨new⟩ else none := by
  obtain ⟨q, hq, hshared, hg⟩ := hw.shared?
  obtain rfl : s = ⟨q⟩ := Option.some.inj (hs.symm.trans hshared)
  obtain ⟨hcell, hsound⟩ := hw.calls i c hi
  have hseen : seen ∈ w.installed := by
    simp only [Call.Sound, hphase] at hsound
    exact hsound.1
  have hiff : q.generation = p.generation ↔ w.cells[c.cell]? = some seen := by
    constructor
    · intro h
      rw [hw.current_of_generation hseen hp (by omega), hcell, hw.cells]
      rfl
    · intro h
      rw [hw.eq_current hcell h, hq] at hp
      rw [Option.some.inj hp]
  simp only [SharedTable.swap?, hiff]

/-! ## No caller is left without a next step -/

/-- The handle exists, or the call does and has not returned. -/
def Possible (w : World H) : Action H → Prop
  | .clone handle | .load handle | .snapshot handle | .generation handle | .publish handle _ =>
    handle < w.handles.length
  | .advance i => ∃ c : Call H, w.calls[i]? = some c ∧ ∀ g, c.phase ≠ .returned g

theorem Consistent.advance?_isSome {w : World H} (hw : Consistent first w) {i : Nat} {c : Call H}
    (hi : w.calls[i]? = some c) : (w.advance? i c).isSome ↔ ∀ g, c.phase ≠ .returned g := by
  obtain ⟨hcell, hsound⟩ := hw.calls i c hi
  cases hp : c.phase with
  | reading => simp [advance?, hp, hcell, hw.cells]
  | computing seen =>
    simp only [Call.Sound, hp] at hsound
    obtain ⟨p, hv, -⟩ := hw.rightful hsound
    simp [advance?, hp, hv]
  | swapping seen next =>
    simp only [advance?, hp]
    split <;> simp
  | swapped previous =>
    simp only [Call.Sound, hp] at hsound
    obtain ⟨k, s, -, -, ha⟩ := hsound
    simp only [Call.answer?, hp] at ha
    obtain ⟨p, hv, -⟩ := Option.map_eq_some_iff.mp ha
    simp [advance?, hp, hv]
  | returned g => simp [advance?, hp]

theorem isSome_bind_iff {α β : Type} {x : Option α} {f : α → Option β} :
    (x.bind f).isSome ↔ ∃ a, x = some a ∧ (f a).isSome := by
  cases x <;> simp

theorem exists_getElem?_iff {α : Type} {l : List α} {i : Nat} :
    (∃ a, l[i]? = some a) ↔ i < l.length :=
  ⟨fun ⟨_, h⟩ => (List.getElem?_eq_some_iff.mp h).1, fun h => ⟨l[i], List.getElem?_eq_getElem h⟩⟩

theorem Consistent.hold?_isSome {w : World H} (hw : Consistent first w) (handle : Nat) :
    (w.hold? handle).isSome ↔ handle < w.handles.length := by
  constructor
  · intro h
    obtain ⟨address, ha, -⟩ := isSome_bind_iff.mp h
    obtain ⟨cell, hc, -⟩ := Option.bind_eq_some_iff.mp ha
    exact exists_getElem?_iff.mp ⟨cell, hc⟩
  · exact fun h => isSome_bind_iff.mpr ⟨w.current, hw.read? h, rfl⟩

/-- Exactly the steps that make sense can be taken: no call is stuck before it returns. -/
theorem Consistent.step?_isSome {w : World H} (hw : Consistent first w) (action : Action H) :
    (w.step? action).isSome ↔ w.Possible action := by
  cases action with
  | clone handle | publish handle table =>
    refine isSome_bind_iff.trans ?_
    simp only [Option.isSome_some, and_true]
    exact exists_getElem?_iff
  | load handle | snapshot handle => exact hw.hold?_isSome handle
  | generation handle =>
    constructor
    · intro h
      obtain ⟨address, ha, -⟩ := isSome_bind_iff.mp h
      exact (hw.hold?_isSome handle).mp (isSome_bind_iff.mpr ⟨address, ha, rfl⟩)
    · intro h
      obtain ⟨p, hp, -⟩ := hw.value_current
      exact isSome_bind_iff.mpr ⟨w.current, hw.read? h, isSome_bind_iff.mpr ⟨p, hp, rfl⟩⟩
  | advance i =>
    refine isSome_bind_iff.trans (exists_congr fun c => and_congr_right fun hi => ?_)
    exact hw.advance?_isSome hi

end World

end RouteBook
