import RouteBook.Proofs.Table.Interleaving

/-! # Publishing is safe in every order of steps

The invariant is about the record of swaps: the value that the `k`-th of them put in place has
generation `k + 2`, the table is that of the call whose swap it was, and this call answers `k + 2`.
It does not ask that the address a call has seen was current all the while. If the cell holds it
when the call swaps, the value there is the current one, so the successor worked out from it is the
right one. To a single caller at a time all this is `SharedTable`: its current value changes only
when a swap succeeds, and then as `SharedTable.publish` changes it. -/

namespace RouteBook

variable {H : Type} {first : RouteTable H}

/-! ## The invariant -/

/-- What is known of the call number `i` by its phase. -/
def Call.Sound (w : World H) (i : Nat) (c : Call H) : Prop :=
  match c.phase with
  | .reading => True
  | .computing seen => seen ∈ w.installed
  | .swapping seen next =>
    seen ∈ w.installed ∧ ∃ p, w.values[seen]? = some p ∧ w.values[next]? = some (p.next c.table)
  | .swapped _ | .returned _ =>
    ∃ k s, w.swaps[k]? = some s ∧ s.call = i ∧ c.answer? w.values = some (k + 2)

namespace World

structure Consistent (first : RouteTable H) (w : World H) : Prop where
  handles : ∀ cell ∈ w.handles, cell = 0
  cells : w.cells = [w.current]
  start : w.values[0]? = some ⟨1, first⟩
  swaps : ∀ (k : Nat) (s : Swap), w.swaps[k]? = some s → ∃ c : Call H, w.calls[s.call]? = some c ∧
    c.answer? w.values = some (k + 2) ∧ w.values[s.installed]? = some ⟨k + 2, c.table⟩
  calls : ∀ (i : Nat) (c : Call H), w.calls[i]? = some c → c.cell = 0 ∧ c.Sound w i
  held : ∀ a, .held a ∈ w.readings → a ∈ w.installed
  generations : ∃ gs : List Nat, w.readings.map (·.generation? w.values) = gs.map some ∧
    gs.Pairwise (· ≤ ·) ∧ ∀ g ∈ gs, g ≤ 1 + w.swaps.length

theorem start_consistent (first : RouteTable H) : Consistent first (start first) where
  handles := by simp [start]
  cells := rfl
  start := rfl
  swaps := by simp [start]
  calls := by simp [start]
  held := by simp [start]
  generations := ⟨[], rfl, .nil, by simp⟩

theorem installed_last (w : World H) : w.installed[w.swaps.length]? = some w.current := by
  have hlast : w.installed.getLast? = some w.current := by
    rw [installed, List.getLast?_cons, current, List.getLastD_eq_getLast?]
  rw [List.getLast?_eq_getElem?] at hlast
  simpa [installed] using hlast

/-- The addresses that were current have the generations from 1 on, in their order. -/
theorem Consistent.value_installed {w : World H} (hw : Consistent first w) {k a : Nat}
    (h : w.installed[k]? = some a) : ∃ p, w.values[a]? = some p ∧ p.generation = k + 1 := by
  cases k with
  | zero =>
    obtain rfl : 0 = a := by simpa [installed] using h
    exact ⟨_, hw.start, rfl⟩
  | succ k =>
    obtain ⟨s, hs, rfl⟩ : ∃ s, w.swaps[k]? = some s ∧ s.installed = a := by
      simpa [installed] using h
    obtain ⟨c, -, -, hv⟩ := hw.swaps k s hs
    exact ⟨_, hv, rfl⟩

theorem Consistent.value_current {w : World H} (hw : Consistent first w) :
    ∃ p, w.values[w.current]? = some p ∧ p.generation = 1 + w.swaps.length := by
  obtain ⟨p, hp, hg⟩ := hw.value_installed w.installed_last
  exact ⟨p, hp, by omega⟩

theorem current_mem (w : World H) : w.current ∈ w.installed := List.mem_of_getElem? w.installed_last

/-- All handles lead to the one cell. -/
theorem Consistent.eq_current {w : World H} (hw : Consistent first w) {cell address : Nat}
    (hc : cell = 0) (h : w.cells[cell]? = some address) : address = w.current := by
  rw [hc, hw.cells] at h
  simpa using h.symm

/-! ## What a step preserves -/

theorem Kept.installed {w w' : World H} (k : w.Kept w') : w.installed <+: w'.installed :=
  (List.prefix_cons_inj 0).mpr (k.swaps.map _)

theorem Kept.sound {w w' : World H} (k : w.Kept w') {i : Nat} {c : Call H} (h : c.Sound w i) :
    c.Sound w' i := by
  unfold Call.Sound at h ⊢
  split at h
  · trivial
  · exact k.installed.subset h
  · obtain ⟨hs, p, hp, hn⟩ := h
    exact ⟨k.installed.subset hs, p, k.value hp, k.value hn⟩
  all_goals
    obtain ⟨n, s, hs, hi, ha⟩ := h
    exact ⟨n, s, getElem?_kept k.swaps hs, hi, answer?_kept k.values ha⟩

theorem Kept.swap {w w' : World H} (k : w.Kept w') {n : Nat} {s : Swap}
    (h : ∃ c : Call H, w.calls[s.call]? = some c ∧ c.answer? w.values = some n ∧
      w.values[s.installed]? = some ⟨n, c.table⟩) :
    ∃ c : Call H, w'.calls[s.call]? = some c ∧ c.answer? w'.values = some n ∧
      w'.values[s.installed]? = some ⟨n, c.table⟩ := by
  obtain ⟨c, hc, ha, hv⟩ := h
  obtain ⟨c', hc', ht, ha'⟩ := k.calls s.call c hc
  exact ⟨c', hc', ha' n ha, ht ▸ k.value hv⟩

/-- What was read keeps its generation. -/
theorem Kept.generations {w w' : World H} (k : w.Kept w') {gs : List Nat}
    (h : w.readings.map (·.generation? w.values) = gs.map some) :
    w.readings.map (·.generation? w'.values) = gs.map some := by
  rw [← h]
  refine List.map_congr_left fun r hr => ?_
  have hm : r.generation? w.values ∈ gs.map some := h ▸ List.mem_map_of_mem hr
  obtain ⟨g, -, hg⟩ := List.mem_map.mp hm
  rw [← hg, generation?_kept k.values hg.symm]

theorem getElem?_concat {α : Type} {l : List α} {a b : α} {i : Nat} (h : (l ++ [a])[i]? = some b) :
    l[i]? = some b ∨ i = l.length ∧ b = a := by
  rcases Nat.lt_trichotomy i l.length with hi | hi | hi
  · exact .inl (by rwa [List.getElem?_append_left hi] at h)
  · refine .inr ⟨hi, ?_⟩
    simpa [hi] using h.symm
  · rw [List.getElem?_eq_none (by simp; omega)] at h
    cases h

/-- A step that neither swaps nor reads: what is left to show is about the calls that it changes. -/
theorem Consistent.kept {w w' : World H} (hw : Consistent first w) (k : w.Kept w')
    (hh : ∀ cell ∈ w'.handles, cell ∈ w.handles) (hc : w'.cells = w.cells) (hs : w'.swaps = w.swaps)
    (hr : w'.readings = w.readings)
    (calls : ∀ (i : Nat) (c : Call H), w'.calls[i]? = some c →
      w.calls[i]? = some c ∨ c.cell = 0 ∧ c.Sound w' i) : Consistent first w' := by
  have installed : w'.installed = w.installed := by rw [World.installed, hs, World.installed]
  refine ⟨fun cell h => hw.handles cell (hh cell h), ?_, k.value hw.start, ?_, ?_, ?_, ?_⟩
  · simp only [hc, hw.cells, current, hs]
  · intro n s h
    exact k.swap (hw.swaps n s (hs ▸ h))
  · intro i c h
    rcases calls i c h with old | new
    · exact ⟨(hw.calls i c old).1, k.sound (hw.calls i c old).2⟩
    · exact new
  · intro a h
    rw [installed]
    exact hw.held a (hr ▸ h)
  · obtain ⟨gs, hg, hsorted, hle⟩ := hw.generations
    exact ⟨gs, by rw [hr, k.generations hg], hsorted, by rwa [hs]⟩

/-- The same for a call that moves to another phase. -/
theorem Consistent.moved {w w' : World H} (hw : Consistent first w) (k : w.Kept w') {i : Nat}
    {c : Call H} (hi : w.calls[i]? = some c) {phase : Phase}
    (hm : w'.calls = (w.move i c phase).calls) (hh : w'.handles = w.handles)
    (hc : w'.cells = w.cells) (hs : w'.swaps = w.swaps) (hr : w'.readings = w.readings)
    (sound : Call.Sound w' i { c with phase }) : Consistent first w' := by
  refine hw.kept k (fun cell h => hh ▸ h) hc hs hr fun j d hj => ?_
  rw [hm, getElem?_move hi] at hj
  split at hj
  · rename_i hij
    cases hj
    exact .inr ⟨(hw.calls i c hi).1, hij ▸ sound⟩
  · exact .inl hj

/-- What a reader is given has the generation that is current. -/
theorem Consistent.reads {w : World H} (hw : Consistent first w) {r : Reading}
    (hg : r.generation? w.values = some (1 + w.swaps.length))
    (held : ∀ a, r = .held a → a ∈ w.installed) :
    Consistent first { w with readings := w.readings ++ [r] } := by
  refine { hw with held := ?_, generations := ?_ }
  · intro a h
    rcases List.mem_append.mp h with h | h
    · exact hw.held a h
    · exact held a (List.mem_singleton.mp h).symm
  · obtain ⟨gs, hgs, hsorted, hle⟩ := hw.generations
    refine ⟨gs ++ [1 + w.swaps.length], ?_, ?_, ?_⟩
    · simp only [List.map_append, hgs, List.map_cons, List.map_nil, hg]
    · exact List.pairwise_append.mpr ⟨hsorted, List.pairwise_singleton _ _, by simpa using hle⟩
    · intro g h
      rcases List.mem_append.mp h with h | h
      · exact hle g h
      · exact Nat.le_of_eq (List.mem_singleton.mp h)

/-- The value seen is the current one, so its successor gets the next generation, and the call that
computed it answers with this generation. -/
theorem Consistent.successor {w : World H} (hw : Consistent first w) {i : Nat} {c : Call H}
    {seen next : Nat} (hi : w.calls[i]? = some c) (hp : c.phase = .swapping seen next)
    (hs : w.cells[c.cell]? = some seen) :
    w.values[next]? = some ⟨w.swaps.length + 2, c.table⟩ ∧
      Call.answer? w.values { c with phase := .swapped seen } = some (w.swaps.length + 2) := by
  obtain ⟨hcell, hsound⟩ := hw.calls i c hi
  obtain rfl := hw.eq_current hcell hs
  obtain ⟨q, hq, hg⟩ := hw.value_current
  obtain ⟨p, hv, hn⟩ : ∃ p, w.values[w.current]? = some p ∧
      w.values[next]? = some (p.next c.table) := by
    simp only [Call.Sound, hp] at hsound
    exact hsound.2
  obtain rfl : q = p := Option.some.inj (hq.symm.trans hv)
  have hnext : q.generation + 1 = w.swaps.length + 2 := by omega
  exact ⟨by rw [hn, PublishedTable.next, hnext],
    by simp only [Call.answer?, hv, Option.map_some, hnext]⟩

theorem Consistent.won {w : World H} (hw : Consistent first w) {i : Nat} {c : Call H}
    {seen next : Nat} (hi : w.calls[i]? = some c) (hp : c.phase = .swapping seen next)
    (hs : w.cells[c.cell]? = some seen) :
    Consistent first { w.move i c (.swapped seen) with
      cells := w.cells.set c.cell next
      swaps := w.swaps ++ [⟨i, next⟩] } := by
  have k := step_kept (.won i c seen next hi hp hs)
  have hmove := getElem?_move hi (.swapped seen)
  obtain ⟨hvalue, hanswer⟩ := hw.successor hi hp hs
  have hcell := (hw.calls i c hi).1
  refine ⟨hw.handles, ?_, hw.start, ?_, ?_, ?_, ?_⟩
  · simp [hw.cells, hcell, current]
  · intro n s hn
    rcases getElem?_concat hn with old | ⟨rfl, rfl⟩
    · exact k.swap (hw.swaps n s old)
    · exact ⟨{ c with phase := .swapped seen }, (hmove i).trans (if_pos rfl), hanswer, hvalue⟩
  · intro j d hj
    have hj' := (hmove j).symm.trans hj
    split at hj'
    · rename_i hij
      cases hj'
      exact ⟨hcell, w.swaps.length, ⟨i, next⟩, List.getElem?_concat_length, hij, hanswer⟩
    · exact ⟨(hw.calls j d hj').1, k.sound (hw.calls j d hj').2⟩
  · exact fun a ha => k.installed.subset (hw.held a ha)
  · obtain ⟨gs, hgs, hsorted, hle⟩ := hw.generations
    refine ⟨gs, hgs, hsorted, fun g hg => ?_⟩
    have := hle g hg
    simp only [List.length_append, List.length_singleton]
    omega

theorem step_consistent {w w' : World H} (hw : Consistent first w) (h : w.Step w') :
    Consistent first w' := by
  have k := step_kept h
  cases h with
  | cloned cell hc =>
    refine hw.kept k (fun d hd => ?_) rfl rfl rfl fun _ _ hi => .inl hi
    rcases List.mem_append.mp hd with hd | hd
    · exact hd
    · exact List.mem_singleton.mp hd ▸ hc
  | held cell address hc ha =>
    obtain rfl := hw.eq_current (hw.handles cell hc) ha
    obtain ⟨p, hp, hg⟩ := hw.value_current
    refine hw.reads (by simp only [Reading.generation?, hp, Option.map_some, hg]) fun a e => ?_
    cases e
    exact w.current_mem
  | told cell address value hc ha hv =>
    obtain rfl := hw.eq_current (hw.handles cell hc) ha
    obtain ⟨p, hp, hg⟩ := hw.value_current
    obtain rfl : value = p := Option.some.inj (hv.symm.trans hp)
    refine hw.reads (by simp only [Reading.generation?, hg]) fun a e => ?_
    cases e
  | begun cell table hc =>
    refine hw.kept k (fun _ hd => hd) rfl rfl rfl fun i c hi => ?_
    rcases getElem?_concat hi with old | ⟨-, rfl⟩
    · exact .inl old
    · exact .inr ⟨hw.handles cell hc, trivial⟩
  | read i c seen hi hp hs =>
    refine hw.moved k hi rfl rfl rfl rfl rfl ?_
    obtain rfl := hw.eq_current (hw.calls i c hi).1 hs
    exact w.current_mem
  | computed i c seen value hi hp hv =>
    refine hw.moved k hi rfl rfl rfl rfl rfl ⟨?_, value, k.value hv, List.getElem?_concat_length⟩
    have hsound := (hw.calls i c hi).2
    simp only [Call.Sound, hp] at hsound
    exact hsound
  | won i c seen next hi hp hs => exact hw.won hi hp hs
  | lost i c seen next hi hp => exact hw.moved k hi rfl rfl rfl rfl rfl trivial
  | returned i c previous value hi hp hv =>
    refine hw.moved k hi rfl rfl rfl rfl rfl ?_
    have hsound := (hw.calls i c hi).2
    simp only [Call.Sound, Call.answer?, hp, hv] at hsound
    exact hsound

theorem run_consistent {actions : List (Action H)} {w : World H}
    (h : (World.start first).run? actions = some w) :
    Consistent first w :=
  run_induction step_consistent (start_consistent first) h

/-! ## The table that is replaced at once -/

/-- The shared table that the handles lead to. -/
def shared? (w : World H) : Option (SharedTable H) := (w.values[w.current]?).map SharedTable.mk

theorem Consistent.shared? {w : World H} (hw : Consistent first w) :
    ∃ p, w.values[w.current]? = some p ∧ w.shared? = some ⟨p⟩ ∧
      p.generation = 1 + w.swaps.length := by
  obtain ⟨p, hp, hg⟩ := hw.value_current
  exact ⟨p, hp, by rw [World.shared?, hp, Option.map_some], hg⟩

theorem Kept.shared? {w w' : World H} (k : w.Kept w') (hw : Consistent first w)
    (h : w'.swaps = w.swaps) :
    w'.shared? = w.shared? := by
  obtain ⟨p, hp, hs, -⟩ := hw.shared?
  rw [hs, World.shared?, current, h, ← current, k.value hp, Option.map_some]

/-- The shared table is left alone, or it is replaced by a whole `publish` of some call, and the
call answers with the generation that this gives. -/
def Publishes (w w' : World H) : Prop :=
  w'.shared? = w.shared? ∨ ∃ (s : SharedTable H) (i : Nat) (c : Call H), w.shared? = some s ∧
    w'.calls[i]? = some c ∧ c.answer? w'.values = some (s.publish c.table).1 ∧
    w'.shared? = some (s.publish c.table).2

theorem step_publishes {w w' : World H} (hw : Consistent first w) (h : w.Step w') :
    w.Publishes w' := by
  have k := step_kept h
  cases h with
  | won i c seen next hi hp hs =>
    obtain ⟨q, -, hshared, hg⟩ := hw.shared?
    obtain ⟨hvalue, hanswer⟩ := hw.successor hi hp hs
    have hnext : q.generation + 1 = w.swaps.length + 2 := by omega
    refine .inr ⟨⟨q⟩, i, { c with phase := .swapped seen }, hshared, ?_, ?_, ?_⟩
    · exact (getElem?_move hi _ i).trans (if_pos rfl)
    · simp only [SharedTable.publish, PublishedTable.next, hnext]
      exact hanswer
    · have hcurrent : World.current { w.move i c (.swapped seen) with
          cells := w.cells.set c.cell next
          swaps := w.swaps ++ [⟨i, next⟩] } = next := by simp [current]
      simp only [SharedTable.publish, PublishedTable.next, hnext, World.shared?, hcurrent]
      exact congrArg (Option.map SharedTable.mk) hvalue
  | _ => exact .inl (k.shared? hw rfl)

/-! ## What callers can rely on -/

/-- A call that has an answer made a swap, and its place among the swaps gives the answer. -/
theorem Consistent.swap_of_answer {w : World H} (hw : Consistent first w) {i g : Nat} {c : Call H}
    (hi : w.calls[i]? = some c) (ha : c.answer? w.values = some g) :
    ∃ k s, w.swaps[k]? = some s ∧ s.call = i ∧ g = k + 2 := by
  have hsound := (hw.calls i c hi).2
  unfold Call.Sound at hsound
  split at hsound
  case h_4 | h_5 =>
    obtain ⟨k, s, hs, hc, hk⟩ := hsound
    exact ⟨k, s, hs, hc, Option.some.inj (ha.symm.trans hk)⟩
  all_goals
    rename_i hp
    simp [Call.answer?, hp] at ha

/-- The first table has generation 1, any other one is that of a call which
answers with its generation. -/
def Rightful (first : RouteTable H) (w : World H) (p : PublishedTable H) : Prop :=
  (p.generation = 1 → p.table = first) ∧ (p.generation ≠ 1 → ∃ (i : Nat) (c : Call H),
    w.calls[i]? = some c ∧ c.answer? w.values = some p.generation ∧ c.table = p.table)

theorem Consistent.rightful {w : World H} (hw : Consistent first w) {a : Nat}
    (ha : a ∈ w.installed) :
    ∃ p, w.values[a]? = some p ∧ w.Rightful first p := by
  rcases List.mem_cons.mp ha with rfl | ha
  · exact ⟨_, hw.start, fun _ => rfl, fun h => absurd rfl h⟩
  · obtain ⟨s, hs, rfl⟩ := List.mem_map.mp ha
    obtain ⟨k, hk⟩ := List.getElem?_of_mem hs
    obtain ⟨c, hc, hanswer, hv⟩ := hw.swaps k s hk
    exact ⟨_, hv, fun h => by simp at h, fun _ => ⟨s.call, c, hc, hanswer, rfl⟩⟩

/-- What holds at every moment, told by what handles lead to, calls return and readers hold. -/
structure Safe (first : RouteTable H) (w : World H) : Prop where
  /-- The current generation counts the swaps. -/
  generation : ∃ p, w.values[w.current]? = some p ∧ p.generation = 1 + w.swaps.length ∧
    w.Rightful first p
  /-- The calls with an answer are those whose swap succeeded. -/
  answered : ∀ (i : Nat) (c : Call H), w.calls[i]? = some c →
    ((c.answer? w.values).isSome ↔ ∃ s ∈ w.swaps, s.call = i)
  distinct : ∀ (i j g : Nat) (c d : Call H), w.calls[i]? = some c → w.calls[j]? = some d →
    c.answer? w.values = some g → d.answer? w.values = some g → i = j
  range : ∀ g, (∃ (i : Nat) (c : Call H), w.calls[i]? = some c ∧ c.answer? w.values = some g) ↔
    2 ≤ g ∧ g ≤ 1 + w.swaps.length
  /-- A call answers with the generation that its swap put in place. -/
  installed : ∀ s ∈ w.swaps, ∃ (c : Call H) (p : PublishedTable H), w.calls[s.call]? = some c ∧
    w.values[s.installed]? = some p ∧ c.answer? w.values = some p.generation ∧ c.table = p.table
  held : ∀ a, .held a ∈ w.readings → ∃ p, w.values[a]? = some p ∧ w.Rightful first p
  /-- All handles read the one value that the last successful swap put in place. -/
  handles : ∀ handle < w.handles.length, w.read? handle = some w.current
  /-- The generations that were read never go down, whoever read them. -/
  monotone : ∃ gs : List Nat, w.readings.map (·.generation? w.values) = gs.map some ∧
    gs.Pairwise (· ≤ ·) ∧ ∀ g ∈ gs, g ≤ 1 + w.swaps.length

theorem Consistent.read? {w : World H} (hw : Consistent first w) {handle : Nat}
    (h : handle < w.handles.length) :
    w.read? handle = some w.current := by
  have hcell := hw.handles _ (List.getElem_mem h)
  simp [World.read?, List.getElem?_eq_getElem h, hcell, hw.cells]

theorem Consistent.safe {w : World H} (hw : Consistent first w) : w.Safe first where
  generation := by
    obtain ⟨p, hp, hr⟩ := hw.rightful w.current_mem
    obtain ⟨q, hq, hg⟩ := hw.value_current
    obtain rfl : p = q := Option.some.inj (hp.symm.trans hq)
    exact ⟨p, hp, hg, hr⟩
  answered := by
    intro i c hi
    constructor
    · intro h
      obtain ⟨g, hg⟩ := Option.isSome_iff_exists.mp h
      obtain ⟨k, s, hs, hc, -⟩ := hw.swap_of_answer hi hg
      exact ⟨s, List.mem_of_getElem? hs, hc⟩
    · rintro ⟨s, hs, rfl⟩
      obtain ⟨k, hk⟩ := List.getElem?_of_mem hs
      obtain ⟨d, hd, ha, -⟩ := hw.swaps k s hk
      obtain rfl : c = d := Option.some.inj (hi.symm.trans hd)
      exact Option.isSome_of_eq_some ha
  distinct := by
    intro i j g c d hi hj hc hd
    obtain ⟨k, s, hs, rfl, hk⟩ := hw.swap_of_answer hi hc
    obtain ⟨n, t, ht, rfl, hn⟩ := hw.swap_of_answer hj hd
    obtain rfl : k = n := by omega
    rw [Option.some.inj (hs.symm.trans ht)]
  range := by
    intro g
    constructor
    · rintro ⟨i, c, hi, hg⟩
      obtain ⟨k, s, hs, -, rfl⟩ := hw.swap_of_answer hi hg
      have hk := (List.getElem?_eq_some_iff.mp hs).1
      omega
    · rintro ⟨hlow, hhigh⟩
      have hk : g - 2 < w.swaps.length := by omega
      obtain ⟨c, hc, ha, -⟩ := hw.swaps (g - 2) _ (List.getElem?_eq_getElem hk)
      exact ⟨_, c, hc, by rw [ha, Nat.sub_add_cancel hlow]⟩
  installed := by
    intro s hs
    obtain ⟨k, hk⟩ := List.getElem?_of_mem hs
    obtain ⟨c, hc, ha, hv⟩ := hw.swaps k s hk
    exact ⟨c, _, hc, hv, ha, rfl⟩
  held := fun a ha => hw.rightful (hw.held a ha)
  handles := fun _ h => hw.read? h
  monotone := hw.generations

/-- Whatever the order of steps, publishing is safe, what was published stays as it was, and every
step is one that a single caller could have seen: nothing, or a whole `publish`. -/
theorem safe_and_kept {actions : List (Action H)} {w : World H}
    (h : (start first).run? actions = some w) :
    w.Safe first ∧
      (∀ more later, w.run? more = some later → w.Kept later ∧ later.Safe first) ∧
      ∀ action next, w.step? action = some next → w.Publishes next := by
  have hw := run_consistent h
  refine ⟨hw.safe, fun more later hr => ?_, fun action next hs => ?_⟩
  · exact ⟨run_kept hr, (run_induction step_consistent hw hr).safe⟩
  · exact step_publishes hw (step_of_step? hs)

/-- Two calls see the first table. The second of them swaps before the other, which starts over and
returns the higher generation; a snapshot taken before is held all the while. -/
theorem safe_and_kept_lost_race :
    let get : Method := ⟨"GET", by decide⟩
    let table (handler : Nat) : RouteTable Nat :=
      ⟨[⟨⟨get, [.literal "v1"], [], none⟩, handler⟩], RouteTable.defaultSlowMatch⟩
    let before : List (Action Nat) :=
      [.clone 0, .publish 0 (table 1), .publish 1 (table 2), .advance 0, .advance 1, .advance 0,
        .advance 1, .load 0]
    let after : List (Action Nat) :=
      [.advance 1, .snapshot 0, .advance 0, .advance 0, .advance 0, .advance 0, .generation 1,
        .advance 0, .advance 1]
    ∃ w next later, (start (table 0)).run? before = some w ∧ w.step? (.advance 1) = some next ∧
      w.run? after = some later ∧ w.shared?.map (·.generation) = some 1 ∧
      next.shared?.map (·.generation) = some 2 ∧
      later.calls.map (·.phase) = [.returned 3, .returned 2] ∧
      later.readings.map (·.generation? later.values) = [some 1, some 2, some 3] ∧
      w.Safe (table 0) ∧ w.Kept later ∧ later.Safe (table 0) ∧ w.Publishes next := by
  intro get table before after
  obtain ⟨w, hw⟩ : ∃ w, (start (table 0)).run? before = some w := ⟨_, rfl⟩
  obtain ⟨hsafe, hkept, hpublishes⟩ := safe_and_kept hw
  cases hw
  obtain ⟨hlater, hsafe'⟩ := hkept after _ rfl
  exact ⟨_, _, _, rfl, rfl, rfl, rfl, rfl, rfl, rfl, hsafe, hlater, hsafe',
    hpublishes (.advance 1) _ rfl⟩

end World

end RouteBook
