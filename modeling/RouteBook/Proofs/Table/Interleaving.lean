import RouteBook.Table.Publication

/-! # Callers at work on one shared table

Any number of callers hold handles to one shared table and take their steps in any order. A
published value is never written to again, so it is told by its address; a handle leads to a cell,
and the cell holds the address of the current value. Publishing is not one step: the current address
is read, the successor of its value is put at a new address, and the cell is set to it if the
address read is still there. Otherwise the call starts over. Generations are natural numbers here; a
counter of 64 bits agrees with them up to its last value. -/

namespace RouteBook

variable {H : Type}

/-! ## The state -/

/-- How far a call that publishes has come, by the addresses it works with. -/
inductive Phase where
  | reading
  | computing (seen : Nat)
  | swapping (seen next : Nat)
  | swapped (previous : Nat)
  | returned (generation : Nat)
  deriving DecidableEq

/-- A call that publishes `table` through a handle to `cell`. -/
structure Call (H : Type) where
  cell : Nat
  table : RouteTable H
  phase : Phase

/-- The generation the call returns, from the moment its swap has succeeded. -/
def Call.answer? (values : List (PublishedTable H)) (c : Call H) : Option Nat :=
  match c.phase with
  | .swapped previous => (values[previous]?).map (·.generation + 1)
  | .returned generation => some generation
  | _ => none

/-- What a reader was given: a snapshot to hold, or a number. -/
inductive Reading where
  | held (address : Nat)
  | told (generation : Nat)
  deriving DecidableEq

def Reading.generation? (values : List (PublishedTable H)) : Reading → Option Nat
  | held address => (values[address]?).map (·.generation)
  | told generation => some generation

/-- A swap that succeeded: whose it was, and the address it put in the cell. -/
structure Swap where
  call : Nat
  installed : Nat
  deriving DecidableEq

/-- Everything there is at one moment. `swaps` and `readings` are in the order of time;
no step looks at them. -/
structure World (H : Type) where
  values : List (PublishedTable H)
  cells : List Nat
  handles : List Nat
  calls : List (Call H)
  readings : List Reading
  swaps : List Swap

namespace World

/-- A new shared table, with one handle to it. -/
def start (first : RouteTable H) : World H :=
  ⟨[(SharedTable.new first).load], [0], [0], [], [], []⟩

/-- The addresses that were current, in the order of time. -/
def installed (w : World H) : List Nat := 0 :: w.swaps.map (·.installed)

/-- The address that the last successful swap put in the cell, or the first one. -/
def current (w : World H) : Nat := (w.swaps.map (·.installed)).getLastD 0

/-- The address in the cell of a handle. -/
def read? (w : World H) (handle : Nat) : Option Nat := do
  let cell ← w.handles[handle]?
  w.cells[cell]?

end World

/-! ## The steps -/

/-- What a caller can do next. Publishing takes one `advance` for each of its steps; `load` and
`snapshot` differ in how the value is held, not in what is held. -/
inductive Action (H : Type) where
  | clone (handle : Nat)
  | load (handle : Nat)
  | snapshot (handle : Nat)
  | generation (handle : Nat)
  | publish (handle : Nat) (table : RouteTable H)
  | advance (call : Nat)

namespace World

def move (w : World H) (i : Nat) (c : Call H) (phase : Phase) : World H :=
  { w with calls := w.calls.set i { c with phase } }

/-- A reader that is given a snapshot. -/
def hold? (w : World H) (handle : Nat) : Option (World H) := do
  let address ← w.read? handle
  some { w with readings := w.readings ++ [.held address] }

/-- The next step of the call `c`, which is the call number `i`. What is returned is worked out from
the value that was replaced; the value put in its place is not read again. -/
def advance? (w : World H) (i : Nat) (c : Call H) : Option (World H) :=
  match c.phase with
  | .reading => do
    let seen ← w.cells[c.cell]?
    some (w.move i c (.computing seen))
  | .computing seen => do
    let value ← w.values[seen]?
    some { w.move i c (.swapping seen w.values.length) with
      values := w.values ++ [value.next c.table] }
  | .swapping seen next =>
    if w.cells[c.cell]? = some seen then
      some { w.move i c (.swapped seen) with
        cells := w.cells.set c.cell next
        swaps := w.swaps ++ [⟨i, next⟩] }
    else
      some (w.move i c .reading)
  | .swapped previous => do
    let value ← w.values[previous]?
    some (w.move i c (.returned (value.generation + 1)))
  | .returned _ => none

/-- One step. There is none through a handle that does not exist, nor of a call that has
returned. -/
def step? (w : World H) : Action H → Option (World H)
  | .clone handle => do
    let cell ← w.handles[handle]?
    some { w with handles := w.handles ++ [cell] }
  | .load handle => w.hold? handle
  | .snapshot handle => w.hold? handle
  | .generation handle => do
    let address ← w.read? handle
    let value ← w.values[address]?
    some { w with readings := w.readings ++ [.told value.generation] }
  | .publish handle table => do
    let cell ← w.handles[handle]?
    some { w with calls := w.calls ++ [⟨cell, table, .reading⟩] }
  | .advance i => do
    let c ← w.calls[i]?
    w.advance? i c

def run? (w : World H) (actions : List (Action H)) : Option (World H) := actions.foldlM step? w

/-! ## What a step does -/

/-- Every way in which a step changes the state, with what it relied on. -/
inductive Step (w : World H) : World H → Prop where
  | cloned (cell : Nat) (hc : cell ∈ w.handles) : Step w { w with handles := w.handles ++ [cell] }
  | held (cell address : Nat) (hc : cell ∈ w.handles) (ha : w.cells[cell]? = some address) :
      Step w { w with readings := w.readings ++ [.held address] }
  | told (cell address : Nat) (value : PublishedTable H) (hc : cell ∈ w.handles)
      (ha : w.cells[cell]? = some address) (hv : w.values[address]? = some value) :
      Step w { w with readings := w.readings ++ [.told value.generation] }
  | begun (cell : Nat) (table : RouteTable H) (hc : cell ∈ w.handles) :
      Step w { w with calls := w.calls ++ [⟨cell, table, .reading⟩] }
  | read (i : Nat) (c : Call H) (seen : Nat) (hi : w.calls[i]? = some c) (hp : c.phase = .reading)
      (hs : w.cells[c.cell]? = some seen) : Step w (w.move i c (.computing seen))
  | computed (i : Nat) (c : Call H) (seen : Nat) (value : PublishedTable H)
    (hi : w.calls[i]? = some c)
      (hp : c.phase = .computing seen) (hv : w.values[seen]? = some value) :
      Step w { w.move i c (.swapping seen w.values.length) with
        values := w.values ++ [value.next c.table] }
  | won (i : Nat) (c : Call H) (seen next : Nat) (hi : w.calls[i]? = some c)
      (hp : c.phase = .swapping seen next) (hs : w.cells[c.cell]? = some seen) :
      Step w { w.move i c (.swapped seen) with
        cells := w.cells.set c.cell next
        swaps := w.swaps ++ [⟨i, next⟩] }
  | lost (i : Nat) (c : Call H) (seen next : Nat) (hi : w.calls[i]? = some c)
      (hp : c.phase = .swapping seen next) : Step w (w.move i c .reading)
  | returned (i : Nat) (c : Call H) (previous : Nat) (value : PublishedTable H)
    (hi : w.calls[i]? = some c)
      (hp : c.phase = .swapped previous) (hv : w.values[previous]? = some value) :
      Step w (w.move i c (.returned (value.generation + 1)))

theorem read?_eq_some {w : World H} {handle address : Nat} (h : w.read? handle = some address) :
    ∃ cell ∈ w.handles, w.cells[cell]? = some address := by
  obtain ⟨cell, hc, ha⟩ := Option.bind_eq_some_iff.mp h
  exact ⟨cell, List.mem_of_getElem? hc, ha⟩

theorem step_of_hold? {w w' : World H} {handle : Nat} (h : w.hold? handle = some w') :
    w.Step w' := by
  obtain ⟨address, hr, hw⟩ := Option.bind_eq_some_iff.mp h
  obtain ⟨cell, hc, ha⟩ := read?_eq_some hr
  cases hw
  exact .held cell address hc ha

theorem step_of_advance? {w w' : World H} {i : Nat} {c : Call H} (hi : w.calls[i]? = some c)
    (h : w.advance? i c = some w') : w.Step w' := by
  unfold advance? at h
  split at h
  · rename_i hp
    obtain ⟨seen, hs, hw⟩ := Option.bind_eq_some_iff.mp h
    cases hw
    exact .read i c seen hi hp hs
  · rename_i seen hp
    obtain ⟨value, hv, hw⟩ := Option.bind_eq_some_iff.mp h
    cases hw
    exact .computed i c seen value hi hp hv
  · rename_i seen next hp
    split at h
    · rename_i hs
      cases h
      exact .won i c seen next hi hp hs
    · cases h
      exact .lost i c seen next hi hp
  · rename_i previous hp
    obtain ⟨value, hv, hw⟩ := Option.bind_eq_some_iff.mp h
    cases hw
    exact .returned i c previous value hi hp hv
  · cases h

theorem step_of_step? {w w' : World H} {action : Action H} (h : w.step? action = some w') :
    w.Step w' := by
  cases action with
  | clone handle =>
    obtain ⟨cell, hc, hw⟩ := Option.bind_eq_some_iff.mp h
    cases hw
    exact .cloned cell (List.mem_of_getElem? hc)
  | load handle => exact step_of_hold? h
  | snapshot handle => exact step_of_hold? h
  | generation handle =>
    obtain ⟨address, hr, hw⟩ := Option.bind_eq_some_iff.mp h
    obtain ⟨value, hv, hw⟩ := Option.bind_eq_some_iff.mp hw
    obtain ⟨cell, hc, ha⟩ := read?_eq_some hr
    cases hw
    exact .told cell address value hc ha hv
  | publish handle table =>
    obtain ⟨cell, hc, hw⟩ := Option.bind_eq_some_iff.mp h
    cases hw
    exact .begun cell table (List.mem_of_getElem? hc)
  | advance i =>
    obtain ⟨c, hi, hw⟩ := Option.bind_eq_some_iff.mp h
    exact step_of_advance? hi hw

/-- What every step keeps, a whole run keeps. -/
theorem run_induction {P : World H → Prop} (step : ∀ {w w'}, P w → w.Step w' → P w')
    {actions : List (Action H)} {w w' : World H} (hw : P w) (h : w.run? actions = some w') :
    P w' := by
  induction actions generalizing w with
  | nil =>
    cases h
    exact hw
  | cons action rest ih =>
    obtain ⟨next, hs, hr⟩ := Option.bind_eq_some_iff.mp h
    exact ih (step hw (step_of_step? hs)) hr

/-! ## What stays -/

/-- `w'` comes after `w`: values stay at their addresses, calls keep their tables and answers, and
what is on record stays there. -/
structure Kept (w w' : World H) : Prop where
  values : w.values <+: w'.values
  swaps : w.swaps <+: w'.swaps
  readings : w.readings <+: w'.readings
  calls : ∀ (i : Nat) (c : Call H), w.calls[i]? = some c → ∃ c' : Call H, w'.calls[i]? = some c' ∧
    c'.table = c.table ∧ ∀ g, c.answer? w.values = some g → c'.answer? w'.values = some g

theorem getElem?_kept {α : Type} {l l' : List α} (h : l <+: l') {i : Nat} {a : α}
    (hi : l[i]? = some a) :
    l'[i]? = some a := by
  obtain ⟨hlt, rfl⟩ := List.getElem?_eq_some_iff.mp hi
  exact List.prefix_iff_getElem?.mp h i hlt

theorem Kept.value {w w' : World H} (k : w.Kept w') {a : Nat} {p : PublishedTable H}
    (h : w.values[a]? = some p) : w'.values[a]? = some p :=
  getElem?_kept k.values h

theorem answer?_kept {values values' : List (PublishedTable H)} (h : values <+: values')
    {c : Call H} {g : Nat} (hg : c.answer? values = some g) : c.answer? values' = some g := by
  unfold Call.answer? at hg ⊢
  split at hg
  · obtain ⟨p, hp, hpg⟩ := Option.map_eq_some_iff.mp hg
    simp only [getElem?_kept h hp, Option.map_some, hpg]
  · exact hg
  · cases hg

theorem generation?_kept {values values' : List (PublishedTable H)} (h : values <+: values')
    {r : Reading} {g : Nat} (hg : r.generation? values = some g) :
    r.generation? values' = some g := by
  cases r with
  | held a =>
    obtain ⟨p, hp, hpg⟩ := Option.map_eq_some_iff.mp hg
    simp only [Reading.generation?, getElem?_kept h hp, Option.map_some, hpg]
  | told n => exact hg

theorem Kept.refl (w : World H) : w.Kept w :=
  ⟨List.prefix_rfl, List.prefix_rfl, List.prefix_rfl, fun _ c hc => ⟨c, hc, rfl, fun _ hg => hg⟩⟩

theorem Kept.trans {u v w : World H} (h : u.Kept v) (k : v.Kept w) : u.Kept w := by
  refine ⟨h.values.trans k.values, h.swaps.trans k.swaps, h.readings.trans k.readings, ?_⟩
  intro i c hc
  obtain ⟨c', hc', ht, ha⟩ := h.calls i c hc
  obtain ⟨c'', hc'', ht', ha'⟩ := k.calls i c' hc'
  exact ⟨c'', hc'', ht'.trans ht, fun g hg => ha' g (ha g hg)⟩

/-- A call at another place is as it was; the one that moves has its new phase. -/
theorem getElem?_move {w : World H} {i : Nat} {c : Call H} (hi : w.calls[i]? = some c)
    (phase : Phase) (j : Nat) :
    (w.move i c phase).calls[j]? = if i = j then some { c with phase } else w.calls[j]? := by
  simp only [move, List.getElem?_set]
  split
  · rename_i hij
    rw [if_pos (hij ▸ (List.getElem?_eq_some_iff.mp hi).1)]
  · rfl

/-- A call that moves keeps its table, and its answer if it has one. -/
theorem kept_calls_move {w : World H} {i : Nat} {c : Call H} (hi : w.calls[i]? = some c)
    {phase : Phase} {values : List (PublishedTable H)} (hv : w.values <+: values)
    (ha : ∀ g, c.answer? w.values = some g → Call.answer? values { c with phase } = some g)
    (j : Nat) (d : Call H) (hj : w.calls[j]? = some d) :
    ∃ d', (w.move i c phase).calls[j]? = some d' ∧ d'.table = d.table ∧
      ∀ g, d.answer? w.values = some g → d'.answer? values = some g := by
  rw [getElem?_move hi]
  by_cases hij : i = j
  · subst hij
    obtain rfl : c = d := Option.some.inj (hi.symm.trans hj)
    exact ⟨_, if_pos rfl, rfl, ha⟩
  · exact ⟨d, by rw [if_neg hij, hj], rfl, fun g => answer?_kept hv⟩

theorem step_kept {w w' : World H} (h : w.Step w') : w.Kept w' := by
  have same := Kept.refl w
  cases h with
  | cloned cell hc => exact ⟨same.values, same.swaps, same.readings, same.calls⟩
  | held cell address hc ha => exact ⟨same.values, same.swaps, List.prefix_append _ _, same.calls⟩
  | told cell address value hc ha hv =>
    exact ⟨same.values, same.swaps, List.prefix_append _ _, same.calls⟩
  | begun cell table hc =>
    refine ⟨same.values, same.swaps, same.readings, fun i c hi => ?_⟩
    exact ⟨c, getElem?_kept (List.prefix_append _ _) hi, rfl, fun _ hg => hg⟩
  | read i c seen hi hp hs =>
    refine ⟨same.values, same.swaps, same.readings, kept_calls_move hi same.values fun g hg => ?_⟩
    simp [Call.answer?, hp] at hg
  | computed i c seen value hi hp hv =>
    refine ⟨List.prefix_append _ _, same.swaps, same.readings,
      kept_calls_move hi (List.prefix_append _ _) fun g hg => ?_⟩
    simp [Call.answer?, hp] at hg
  | won i c seen next hi hp hs =>
    refine ⟨same.values, List.prefix_append _ _, same.readings,
      kept_calls_move hi same.values fun g hg => ?_⟩
    simp [Call.answer?, hp] at hg
  | lost i c seen next hi hp =>
    refine ⟨same.values, same.swaps, same.readings, kept_calls_move hi same.values fun g hg => ?_⟩
    simp [Call.answer?, hp] at hg
  | returned i c previous value hi hp hv =>
    refine ⟨same.values, same.swaps, same.readings, kept_calls_move hi same.values fun g hg => ?_⟩
    simpa [Call.answer?, hp, hv] using hg

theorem run_kept {w w' : World H} {actions : List (Action H)} (h : w.run? actions = some w') :
    w.Kept w' :=
  run_induction (fun k s => k.trans (step_kept s)) (Kept.refl w) h

end World

end RouteBook
