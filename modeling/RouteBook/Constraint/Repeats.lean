/-! Which positions of a collection hold an item that occurs more than once. One pass notes, for
each distinct item, its latest position; a position is reported when a later equal item displaces
it, and the last position of every repeated item is reported at the end, in ascending order whatever
the order of the notes. -/

namespace RouteBook.Constraint

/-- The latest position of an item, and whether the item stood at an earlier one too. -/
structure Sighting (α : Type) where
  item : α
  latest : Nat
  repeated : Bool

variable {α : Type} [DecidableEq α]

/-- The notes with an item seen at a position, and the position it displaces. -/
def sight (item : α) (position : Nat) : List (Sighting α) → Option Nat × List (Sighting α)
  | [] => (none, [⟨item, position, false⟩])
  | s :: rest =>
    if s.item = item then (some s.latest, ⟨item, position, true⟩ :: rest)
    else
      let (displaced, rest) := sight item position rest
      (displaced, s :: rest)

/-- The displaced positions of the items from `position` on, and the notes at the end. -/
def displacedFrom (position : Nat) (notes : List (Sighting α)) :
    List α → List Nat × List (Sighting α)
  | [] => ([], notes)
  | item :: items =>
    let (displaced, notes) := sight item position notes
    let (later, notes) := displacedFrom (position + 1) notes items
    (displaced.toList ++ later, notes)

/-- The last positions of the repeated items, in ascending order. -/
def lastRepeats {α : Type} (notes : List (Sighting α)) : List Nat :=
  ((notes.filter (·.repeated)).map (·.latest)).mergeSort (· ≤ ·)

/-- The positions of all items that occur more than once. -/
def duplicateIndices (items : List α) : List Nat :=
  let (displaced, notes) := displacedFrom 0 [] items
  displaced ++ lastRepeats notes

end RouteBook.Constraint
