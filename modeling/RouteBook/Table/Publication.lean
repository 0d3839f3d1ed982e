import RouteBook.Table.Basic

/-! A table that is replaced while it is in use. Every handle sees the table published last; a table
once loaded never changes, because publishing puts a new value in its place. -/

namespace RouteBook

/-- A table and how many were published up to it, itself included. -/
structure PublishedTable (H : Type) where
  generation : Nat
  table : RouteTable H

/-- What follows a published table when another is published. -/
def PublishedTable.next {H : Type} (p : PublishedTable H) (table : RouteTable H) :
    PublishedTable H :=
  ⟨p.generation + 1, table⟩

/-- What all handles share. -/
structure SharedTable (H : Type) where
  current : PublishedTable H

namespace SharedTable

variable {H : Type}

def new (table : RouteTable H) : SharedTable H := ⟨⟨1, table⟩⟩

def load (s : SharedTable H) : PublishedTable H := s.current

def generation (s : SharedTable H) : Nat := s.current.generation

/-- The generation of the new table, and the state after it is published. -/
def publish (s : SharedTable H) (table : RouteTable H) : Nat × SharedTable H :=
  let next := s.current.next table
  (next.generation, ⟨next⟩)

end SharedTable

end RouteBook
