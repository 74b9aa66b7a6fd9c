/-!
# Locals

The table that name resolution fills: for the number of each reference that is bound in a local
scope, how many scopes lie between the reference and that scope.  A reference without an entry
is global.
-/

namespace Lox

/-- Distances by the number of the reference. -/
structure Locals where
  table : Array (Option Nat)
deriving DecidableEq, Repr

namespace Locals

/-- The table without entries. -/
def empty : Locals :=
  ⟨#[]⟩

/-- The distance filed for a reference. -/
def get? (l : Locals) (id : Nat) : Option Nat :=
  (l.table[id]?).join

/-- Files a distance for a reference; a later one replaces an earlier one. -/
def insert (l : Locals) (id distance : Nat) : Locals :=
  let room := l.table ++ Array.replicate (id + 1 - l.table.size) none
  ⟨room.setIfInBounds id (some distance)⟩

/-- The entries in ascending order of the references, the first of which has the given number. -/
def pairsFrom (id : Nat) : List (Option Nat) → List (Nat × Nat)
  | [] => []
  | none :: rest => pairsFrom (id + 1) rest
  | some distance :: rest => (id, distance) :: pairsFrom (id + 1) rest

/-- The entries in ascending order of the references. -/
def pairs (l : Locals) : List (Nat × Nat) :=
  pairsFrom 0 l.table.toList

/-- The number of entries. -/
def size (l : Locals) : Nat :=
  l.pairs.length

/-- Whether the table has no entries. -/
def isEmpty (l : Locals) : Bool :=
  l.pairs.isEmpty

/-- The table of the given entries. -/
def ofPairs (entries : List (Nat × Nat)) : Locals :=
  entries.foldl (fun l entry => l.insert entry.1 entry.2) empty

end Locals

end Lox
