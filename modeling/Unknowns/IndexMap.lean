import Unknowns.Error
import Unknowns.Ascending

/-!
# Index maps

An `IndexMap` lists the global ids that are present on one rank, in local
order, with the size of the global range.  No id occurs twice and all lie in
the range, so local and global ids determine each other.
-/

namespace Unknowns

/-- The global ids present on a rank, in local order. -/
structure IndexMap where
  gids : List UInt64
  /-- Number of global ids over all ranks. -/
  numGlobal : UInt64
  /-- No id occurs twice. -/
  nodup : gids.Nodup
  /-- All ids lie in the global range. -/
  inRange : ∀ g ∈ gids, g < numGlobal
deriving DecidableEq

namespace IndexMap

/-- The map with the given ids, if they are distinct and in range.  Repeated ids are reported
before ids out of range, and of these the first in local order. -/
def ofGids (gids : List UInt64) (numGlobal : UInt64) : Except Error IndexMap :=
  if hn : gids.Nodup then
    if hr : gids.all (· < numGlobal) then .ok ⟨gids, numGlobal, hn, by simpa using hr⟩
    else
      .error (.invalidIndexMap
        (.outOfRange ((gids.find? fun g => ¬ g < numGlobal).getD 0) numGlobal))
  else .error (.invalidIndexMap (.duplicates gids.length (ascending gids).length))

/-- Number of local entries. -/
def size (m : IndexMap) : Nat := m.gids.length

/-- Whether there is no local entry. -/
def isEmpty (m : IndexMap) : Bool := m.gids.isEmpty

/-- The global id of a local entry. -/
def gid? (m : IndexMap) (lid : Nat) : Option UInt64 := m.gids[lid]?

/-- The local entry of a global id. -/
def lid? (m : IndexMap) (gid : UInt64) : Option Nat := m.gids.idxOf? gid

/-- Whether a global id is present. -/
def contains (m : IndexMap) (gid : UInt64) : Bool := (m.lid? gid).isSome

/-- Checks once more what the map promises. -/
def validate (m : IndexMap) : Except Error Unit := (ofGids m.gids m.numGlobal).map fun _ => ()

/-- A map is made again from its ids and its range. -/
theorem ofGids_self (m : IndexMap) : ofGids m.gids m.numGlobal = .ok m := by
  unfold ofGids
  rw [dif_pos m.nodup, dif_pos (by simpa using m.inRange)]

end IndexMap

end Unknowns
