import Unknowns.Table

/-!
# Overlap between ranks

A *ghost* is a global id that a rank refers to and another rank owns.  An
`OverlapImport` groups the ghosts of a rank by their owners; an `OverlapExport`
holds the same groups, which are the ids that go back to the owners, together
with the owned ids that each other rank holds as ghosts.
-/

namespace Unknowns

/-- A global id that another rank owns. -/
structure Ghost where
  gid : UInt64
  owner : Nat
deriving DecidableEq

namespace Ghost

/-- By id, then by owner. -/
instance : Ord Ghost := ⟨compareLex (compareOn gid) (compareOn owner)⟩

instance : Std.TransOrd Ghost :=
  inferInstanceAs (Std.TransCmp (compareLex (compareOn gid) (compareOn owner)))

instance : Std.LawfulEqOrd Ghost where
  eq_of_compare {a b} h := by
    have h' : (compareLex (compareOn gid) (compareOn owner)) a b = .eq := h
    rw [compareLex_eq_eq] at h'
    have h₁ : a.gid = b.gid := Std.LawfulEqOrd.eq_of_compare h'.1
    have h₂ : a.owner = b.owner := Std.LawfulEqOrd.eq_of_compare h'.2
    cases a; cases b; simp_all

/-- The ids of each owner, ascending. -/
def byOwner (ghosts : List Ghost) : Table Nat (List UInt64) :=
  (Table.groupBy owner ghosts).map fun _ gs => ascending (gs.map gid)

end Ghost

/-- Global ids listed by rank. -/
abbrev RankLists := Table Nat (List UInt64)

namespace RankLists

/-- The ids listed for a rank. -/
def ofRank (t : RankLists) (rank : Nat) : List UInt64 := (t.get? rank).getD []

/-- Number of listed ids. -/
def total (t : RankLists) : Nat := t.values.flatten.length

end RankLists

/-- The ghosts of a rank, by owner. -/
structure OverlapImport where
  byOwner : RankLists
deriving DecidableEq

namespace OverlapImport

/-- Groups ghosts by owner, each group ascending and without repetitions. -/
def ofGhosts (ghosts : List Ghost) : OverlapImport := ⟨Ghost.byOwner ghosts⟩

/-- The ghosts that `rank` owns. -/
def fromRank (o : OverlapImport) (rank : Nat) : List UInt64 := o.byOwner.ofRank rank

/-- Number of imported ids. -/
def size (o : OverlapImport) : Nat := o.byOwner.total

/-- Whether nothing is imported. -/
def isEmpty (o : OverlapImport) : Bool := o.byOwner.isEmpty

end OverlapImport

/-- Both directions of the overlap of a rank. -/
structure OverlapExport where
  /-- The ghosts held here, by owner. -/
  toOwner : RankLists
  /-- The owned ids that other ranks hold as ghosts, by that rank. -/
  heldBy : RankLists
deriving DecidableEq

namespace OverlapExport

/-- Both directions from the ghosts held here and the lists of ids that other ranks hold.  Lists
of one rank are merged, and ranks that hold nothing are left out. -/
def ofGhosts (ghosts : List Ghost) (held : List (Nat × List UInt64)) : OverlapExport where
  toOwner := Ghost.byOwner ghosts
  heldBy :=
    ((Table.groupBy (·.1) held).map fun _ lists => ascending (lists.flatMap (·.2))).filter
      fun _ ids => !ids.isEmpty

/-- The ghosts that go back to `rank`. -/
def toRank (o : OverlapExport) (rank : Nat) : List UInt64 := o.toOwner.ofRank rank

/-- The owned ids that `rank` holds as ghosts. -/
def heldByRank (o : OverlapExport) (rank : Nat) : List UInt64 := o.heldBy.ofRank rank

/-- Ghosts sent and owned ids shared, counted for each rank. -/
def size (o : OverlapExport) : Nat := o.toOwner.total + o.heldBy.total

/-- Whether there is no overlap. -/
def isEmpty (o : OverlapExport) : Bool := o.toOwner.isEmpty && o.heldBy.isEmpty

end OverlapExport

end Unknowns
