import Unknowns.Comm.Exchange
import Unknowns.Ownership
import Unknowns.Overlap
import Unknowns.RowGraph
import Unknowns.Log

/-!
# Global numbers for unknowns

A `Numbering` is what one rank knows of the global numbers: the owner and the
number of every unknown that it refers to.  The unknowns that a rank owns have
consecutive numbers in the order of their keys, and the ranks' ranges follow one
another.

After the numbers are known, ranks tell the owners of their ghosts which ones
they hold (`Numbering.ghostHolders`) and what these are coupled to
(`Numbering.shipGhostRows`).
-/

namespace Unknowns

/-- The global numbers of the unknowns that one rank refers to. -/
structure Numbering where
  rank : Nat
  ownership : Ownership
  gids : Table DofKey UInt64
  numOwned : Nat
  /-- The first number of this rank. -/
  ownedBase : UInt64
  /-- Number of unknowns of all ranks. -/
  numGlobal : UInt64
deriving DecidableEq

namespace Numbering

/-- No unknown is numbered. -/
def empty : Numbering := ⟨0, ∅, ∅, 0, 0, 0⟩

instance : Inhabited Numbering := ⟨empty⟩

/-- The global number of a key. -/
def gid? (n : Numbering) (key : DofKey) : Option UInt64 := n.gids.get? key

/-- The global number of a key, which must have one. -/
def gidOf (n : Numbering) (key : DofKey) : Except Error UInt64 :=
  match n.gid? key with
  | some g => .ok g
  | none => .error (.missingGlobalIndex key)

/-- The first number after those of this rank. -/
def ownedEnd (n : Numbering) : UInt64 := n.ownedBase + UInt64.ofNat n.numOwned

/-- The numbers of the unknowns owned here, ascending. -/
def ownedGids (n : Numbering) : List UInt64 :=
  (List.range (n.ownedEnd.toNat - n.ownedBase.toNat)).map fun i => n.ownedBase + UInt64.ofNat i

/-- The numbers of the unknowns owned elsewhere, with their owners, ascending. -/
def ghosts (n : Numbering) : List Ghost :=
  ascending (n.ownership.ghostKeys.filterMap fun k => (n.gid? k.1).map fun g => ⟨g, k.2⟩)

/-- The owner of a global number that occurs here.  Should a number have been reported for ghosts of
several owners, the highest one is meant. -/
def ownerOfGid? (n : Numbering) (gid : UInt64) : Option Nat :=
  if n.ownedBase ≤ gid ∧ gid < n.ownedEnd then some n.rank
  else ((n.ghosts.filter (·.gid = gid)).getLast?).map (·.owner)

/-- The line that reports a numbering of `keys` keys. -/
def report (n : Numbering) (keys : Nat) : LogLine :=
  ⟨.debug, s!"[numbering] rank {n.rank}: {n.numOwned} owned of {keys} referenced dofs," ++
    s!" global size {n.numGlobal.toNat}"⟩

/-- The ids that a peer says it holds as ghosts, ascending; all must be owned here. -/
def heldBy (n : Numbering) (peer : Nat) (records : List GidRecord) :
    Except Error (List UInt64) :=
  let gids := records.filterMap GidRecord.gid?
  match gids.find? fun g => n.ownerOfGid? g ≠ some n.rank with
  | some g => .error (.commError peer (.foreignGhost g n.rank))
  | none => .ok (ascending gids)

/-- What all peers hold; peers that hold nothing are left out. -/
def allHeld (n : Numbering) (incoming : List (Nat × List GidRecord)) :
    Except Error RankLists := do
  let held ← incoming.mapM fun r => do
    let gids ← n.heldBy r.1 r.2
    .ok (r.1, gids)
  .ok (Table.ofList (held.filter fun h => !h.2.isEmpty))

/-- Tells every owner which of its ids are ghosts here, and answers which ids owned here each peer
holds. -/
def ghostHolders (n : Numbering) (seat : Seat) (tags : Tags) : Protocol RankLists := do
  let outgoing := (Table.groupBy Ghost.owner n.ghosts).map fun _ gs =>
    gs.map fun g => GidRecord.ofGid? (some g.gid)
  let incoming ← exchangeLists seat.peers tags.ghostSizes tags.ghostGids outgoing
  Protocol.ofExcept (n.allHeld incoming.entries)

/-- The couplings of a ghost, as they are sent to its owner. -/
def ghostEdges (couplings : Couplings) (ghost : Ghost) : List EdgeRecord :=
  ((couplings.get? ghost.gid).getD []).map fun c => ⟨ghost.gid, c⟩

/-- Sends every owner the couplings of its unknowns that are ghosts here, and answers the couplings
that the peers have for unknowns owned here. -/
def shipGhostRows (n : Numbering) (couplings : Couplings) (seat : Seat) (tags : Tags) :
    Protocol (List (UInt64 × UInt64)) := do
  let coupled := n.ghosts.filter fun g => couplings.contains g.gid
  let outgoing := (Table.groupBy Ghost.owner coupled).map fun _ gs =>
    gs.flatMap (ghostEdges couplings)
  let incoming ← exchangeLists seat.peers tags.graphSizes tags.graphRows outgoing
  pure (incoming.values.flatten.map fun e => (e.row, e.col))

end Numbering

end Unknowns
