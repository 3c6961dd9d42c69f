import Unknowns.Error
import Unknowns.Table

/-!
# Who owns an unknown

On one rank, an `Ownership` lists for every unknown that the rank refers to the
rank that owns it, and whether it is a *ghost* here, that is, owned elsewhere.
Keys come in ascending order, which makes every numbering that follows them
deterministic.
-/

namespace Unknowns

/-- The owner of one unknown, as one rank sees it. -/
structure OwnershipEntry where
  owner : Nat
  /-- Whether the owner is another rank. -/
  isGhost : Bool
deriving DecidableEq

/-- The owners of the unknowns that one rank refers to. -/
structure Ownership where
  entries : Table DofKey OwnershipEntry
deriving DecidableEq

namespace Ownership

/-- No unknown is known. -/
def empty : Ownership := ⟨∅⟩

instance : EmptyCollection Ownership := ⟨empty⟩
instance : Inhabited Ownership := ⟨empty⟩

/-- Records the owner of a key, as rank `me` sees it. -/
def setOwner (o : Ownership) (key : DofKey) (owner me : Nat) : Ownership :=
  ⟨o.entries.insert key ⟨owner, owner != me⟩⟩

/-- The entry of a key. -/
def entry? (o : Ownership) (key : DofKey) : Option OwnershipEntry := o.entries.get? key

/-- The owner of a key. -/
def owner? (o : Ownership) (key : DofKey) : Option Nat := (o.entry? key).map (·.owner)

/-- Records the owner of a key unless a lower rank is recorded already. -/
def setOwnerMin (o : Ownership) (key : DofKey) (owner me : Nat) : Ownership :=
  o.setOwner key (match o.owner? key with | some r => min r owner | none => owner) me

/-- The owner of a key, which must be known. -/
def ownerOf (o : Ownership) (key : DofKey) : Except Error Nat :=
  match o.owner? key with
  | some r => .ok r
  | none => .error (.missingGlobalIndex key)

/-- Whether `rank` is known to own the key. -/
def isOwnedBy (o : Ownership) (key : DofKey) (rank : Nat) : Bool := o.owner? key == some rank

/-- Number of known keys. -/
def size (o : Ownership) : Nat := o.entries.size

/-- Whether no key is known. -/
def isEmpty (o : Ownership) : Bool := o.entries.isEmpty

/-- All known keys, ascending. -/
def keys (o : Ownership) : List DofKey := o.entries.keys

/-- The keys owned here, ascending. -/
def ownedKeys (o : Ownership) : List DofKey := (o.entries.filter fun _ e => !e.isGhost).keys

/-- The keys owned elsewhere with their owners, ascending. -/
def ghostKeys (o : Ownership) : List (DofKey × Nat) :=
  (o.entries.filter fun _ e => e.isGhost).entries.map fun e => (e.1, e.2.owner)

end Ownership

end Unknowns
