import Unknowns.Error

/-!
# Permutations of node labels

A `Permutation` holds both directions of a relabelling, so that either can be
looked up.  Made from a list, the two are inverse to each other; a pair that
comes from elsewhere is checked by `Permutation.validate`.
-/

namespace Unknowns

/-- A relabelling of nodes, in both directions. -/
structure Permutation where
  /-- The new label of each old one. -/
  oldToNew : List Nat
  /-- The old label of each new one. -/
  newToOld : List Nat
deriving DecidableEq

namespace Permutation

/-- Every label stays as it is. -/
def identity (n : Nat) : Permutation := ⟨List.range n, List.range n⟩

/-- Goes through an order of `n` nodes: an entry must be below `n` and must not have occurred
before. -/
def checkOrder (n : Nat) (seen : List Nat) : List Nat → Except Error Unit
  | [] => .ok ()
  | old :: rest =>
    if old ≥ n then .error (.invalidPermutation (.outOfRange old n))
    else if old ∈ seen then .error (.invalidPermutation (.repeated old))
    else checkOrder n (old :: seen) rest

/-- The relabelling that puts node `order[k]` at place `k`. -/
def ofNewToOld (order : List Nat) : Except Error Permutation := do
  checkOrder order.length [] order
  .ok ⟨(List.range order.length).map order.idxOf, order⟩

/-- The relabelling in the other direction. -/
def inverse (p : Permutation) : Permutation := ⟨p.newToOld, p.oldToNew⟩

/-- The relabelling that gives node `i` the label `labels[i]`. -/
def ofOldToNew (labels : List Nat) : Except Error Permutation := (ofNewToOld labels).map inverse

/-- Number of nodes. -/
def size (p : Permutation) : Nat := p.oldToNew.length

/-- Whether there are no nodes. -/
def isEmpty (p : Permutation) : Bool := p.oldToNew.isEmpty

/-- The new label of a node. -/
def newIndex (p : Permutation) (old : Nat) : Except Error Nat :=
  match p.oldToNew[old]? with
  | some i => .ok i
  | none => .error .indexOutOfBounds

/-- The old label of a node. -/
def oldIndex (p : Permutation) (new : Nat) : Except Error Nat :=
  match p.newToOld[new]? with
  | some i => .ok i
  | none => .error .indexOutOfBounds

/-- Whether every old label is its own new one. -/
def isIdentity (p : Permutation) : Bool := p.oldToNew == List.range p.oldToNew.length

/-- Checks that going from old to new and back leads to the start. -/
def validate (p : Permutation) : Except Error Unit :=
  if p.oldToNew.length ≠ p.newToOld.length then .error (.invalidPermutation .lengthsDiffer)
  else
    match p.oldToNew.zipIdx.find? fun e => p.newToOld[e.1]? ≠ some e.2 with
    | some e => .error (.invalidPermutation (.notInverted e.2 e.1))
    | none => .ok ()

end Permutation

end Unknowns
