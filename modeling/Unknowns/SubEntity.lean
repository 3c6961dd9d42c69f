/-!
# Sub-entities of a mesh

Nodes, edges, faces and cells are numbered independently over the whole mesh,
so a sub-entity is named by its dimension together with its global id.  The
order is by dimension first, which puts node unknowns before edge unknowns in
every sorted list.

Every sub-entity has a *home* among the ranks of a world, where the ranks that
refer to it meet.  The home is found by mixing the bits of the name, so that no
rank needs to know who else refers to the sub-entity.
-/

namespace Unknowns

/-- A node, edge, face or cell of the mesh. -/
structure SubEntity where
  /-- Topological dimension. -/
  dim : UInt8
  /-- Global id among the sub-entities of its dimension. -/
  gid : UInt64
deriving DecidableEq, Inhabited

namespace SubEntity

/-- By dimension, then by id. -/
instance : Ord SubEntity := ⟨compareLex (compareOn dim) (compareOn gid)⟩

instance : Std.TransOrd SubEntity :=
  inferInstanceAs (Std.TransCmp (compareLex (compareOn dim) (compareOn gid)))

instance : Std.LawfulEqOrd SubEntity where
  eq_of_compare {a b} h := by
    have h' : (compareLex (compareOn dim) (compareOn gid)) a b = .eq := h
    rw [compareLex_eq_eq] at h'
    have h₁ : a.dim = b.dim := Std.LawfulEqOrd.eq_of_compare h'.1
    have h₂ : a.gid = b.gid := Std.LawfulEqOrd.eq_of_compare h'.2
    cases a; cases b; simp_all

/-- The node with a given id. -/
def node (gid : UInt64) : SubEntity := ⟨0, gid⟩

/-- The edge with a given id. -/
def edge (gid : UInt64) : SubEntity := ⟨1, gid⟩

/-- Spreads the bits of a word over the whole word. -/
def mix (z : UInt64) : UInt64 :=
  let z := z + 0x9E3779B97F4A7C15
  let z := (z ^^^ (z >>> 30)) * 0xBF58476D1CE4E5B9
  let z := (z ^^^ (z >>> 27)) * 0x94D049BB133111EB
  z ^^^ (z >>> 31)

/-- The rank where the ranks that refer to the sub-entity meet, in a world of `size` ranks.
Three bits of the dimension enter, above the bits that small ids use. -/
def home (e : SubEntity) (size : Nat) : Nat :=
  if size ≤ 1 then 0
  else (mix (e.gid ^^^ (e.dim.toUInt64 <<< 61))).toNat % size

/-- A home is a rank of the world. -/
theorem home_lt (e : SubEntity) {size : Nat} (h : 0 < size) : e.home size < size := by
  unfold home
  split
  · exact h
  · exact Nat.mod_lt _ h

/-- The name in short: dimension and id. -/
def label (e : SubEntity) : String := s!"{e.dim.toNat}:{e.gid.toNat}"

/-- The name in full. -/
def text (e : SubEntity) : String := s!"SubEntity({e.dim.toNat}, {e.gid.toNat})"

end SubEntity

/-- An id for the edge between two nodes that does not depend on their order: the square of the
larger id plus the smaller one.  There is none when the pairing does not fit a word. -/
def edgeGid? (a b : UInt64) : Option UInt64 :=
  let lo := min a.toNat b.toNat
  let hi := max a.toNat b.toNat
  if hi * hi + lo < UInt64.size then some (UInt64.ofNat (hi * hi + lo)) else none

end Unknowns
