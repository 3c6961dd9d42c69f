import Unknowns.Json.Parser
import Unknowns.Field.BlockLayout
import Unknowns.Field.Registry
import Unknowns.Graph.Quotient
import Unknowns.IndexMap
import Unknowns.Overlap
import Unknowns.Ownership

/-!
# JSON forms

The values that a program may keep between runs have a form in JSON.  A value
with parts is an object with one field for each part; a table is an object whose
field names are the keys, whole-number keys being written in decimal; a cell is
its name, or an object with its name and its number.

Reading checks the shape alone: what the parts have to do with each other is not
looked at, so the value that is read need not be one that the library makes.
-/

namespace Unknowns

/-- A type whose values are written as JSON and read back. -/
class Form (α : Type) where
  write : α → Json
  /-- The value with the given form; none if the form is not one of the type's. -/
  read : Json → Option α

namespace Form

open Json

/-- A whole number below a bound. -/
def readBelow (bound : Nat) : Json → Option Nat
  | .int n => if 0 ≤ n ∧ n < bound then some n.toNat else none
  | _ => none

/-- Natural numbers are machine words in their form. -/
instance : Form Nat := ⟨nat, readBelow wordSize⟩

instance : Form UInt64 := ⟨fun n => nat n.toNat, fun j => (readBelow wordSize j).map .ofNat⟩

instance : Form UInt8 := ⟨fun n => nat n.toNat, fun j => (readBelow 256 j).map .ofNat⟩

instance : Form Bool where
  write := .bool
  read
    | .bool b => some b
    | _ => none

instance : Form String where
  write s := .str s
  read
    | .str q => q.text?
    | _ => none

instance {α : Type} [Form α] : Form (List α) where
  write := list write
  read
    | .arr items => items.mapM read
    | _ => none

/-- The whole number that a field name stands for: decimal digits without leading zeros, as they are
written. -/
def readKey (name : Quotation) : Option Nat :=
  match readWhole name.inner with
  | some (ds, []) => if digitsValue ds < wordSize then some (digitsValue ds) else none
  | _ => none

instance {ν : Type} [Form ν] : Form (Table Nat ν) where
  write t := .obj (t.entries.map fun e => (↑(toString e.1), write e.2))
  read
    | .obj fields =>
      (fields.mapM fun (f : Quotation × Json) => do
        some (← readKey f.1, ← read f.2)).map Table.ofList
    | _ => none

instance {ν : Type} [Form ν] : Form (Table String ν) where
  write t := .obj (t.entries.map fun e => (↑e.1, write e.2))
  read
    | .obj fields =>
      (fields.mapM fun (f : Quotation × Json) => do
        some (← f.1.text?, ← read f.2)).map Table.ofList
    | _ => none

/-- The cell that is written as a name alone. -/
def namedCell? (name : String) : Option Cell :=
  [Cell.vertex, .segment, .triangle, .quadrilateral, .tetrahedron, .hexahedron, .prism,
    .pyramid].find? (·.text = name)

instance : Form Cell where
  write
    | .polygon n => .obj [("Polygon", write n)]
    | .simplex d => .obj [("Simplex", write d)]
    | c => .str c.text
  read
    | .str q => q.text?.bind namedCell?
    | .obj [(q, x)] => do
      match ← q.text?, x with
      | "Polygon", n => (read n).map .polygon
      | "Simplex", d => (read d).map .simplex
      | name, .null => namedCell? name
      | _, _ => none
    | _ => none

instance : Form SubEntity where
  write e := .obj [("dim", write e.dim), ("gid", write e.gid)]
  read j := do
    let [d, g] ← j.record? ["dim", "gid"] | none
    some ⟨← read d, ← read g⟩

instance : Form DofKey where
  write k := .obj [("entity", write k.entity), ("field", write k.field),
    ("component", write k.component)]
  read j := do
    let [e, f, c] ← j.record? ["entity", "field", "component"] | none
    some ⟨← read e, ← read f, ← read c⟩

instance : Form LocalDof where
  write d := .obj [("dim", write d.dim), ("sub_cell", write d.subCell), ("field", write d.field),
    ("component", write d.component)]
  read j := do
    let [d, s, f, c] ← j.record? ["dim", "sub_cell", "field", "component"] | none
    some ⟨← read d, ← read s, ← read f, ← read c⟩

instance : Form OwnershipEntry where
  write e := .obj [("owner", write e.owner), ("is_ghost", write e.isGhost)]
  read j := do
    let [o, g] ← j.record? ["owner", "is_ghost"] | none
    some ⟨← read o, ← read g⟩

instance : Form OrderingStats where
  write s := .obj [("passes", write s.passes), ("pivots", write s.pivots),
    ("supervariables_merged", write s.merged), ("elements_absorbed", write s.absorbed),
    ("nnz_l", write s.fill)]
  read j := do
    let [p, v, m, a, f] ← j.record?
      ["passes", "pivots", "supervariables_merged", "elements_absorbed", "nnz_l"] | none
    some ⟨← read p, ← read v, ← read m, ← read a, ← read f⟩

instance : Form Csr where
  write g := .obj [("xadj", write g.offsets), ("adjncy", write g.targets)]
  read j := do
    let [o, t] ← j.record? ["xadj", "adjncy"] | none
    some ⟨← read o, ← read t⟩

instance : Form Permutation where
  write p := .obj [("old_to_new", write p.oldToNew), ("new_to_old", write p.newToOld)]
  read j := do
    let [o, n] ← j.record? ["old_to_new", "new_to_old"] | none
    some ⟨← read o, ← read n⟩

instance : Form Registry where
  write r := .obj [("by_name", write r.byName), ("names", write r.names)]
  read j := do
    let [b, n] ← j.record? ["by_name", "names"] | none
    some ⟨← read b, ← read n⟩

instance : Form OverlapImport where
  write o := .obj [("by_owner", write o.byOwner)]
  read j := do
    let [b] ← j.record? ["by_owner"] | none
    some ⟨← read b⟩

instance : Form OverlapExport where
  write o := .obj [("to_owner", write o.toOwner), ("held_by", write o.heldBy)]
  read j := do
    let [t, h] ← j.record? ["to_owner", "held_by"] | none
    some ⟨← read t, ← read h⟩

/-- The form of a uniform pattern. -/
def writeUniform (dofsPerDim : List Nat) (t : SubCellTable) : Json :=
  .obj [("cell_type", write t.cell), ("dofs_per_dim", write dofsPerDim),
    ("indices", write t.indices), ("num_dofs", write t.numDofs)]

/-- Patterns are read as uniform ones.  Other patterns are written without the declared counts. -/
instance : Form FieldPattern where
  write
    | .uniform dofs t => writeUniform dofs t
    | .tabulated t => .obj [("cell_type", write t.cell), ("indices", write t.indices),
      ("num_dofs", write t.numDofs)]
  read j := do
    let [c, d, i, n] ← j.record? ["cell_type", "dofs_per_dim", "indices", "num_dofs"] | none
    some (.uniform (← read d) ⟨← read c, ← read n, ← read i⟩)

/-- The form of an index map. -/
def writeIndexMap (m : IndexMap) : Json :=
  .obj [("gids", write m.gids), ("num_global", write m.numGlobal)]

/-- The index map with the given form.  The form may be refused, or it may list ids that do not make
an index map. -/
def readIndexMap (j : Json) : Option (Except Error IndexMap) := do
  let [g, n] ← j.record? ["gids", "num_global"] | none
  some (IndexMap.ofGids (← read g) (← read n))

/-- The value with a given form as text. -/
def parse? {α : Type} [Form α] (text : String) : Option α := (Json.parse? text).bind read

/-- The index map with a given form as text.  A form that lists no index map is refused as soon as
it has been read, whatever stands behind it. -/
def parseIndexMap? (text : String) : Option (Except Error IndexMap) := do
  let (j, rest) ← parseFront? text
  match ← readIndexMap j with
  | .error e => some (.error e)
  | .ok m => if isEnd rest then some (.ok m) else none

end Form

end Unknowns
