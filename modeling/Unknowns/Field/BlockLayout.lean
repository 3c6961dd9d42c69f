import Unknowns.Field.Pattern
import Unknowns.Table

/-!
# The unknowns of an element

A `BlockLayout` merges the patterns of all fields on a block into one list of
unknowns for every element of the block.  The list goes through the sub-cells by
dimension and position; on each sub-cell every field, in the order of the field
numbers, contributes the unknowns that it has there.  The place of an unknown in
the list is therefore the same for all elements of the block.

Merging succeeds when all patterns have the same cell, its sub-entities can be
counted, and the sub-cells of each pattern list each of its unknowns exactly
once.  Other patterns of one cell are refused.

Before merging looks at the sub-cells, it reserves a list for the places of all
unknowns that a pattern declares, and it stops where memory has no room for it.
A pattern that lists so many unknowns has no room either, so this happens only
with patterns that do not list what they declare.
-/

namespace Unknowns

/-- One place of the layout. -/
structure LocalDof where
  dim : Nat
  /-- Position of the sub-cell among those of its dimension. -/
  subCell : Nat
  field : Nat
  /-- Position among the field's unknowns on the sub-cell. -/
  component : Nat
deriving DecidableEq

/-- A place of the layout together with the number that the field's own pattern gives the
unknown. -/
structure Slot where
  place : LocalDof
  /-- Number in the field's pattern. -/
  dof : Nat
deriving DecidableEq

/-- The merged unknowns of the elements of one block. -/
structure BlockLayout where
  cell : Cell
  /-- Field numbers with their patterns, ascending. -/
  fields : Table Nat FieldPattern
  /-- The places in order. -/
  slots : List Slot
deriving DecidableEq

namespace BlockLayout

/-- The slots that a field has on one sub-cell. -/
def fieldSlots (dim subCell field : Nat) (pattern : FieldPattern) : List Slot :=
  (pattern.subCellIndices dim subCell).zipIdx.map fun p => ⟨⟨dim, subCell, field, p.2⟩, p.1⟩

/-- All slots of a list of fields: by dimension, by sub-cell, by field. -/
def allSlots (cell : Cell) (fields : List (Nat × FieldPattern)) : List Slot :=
  (List.range (cell.dimension + 1)).flatMap fun dim =>
    (List.range (cell.subEntityCount dim)).flatMap fun subCell =>
      fields.flatMap fun f => fieldSlots dim subCell f.1 f.2

/-- The first pattern whose cell is not `cell`. -/
def checkCells (cell : Cell) (fields : List (Nat × FieldPattern)) : Except Error Unit :=
  match fields.find? (·.2.cell ≠ cell) with
  | some f => .error (.patternMismatch 0 (.number f.1) (.cellsDiffer f.2.cell cell))
  | none => .ok ()

/-- Goes through the slots in order: an unknown must be one of its field's, and must not have
occurred before. -/
def checkSlots (fields : Table Nat FieldPattern) (seen : List (Nat × Nat)) :
    List Slot → Except Error Unit
  | [] => .ok ()
  | s :: rest =>
    let numDofs := ((fields.get? s.place.field).map (·.numDofs)).getD 0
    if s.dof < numDofs ∧ (s.place.field, s.dof) ∉ seen then
      checkSlots fields ((s.place.field, s.dof) :: seen) rest
    else
      .error (.patternMismatch 0 (.number s.place.field) (.repeatedOrOutOfRange s.dof))

/-- The place in the layout of the unknown `dof` of `field`. -/
def offset? (slots : List Slot) (field dof : Nat) : Option Nat :=
  slots.findIdx? fun s => s.place.field = field ∧ s.dof = dof

/-- The first field with an unknown that has no place. -/
def checkAttached (slots : List Slot) (fields : List (Nat × FieldPattern)) : Except Error Unit :=
  match fields.find? fun f => Nat.any f.2.numDofs fun i _ => (offset? slots f.1 i).isNone with
  | some f => .error (.patternMismatch 0 (.number f.1) .unattached)
  | none => .ok ()

/-- The table of fields in which the first pattern given for a field number stands. -/
def firstPatterns (fields : List (Nat × FieldPattern)) : Table Nat FieldPattern :=
  fields.foldl (fun t f => t.update f.1 fun old => old.getD f.2) ∅

/-- Checks that the slots are the places of the unknowns of the fields. -/
def checkPlaces (fields : Table Nat FieldPattern) (slots : List Slot) : Except Error Unit := do
  checkSlots fields [] slots
  checkAttached slots fields.entries

/-- Bytes of the place of an unknown in the list of a field's places. -/
def offsetWidth : Nat := 16

/-- What becomes of patterns that do not fit their places. -/
def misplaced (fields : Table Nat FieldPattern) (fault : Error) : Error :=
  if fields.values.all fun p => fits p.numDofs offsetWidth then fault else .outOfMemory

/-- The layout of a block whose fields have the given patterns.  Of two patterns for one field
number the first counts. -/
def merge (fields : List (Nat × FieldPattern)) : Except Error BlockLayout := do
  let fields := firstPatterns fields
  let cell := (fields.values.head?.map (·.cell)).getD default
  checkCells cell fields.entries
  let _ ← counted cell.totalSubEntities?
  let slots := allSlots cell fields.entries
  (checkPlaces fields slots).mapError (misplaced fields)
  .ok ⟨cell, fields, slots⟩

/-- Number of unknowns of an element. -/
def numDofs (l : BlockLayout) : Nat := l.slots.length

/-- Numbers of the merged fields, ascending. -/
def fieldNums (l : BlockLayout) : List Nat := l.fields.keys

/-- The pattern of a merged field. -/
def fieldPattern? (l : BlockLayout) (field : Nat) : Option FieldPattern := l.fields.get? field

/-- The places in order. -/
def layout (l : BlockLayout) : List LocalDof := l.slots.map (·.place)

/-- The places of a field's unknowns, in the order of the field's own numbering. -/
def localOffsets? (l : BlockLayout) (field : Nat) : Option (List Nat) :=
  (l.fields.get? field).map fun p => (List.range p.numDofs).filterMap (offset? l.slots field)

/-- The places of the merged fields' unknowns, by field number. -/
def offsets (l : BlockLayout) : List (Nat × List Nat) :=
  l.fieldNums.map fun f => (f, (l.localOffsets? f).getD [])

/-- The places of a field's unknowns on one sub-cell. -/
def subCellOffsets (l : BlockLayout) (field dim subCell : Nat) : Except Error (List Nat) :=
  if !l.fields.contains field then .error (.unknownField field)
  else if subCell ≥ l.cell.subEntityCount dim then .error (.subCellOutOfRange dim subCell)
  else
    .ok ((List.range l.slots.length).filter fun i =>
      (l.slots[i]?).any fun s =>
        s.place.field = field ∧ s.place.dim = dim ∧ s.place.subCell = subCell)

/-- Number of sub-entities that the connectivity of an element lists. -/
def connectivityLength (l : BlockLayout) : Nat := l.cell.totalSubEntities

/-- Number of sub-entities of the dimensions below `dim`. -/
def entityBase (cell : Cell) (dim : Nat) : Nat := total (cell.subEntityCounts.take dim)

/-- The key at one place, for an element with the given connectivity. -/
def keyAt (l : BlockLayout) (connectivity : List SubEntity) (d : LocalDof) : Except Error DofKey :=
  match connectivity[entityBase l.cell d.dim + d.subCell]? with
  | some e => .ok ⟨e, d.field, d.component⟩
  | none => .error .indexOutOfBounds

/-- The keys of the unknowns of an element, place by place. -/
def elementKeys (l : BlockLayout) (element : Nat) (connectivity : List SubEntity) :
    Except Error (List DofKey) :=
  if connectivity.length ≠ l.connectivityLength then
    .error (.connectivityMismatch element l.connectivityLength connectivity.length)
  else
    l.layout.mapM (l.keyAt connectivity)

/-- Goes through the places of all fields: each must lie in the layout and must not have occurred
before; answers the places met. -/
def checkOffsets (count : Nat) (seen : List Nat) : List (Nat × Nat) → Except Error (List Nat)
  | [] => .ok seen
  | (field, o) :: rest =>
    if o < count ∧ o ∉ seen then checkOffsets count (o :: seen) rest
    else .error (.patternMismatch 0 (.number field) (.offsetTaken o))

/-- Checks that the fields share the places of the layout out among themselves. -/
def validate (l : BlockLayout) : Except Error Unit := do
  let seen ← checkOffsets l.numDofs [] (l.offsets.flatMap fun f => f.2.map fun o => (f.1, o))
  if (List.range l.numDofs).all fun o => o ∈ seen then .ok ()
  else .error (.patternMismatch 0 .none .notDense)

/-- The layout in one line. -/
def text (l : BlockLayout) : String :=
  "AggregatePattern \x7b cell_type: " ++ l.cell.text ++ ", fields: " ++ numbersText l.fieldNums ++
    s!", num_dofs: {l.numDofs} \x7d"

/-- The layout for a reader: its size, then the places of each field. -/
def summary (l : BlockLayout) : String :=
  s!"{l.cell.text}: {l.numDofs} dofs per element\n" ++
    String.join (l.offsets.map fun f => s!"  field {f.1}: offsets {numbersText f.2}\n")

end BlockLayout

end Unknowns
