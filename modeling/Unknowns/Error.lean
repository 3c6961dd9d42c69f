import Unknowns.Cell
import Unknowns.DofKey

/-!
# What can go wrong

Every failure is a value of `Error` that holds its cause; `Error.message` is
the one place where causes become words.  Causes that come in several kinds
(a pattern that does not fit, a malformed graph, …) have a type of their own.

| type | says what is wrong with |
| --- | --- |
| `PatternFault` | a field pattern on an element block |
| `GraphFault` | the arrays of a graph |
| `PermutationFault` | a list of labels, or a pair of directions |
| `IndexMapFault` | a list of global ids |
| `WireFault` | a received byte string |
| `CommFault` | a message of a neighbour |

Most failures are reported to the caller, who may go on.  Some stop the rank where
it is (`Error.stops`): nothing is reported, and whoever waits for it waits in vain.
-/

namespace Unknowns

/-- Number of an element block. -/
abbrev BlockId := Int

/-- Items in brackets, separated by commas. -/
def listText (items : List String) : String := "[" ++ ", ".intercalate items ++ "]"

/-- Numbers in brackets. -/
def numbersText (numbers : List Nat) : String := listText (numbers.map toString)

/-- What is wrong with the pattern of a field on a block. -/
inductive PatternFault where
  /-- The block was declared before with another reference cell. -/
  | redeclared (old new : Cell)
  /-- The patterns to be merged are defined on different cells. -/
  | cellsDiffer (cell first : Cell)
  /-- The pattern and the elements of the block have different cells. -/
  | notOnBlock (pattern block : Cell)
  /-- A local unknown is listed twice, or is not one of the pattern's. -/
  | repeatedOrOutOfRange (dof : Nat)
  /-- Some local unknown is on no sub-cell. -/
  | unattached
  /-- A position of the layout is taken twice, or lies outside it. -/
  | offsetTaken (offset : Nat)
  /-- Some position of the layout is taken by no field. -/
  | notDense
deriving DecidableEq

/-- The fault in words. -/
def PatternFault.message : PatternFault → String
  | redeclared old new => s!"block already declared as {old.text}, not {new.text}"
  | cellsDiffer cell first => s!"pattern cell type {cell.text} differs from {first.text}"
  | notOnBlock pattern block =>
    s!"pattern is defined on {pattern.text}, block elements are {block.text}"
  | repeatedOrOutOfRange i => s!"local dof {i} repeated or out of range"
  | unattached => "pattern leaves local dofs unattached to any sub-cell"
  | offsetTaken o => s!"offset {o} duplicated or out of range"
  | notDense => "aggregate offsets are not dense"

/-- How a message names a field. -/
inductive FieldLabel where
  /-- No field is meant. -/
  | none
  /-- By number. -/
  | number (field : Nat)
  /-- By name. -/
  | name (field : String)
deriving DecidableEq

/-- The label in words. -/
def FieldLabel.text : FieldLabel → String
  | none => ""
  | number n => toString n
  | name s => s

/-- What is wrong with the arrays of a graph. -/
inductive GraphFault where
  | noOffsets
  | firstOffset (offset : Nat)
  | lastOffset (offset length : Nat)
  | decreasing (node : Nat)
  | rowNotNormal (node : Nat)
  /-- A builder declined to make the graph. -/
  | refused
deriving DecidableEq

/-- The fault in words. -/
def GraphFault.message : GraphFault → String
  | noOffsets => "offset array is empty"
  | firstOffset o => s!"offsets must start at 0, got {o}"
  | lastOffset o n => s!"last offset {o} != adjacency length {n}"
  | decreasing i => s!"offsets decrease at node {i}"
  | rowNotNormal i => s!"row {i} is not sorted, unique, and loop-free"
  | refused => "refused"

/-- What is wrong with a permutation. -/
inductive PermutationFault where
  | outOfRange (entry length : Nat)
  | repeated (node : Nat)
  | lengthsDiffer
  | notInverted (old new : Nat)
  | wrongLength (length nodes : Nat)
deriving DecidableEq

/-- The fault in words. -/
def PermutationFault.message : PermutationFault → String
  | outOfRange e n => s!"entry {e} out of range for length {n}"
  | repeated i => s!"node {i} appears twice"
  | lengthsDiffer => "direction lengths differ"
  | notInverted old new => s!"old {old} -> new {new} is not inverted"
  | wrongLength k n => s!"permutation of length {k} applied to graph with {n} nodes"

/-- What is wrong with a list of global ids. -/
inductive IndexMapFault where
  | duplicates (entries distinct : Nat)
  | outOfRange (gid size : UInt64)
deriving DecidableEq

/-- The fault in words. -/
def IndexMapFault.message : IndexMapFault → String
  | duplicates n d => s!"index map has duplicate global ids ({n} entries, {d} distinct)"
  | outOfRange g n => s!"global id {g.toNat} exceeds global size {n.toNat}"

/-- What is wrong with a byte string. -/
inductive WireFault where
  /-- The bytes do not divide into records. -/
  | partialRecord (bytes width : Nat)
  /-- There are more or fewer bytes than announced. -/
  | wrongLength (expected got : Nat)
deriving DecidableEq

/-- The fault in words. -/
def WireFault.message : WireFault → String
  | partialRecord n w => s!"payload of {n} bytes is not a whole number of {w}-byte records"
  | wrongLength e n => s!"expected {e} bytes, got {n}"

/-- What is wrong with a message of a neighbour. -/
inductive CommFault where
  /-- The announced count is not one count. -/
  | sizeHeader (expected got : Nat)
  /-- No count came from this rank. -/
  | noSize (rank : Nat)
  /-- No records came. -/
  | noData
  /-- What came is not a list of records. -/
  | unreadable (fault : WireFault)
  /-- The neighbour holds as a ghost what this rank does not own. -/
  | foreignGhost (gid : UInt64) (rank : Nat)
deriving DecidableEq

/-- The fault in words. -/
def CommFault.message : CommFault → String
  | sizeHeader e n => s!"expected {e} bytes for size header, got {n}"
  | noSize r => s!"failed to receive size from rank {r}"
  | noData => "no data received (wait returned None)"
  | unreadable f => f.message
  | foreignGhost g r => s!"peer holds ghost {g.toNat} not owned by rank {r}"

/-- The causes of failure. -/
inductive Error where
  | noMesh
  | notBuilt
  | alreadyBuilt (field : String)
  | emptyFieldName
  | unknownBlock (block : BlockId)
  | unknownField (field : Nat)
  | fieldNotInBlock (block : BlockId) (field : Nat)
  | elementOutOfRange (element count : Nat)
  | patternMismatch (block : BlockId) (field : FieldLabel) (fault : PatternFault)
  | connectivityMismatch (element expected got : Nat)
  | subCellOutOfRange (dim index : Nat)
  | graphMalformed (fault : GraphFault)
  | nodeOutOfRange (row node count : Nat)
  | asymmetricGraph (row node : Nat)
  | invalidPermutation (fault : PermutationFault)
  | invalidIndexMap (fault : IndexMapFault)
  | edgeIdOverflow (a b : UInt64)
  | missingGlobalIndex (key : DofKey)
  | registrationMismatch (rank : Nat)
  | peerFailure (ranks : List Nat)
  | commError (neighbor : Nat) (fault : CommFault)
  | bufferSizeMismatch (neighbor expected got : Nat)
  /-- A stored index points outside the array it belongs to. -/
  | indexOutOfBounds
  /-- A list would need more bytes than can be counted. -/
  | outOfMemory
  /-- A number would have to be larger than a word, or less than zero. -/
  | overflow
deriving DecidableEq

/-- The cause in words. -/
def Error.message : Error → String
  | noMesh => "no connection manager has been set"
  | notBuilt => "global unknowns have not been built (call build_global_unknowns first)"
  | alreadyBuilt f =>
    s!"global unknowns already built; reset indices before registering field \x60{f}\x60"
  | emptyFieldName => "field name must be non-empty"
  | unknownBlock b => s!"element block {b} is not known to the connection manager"
  | unknownField f => s!"field number {f} is not registered"
  | fieldNotInBlock b f => s!"field {f} is not registered on element block {b}"
  | elementOutOfRange e n => s!"local element {e} out of range (num elements = {n})"
  | patternMismatch b f r =>
    s!"pattern for field \x60{f.text}\x60 does not match block {b}: {r.message}"
  | connectivityMismatch e x g => s!"element {e}: expected {x} sub-entities, got {g}"
  | subCellOutOfRange d i => s!"sub-cell ({d}, {i}) is outside the reference cell"
  | graphMalformed f => s!"malformed graph: {f.message}"
  | nodeOutOfRange i j n => s!"node {j} referenced by node {i} is out of range (n = {n})"
  | asymmetricGraph i j => s!"graph is not symmetric: edge {i} -> {j} has no reverse"
  | invalidPermutation f => s!"invalid permutation: {f.message}"
  | invalidIndexMap f => s!"invalid index map: {f.message}"
  | edgeIdOverflow a b => s!"edge between nodes {a.toNat} and {b.toNat} has no representable id"
  | missingGlobalIndex k =>
    s!"no global index assigned for {k.entity.text} (field {k.field}, component {k.component})"
  | registrationMismatch r => s!"field registrations on rank {r} differ from rank 0"
  | peerFailure rs => s!"peer partition(s) {numbersText rs} failed before ownership negotiation"
  | commError r f => s!"communication error with rank {r}: {f.message}"
  | bufferSizeMismatch r x g => s!"buffer size mismatch with rank {r}: expected {x} bytes, got {g}"
  | indexOutOfBounds => "a stored index points outside its array"
  | outOfMemory => "memory has no room for the list"
  | overflow => "a number is out of the range of words"

/-- Whether a failure stops the rank: it is not reported, and the rank does nothing more. -/
def Error.stops : Error → Bool
  | indexOutOfBounds | outOfMemory | overflow => true
  | _ => false

/-- Whether a computation stopped the rank. -/
def stopped {α : Type} : Except Error α → Bool
  | .ok _ => false
  | .error e => e.stops

@[simp] theorem stopped_map {α β : Type} (f : α → β) (x : Except Error α) :
    stopped (x.map f) = stopped x := by
  cases x <;> rfl

/-- A step that succeeds for every member of a list succeeds for the list. -/
theorem mapM_eq_ok {α β : Type} {f : α → Except Error β} {g : α → β} {xs : List α}
    (h : ∀ x ∈ xs, f x = .ok (g x)) : xs.mapM f = .ok (xs.map g) := by
  induction xs with
  | nil => rfl
  | cons x xs ih =>
    rw [List.mapM_cons, h x (List.mem_cons_self ..), ih fun y hy => h y (List.mem_cons_of_mem _ hy)]
    rfl

end Unknowns
