import Unknowns.Manager.Builder
import Unknowns.Field.BlockLayout
import Unknowns.Field.Registry
import Unknowns.Mesh
import Unknowns.Text.Quoted

/-!
# The manager of unknowns

On each rank a `Manager` collects the fields, their patterns and the mesh, and
holds the result of the latest successful build.  Fields are registered for all
blocks or for one block; for the same field the pattern of the block counts.

The result of a build is dropped when a mesh is bound or unbound and when a new
build starts.  Maps and graphs are made on first request and kept until the
result or the builder changes.
-/

namespace Unknowns

/-- What is fixed for the life of a manager. -/
structure Config where
  tags : Tags
  /-- Whether a build compares the fields of all ranks. -/
  checkRegistrations : Bool
deriving DecidableEq

/-- The mesh of a rank and its place among the ranks. -/
structure Binding where
  mesh : Mesh
  seat : Seat

/-- The result of a build. -/
structure Built where
  layouts : Table BlockId BlockLayout
  /-- The global ids of each element. -/
  elementGids : List (List UInt64)
  numbering : Numbering
  couplings : Couplings
  remoteRows : List (UInt64 × UInt64)
  heldBy : RankLists

/-- What builders read of a result. -/
def Built.context (b : Built) : BuildContext := ⟨b.numbering, b.couplings, b.remoteRows⟩

/-- Maps and graphs made so far. -/
structure Cache where
  map : Option IndexMap
  overlapMap : Option IndexMap
  graph : Option RowGraph
  overlapGraph : Option RowGraph

/-- Nothing has been made yet. -/
def Cache.empty : Cache := ⟨none, none, none, none⟩

/-- Fields, mesh and numbering of one rank. -/
structure Manager where
  config : Config
  binding : Option Binding
  registry : Registry
  /-- Patterns of the fields registered for all blocks. -/
  globalPatterns : Table Nat FieldPattern
  /-- Patterns of the fields registered for one block. -/
  blockPatterns : Table BlockId (Table Nat FieldPattern)
  builder : Builder
  built : Option Built
  cache : Cache

namespace Manager

/-- No mesh and no fields. -/
def new (config : Config) : Manager := ⟨config, none, ∅, ∅, ∅, .standard, none, .empty⟩

/-- Without the result of the latest build. -/
def discard (m : Manager) : Manager := { m with built := none, cache := .empty }

/-- Binds a mesh. -/
def bind (m : Manager) (mesh : Mesh) (seat : Seat) : Manager :=
  { m.discard with binding := some ⟨mesh, seat⟩ }

/-- Unbinds the mesh and answers it. -/
def reset (m : Manager) : Option Mesh × Manager :=
  (m.binding.map (·.mesh), { m.discard with binding := none })

/-- Takes another builder. -/
def setBuilder (m : Manager) (builder : Builder) : Manager :=
  { m with builder := builder, cache := .empty }

/-- Registers a name, unless there is the result of a build; answers its number. -/
def register (m : Manager) (name : String) : Except Error (Nat × Manager) :=
  if m.built.isSome then .error (.alreadyBuilt name)
  else do
    let (num, registry) ← m.registry.register name
    .ok (num, { m with registry := registry })

/-- Registers a field for all blocks; answers its number. -/
def addField (m : Manager) (name : String) (pattern : FieldPattern) :
    Except Error (Nat × Manager) := do
  let (num, m) ← m.register name
  .ok (num, { m with globalPatterns := m.globalPatterns.insert num pattern })

/-- Registers a field for one block; answers its number. -/
def addFieldToBlock (m : Manager) (block : BlockId) (name : String) (pattern : FieldPattern) :
    Except Error (Nat × Manager) := do
  let (num, m) ← m.register name
  let ofBlock (old : Option (Table Nat FieldPattern)) := (old.getD ∅).insert num pattern
  .ok (num, { m with blockPatterns := m.blockPatterns.update block ofBlock })

/-- The patterns in effect on a block. -/
def blockFields (m : Manager) (block : BlockId) : Table Nat FieldPattern :=
  m.globalPatterns.override ((m.blockPatterns.get? block).getD ∅)

/-- The pattern in effect for a field on a block. -/
def fieldPattern? (m : Manager) (block : BlockId) (field : Nat) : Option FieldPattern :=
  match (m.blockPatterns.get? block).bind (·.get? field) with
  | some p => some p
  | none => m.globalPatterns.get? field

/-- The pattern in effect on a block for the field with a name. -/
def fieldPatternByName? (m : Manager) (block : BlockId) (name : String) : Option FieldPattern :=
  (m.registry.num? name).bind (m.fieldPattern? block)

/-- The name of a field. -/
def fieldName (m : Manager) (field : Nat) : Except Error String :=
  match m.registry.name? field with
  | some s => .ok s
  | none => .error (.unknownField field)

/-- Whether there is the result of a build. -/
def isBuilt (m : Manager) : Bool := m.built.isSome

/-- Whether a mesh is bound. -/
def isBound (m : Manager) : Bool := m.binding.isSome

/-- The result of the latest build. -/
def result (m : Manager) : Except Error Built :=
  match m.built with
  | some b => .ok b
  | none => .error .notBuilt

/-- The global ids of an element, in the order of its block's layout. -/
def elementGids (m : Manager) (element : Nat) : Except Error (List UInt64) := do
  let b ← m.result
  match b.elementGids[element]? with
  | some gids => .ok gids
  | none => .error (.elementOutOfRange element b.elementGids.length)

/-- The layout of a block. -/
def blockLayout (m : Manager) (block : BlockId) : Except Error BlockLayout := do
  let b ← m.result
  match b.layouts.get? block with
  | some l => .ok l
  | none => .error (.unknownBlock block)

/-- The places of a field's unknowns among the ids of an element. -/
def fieldOffsets (m : Manager) (block : BlockId) (field : Nat) : Except Error (List Nat) := do
  let l ← m.blockLayout block
  match l.localOffsets? field with
  | some os => .ok os
  | none => .error (.fieldNotInBlock block field)

/-- The places of a field's unknowns on one sub-cell among the ids of an element. -/
def subCellOffsets (m : Manager) (block : BlockId) (field dim subCell : Nat) :
    Except Error (List Nat) := do
  let l ← m.blockLayout block
  match l.subCellOffsets field dim subCell with
  | .error (.unknownField f) => .error (.fieldNotInBlock block f)
  | other => other

/-- The elements of a block. -/
def blockElements (m : Manager) (block : BlockId) : Except Error (List Nat) :=
  match m.binding with
  | none => .error .noMesh
  | some b =>
    match b.mesh.blockElements block with
    | some es => .ok es
    | none => .error (.unknownBlock block)

/-- The ghosts by owner. -/
def overlapImport (m : Manager) : Except Error OverlapImport := do
  let b ← m.result
  .ok (.ofGhosts b.numbering.ghosts)

/-- The ghosts by owner, and what other ranks hold of the ids owned here. -/
def overlapExport (m : Manager) : Except Error OverlapExport := do
  let b ← m.result
  .ok (.ofGhosts b.numbering.ghosts b.heldBy.entries)

/-- The numbering of the latest build. -/
def numbering (m : Manager) : Except Error Numbering := do
  let b ← m.result
  .ok b.numbering

/-- A question whose answer the manager keeps for the next time. -/
abbrev Query := ExceptT Error (StateM Manager)

/-- Answers what is kept, or else makes it and keeps it. -/
def kept {α : Type} (look : Cache → Option α) (keep : α → Cache → Cache)
    (make : Except Error α) : Query α := do
  match look (← get).cache with
  | some a => pure a
  | none =>
    let a ← liftExcept make
    modify fun m => { m with cache := keep a m.cache }
    pure a
where
  /-- The outcome of a computation that leaves the manager alone. -/
  liftExcept {β : Type} (outcome : Except Error β) : Query β := ExceptT.mk (pure outcome)

/-- The map of the owned ids. -/
def map : Query IndexMap := do
  let m ← get
  let b ← kept.liftExcept m.result
  kept Cache.map (fun a c => { c with map := some a }) (m.builder.map b.context)

/-- The map of the owned ids and the ghosts. -/
def overlapMap : Query IndexMap := do
  let m ← get
  let b ← kept.liftExcept m.result
  kept Cache.overlapMap (fun a c => { c with overlapMap := some a })
    (m.builder.overlapMap b.context)

/-- The graph over the rows of the map. -/
def graph : Query RowGraph := do
  let m ← get
  let b ← kept.liftExcept m.result
  let rows ← map
  kept Cache.graph (fun a c => { c with graph := some a }) (m.builder.graph b.context rows)

/-- The graph over the rows of the overlap map. -/
def overlapGraph : Query RowGraph := do
  let m ← get
  let b ← kept.liftExcept m.result
  let rows ← overlapMap
  kept Cache.overlapGraph (fun a c => { c with overlapGraph := some a })
    (m.builder.overlapGraph b.context rows)

/-- The manager in one line. -/
def text (m : Manager) : String :=
  let byName := m.registry.byName.entries.map fun e => quoted e.1 ++ s!": {e.2}"
  "DofManager \x7b config: DofManagerConfig \x7b tags: " ++ m.config.tags.text ++
    s!", check_registrations: {m.config.checkRegistrations} \x7d, fields: FieldRegistry \x7b by_name: \x7b" ++
    ", ".intercalate byName ++ "\x7d, names: " ++ listText (m.registry.names.map quoted) ++
    s!" \x7d, bound: {m.isBound}, built: {m.isBuilt} \x7d"

/-- Fields and layouts for a reader. -/
def summary (m : Manager) : String :=
  s!"{m.registry.size} field(s):\n" ++
    String.join (m.registry.toList.map fun f => s!"  {f.1}: {f.2}\n") ++
    match m.built with
    | some b => String.join (b.layouts.entries.map fun e => s!"block {e.1}: " ++ e.2.summary)
    | none => "global unknowns not built\n"

end Manager

end Unknowns
