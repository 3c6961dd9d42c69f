import Unknowns.Manager
import Unknowns.Negotiation

/-!
# Building the numbering

A build has three phases.  In the *pattern phase* a rank merges the patterns in
effect on each of its blocks.  In the *connectivity phase* it lists the keys of
the unknowns of each element.  Then all ranks agree that they are ready, and in
the *completion phase* they negotiate owners and numbers and tell each other
about their ghosts.

All phases but the last concern one rank only.  A rank that fails in them still
takes part in the agreement, so that all ranks fail.  A rank that is stopped in
them (`Error.stops`) does not: it sends nothing any more, and the others wait for
it in vain.
-/

namespace Unknowns

namespace Manager

/-- The first block with a field of its own that is not one of the known blocks. -/
def checkScopes (m : Manager) (known : List BlockId) : Except Error Unit :=
  match m.blockPatterns.keys.find? (· ∉ known) with
  | some b => .error (.unknownBlock b)
  | none => .ok ()

/-- The first field whose pattern does not fit the cell of the block. -/
def checkBlockCell (m : Manager) (block : BlockId) (cell : Cell)
    (fields : List (Nat × FieldPattern)) : Except Error Unit :=
  match fields.find? (·.2.cell ≠ cell) with
  | some f =>
    .error (.patternMismatch block (m.registry.label f.1) (.notOnBlock f.2.cell cell))
  | none => .ok ()

/-- A fault in merging the patterns of a block, with the block and the name of the field. -/
def inBlock (m : Manager) (block : BlockId) : Error → Error
  | .patternMismatch _ (.number f) fault => .patternMismatch block (m.registry.label f) fault
  | .patternMismatch _ label fault => .patternMismatch block label fault
  | other => other

/-- The layout of a block, if any field is in effect on it. -/
def layoutOf (m : Manager) (mesh : Mesh) (block : BlockId) : Except Error (Option BlockLayout) :=
  let fields := m.blockFields block
  if fields.isEmpty then .ok none
  else
    match mesh.blockCell block with
    | none => .error (.unknownBlock block)
    | some cell => do
      m.checkBlockCell block cell fields.entries
      match BlockLayout.merge fields.entries with
      | .ok l => .ok (some l)
      | .error e => .error (m.inBlock block e)

/-- The layouts of a list of blocks. -/
def layoutsOf (m : Manager) (mesh : Mesh) :
    List BlockId → Except Error (List (BlockId × BlockLayout))
  | [] => .ok []
  | block :: rest => do
    let l ← m.layoutOf mesh block
    let others ← m.layoutsOf mesh rest
    match l with
    | some l => .ok ((block, l) :: others)
    | none => .ok others

/-- The layouts of all blocks on which some field is in effect. -/
def patternPhase (m : Manager) (mesh : Mesh) : Except Error (Table BlockId BlockLayout) := do
  let known := ascending mesh.blockIds
  m.checkScopes known
  let layouts ← m.layoutsOf mesh known
  .ok (Table.ofList layouts)

/-- The keys of the unknowns of an element; there are none where its block has no layout. -/
def keysOf (mesh : Mesh) (layouts : Table BlockId BlockLayout) (element : Nat) :
    Except Error (List DofKey) :=
  match mesh.elementBlock element with
  | none => .error (.elementOutOfRange element mesh.numElements)
  | some block =>
    match layouts.get? block with
    | none => .ok []
    | some l =>
      match mesh.connectivity element with
      | none => .error (.elementOutOfRange element mesh.numElements)
      | some connectivity => l.elementKeys element connectivity

/-- The keys of the unknowns of `count` elements from `element` on. -/
def keysFrom (mesh : Mesh) (layouts : Table BlockId BlockLayout) (element : Nat) :
    Nat → Except Error (List (List DofKey))
  | 0 => .ok []
  | count + 1 => do
    let keys ← keysOf mesh layouts element
    let others ← keysFrom mesh layouts (element + 1) count
    .ok (keys :: others)

/-- The keys of the unknowns of all elements; the first element that fails is the error. -/
def connectivityPhase (mesh : Mesh) (layouts : Table BlockId BlockLayout) :
    Except Error (List (List DofKey)) :=
  keysFrom mesh layouts 0 mesh.numElements

/-- What a rank brings to the negotiation. -/
structure Prepared where
  layouts : Table BlockId BlockLayout
  elementKeys : List (List DofKey)

/-- A line about the phases of a build. -/
def phaseLine (rank : Nat) (phase : String) : LogLine :=
  ⟨.debug, s!"[dof_manager] rank {rank}: {phase} phase"⟩

/-- The phases that concern this rank only, with what they log. -/
def prepare (m : Manager) (b : Binding) : Except Error Prepared × List LogLine :=
  match m.patternPhase b.mesh with
  | .error e => (.error e, [phaseLine b.seat.rank "pattern"])
  | .ok layouts =>
    ((connectivityPhase b.mesh layouts).map fun keys => ⟨layouts, keys⟩,
      [phaseLine b.seat.rank "pattern", phaseLine b.seat.rank "connectivity"])

/-- The line that reports a finished build. -/
def doneLine (rank : Nat) (b : Built) : LogLine :=
  ⟨.info, s!"[dof_manager] rank {rank}: {b.numbering.numOwned} owned," ++
    s!" {b.numbering.ghosts.length} ghost, {b.numbering.numGlobal.toNat} global dofs over" ++
    s!" {b.elementGids.length} elements"⟩

/-- What follows the negotiation: the ids of the elements, and what ghosts require. -/
def finish (tags : Tags) (seat : Seat) (p : Prepared) (numbering : Numbering) :
    Protocol Built := do
  let elementGids ← Protocol.ofExcept
    (p.elementKeys.mapM fun keys => keys.mapM numbering.gidOf)
  let couplings := Couplings.ofElements elementGids
  let remoteRows ← numbering.shipGhostRows couplings seat tags
  let heldBy ← numbering.ghostHolders seat tags
  pure ⟨p.layouts, elementGids, numbering, couplings, remoteRows, heldBy⟩

/-- The completion phase, with what it logs. -/
def complete (home : HomeRule) (tags : Tags) (b : Binding) (p : Prepared) :
    Rounds (Except Error Built × List LogLine) := do
  let rank := b.seat.rank
  let keys := ascending p.elementKeys.flatten
  let start := [phaseLine rank "completion"]
  match ← (negotiate home b.seat tags b.mesh.entityOwner keys).run with
  | .error e => pure (.error e, start)
  | .ok numbering =>
    let start := start ++ [numbering.report keys.length]
    match ← (finish tags b.seat p numbering).run with
    | .error e => pure (.error e, start)
    | .ok built => pure (.ok built, start ++ [doneLine rank built])

/-- What a build leaves: the manager, the outcome, and the log. -/
structure Report where
  manager : Manager
  outcome : Except Error Unit
  log : List LogLine

/-- Builds the numbering with a given home rule. -/
def buildWith (home : HomeRule) (m : Manager) : Rounds Report :=
  let m := m.discard
  match m.binding with
  | none => pure ⟨m, .error .noMesh, []⟩
  | some b => do
    let (prepared, log) := m.prepare b
    let own := prepared.map fun _ => ()
    if stopped own then pure ⟨m, own, log⟩
    else
      let ready ← (agreeReady b.seat own m.registry.fingerprint m.config.checkRegistrations).run
      match ready, prepared with
      | .error e, _ => pure ⟨m, .error e, log⟩
      | .ok (), .error e => pure ⟨m, .error e, log⟩
      | .ok (), .ok p =>
        let (outcome, more) ← complete home m.config.tags b p
        match outcome with
        | .error e => pure ⟨m, .error e, log ++ more⟩
        | .ok built => pure ⟨{ m with built := some built }, .ok (), log ++ more⟩

/-- Builds the numbering. -/
def build (m : Manager) : Rounds Report := m.buildWith SubEntity.home

end Manager

end Unknowns
