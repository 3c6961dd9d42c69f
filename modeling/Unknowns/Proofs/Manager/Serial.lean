import Unknowns.Proofs.Build.Alone
import Unknowns.Proofs.Build.Refusals
import Unknowns.Proofs.Manager.Registrations
import Unknowns.Proofs.Mesh.Assembly

/-!
# Builds of one rank on a mesh that was put together

A rank that has nobody to talk to and a mesh that calls put together can fail to build
its numbering for two reasons only (`Manager.serial_build`): a field was registered for
a block that the mesh does not declare, or the fields on a declared block do not suit
its cell.  For patterns that were built for a cell, not to suit is to be built for another
cell.
-/

namespace Unknowns

/-- The elements of a mesh that was put together fill their cells. -/
theorem AssembledMesh.Consistent.fillsCells {m : AssembledMesh} (h : m.Consistent) :
    m.toMesh.FillsCells := by
  intro e he
  have he : e < m.elementBlocks.size := Nat.lt_of_lt_of_eq he h.size_elementBlocks.symm
  obtain ⟨b, connectivity, hb, hget, hfilled, -⟩ :=
    h.filled e _ (Array.getElem?_eq_getElem he)
  exact ⟨_, b.cell, connectivity, Array.getElem?_eq_getElem he,
    Option.map_eq_some_iff.2 ⟨b, hb, rfl⟩, hget, hfilled.length⟩

namespace Manager

variable {config : Config} {events : List Event} {m : Manager} {block : BlockId} {cell : Cell}
  {e : Error}

/-! ### Patterns that were built -/

/-- The patterns in effect were built for some cell. -/
def PatternsBuilt (m : Manager) : Prop :=
  ∀ block field p, m.fieldPattern? block field = some p → ∃ cell, p.Built cell

theorem PatternsBuilt.numbers (h : m.PatternsBuilt) {field : Nat} {p : FieldPattern}
    (hp : m.fieldPattern? block field = some p) : p.cell.Countable ∧ p.Numbers := by
  obtain ⟨cell, hbuilt⟩ := h block field p hp
  obtain ⟨hcell, hcountable, hnumbers⟩ := hbuilt.numbers
  exact ⟨hcell ▸ hcountable, hnumbers⟩

/-- **Patterns that were built suit a block if their cell is that of the block.** -/
theorem PatternsBuilt.suits_eq (h : m.PatternsBuilt) : m.Suits = m.CellsMatch := by
  funext block cell
  exact propext ⟨fun hsuits field p hp => (hsuits field p hp).1,
    fun hcells field p hp => ⟨hcells field p hp, hcells field p hp ▸ h.numbers hp⟩⟩

/-- Among patterns that were built, one with another cell is blamed. -/
theorem PatternsBuilt.of_blamed (h : m.PatternsBuilt) (hblamed : m.Blamed block cell e) :
    ∃ field p name, m.FirstMismatch block cell field p ∧ m.fieldName field = .ok name ∧
      e = .patternMismatch block (.name name) (.notOnBlock p.cell cell) := by
  cases hblamed with
  | cell hfirst hname => exact ⟨_, _, _, hfirst, hname, rfl⟩
  | numbers _ hp hnot _ => exact absurd (h.numbers hp).2 hnot
  | memory _ hp hnot => exact absurd (h.numbers hp).2 hnot
  | uncounted hcells hp hnot => exact absurd (hcells _ _ hp ▸ (h.numbers hp).1) hnot

/-! ### Builds -/

/-- The fields that are in effect have names. -/
theorem Reached.namesFields (h : Reached config events m) : m.NamesFields := by
  intro block field p hp
  rw [fieldPattern?_eq_or, Option.or_eq_some_iff] at hp
  rcases hp with hp | ⟨-, hp⟩
  · exact h.exists_fieldName hp
  · exact h.exists_fieldName hp

/-- Every block that a field was registered for is declared. -/
def ScopesDeclared (events : List Event) (mesh : Mesh) : Prop :=
  ∀ block, RegisteredFor events block → (mesh.blockCell block).isSome

/-- The smallest block that a field was registered for and that is not declared. -/
structure FirstUndeclared (events : List Event) (mesh : Mesh) (block : BlockId) : Prop where
  registered : RegisteredFor events block
  undeclared : mesh.blockCell block = none
  first : ∀ other < block, RegisteredFor events other → (mesh.blockCell other).isSome

section
variable (h : Reached config events m) {calls : List Call}
  (hbinding : m.binding = some ⟨(AssembledMesh.empty.after calls).toMesh, Seat.solitary⟩)
include hbinding

/-- A build of a rank that is alone comes to what its pattern phase comes to. -/
theorem outcome_serial : m.build.alone.outcome =
    (m.patternPhase (AssembledMesh.empty.after calls).toMesh).map fun _ => () := by
  rw [outcome_alone hbinding]
  exact prepare_eq_of_fillsCells m _ (AssembledMesh.consistent_empty.after calls).fillsCells

include h

/-- **When a build of one rank succeeds.** -/
theorem outcome_serial_eq_ok_iff : m.build.alone.outcome = .ok () ↔
    ScopesDeclared events (AssembledMesh.empty.after calls).toMesh ∧
      ∀ block cell, (AssembledMesh.empty.after calls).toMesh.blockCell block = some cell →
        m.Suits block cell := by
  have hmesh := (AssembledMesh.consistent_empty.after calls).wellFormed.mem_blockIds
  have hscopes : m.ScopesKnown (AssembledMesh.empty.after calls).toMesh ↔
      ScopesDeclared events (AssembledMesh.empty.after calls).toMesh :=
    forall_congr' fun block => by rw [h.mem_blockPatterns_iff]
  rw [outcome_serial hbinding, map_eq_ok_iff, ← hscopes, ← exists_patternPhase_iff hmesh]
  simp only [and_true]

/-- **What a build of one rank blames.** -/
theorem blamed_of_outcome_serial (he : m.build.alone.outcome = .error e) :
    (∃ block, FirstUndeclared events (AssembledMesh.empty.after calls).toMesh block ∧
      e = .unknownBlock block) ∨
    ScopesDeclared events (AssembledMesh.empty.after calls).toMesh ∧
      ∃ block cell, (AssembledMesh.empty.after calls).toMesh.FirstUnfit m.Suits block cell ∧
        m.Blamed block cell e := by
  have hmesh := (AssembledMesh.consistent_empty.after calls).wellFormed.mem_blockIds
  have hphase := map_eq_error_iff.1 ((outcome_serial hbinding).symm.trans he)
  rcases patternPhase_eq_error hmesh h.namesFields hphase with
    ⟨block, hblock, hnone, rfl, hfirst⟩ | ⟨hknown, hblamed⟩
  · refine .inl ⟨block, ⟨h.mem_blockPatterns_iff.1 hblock, hnone, fun other hlt hother => ?_⟩, rfl⟩
    exact hfirst other (h.mem_blockPatterns_iff.2 hother) hlt
  · exact .inr ⟨fun block hblock => hknown block (h.mem_blockPatterns_iff.2 hblock), hblamed⟩

end

/-- **Builds of one rank.**  Let a manager have come to where it is by any history, be bound to a
mesh that any calls put together, and have nobody to talk to.

* Its build succeeds if and only if all blocks that fields were registered for are declared and the
  fields on each declared block suit its cell.
* If it fails, the smallest block that a field was registered for without being declared is blamed;
  if all of them are declared, the smallest block whose fields do not suit its cell is, with the
  first of its fields that has another cell; where there is none, one that does not number its
  unknowns is blamed, or the rank is stopped because memory has no room for what a pattern declares
  or because the cell cannot be counted.
* If the patterns in effect were built for a cell, then they suit a block if its cell is the one they
  were built for, and nothing else can be blamed. -/
theorem serial_build (h : Reached config events m) {calls : List Call}
    (hbinding : m.binding = some ⟨(AssembledMesh.empty.after calls).toMesh, Seat.solitary⟩) :
    let mesh := (AssembledMesh.empty.after calls).toMesh
    (m.build.alone.outcome = .ok () ↔ ScopesDeclared events mesh ∧
      ∀ block cell, mesh.blockCell block = some cell → m.Suits block cell) ∧
    (∀ e, m.build.alone.outcome = .error e →
      (∃ block, FirstUndeclared events mesh block ∧ e = .unknownBlock block) ∨
      ScopesDeclared events mesh ∧
        ∃ block cell, mesh.FirstUnfit m.Suits block cell ∧ m.Blamed block cell e) ∧
    (m.PatternsBuilt →
      (m.build.alone.outcome = .ok () ↔ ScopesDeclared events mesh ∧
        ∀ block cell, mesh.blockCell block = some cell → m.CellsMatch block cell) ∧
      ∀ e, m.build.alone.outcome = .error e →
        (∃ block, FirstUndeclared events mesh block ∧ e = .unknownBlock block) ∨
        ScopesDeclared events mesh ∧ ∃ block cell field p name,
          mesh.FirstUnfit m.CellsMatch block cell ∧ m.FirstMismatch block cell field p ∧
          m.fieldName field = .ok name ∧
          e = .patternMismatch block (.name name) (.notOnBlock p.cell cell)) := by
  intro mesh
  have hok := outcome_serial_eq_ok_iff h hbinding
  refine ⟨hok, fun e => blamed_of_outcome_serial h hbinding, fun hbuilt => ⟨?_, fun e he => ?_⟩⟩
  · rwa [hbuilt.suits_eq] at hok
  · rcases blamed_of_outcome_serial h hbinding he with
      hundeclared | ⟨hdeclared, block, cell, hunfit, hblamed⟩
    · exact .inl hundeclared
    · obtain ⟨field, p, name, hmismatch, hname, rfl⟩ := hbuilt.of_blamed hblamed
      rw [hbuilt.suits_eq] at hunfit
      exact .inr ⟨hdeclared, block, cell, field, p, name, hunfit, hmismatch, hname, rfl⟩

end Manager

/-! ### One segment -/

namespace Solo

open Manager

/-- One segment between two nodes. -/
def calls : List Call := [.addBlock 0 .segment, .addElementFromNodes 0 [1, 2] 100]

/-- A rank binds it and registers a field for all blocks, or for one. -/
def history (scope : Option BlockId) (p : FieldPattern) : List Event :=
  [.bind (AssembledMesh.empty.after calls).toMesh Seat.solitary, .register scope "u" p (.ok 0)]

/-- The manager of this rank. -/
def manager (scope : Option BlockId) (p : FieldPattern) : Manager :=
  let m := Manager.new ⟨.standard, true⟩
  let m := m.bind (AssembledMesh.empty.after calls).toMesh Seat.solitary
  match m.addTo scope "u" p with
  | .ok (_, m) => m
  | .error _ => m

theorem reached_manager (scope : Option BlockId) (p : FieldPattern) :
    Reached ⟨.standard, true⟩ (history scope p) (manager scope p) :=
  (Reached.new.step (.bind ..)).step (.register (by cases scope <;> rfl))

theorem binding_manager (scope : Option BlockId) (p : FieldPattern) :
    (manager scope p).binding = some ⟨(AssembledMesh.empty.after calls).toMesh, Seat.solitary⟩ := by
  cases scope <;> rfl

theorem eq_segment {block : BlockId} {cell : Cell}
    (h : (AssembledMesh.empty.after calls).toMesh.blockCell block = some cell) : cell = .segment := by
  obtain ⟨b, hb, rfl⟩ := Option.map_eq_some_iff.1 h
  have hmem : (block, b) ∈ [((0 : BlockId), (⟨.segment, [0]⟩ : Block))] := Table.mem_entries_iff.2 hb
  rw [(Prod.mk.inj (List.mem_singleton.1 hmem)).2]

/-- The field is in effect everywhere. -/
theorem fieldPattern?_manager {p q : FieldPattern} {block : BlockId} {field : Nat}
    (h : (manager none p).fieldPattern? block field = some q) : q = p := by
  have hget : (manager none p).fieldPattern? block field = if field = 0 then some p else none :=
    Table.get?_insert ..
  rw [hget] at h
  exact (Option.some.inj (Option.ite_none_right_eq_some.1 h).2).symm

/-- A field for one block names this block. -/
theorem registeredFor_iff {scope : Option BlockId} {p : FieldPattern} {block : BlockId} :
    RegisteredFor (history scope p) block ↔ scope = some block := by
  simp [RegisteredFor, history, eq_comm]

end Solo

namespace Manager

open Solo

/-- A field on all blocks is numbered on a segment, and one for a block that is not declared is
refused. -/
theorem serial_build_solo :
    (manager none BlockLayout.cubic).build.alone.outcome = .ok () ∧
      (manager (some 7) BlockLayout.cubic).build.alone.outcome = .error (.unknownBlock 7) := by
  constructor
  · obtain ⟨-, -, hbuilt⟩ :=
      serial_build (reached_manager none BlockLayout.cubic) (binding_manager ..)
    have hpatterns : (manager none BlockLayout.cubic).PatternsBuilt := fun block field p hp =>
      ⟨.segment, fieldPattern?_manager hp ▸ .inl ⟨[1, 2], by decide +kernel⟩⟩
    refine (hbuilt hpatterns).1.2 ⟨fun block hblock => ?_, fun block cell hcell field p hp => ?_⟩
    · cases registeredFor_iff.1 hblock
    · rw [fieldPattern?_manager hp, eq_segment hcell]
      rfl
  · obtain ⟨hok, herror, -⟩ :=
      serial_build (reached_manager (some 7) BlockLayout.cubic) (binding_manager ..)
    have hundeclared : ¬ScopesDeclared (history (some 7) BlockLayout.cubic)
        (AssembledMesh.empty.after calls).toMesh :=
      fun h => absurd (h 7 (registeredFor_iff.2 rfl)) (by decide)
    cases houtcome : (manager (some 7) BlockLayout.cubic).build.alone.outcome with
    | ok u => exact absurd (hok.1 houtcome).1 hundeclared
    | error e =>
      rcases herror e houtcome with ⟨block, hfirst, rfl⟩ | ⟨hdeclared, -⟩
      · rw [Option.some.inj (registeredFor_iff.1 hfirst.registered)]
      · exact absurd hdeclared hundeclared

end Manager

end Unknowns
