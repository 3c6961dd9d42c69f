import Unknowns.Proofs.Build.Crew
import Unknowns.Proofs.Field.Layout
import Unknowns.Proofs.World.Replies

/-!
# What operations leave of a manager

* `Manager.leaves_of_comes`: a build, whatever comes from the peers, changes nothing but the
  result; there is one only if the build succeeds, and its layouts are those of the fields on the
  mesh that is bound;
* `Manager.registers_of_addTo`: a registration names a field and gives it its pattern;
* `Manager.addTo_eq_error_iff`: when a registration is refused.
-/

namespace Unknowns

/-- Only the empty name is refused. -/
theorem Registry.register_eq_error_iff {r : Registry} {name : String} {e : Error} :
    r.register name = .error e ↔ name = "" ∧ e = .emptyFieldName := by
  unfold register
  by_cases hname : name = ""
  · simp [hname, eq_comm]
  · cases r.byName.get? name <;> simp [hname]

namespace Manager

variable {m m' : Manager}

/-! ### What a build leaves -/

theorem layouts_of_finish {tags : Tags} {seat : Seat} {p : Prepared} {numbering : Numbering}
    {b : Built} (h : Rounds.Comes (finish tags seat p numbering).run (.ok b)) :
    b.layouts = p.layouts := by
  obtain ⟨_, -, h⟩ := Rounds.comes_ok_bind_iff.1 h
  obtain ⟨_, -, h⟩ := Rounds.comes_ok_bind_iff.1 h
  obtain ⟨_, -, h⟩ := Rounds.comes_ok_bind_iff.1 h
  cases h
  rfl

/-- The layouts of a result are those that were prepared. -/
theorem layouts_of_complete {home : HomeRule} {tags : Tags} {binding : Binding} {p : Prepared}
    {b : Built} {log : List LogLine}
    (h : Rounds.Comes (complete home tags binding p) (.ok b, log)) : b.layouts = p.layouts := by
  obtain ⟨numbering, -, h⟩ := Rounds.comes_bind_iff.1 h
  cases numbering with
  | error e => cases h
  | ok numbering =>
    obtain ⟨built, hbuilt, h⟩ := Rounds.comes_bind_iff.1 h
    cases built with
    | error e => cases h
    | ok built =>
      cases h
      exact layouts_of_finish hbuilt

theorem patternPhase_of_prepare {binding : Binding} {p : Prepared}
    (h : (m.prepare binding).1 = .ok p) : m.patternPhase binding.mesh = .ok p.layouts := by
  unfold prepare at h
  split at h
  · cases h
  · next layouts hlayouts =>
    cases hkeys : connectivityPhase binding.mesh layouts with
    | error e =>
      rw [hkeys] at h
      cases h
    | ok keys =>
      rw [hkeys] at h
      cases h
      exact hlayouts

/-- A manager without a mesh does not talk to its peers. -/
theorem build_eq_of_none (h : m.binding = none) :
    m.build = .done ⟨m.discard, .error .noMesh, []⟩ := by
  have hbinding : m.discard.binding = none := h
  unfold build buildWith
  dsimp only
  rw [hbinding]
  rfl

/-- What a build leaves of a manager, whatever came from the peers. -/
structure Leaves (m : Manager) (report : Report) : Prop where
  /-- Nothing but the result changes, and nothing is kept of maps and graphs. -/
  manager : report.manager = { m.discard with built := report.manager.built }
  isOk : report.outcome.isOk = report.manager.built.isSome
  /-- The layouts are those of the fields on the mesh that is bound. -/
  layouts : ∀ b, report.manager.built = some b →
    ∃ binding, m.binding = some binding ∧ m.patternPhase binding.mesh = .ok b.layouts

theorem Leaves.sameFields {report : Report} (h : m.Leaves report) : report.manager.SameFields m := by
  rw [h.manager]
  exact ⟨rfl, rfl, rfl⟩

theorem leaves_error (m : Manager) (e : Error) (log : List LogLine) :
    m.Leaves ⟨m.discard, .error e, log⟩ :=
  ⟨rfl, rfl, fun _ hb => by cases hb⟩

/-- **Whatever comes from the peers, a build leaves a result only if it succeeds**, and else there
is none. -/
theorem leaves_of_comes {report : Report} (h : Rounds.Comes m.build report) : m.Leaves report := by
  -- Each way out of a build but the last one leaves an error and no result.
  cases hbinding : m.binding with
  | none =>
    rw [build_eq_of_none hbinding, Rounds.comes_done_iff] at h
    subst h
    exact m.leaves_error ..
  | some binding =>
    rw [build_eq_ite hbinding] at h
    split at h
    · next hstopped =>
      cases hprepare : (m.prepare binding).1 with
      | ok p =>
        rw [hprepare] at hstopped
        cases hstopped
      | error e =>
        rw [hprepare] at h
        cases h
        exact m.leaves_error ..
    obtain ⟨ready, -, h⟩ := Rounds.comes_bind_iff.1 h
    unfold proceed at h
    split at h
    · cases h
      exact m.leaves_error ..
    · cases h
      exact m.leaves_error ..
    · next p hp =>
      obtain ⟨⟨outcome, more⟩, hcomplete, h⟩ := Rounds.comes_bind_iff.1 h
      cases outcome with
      | error e =>
        cases h
        exact m.leaves_error ..
      | ok b =>
        cases h
        refine ⟨rfl, rfl, fun b' hb => ⟨binding, hbinding, ?_⟩⟩
        obtain rfl : b = b' := Option.some.inj hb
        rw [layouts_of_complete hcomplete]
        exact patternPhase_of_prepare hp

/-! ### What a registration leaves -/

/-- Registers a field for all blocks, or for one. -/
def addTo (m : Manager) (scope : Option BlockId) (name : String) (pattern : FieldPattern) :
    Except Error (Nat × Manager) :=
  match scope with
  | none => m.addField name pattern
  | some block => m.addFieldToBlock block name pattern

/-- The pattern that a field was registered with for all blocks, or for one. -/
def patternIn? (m : Manager) (scope : Option BlockId) (field : Nat) : Option FieldPattern :=
  match scope with
  | none => m.globalPatterns.get? field
  | some block => (m.blockPatterns.get? block).bind (·.get? field)

/-- What is in effect on a block is what was registered for it, or else for all blocks. -/
theorem fieldPattern?_eq_or (m : Manager) (block : BlockId) (field : Nat) :
    m.fieldPattern? block field = (m.patternIn? (some block) field).or (m.patternIn? none field) := by
  unfold fieldPattern?
  show _ = ((m.blockPatterns.get? block).bind (·.get? field)).or _
  cases (m.blockPatterns.get? block).bind (·.get? field) <;> rfl

/-- A registration names a field and gives it its pattern, and nothing else. -/
structure Registers (m : Manager) (scope : Option BlockId) (name : String) (pattern : FieldPattern)
    (num : Nat) (m' : Manager) : Prop where
  unbuilt : m.built = none
  registry : m.registry.register name = .ok (num, m'.registry)
  patternIn? : ∀ scope' field, m'.patternIn? scope' field =
    if scope' = scope ∧ field = num then some pattern else m.patternIn? scope' field
  others : m' = { m with
    registry := m'.registry
    globalPatterns := m'.globalPatterns
    blockPatterns := m'.blockPatterns }

theorem register_eq_ok_iff {name : String} {num : Nat} :
    m.register name = .ok (num, m') ↔ m.built = none ∧
      m.registry.register name = .ok (num, m'.registry) ∧ m' = { m with registry := m'.registry } := by
  unfold register
  cases hb : m.built with
  | some b => simp
  | none =>
    rw [Option.isSome_none, if_neg Bool.false_ne_true]
    simp only [bind_eq_ok_iff, Prod.exists, Except.ok.injEq, Prod.mk.injEq]
    constructor
    · rintro ⟨num, registry, hregister, rfl, rfl⟩
      exact ⟨trivial, hregister, rfl⟩
    · rintro ⟨-, hregister, hm'⟩
      exact ⟨num, m'.registry, hregister, rfl, hm'.symm⟩

theorem registers_of_addTo {scope : Option BlockId} {name : String} {pattern : FieldPattern}
    {num : Nat} (h : m.addTo scope name pattern = .ok (num, m')) :
    m.Registers scope name pattern num m' := by
  cases scope with
  | none =>
    obtain ⟨⟨k, m₁⟩, hregister, h⟩ := bind_eq_ok_iff.1 h
    obtain ⟨rfl, rfl⟩ := Prod.mk.inj (Except.ok.inj h)
    obtain ⟨hbuilt, hregistry, hm₁⟩ := register_eq_ok_iff.1 hregister
    refine ⟨hbuilt, hregistry, fun scope' field => ?_, by rw [hm₁]⟩
    rw [hm₁]
    cases scope' with
    | none =>
      show (m.globalPatterns.insert k pattern).get? field = _
      rw [Table.get?_insert]
      simp [patternIn?]
    | some b => simp [patternIn?]
  | some block =>
    obtain ⟨⟨k, m₁⟩, hregister, h⟩ := bind_eq_ok_iff.1 h
    obtain ⟨rfl, rfl⟩ := Prod.mk.inj (Except.ok.inj h)
    obtain ⟨hbuilt, hregistry, hm₁⟩ := register_eq_ok_iff.1 hregister
    refine ⟨hbuilt, hregistry, fun scope' field => ?_, by rw [hm₁]⟩
    rw [hm₁]
    cases scope' with
    | none => simp [patternIn?]
    | some b =>
      show ((m.blockPatterns.update block _).get? b).bind (·.get? field) = _
      rw [Table.get?_update]
      by_cases hb : b = block
      · subst hb
        have hempty : (∅ : Table Nat FieldPattern).get? field = none := rfl
        cases hold : m.blockPatterns.get? b <;> simp [patternIn?, hold, hempty]
      · simp [patternIn?, hb]

/-- The blocks with fields of their own are those that fields were registered for. -/
theorem mem_blockPatterns_of_addTo {scope : Option BlockId} {name : String} {pattern : FieldPattern}
    {num : Nat} (h : m.addTo scope name pattern = .ok (num, m')) {block : BlockId} :
    block ∈ m'.blockPatterns.keys ↔ block ∈ m.blockPatterns.keys ∨ scope = some block := by
  cases scope with
  | none =>
    obtain ⟨⟨k, m₁⟩, hregister, h⟩ := bind_eq_ok_iff.1 h
    obtain ⟨rfl, rfl⟩ := Prod.mk.inj (Except.ok.inj h)
    obtain ⟨-, -, hm₁⟩ := register_eq_ok_iff.1 hregister
    rw [hm₁]
    simp
  | some own =>
    obtain ⟨⟨k, m₁⟩, hregister, h⟩ := bind_eq_ok_iff.1 h
    obtain ⟨rfl, rfl⟩ := Prod.mk.inj (Except.ok.inj h)
    obtain ⟨-, -, hm₁⟩ := register_eq_ok_iff.1 hregister
    rw [hm₁]
    show block ∈ (m.blockPatterns.update own _).keys ↔ _
    rw [Table.mem_keys_iff, Table.mem_keys_iff, Table.get?_update]
    by_cases hblock : block = own
    · simp [hblock]
    · simp [hblock, Ne.symm hblock]

theorem register_eq_error_iff {name : String} {e : Error} :
    m.register name = .error e ↔
      m.built.isSome ∧ e = .alreadyBuilt name ∨
        m.built = none ∧ name = "" ∧ e = .emptyFieldName := by
  unfold register
  cases m.built with
  | some b => simp [eq_comm]
  | none =>
    rw [Option.isSome_none, if_neg Bool.false_ne_true, bind_eq_error_iff,
      Registry.register_eq_error_iff]
    simp

/-- **When a registration is refused**, and with which error. -/
theorem addTo_eq_error_iff {scope : Option BlockId} {name : String} {pattern : FieldPattern}
    {e : Error} :
    m.addTo scope name pattern = .error e ↔
      m.built.isSome ∧ e = .alreadyBuilt name ∨
        m.built = none ∧ name = "" ∧ e = .emptyFieldName := by
  rw [← register_eq_error_iff]
  cases scope <;> exact bind_eq_error_iff.trans (by simp)

end Manager

end Unknowns
