import Unknowns.Proofs.Build.Refusals

/-!
# All ranks build or none does

* `build_all_or_none`: where no rank is stopped, a rank whose own phases fail ends
  with its own error and all others learn which ranks failed; where no phase fails,
  but the fields of a rank are not those of rank 0, all ranks end with the same
  error; and otherwise all ranks succeed.
* `Manager.Cleared`: what a failed build leaves of a manager, whatever an earlier
  build had left.
* `build_waits_in_vain`: a rank that is stopped leaves the others waiting.
-/

namespace Unknowns

namespace Manager

/-- `m'` has the fields and the binding of `m` and no result of any build: whatever asks for one is
told that there is none. -/
structure Cleared (m m' : Manager) : Prop where
  registry : m'.registry = m.registry
  globalPatterns : m'.globalPatterns = m.globalPatterns
  blockPatterns : m'.blockPatterns = m.blockPatterns
  binding : m'.binding = m.binding
  isBuilt : m'.isBuilt = false
  elementGids : ∀ element, m'.elementGids element = .error .notBuilt
  map : map.run m' = (.error .notBuilt, m')
  overlapMap : overlapMap.run m' = (.error .notBuilt, m')
  graph : graph.run m' = (.error .notBuilt, m')
  overlapGraph : overlapGraph.run m' = (.error .notBuilt, m')

theorem cleared_discard (m : Manager) : m.Cleared m.discard :=
  ⟨rfl, rfl, rfl, rfl, rfl, fun _ => rfl, rfl, rfl, rfl, rfl⟩

end Manager

namespace Crew

open Negotiation

variable {c : Crew}

/-- The ranks whose own phases fail, ascending. -/
def failing (c : Crew) : List Nat := failed c.count c.outcome

theorem mem_failing {r : Nat} : r ∈ c.failing ↔ r < c.count ∧ ∃ e, c.phases r = .error e := by
  rw [failing, mem_failed, outcome]
  cases c.phases r <;> simp [Except.map, Except.isOk, Except.toBool]

/-- A world that can be told in 32 bits has room for the statuses of all. -/
theorem statuses_fit (h : c.count < 2 ^ 32) : c.count * Record.width Status < memoryBound := by
  have hbound : memoryBound = 2 ^ 63 := by decide
  have hwidth : Record.width Status = 16 := rfl
  rw [hbound, hwidth]
  omega

theorem agreed_of_failing (h : c.count < 2 ^ 32) (hne : c.failing ≠ []) (r : Nat) :
    c.agreed r = match c.phases r with
      | .error e => .error e
      | .ok _ => .error (.peerFailure c.failing) := by
  rw [agreed, agreed_eq (statuses_fit h), outcome]
  cases c.phases r with
  | error e => rfl
  | ok p => exact if_pos hne

theorem agreed_of_ready (h : c.count < 2 ^ 32) (hnil : c.failing = []) {r : Nat}
    (hr : r < c.count) :
    c.agreed r =
      if c.config.checkRegistrations then
        match differing? c.count c.fingerprint with
        | some d => .error (.registrationMismatch d)
        | none => .ok ()
      else .ok () := by
  have hphases : ∃ p, c.phases r = .ok p := by
    cases hphases : c.phases r with
    | ok p => exact ⟨p, rfl⟩
    | error e =>
      have hmem := mem_failing.2 ⟨hr, e, hphases⟩
      rw [hnil] at hmem
      cases hmem
  obtain ⟨p, hp⟩ := hphases
  rw [agreed, agreed_eq (statuses_fit h), outcome, hp]
  exact if_neg fun hne => hne hnil

theorem manager_report (r : Nat) :
    (c.report r).manager = match c.agreed r with
      | .error _ => (c.manager r).discard
      | .ok () => { (c.manager r).discard with built := some (c.built r) } := by
  unfold report
  cases c.agreed r <;> rfl

/-- **All ranks build or none does.**  In every world of fewer than 2³² bound managers with one
configuration for all, no rank is stopped if memory has room for what the patterns declare and the
sub-entities of their cells can be counted.  If no rank is stopped, a build of all ranks ends at
every rank and leaves no message behind.

* Where the phases of some ranks fail, each of these ends with its own error and the others with
  the list of all of them.
* Where none fails, but fields are compared and differ, all ranks end with the lowest rank whose
  fields are not those of rank 0.
* Otherwise all ranks succeed.

A rank that does not succeed keeps its fields and its binding, and no result of an earlier build.

If some rank is stopped, no rank builds either, but a build need not come to an end. -/
theorem build_all_or_none (c : Crew) (hcount : c.count < 2 ^ 32) (hfits : c.Ready → c.Fits) :
    ((∀ r < c.count, (c.manager r).Roomy (c.mesh r)) → c.Steady) ∧
    (c.Steady → ∃ report : Nat → Manager.Report,
      World.run [] ((List.range c.count).map fun r => (c.manager r).build) =
        some ((List.range c.count).map report, []) ∧
      ((∀ r < c.count, (report r).outcome = .ok ()) ∨ ∀ r < c.count, (report r).outcome ≠ .ok ()) ∧
      (c.failing ≠ [] → ∀ r < c.count,
        (report r).outcome = match c.phases r with
          | .error e => .error e
          | .ok _ => .error (.peerFailure c.failing)) ∧
      (c.failing = [] → c.config.checkRegistrations = true →
        ∀ d < c.count, c.fingerprint d ≠ c.fingerprint 0 →
          (∀ s < d, c.fingerprint s = c.fingerprint 0) →
          ∀ r < c.count, (report r).outcome = .error (.registrationMismatch d)) ∧
      (c.failing = [] →
        (c.config.checkRegistrations = true → ∀ s < c.count, c.fingerprint s = c.fingerprint 0) →
        ∀ r < c.count, (report r).outcome = .ok () ∧ (report r).manager.isBuilt = true) ∧
      ∀ r < c.count, ∀ e, (report r).outcome = .error e →
        (c.manager r).Cleared (report r).manager) ∧
    (¬c.Steady → ∀ reports box,
      World.run [] ((List.range c.count).map fun r => (c.manager r).build) = some (reports, box) →
        ∀ report ∈ reports, report.outcome ≠ .ok ()) := by
  refine ⟨steady_of_roomy, fun hsteady => ⟨c.report,
    run_build hsteady hfits (Parties.named_of_count_lt hcount _), ?_, fun hne r _ => ?_,
    fun hnil hcheck d hd hdiffers hlowest r hr => ?_, fun hnil hagree r hr => ?_,
    fun r _ e he => ?_⟩, fun hnot reports box hrun => outcome_ne_ok_of_not_steady hnot hrun⟩
  · simp only [outcome_report]
    by_cases hready : c.Ready
    · exact .inl hready
    · exact .inr fun r hr hagreed => hready (ready_of_agreed hr hagreed)
  · rw [outcome_report, agreed_of_failing hcount hne]
  · rw [outcome_report, agreed_of_ready hcount hnil hr, if_pos hcheck,
      differing?_eq_some_iff.2 ⟨hd, hdiffers, hlowest⟩]
  · have hagreed : c.agreed r = .ok () := by
      rw [agreed_of_ready hcount hnil hr]
      by_cases hcheck : c.config.checkRegistrations = true
      · rw [if_pos hcheck, differing?_eq_none_iff.2 (hagree hcheck)]
      · exact if_neg hcheck
    rw [outcome_report, manager_report, hagreed]
    exact ⟨rfl, rfl⟩
  · rw [outcome_report] at he
    rw [manager_report, he]
    exact (c.manager r).cleared_discard

end Crew

/-! ### Two bars, and one of them with too large a pattern -/

namespace Bars

theorem fieldPattern?_manager {n r : Nat} {block : BlockId} {field : Nat} {p : FieldPattern}
    (h : (manager n r).fieldPattern? block field = some p) : p = nodal := by
  have hget : (manager n r).fieldPattern? block field = if field = 0 then some nodal else none :=
    Table.get?_insert ..
  rw [hget] at h
  exact (Option.some.inj (Option.ite_none_right_eq_some.1 h).2).symm

theorem roomy_manager (n r : Nat) : (manager n r).Roomy (mesh r) := by
  intro block _ field p hp
  rw [fieldPattern?_manager hp]
  decide

/-- A pattern that declares so many unknowns that memory has no room for them, and has two. -/
def greedy : FieldPattern := .tabulated ⟨.segment, 2 ^ 61, [[[0], [1]], [[]]]⟩

/-- Two bars that share a node, of which rank 0 has too large a pattern. -/
def unequal : Crew :=
  { crew 2 with
    manager := fun r =>
      { manager 2 r with
        globalPatterns := Table.tabulate [0] fun _ => if r = 0 then greedy else nodal }
    checked := .inl fun _ _ => rfl }

theorem not_numbers_greedy : ¬greedy.Numbers := by
  intro h
  have hlength := h.length_eq
  rw [List.length_range, show greedy.dofs.length = 2 from rfl] at hlength
  exact absurd hlength (by decide)

theorem merge_greedy :
    BlockLayout.merge ((unequal.manager 0).blockFields 1).entries = .error .outOfMemory := by
  have hentries : ((unequal.manager 0).blockFields 1).entries = [(0, greedy)] := rfl
  have hmem : (0, greedy) ∈ ((unequal.manager 0).blockFields 1).entries := hentries ▸ by simp
  have hcells : ∀ f ∈ ((unequal.manager 0).blockFields 1).entries, f.2.cell = .segment := by
    intro f hf
    rw [hentries, List.mem_singleton] at hf
    obtain rfl := hf
    rfl
  exact BlockLayout.merge_eq_outOfMemory hcells (by decide) hmem not_numbers_greedy hmem (by decide)

theorem phases_unequal : unequal.phases 0 = .error .outOfMemory := by
  have hcell : (mesh 0).blockCell 1 = some .segment := rfl
  have hlayout : (unequal.manager 0).layoutOf (mesh 0) 1 = .error .outOfMemory := by
    rw [Manager.layoutOf_eq hcell rfl, merge_greedy]
    rfl
  have hlayouts : (unequal.manager 0).layoutsOf (mesh 0) (ascending (mesh 0).blockIds) =
      .error .outOfMemory := bind_eq_error_iff.2 (.inl hlayout)
  have hphase : (unequal.manager 0).patternPhase (mesh 0) = .error .outOfMemory :=
    bind_eq_error_iff.2 (.inr ⟨(), rfl, bind_eq_error_iff.2 (.inl hlayouts)⟩)
  exact bind_eq_error_iff.2 (.inl hphase)

end Bars

namespace Crew

/-- Two bars that share a node are built. -/
theorem build_all_or_none_bars :
    (∀ r < 2, (Bars.manager 2 r).Roomy (Bars.mesh r)) ∧
      ((Bars.crew 2).Ready → (Bars.crew 2).Fits) ∧
      ∃ report : Nat → Manager.Report,
        World.run [] [(Bars.manager 2 0).build, (Bars.manager 2 1).build] =
          some ([report 0, report 1], []) ∧
        (report 0).outcome = .ok () ∧ (report 1).outcome = .ok () := by
  have hfits : (Bars.crew 2).Ready → (Bars.crew 2).Fits := fun _ => Bars.fits_two
  obtain ⟨hsteady, hbuild, -⟩ := build_all_or_none (Bars.crew 2) (by decide) hfits
  have hroomy : ∀ r < 2, (Bars.manager 2 r).Roomy (Bars.mesh r) :=
    fun r _ => Bars.roomy_manager 2 r
  obtain ⟨report, hrun, -, -, -, hbuilt, -⟩ := hbuild (hsteady hroomy)
  have hnil : (Bars.crew 2).failing = [] := rfl
  have hagree := hbuilt hnil fun _ _ _ => rfl
  exact ⟨hroomy, hfits, report, hrun, (hagree 0 (by decide)).1, (hagree 1 (by decide)).1⟩

/-- **A rank that is stopped leaves the others waiting.**  The phases of rank 0 fail and those of
rank 1 do not; but rank 0 is stopped, so a build of both ranks never comes to an end. -/
theorem build_waits_in_vain :
    Bars.unequal.count < 2 ^ 32 ∧ Bars.unequal.failing = [0] ∧
      Bars.unequal.phases 0 = .error .outOfMemory ∧ (Bars.unequal.phases 1).isOk ∧
      World.run [] [(Bars.unequal.manager 0).build, (Bars.unequal.manager 1).build] = none := by
  have hzero := Bars.phases_unequal
  have hone : (Bars.unequal.phases 1).isOk = true := rfl
  have hfailing : Bars.unequal.failing = [0] := by
    have houtcome : (Bars.unequal.outcome 0).isOk = false := by
      rw [outcome, hzero]
      rfl
    show (List.range 2).filter (fun r => !(Bars.unequal.outcome r).isOk) = [0]
    rw [List.range_succ, List.range_one, List.singleton_append,
      List.filter_cons_of_pos (by rw [houtcome]; rfl)]
    rfl
  refine ⟨by decide, hfailing, hzero, hone, ?_⟩
  exact run_eq_none_of_stopped (c := Bars.unequal) (r := 0) (s := 1) (by decide) (by decide)
    (by rw [hzero]; rfl) rfl (by decide) []

end Crew

end Unknowns
