import Unknowns.Proofs.Build.Ids
import Unknowns.Proofs.Build.Series
import Unknowns.Proofs.Manager.Answers
import Unknowns.Proofs.Manager.Operations

/-!
# The history of a manager

The life of a manager is a list of events: meshes are bound and unbound, builders
taken, fields registered or refused, builds attempted, maps and graphs asked for.
`Manager.Reached config events m` says that such a history leaves `m` of a new
manager, whatever came from its peers while it built.

Each event replaces some parts of the manager without regard to what they were, and
leaves the others alone (`Manager.Step.effect`).  So a part of a manager is what the
latest event left that touches it (`Manager.Reached.eq_latest`).
-/

namespace Unknowns

/-- The latest value that the members of a list have to give. -/
def latest? {α β : Type} (f : α → Option β) (xs : List α) : Option β := (xs.filterMap f).getLast?

theorem latest?_append_singleton {α β : Type} (f : α → Option β) (xs : List α) (x : α) :
    latest? f (xs ++ [x]) = (f x).or (latest? f xs) := by
  rw [latest?, List.filterMap_append, List.getLast?_append]
  cases hx : f x <;> simp [hx, latest?]

namespace Manager

/-- What happens to a manager. -/
inductive Event where
  | bind (mesh : Mesh) (seat : Seat)
  | reset
  | setBuilder (builder : Builder)
  /-- A field is registered for all blocks or for one, or this is refused. -/
  | register (scope : Option BlockId) (name : String) (pattern : FieldPattern)
      (outcome : Except Error Nat)
  | build (product : Product)
  | ask (q : Question)

namespace Event

/-- The builder that is taken. -/
def builder? : Event → Option Builder
  | setBuilder builder => some builder
  | _ => none

/-- The result that is left, if results are touched at all. -/
def built? : Event → Option (Option Built)
  | bind _ _ => some none
  | reset => some none
  | build product => some product.built
  | _ => none

/-- Whether a build succeeded; binding and unbinding a mesh count as builds that fail. -/
def succeeds? : Event → Option Bool
  | bind _ _ => some false
  | reset => some false
  | build product => some product.outcome.isOk
  | _ => none

/-- The name that is registered and its number. -/
def field? : Event → Option (String × Nat)
  | register _ name _ (.ok num) => some (name, num)
  | _ => none

/-- The pattern that is registered for a field. -/
def pattern? (scope : Option BlockId) (field : Nat) : Event → Option FieldPattern
  | register scope' _ pattern (.ok num) => if scope = scope' ∧ field = num then some pattern else none
  | _ => none

end Event

variable {config : Config} {events : List Event} {e : Event} {m m' : Manager}

/-- One event.  A registration that is refused leaves the manager as it was; a build may go as the
peers like. -/
inductive Step (m : Manager) : Event → Manager → Prop
  | bind (mesh : Mesh) (seat : Seat) : Step m (.bind mesh seat) (m.bind mesh seat)
  | reset : Step m .reset m.reset.2
  | setBuilder (builder : Builder) : Step m (.setBuilder builder) (m.setBuilder builder)
  | register {scope : Option BlockId} {name : String} {pattern : FieldPattern} {num : Nat}
      {m' : Manager} (h : m.addTo scope name pattern = .ok (num, m')) :
    Step m (.register scope name pattern (.ok num)) m'
  | refuse {scope : Option BlockId} {name : String} {pattern : FieldPattern} {error : Error}
      (h : m.addTo scope name pattern = .error error) :
    Step m (.register scope name pattern (.error error)) m
  | build {report : Report} (h : Rounds.Comes m.build report) :
    Step m (.build report.product) report.manager
  | ask (q : Question) : Step m (.ask q) (q.query.run m).2

/-- A manager that a history leaves. -/
inductive Reached (config : Config) : List Event → Manager → Prop
  | new : Reached config [] (.new config)
  | step {events : List Event} {m : Manager} {e : Event} {m' : Manager}
      (h : Reached config events m) (hstep : m.Step e m') : Reached config (events ++ [e]) m'

/-- What an event does to each part of a manager. -/
structure Effect (m : Manager) (e : Event) (m' : Manager) : Prop where
  config : m'.config = m.config
  builder : m'.builder = e.builder?.getD m.builder
  built : m'.built = e.built?.getD m.built
  isSome_built : m'.built.isSome = e.succeeds?.getD m.built.isSome
  patternIn? : ∀ scope field,
    m'.patternIn? scope field = (e.pattern? scope field).or (m.patternIn? scope field)
  registry : ∀ name num, e.field? = some (name, num) →
    m.registry.register name = .ok (num, m'.registry)
  sameFields : e.field? = none → m'.SameFields m
  current : m'.Current

/-- An event that registers nothing leaves all patterns as they were. -/
theorem effect_of_frame (hm : m'.Current) (hconfig : m'.config = m.config)
    (hbuilder : m'.builder = e.builder?.getD m.builder) (hbuilt : m'.built = e.built?.getD m.built)
    (hsome : m'.built.isSome = e.succeeds?.getD m.built.isSome) (hfields : m'.SameFields m)
    (hfield : e.field? = none) (hpattern : ∀ scope field, e.pattern? scope field = none) :
    Effect m e m' := by
  refine ⟨hconfig, hbuilder, hbuilt, hsome, fun scope field => ?_, fun name num hnamed => ?_,
    fun _ => hfields, hm⟩
  · rw [hpattern, Option.none_or]
    cases scope with
    | none => exact congrArg (·.get? field) hfields.globalPatterns
    | some block => exact congrArg (fun t => (t.get? block).bind (·.get? field)) hfields.blockPatterns
  · rw [hfield] at hnamed
    cases hnamed

/-- **What an event does.** -/
theorem Step.effect (h : m.Step e m') (hm : m.Current) : Effect m e m' := by
  cases h with
  | bind mesh seat =>
    exact effect_of_frame (current_of_empty rfl) rfl rfl rfl rfl ⟨rfl, rfl, rfl⟩ rfl fun _ _ => rfl
  | reset =>
    exact effect_of_frame (current_of_empty rfl) rfl rfl rfl rfl ⟨rfl, rfl, rfl⟩ rfl fun _ _ => rfl
  | setBuilder builder =>
    exact effect_of_frame (current_of_empty rfl) rfl rfl rfl rfl ⟨rfl, rfl, rfl⟩ rfl fun _ _ => rfl
  | refuse h =>
    exact effect_of_frame hm rfl rfl rfl rfl ⟨rfl, rfl, rfl⟩ rfl fun _ _ => rfl
  | @build report h =>
    have hleaves := leaves_of_comes h
    refine effect_of_frame (current_of_empty ?_) ?_ ?_ rfl hleaves.isOk.symm hleaves.sameFields rfl
      fun _ _ => rfl
    all_goals
      rw [hleaves.manager]
      rfl
  | ask q =>
    obtain ⟨cache, hrun, hcurrent⟩ := answers_query hm q
    rw [hrun]
    exact effect_of_frame hcurrent rfl rfl rfl rfl ⟨rfl, rfl, rfl⟩ rfl fun _ _ => rfl
  | @register scope name pattern num m' h =>
    obtain ⟨-, hregistry, hpattern, hothers⟩ := registers_of_addTo h
    have hbuilt : m'.built = m.built := by rw [hothers]
    have hbuilder : m'.builder = m.builder := by rw [hothers]
    refine ⟨by rw [hothers], hbuilder, hbuilt, congrArg _ hbuilt, fun scope' field => ?_, ?_,
      fun hnone => ?_, hm.congr (by rw [hothers]) hbuilt hbuilder⟩
    · rw [hpattern, Event.pattern?]
      split <;> rfl
    · rintro _ _ ⟨⟩
      exact hregistry
    · cases hnone

namespace Reached

theorem current (h : Reached config events m) : m.Current := by
  induction h with
  | new => exact current_of_empty rfl
  | step _ hstep ih => exact (hstep.effect ih).current

/-- **What the latest event left.**  A part of the manager that each event either replaces or leaves
alone is what the latest event made it that replaced it. -/
theorem eq_latest {β : Type} (part : Manager → Option β) {left? : Event → Option β}
    (h : Reached config events m)
    (hstep : ∀ {m e m'}, Effect m e m' → part m' = (left? e).or (part m)) :
    part m = (latest? left? events).or (part (.new config)) := by
  induction h with
  | new => rfl
  | step h hs ih =>
    rw [latest?_append_singleton, Option.or_assoc, ← ih]
    exact hstep (hs.effect h.current)

/-- The same of a part that is always there. -/
theorem eq_latest_getD {β : Type} (part : Manager → β) {left? : Event → Option β}
    (h : Reached config events m)
    (hstep : ∀ {m e m'}, Effect m e m' → part m' = (left? e).getD (part m)) :
    part m = (latest? left? events).getD (part (.new config)) := by
  have hsome := h.eq_latest (fun m => some (part m)) fun heffect => by
    rw [Option.or_some, hstep heffect]
  rwa [Option.or_some, Option.some.injEq] at hsome

theorem config_eq (h : Reached config events m) : m.config = config := by
  induction h with
  | new => rfl
  | step h hs ih => rw [(hs.effect h.current).config, ih]

theorem builder_eq (h : Reached config events m) :
    m.builder = (latest? Event.builder? events).getD .standard :=
  h.eq_latest_getD Manager.builder Effect.builder

theorem built_eq (h : Reached config events m) :
    m.built = (latest? Event.built? events).getD none :=
  h.eq_latest_getD Manager.built Effect.built

theorem isSome_built (h : Reached config events m) :
    m.built.isSome = (latest? Event.succeeds? events).getD false :=
  h.eq_latest_getD (fun m => m.built.isSome) Effect.isSome_built

theorem patternIn?_eq (h : Reached config events m) (scope : Option BlockId) (field : Nat) :
    m.patternIn? scope field = latest? (Event.pattern? scope field) events := by
  have hnew : (Manager.new config).patternIn? scope field = none := by cases scope <;> rfl
  rw [h.eq_latest (fun m => m.patternIn? scope field) fun heffect => heffect.patternIn? scope field,
    hnew, Option.or_none]

end Reached

/-- What a build of all ranks leaves at each of them. -/
theorem reached_of_run {n : Nat} {config : Nat → Config} {events : Nat → List Event}
    {m : Nat → Manager} (h : ∀ r < n, Reached (config r) (events r) (m r)) {box box' : Mailbox}
    {reports : List Report}
    (hrun : World.run box ((List.range n).map fun r => (m r).build) = some (reports, box'))
    {r : Nat} {report : Report} (hreport : reports[r]? = some report) :
    Reached (config r) (events r ++ [.build report.product]) report.manager := by
  obtain ⟨hr, hcomes⟩ := (World.comes_of_run_range hrun).2 r report hreport
  exact (h r hr).step (.build hcomes)

end Manager

namespace Bars

open Manager

/-- Rank `r` of two binds its bar and registers its field. -/
def start (r : Nat) : List Event := [.bind (mesh r) (World.seat 2 r), .register none "u" nodal (.ok 0)]

theorem reached_manager (r : Nat) : Reached ⟨.standard, true⟩ (start r) (manager 2 r) :=
  (Reached.new.step (.bind ..)).step (.register rfl)

/-- Then both ranks build. -/
theorem reached_report {r : Nat} (hr : r < 2) :
    Reached ⟨.standard, true⟩ (start r ++ [.build ((crew 2).report r).product])
      ((crew 2).report r).manager := by
  have hreport : ((List.range 2).map (crew 2).report)[r]? = some ((crew 2).report r) := by
    rw [List.getElem?_map, List.getElem?_range hr]
    rfl
  exact reached_of_run (fun s _ => reached_manager s) Crew.succeeded_bars.run hreport

end Bars

end Unknowns
