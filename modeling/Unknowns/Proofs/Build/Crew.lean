import Unknowns.Manager.Build
import Unknowns.Proofs.Negotiation.Agreement
import Unknowns.Proofs.Negotiation.Ghosts
import Unknowns.Proofs.Negotiation.Readiness

/-!
# Managers that build together

A `Crew` is the managers of all ranks of a world, each bound to its mesh and all
of one configuration.  Before any message is sent, it is settled what each of
them has after a build: `Crew.report`, and in it `Crew.built` where all ranks are
ready.  It is made of what the negotiation settles and of what ranks tell each
other about their ghosts.

`inStep_build`: the managers build in step and come to just this, provided that no
rank is stopped before the agreement (`Crew.Steady`) and everything that travels fits
into the words that carry it (`Crew.Fits`).
-/

namespace Unknowns

namespace Manager

/-- Two managers have the same fields. -/
structure SameFields (m m' : Manager) : Prop where
  registry : m.registry = m'.registry
  globalPatterns : m.globalPatterns = m'.globalPatterns
  blockPatterns : m.blockPatterns = m'.blockPatterns

namespace SameFields

variable {m m' : Manager}

theorem layoutOf_eq (h : m.SameFields m') {mesh mesh' : Mesh} {block : BlockId}
    (hcell : mesh.blockCell block = mesh'.blockCell block) :
    m.layoutOf mesh block = m'.layoutOf mesh' block := by
  have hfields : m.blockFields block = m'.blockFields block := by
    rw [blockFields, blockFields, h.globalPatterns, h.blockPatterns]
  have hcheck : m.checkBlockCell = m'.checkBlockCell := by
    funext block cell fields
    rw [checkBlockCell, checkBlockCell, h.registry]
  have hin : m.inBlock = m'.inBlock := by
    funext block e
    unfold inBlock
    rw [h.registry]
  rw [layoutOf, layoutOf, hfields, hcell, hcheck, hin]

theorem layoutsOf_eq (h : m.SameFields m') (mesh : Mesh) (blocks : List BlockId) :
    m.layoutsOf mesh blocks = m'.layoutsOf mesh blocks := by
  induction blocks with
  | nil => rfl
  | cons block rest ih => rw [layoutsOf, layoutsOf, h.layoutOf_eq rfl, ih]

theorem patternPhase_eq (h : m.SameFields m') (mesh : Mesh) :
    m.patternPhase mesh = m'.patternPhase mesh := by
  simp only [patternPhase, checkScopes, h.blockPatterns, h.layoutsOf_eq]

/-- The phases that concern one rank only look at nothing but the fields and the mesh. -/
theorem prepare_eq (h : m.SameFields m') (b : Binding) : m.prepare b = m'.prepare b := by
  rw [prepare, prepare, h.patternPhase_eq]

end SameFields

theorem sameFields_discard (m : Manager) : m.discard.SameFields m := ⟨rfl, rfl, rfl⟩

/-- What a rank does with the outcome of the agreement. -/
def proceed (m : Manager) (b : Binding) (ready : Except Error Unit) : Rounds Report :=
  match ready, (m.prepare b).1 with
  | .error e, _ => pure ⟨m.discard, .error e, (m.prepare b).2⟩
  | .ok (), .error e => pure ⟨m.discard, .error e, (m.prepare b).2⟩
  | .ok (), .ok p => do
    let (outcome, more) ← complete SubEntity.home m.config.tags b p
    match outcome with
    | .error e => pure ⟨m.discard, .error e, (m.prepare b).2 ++ more⟩
    | .ok built => pure ⟨{ m.discard with built := some built }, .ok (), (m.prepare b).2 ++ more⟩

/-- **What a bound manager does**: where its own phases stop it, nothing more; otherwise it first
agrees with the others and then proceeds. -/
theorem build_eq_ite {m : Manager} {b : Binding} (h : m.binding = some b) :
    m.build =
      if stopped (m.prepare b).1 then
        pure ⟨m.discard, (m.prepare b).1.map fun _ => (), (m.prepare b).2⟩
      else
        (agreeReady b.seat ((m.prepare b).1.map fun _ => ()) m.registry.fingerprint
          m.config.checkRegistrations).run >>= m.proceed b := by
  have hbinding : m.discard.binding = some b := h
  unfold build buildWith
  dsimp only
  split
  · next hnone =>
    rw [hbinding] at hnone
    cases hnone
  · next b' hsome =>
    obtain rfl : b' = b := Option.some.inj (hsome.symm.trans hbinding)
    rw [m.sameFields_discard.prepare_eq, stopped_map]
    rfl

theorem build_eq {m : Manager} {b : Binding} (h : m.binding = some b)
    (hsteady : stopped (m.prepare b).1 = false) :
    m.build = (agreeReady b.seat ((m.prepare b).1.map fun _ => ()) m.registry.fingerprint
      m.config.checkRegistrations).run >>= m.proceed b :=
  (build_eq_ite h).trans (if_neg (Bool.eq_false_iff.1 hsteady))

theorem build_eq_of_stopped {m : Manager} {b : Binding} (h : m.binding = some b)
    (hstopped : stopped (m.prepare b).1 = true) :
    m.build = pure ⟨m.discard, (m.prepare b).1.map fun _ => (), (m.prepare b).2⟩ :=
  (build_eq_ite h).trans (if_pos hstopped)

end Manager

/-! ### Where nobody is there to talk to -/

theorem agreeReady_solitary : agreeReady Seat.solitary = agreeReady (World.seat 1 0) := by
  unfold agreeReady
  rw [Rounds.gather_solitary]
  rfl

namespace Manager

theorem complete_solitary (home : HomeRule) (tags : Tags) (mesh : Mesh) (p : Prepared) :
    complete home tags ⟨mesh, Seat.solitary⟩ p = complete home tags ⟨mesh, World.seat 1 0⟩ p := by
  unfold complete
  dsimp only
  rw [Negotiation.negotiate_solitary]
  rfl

theorem proceed_solitary (m : Manager) (mesh : Mesh) (ready : Except Error Unit) :
    m.proceed ⟨mesh, Seat.solitary⟩ ready = m.proceed ⟨mesh, World.seat 1 0⟩ ready := by
  unfold proceed
  simp only [complete_solitary]
  rfl

theorem quiet_complete (home : HomeRule) (tags : Tags) (mesh : Mesh) (p : Prepared) :
    Rounds.Quiet (complete home tags ⟨mesh, World.seat 1 0⟩ p) := by
  refine (Negotiation.quiet_negotiate ..).bind fun x => ?_
  cases x with
  | error e => exact .done _
  | ok numbering =>
    refine Rounds.Quiet.bind (.protocol_bind (.ofExcept _) fun _ =>
      .protocol_bind (.protocol_bind (Rounds.quiet_exchangeLists ..) fun _ => .done _) fun _ =>
        .protocol_bind (.protocol_bind (Rounds.quiet_exchangeLists ..) fun _ => .ofExcept _)
          fun _ => .done _) fun y => ?_
    cases y <;> exact .done _

theorem quiet_proceed (m : Manager) (mesh : Mesh) (ready : Except Error Unit) :
    Rounds.Quiet (m.proceed ⟨mesh, World.seat 1 0⟩ ready) := by
  unfold proceed
  split
  · exact .done _
  · exact .done _
  · refine (quiet_complete ..).bind fun x => ?_
    obtain ⟨outcome, more⟩ := x
    cases outcome <;> exact .done _

end Manager

theorem quiet_agreeReady (own : Except Error Unit) (fingerprint : UInt64) (check : Bool) :
    Rounds.Quiet (agreeReady (World.seat 1 0) own fingerprint check).run :=
  .protocol_bind (.ofExcept _) fun _ => .protocol_bind (Rounds.quiet_gather _) fun _ =>
    .protocol_bind (.ofExcept _) fun _ => .ofExcept _

/-- The managers of all ranks of a world, each bound to its mesh, with one configuration for all.
Ranks that compare fields may also build together with ranks that do not, if all have the same
fields.  A single rank may also be one that cannot talk. -/
structure Crew where
  /-- Number of ranks. -/
  count : Nat
  config : Config
  manager : Nat → Manager
  mesh : Nat → Mesh
  seat : Nat → Seat
  bound : ∀ r < count, (manager r).binding = some ⟨mesh r, seat r⟩
  tags : ∀ r < count, (manager r).config.tags = config.tags
  checked : (∀ r < count, (manager r).config.checkRegistrations = config.checkRegistrations) ∨
    ∀ r < count, (manager r).registry.fingerprint = (manager 0).registry.fingerprint
  seated : ∀ r < count, seat r = World.seat count r ∨ count = 1 ∧ seat r = Seat.solitary

namespace Crew

open World Negotiation

variable (c : Crew)

/-! ### What a build comes to -/

/-- Mesh and place of rank `r`. -/
def binding (r : Nat) : Binding := ⟨c.mesh r, World.seat c.count r⟩

/-- What comes of the phases of rank `r` that concern it alone. -/
def phases (r : Nat) : Except Error Manager.Prepared := do
  let layouts ← (c.manager r).patternPhase (c.mesh r)
  let keys ← Manager.connectivityPhase (c.mesh r) layouts
  .ok ⟨layouts, keys⟩

/-- No rank is stopped by the phases that concern it alone. -/
def Steady : Prop := ∀ r < c.count, stopped (c.phases r) = false

/-- The fingerprint of the fields of rank `r`. -/
def fingerprint (r : Nat) : UInt64 := (c.manager r).registry.fingerprint

/-- What rank `r` brings to the agreement. -/
def outcome (r : Nat) : Except Error Unit := (c.phases r).map fun _ => ()

/-- What comes of the agreement at rank `r`. -/
def agreed (r : Nat) : Except Error Unit :=
  Negotiation.agreed c.count c.outcome c.fingerprint c.config.checkRegistrations r

/-- All ranks agree that they are ready. -/
def Ready : Prop := ∀ r < c.count, c.agreed r = .ok ()

/-- What rank `r` brings to the negotiation, if it comes to that. -/
def prepared (r : Nat) : Manager.Prepared :=
  match c.phases r with
  | .ok p => p
  | .error _ => ⟨∅, []⟩

/-- What all ranks bring to the negotiation. -/
def parties : Parties where
  count := c.count
  keys r := ascending (c.prepared r).elementKeys.flatten
  hint r := (c.mesh r).entityOwner

/-- The numbering that rank `r` knows in the end. -/
def numbering (r : Nat) : Numbering := c.parties.settled SubEntity.home r

/-- The global id of a key at rank `r`. -/
def gid (r : Nat) (k : DofKey) : UInt64 := c.parties.settledNumber SubEntity.home r k

/-- The global ids of the elements of rank `r`. -/
def elementGids (r : Nat) : List (List UInt64) :=
  (c.prepared r).elementKeys.map fun ks => ks.map (c.gid r)

/-- What the elements of rank `r` couple. -/
def couplings (r : Nat) : Couplings := .ofElements (c.elementGids r)

/-- The result of a build of which all ranks are ready. -/
def built (r : Nat) : Built where
  layouts := (c.prepared r).layouts
  elementGids := c.elementGids r
  numbering := c.numbering r
  couplings := c.couplings r
  remoteRows := Numbering.remoteRows c.count c.numbering c.couplings r
  heldBy := Numbering.holders c.count c.numbering r

/-- What rank `r` logs after the agreement. -/
def completionLog (r : Nat) : List LogLine :=
  [Manager.phaseLine r "completion", (c.numbering r).report (c.parties.keys r).length,
    Manager.doneLine r (c.built r)]

/-- What a build leaves at rank `r`. -/
def report (r : Nat) : Manager.Report :=
  let m := (c.manager r).discard
  let log := ((c.manager r).prepare (c.binding r)).2
  match c.agreed r with
  | .error e => ⟨m, .error e, log⟩
  | .ok () => ⟨{ m with built := some (c.built r) }, .ok (), log ++ c.completionLog r⟩

/-- There are fewer keys than words, of which the largest stands for no id, and the records of every
message can be counted in 32 bits. -/
structure Fits : Prop where
  card_lt : c.parties.allKeys.card < 2 ^ 64 - 1
  claims : c.parties.Brief SubEntity.home
  rows : ∀ s < c.count, ∀ d < c.count, s ≠ d →
    (listFor ((c.numbering s).rowMessages (c.couplings s)) d).length < 2 ^ 32
  ghosts : ∀ s < c.count, ∀ d < c.count, s ≠ d →
    (listFor (c.numbering s).ghostMessages d).length < 2 ^ 32

variable {c}

theorem Fits.numerable (h : c.Fits) : c.parties.Numerable :=
  ⟨fun _ _ => pairwise_ascending _, h.card_lt⟩

/-! ### How it comes to it -/

theorem mem_keys_parties {r : Nat} {k : DofKey} :
    k ∈ c.parties.keys r ↔ ∃ ks ∈ (c.prepared r).elementKeys, k ∈ ks := by
  simp [parties]

theorem gid?_numbering_eq {r : Nat} {k : DofKey} (hk : k ∈ c.parties.keys r) :
    (c.numbering r).gid? k = some (c.gid r k) := by
  rw [Numbering.gid?, numbering, Parties.settled, Table.get?_tabulate, if_pos hk]
  rfl

theorem gidOf_numbering {r : Nat} {k : DofKey} (hk : k ∈ c.parties.keys r) :
    (c.numbering r).gidOf k = .ok (c.gid r k) := by
  simp only [Numbering.gidOf, gid?_numbering_eq hk]

/-- All keys of the elements have ids. -/
theorem elementGids_eq_ok (r : Nat) :
    ((c.prepared r).elementKeys.mapM fun ks => ks.mapM (c.numbering r).gidOf) =
      .ok (c.elementGids r) :=
  mapM_eq_ok fun ks hks => mapM_eq_ok fun _ hk =>
    gidOf_numbering (mem_keys_parties.2 ⟨ks, hks, hk⟩)

theorem succeeds_finish (h : c.Fits) (tags : Tags) :
    Succeeds c.count
      (fun r => Manager.finish tags (World.seat c.count r) (c.prepared r) (c.numbering r)) c.built := by
  have hholders : Succeeds c.count
      (fun r => (c.numbering r).ghostHolders (World.seat c.count r) tags)
      (Numbering.holders c.count c.numbering) :=
    Parties.succeeds_ghostHolders h.numerable h.ghosts
  exact Succeeds.bind (succeeds_ofExcept fun r _ => elementGids_eq_ok r)
    (Succeeds.bind (Numbering.succeeds_shipGhostRows h.rows)
      (hholders.bind (succeeds_pure c.count c.built)))

/-- The completion succeeds on all ranks. -/
theorem inStep_complete (h : c.Fits) (hnamed : c.parties.Named SubEntity.home) (tags : Tags) :
    InStep c.count (fun r => Manager.complete SubEntity.home tags (c.binding r) (c.prepared r))
      fun r => (.ok (c.built r), c.completionLog r) := by
  by_cases hcount : 0 < c.count
  · have hnegotiate := Parties.succeeds_negotiate tags h.numerable h.claims hnamed
      fun e => e.home_lt hcount
    exact InStep.bind hnegotiate (InStep.bind (succeeds_finish h tags) (.done fun _ _ => rfl))
  · exact .done fun r hr => absurd (Nat.zero_lt_of_lt hr) hcount

theorem prepare_eq (r : Nat) : ((c.manager r).prepare (c.binding r)).1 = c.phases r := by
  have hmesh : (c.binding r).mesh = c.mesh r := rfl
  rw [phases, Manager.prepare, hmesh]
  cases (c.manager r).patternPhase (c.mesh r) with
  | error e => rfl
  | ok layouts =>
    simp only [bind, Except.bind]
    cases Manager.connectivityPhase (c.mesh r) layouts <;> rfl

theorem phases_eq_ok {r : Nat} (hr : r < c.count) (h : c.agreed r = .ok ()) :
    c.phases r = .ok (c.prepared r) := by
  have hfailed := ((agreed_eq_ok_iff hr).1 h).2.1
  have hok : (c.outcome r).isOk = true := by
    by_contra hne
    have hmem := mem_failed.2 ⟨hr, Bool.eq_false_iff.2 hne⟩
    rw [hfailed] at hmem
    cases hmem
  unfold outcome at hok
  unfold prepared
  cases hphases : c.phases r with
  | ok p => rfl
  | error e =>
    rw [hphases] at hok
    cases hok

theorem Ready.steady (h : c.Ready) : c.Steady := fun r hr => by
  rw [phases_eq_ok hr (h r hr)]
  rfl

/-- **One rank that is ready to go on is told that all are.** -/
theorem ready_of_agreed {r : Nat} (hr : r < c.count) (h : c.agreed r = .ok ()) : c.Ready :=
  fun _ hs => (agreed_eq_ok_iff hs).2 ((agreed_eq_ok_iff hr).1 h)

/-- Where the agreement fails at one rank, it fails at all of them, and none goes on. -/
theorem inStep_proceed_of_not_ready (hready : ¬ c.Ready) :
    InStep c.count (fun r => (c.manager r).proceed (c.binding r) (c.agreed r)) c.report := by
  refine .done fun r hr => ?_
  cases hagreed : c.agreed r with
  | ok _ => exact absurd (ready_of_agreed hr hagreed) hready
  | error e =>
    rw [report, hagreed]
    rfl

theorem inStep_proceed (h : c.Ready → c.Fits) (hnamed : c.parties.Named SubEntity.home) :
    InStep c.count (fun r => (c.manager r).proceed (c.binding r) (c.agreed r)) c.report := by
  by_cases hready : c.Ready
  · have hproceed : ∀ r < c.count, (c.manager r).proceed (c.binding r) (c.agreed r) =
        Manager.complete SubEntity.home c.config.tags (c.binding r) (c.prepared r) >>= fun x =>
          match x.1 with
          | .error e => pure ⟨(c.manager r).discard, .error e,
              ((c.manager r).prepare (c.binding r)).2 ++ x.2⟩
          | .ok built => pure ⟨{ (c.manager r).discard with built := some built }, .ok (),
              ((c.manager r).prepare (c.binding r)).2 ++ x.2⟩ := by
      intro r hr
      have hphases : ((c.manager r).prepare (c.binding r)).1 = .ok (c.prepared r) :=
        (prepare_eq r).trans (phases_eq_ok hr (hready r hr))
      rw [hready r hr, ← c.tags r hr]
      unfold Manager.proceed
      rw [hphases]
    refine (InStep.bind (inStep_complete (h hready) hnamed c.config.tags) (.done fun r hr => ?_)).congr
      hproceed fun _ _ => rfl
    rw [report, hready r hr]
    rfl
  · exact inStep_proceed_of_not_ready hready

/-- The place of a rank does not matter in its own phases. -/
theorem prepare_seat (r : Nat) :
    ((c.manager r).prepare ⟨c.mesh r, c.seat r⟩).1 = c.phases r := by
  rw [← prepare_eq, binding]
  unfold Manager.prepare
  dsimp only
  cases (c.manager r).patternPhase (c.mesh r) <;> rfl

/-- It makes no difference whether a single rank can talk. -/
theorem build_eq {r : Nat} (hr : r < c.count) (hsteady : stopped (c.phases r) = false) :
    (c.manager r).build = (agreeReady (World.seat c.count r) (c.outcome r) (c.fingerprint r)
      (c.manager r).config.checkRegistrations).run >>= (c.manager r).proceed (c.binding r) := by
  have hbuild := Manager.build_eq (c.bound r hr) ((prepare_seat r).symm ▸ hsteady)
  rcases c.seated r hr with hseat | ⟨hone, hseat⟩
  · rw [hseat] at hbuild
    rw [hbuild, outcome, ← prepare_eq]
    rfl
  · obtain rfl : r = 0 := by omega
    rw [hseat, agreeReady_solitary, funext (Manager.proceed_solitary _ _)] at hbuild
    rw [hbuild, outcome, ← prepare_eq, binding, hone]
    rfl

/-- What comes of the agreement is what the rank's own configuration makes of it. -/
theorem agreed_eq_own {r : Nat} (hr : r < c.count) :
    c.agreed r = Negotiation.agreed c.count c.outcome c.fingerprint
      (c.manager r).config.checkRegistrations r := by
  rcases c.checked with hsame | hequal
  · rw [hsame r hr, agreed]
  · exact agreed_of_forall_eq hequal _ r

/-- A build is the agreement and what follows it. -/
theorem inStep_build_of_proceed (hsteady : c.Steady)
    (h : InStep c.count (fun r => (c.manager r).proceed (c.binding r) (c.agreed r)) c.report) :
    InStep c.count (fun r => (c.manager r).build) c.report := by
  have hagree := (inStep_agreeReady c.count c.outcome c.fingerprint fun r =>
    (c.manager r).config.checkRegistrations).congr (fun _ _ => rfl) fun r hr => agreed_eq_own hr
  exact (hagree.bind h).congr (fun r hr => build_eq hr (hsteady r hr)) fun _ _ => rfl

/-- **The managers of a crew build in step.** -/
theorem inStep_build (hsteady : c.Steady) (h : c.Ready → c.Fits)
    (hnamed : c.parties.Named SubEntity.home) :
    InStep c.count (fun r => (c.manager r).build) c.report :=
  inStep_build_of_proceed hsteady (inStep_proceed h hnamed)

/-- **A build of all ranks** ends at every rank with its report and leaves no message behind. -/
theorem run_build (hsteady : c.Steady) (h : c.Ready → c.Fits)
    (hnamed : c.parties.Named SubEntity.home) :
    World.run [] ((List.range c.count).map fun r => (c.manager r).build) =
      some ((List.range c.count).map c.report, []) :=
  (inStep_build hsteady h hnamed).run_eq

/-- A rank that is stopped ends at once, with what stopped it. -/
theorem build_eq_of_stopped {r : Nat} (hr : r < c.count) (hstopped : stopped (c.phases r) = true) :
    (c.manager r).build =
      pure ⟨(c.manager r).discard, c.outcome r, ((c.manager r).prepare (c.binding r)).2⟩ := by
  have hbuild := Manager.build_eq_of_stopped (c.bound r hr) ((prepare_seat r).symm ▸ hstopped)
  have hlog : ((c.manager r).prepare ⟨c.mesh r, c.seat r⟩).2 =
      ((c.manager r).prepare (c.binding r)).2 := by
    rcases c.seated r hr with hseat | ⟨hone, hseat⟩
    · rw [hseat, binding]
    · obtain rfl : r = 0 := by omega
      rw [hseat, binding, hone]
      rfl
  rw [hbuild, prepare_seat, hlog, outcome]

/-- **A single rank** comes to its report on its own, even if it is stopped. -/
theorem alone_build (hone : c.count = 1) (h : c.Ready → c.Fits) :
    (c.manager 0).build.alone = c.report 0 := by
  have hzero : 0 < c.count := by omega
  cases hstopped : stopped (c.phases 0) with
  | true =>
    have hroom : c.count * Record.width Status < memoryBound := by
      rw [hone]
      decide
    rw [build_eq_of_stopped hzero hstopped, report, agreed, agreed_eq hroom, outcome]
    cases hphases : c.phases 0 with
    | ok p =>
      rw [hphases] at hstopped
      cases hstopped
    | error e => rfl
  | false =>
    have hsteady : c.Steady := fun r hr => by
      obtain rfl : r = 0 := by omega
      exact hstopped
    have hquiet : Rounds.Quiet (c.manager 0).build := by
      rw [build_eq hzero hstopped, binding, hone]
      exact (quiet_agreeReady ..).bind fun _ => Manager.quiet_proceed ..
    have hrun := run_build hsteady h (Parties.named_of_count_lt (show c.count < 2 ^ 32 by omega) _)
    rw [hone] at hrun
    exact hquiet.alone_of_run hrun

theorem outcome_report (r : Nat) : (c.report r).outcome = c.agreed r := by
  unfold report
  cases c.agreed r <;> rfl

end Crew

/-! ### A row of bars -/

namespace Bars

/-- One unknown on each node of a bar. -/
def nodal : FieldPattern := .uniform [1, 0] ⟨.segment, 2, [[[0], [1]], [[]]]⟩

/-- Rank `r` holds the bar between the nodes `r` and `r + 1`. -/
def mesh (r : Nat) : Mesh :=
  .ofTables [⟨1, some .segment, [0]⟩] 1 [some 1]
    [some [.node (.ofNat r), .node (.ofNat (r + 1)), .edge (.ofNat r)]]

/-- The manager of rank `r` of `n`. -/
def manager (n r : Nat) : Manager :=
  { Manager.new ⟨.standard, true⟩ with
    binding := some ⟨mesh r, World.seat n r⟩
    registry := ⟨Table.tabulate ["u"] fun _ => 0, ["u"]⟩
    globalPatterns := Table.tabulate [0] fun _ => nodal }

/-- The managers of a row of `n` bars. -/
def crew (n : Nat) : Crew where
  count := n
  config := ⟨.standard, true⟩
  manager := manager n
  mesh := mesh
  seat := World.seat n
  bound _ _ := rfl
  tags _ _ := rfl
  checked := .inl fun _ _ => rfl
  seated _ _ := .inl rfl

theorem isOk_outcome (n r : Nat) : ((crew n).outcome r).isOk = true := rfl

theorem ready_crew {n : Nat} (h : n * Record.width Status < memoryBound) : (crew n).Ready := by
  refine fun r hr => (Negotiation.agreed_eq_ok_iff hr).2 ⟨h, ?_, fun _ => ?_⟩
  · refine List.filter_eq_nil_iff.2 fun s _ => ?_
    rw [isOk_outcome]
    exact Bool.false_ne_true
  · exact Negotiation.differing?_eq_none_iff.2 fun _ _ => rfl

theorem fits_two : (crew 2).Fits where
  card_lt := by decide +kernel
  claims := by
    unfold Negotiation.Parties.Brief
    decide +kernel
  rows := by decide +kernel
  ghosts := by decide +kernel

end Bars

end Unknowns
