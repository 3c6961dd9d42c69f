import Unknowns.Proofs.Build.Crew
import Unknowns.Proofs.World.Course

/-!
# Builds one after the other

A rank that builds several times brings a manager to each build, which may depend
on what came of its earlier ones (its `Product`s).  `lockstep` runs such builds of
all ranks one after the other with one mailbox.

The tags of the rounds are left open.  What comes of a build does not depend on
them (`Crew.product_withTags`), and with whatever tags, the builds that are due
together go in step.  So they make up a course:

* `builds_interleave`: with every base of tags, even one from which they run into the
  tag that is reserved for gathering, and at every pace, all ranks come to what they
  come to in lock step with the standard tags.
-/

namespace Unknowns

namespace Manager

/-- The manager with other tags. -/
def withTags (m : Manager) (tags : Tags) : Manager :=
  { m with config := { m.config with tags := tags } }

theorem sameFields_withTags (m : Manager) (tags : Tags) : (m.withTags tags).SameFields m :=
  ⟨rfl, rfl, rfl⟩

/-- What came of a build, apart from what had been there before. -/
structure Product where
  outcome : Except Error Unit
  built : Option Built
  log : List LogLine

/-- What came of a build. -/
def Report.product (report : Report) : Product := ⟨report.outcome, report.manager.built, report.log⟩

end Manager

open Manager (Product)

namespace Crew

open World Negotiation

/-- The crew with other tags. -/
def withTags (c : Crew) (tags : Tags) : Crew where
  count := c.count
  config := { c.config with tags := tags }
  manager r := (c.manager r).withTags tags
  mesh := c.mesh
  seat := c.seat
  bound := c.bound
  tags _ _ := rfl
  checked := c.checked
  seated := c.seated

variable (c : Crew) (tags : Tags)

theorem phases_withTags : (c.withTags tags).phases = c.phases := by
  funext r
  have hphase := ((c.manager r).sameFields_withTags tags).patternPhase_eq (c.mesh r)
  unfold phases
  rw [← hphase]
  rfl

theorem agreed_withTags : (c.withTags tags).agreed = c.agreed := by
  funext r
  have houtcome : (c.withTags tags).outcome = c.outcome := by
    funext s
    rw [outcome, outcome, phases_withTags]
  rw [agreed, agreed, houtcome]
  rfl

theorem prepared_withTags : (c.withTags tags).prepared = c.prepared := by
  funext r
  rw [prepared, prepared, phases_withTags]

theorem parties_withTags : (c.withTags tags).parties = c.parties := by
  rw [parties, parties, prepared_withTags]
  rfl

theorem numbering_withTags : (c.withTags tags).numbering = c.numbering := by
  funext r
  rw [numbering, numbering, parties_withTags]

theorem elementGids_withTags : (c.withTags tags).elementGids = c.elementGids := by
  funext r
  have hgid : (c.withTags tags).gid r = c.gid r := by
    funext k
    rw [gid, gid, parties_withTags]
  rw [elementGids, elementGids, prepared_withTags, hgid]

theorem couplings_withTags : (c.withTags tags).couplings = c.couplings := by
  funext r
  rw [couplings, couplings, elementGids_withTags]

theorem built_withTags : (c.withTags tags).built = c.built := by
  funext r
  rw [built, built, prepared_withTags, elementGids_withTags, numbering_withTags, couplings_withTags]
  rfl

theorem completionLog_withTags : (c.withTags tags).completionLog = c.completionLog := by
  funext r
  rw [completionLog, completionLog, numbering_withTags, parties_withTags, built_withTags]

/-- **What comes of a build does not depend on the tags.** -/
theorem product_withTags (r : Nat) :
    ((c.withTags tags).report r).product = (c.report r).product := by
  have hprepare := ((c.manager r).sameFields_withTags tags).prepare_eq (c.binding r)
  have hlog : (((c.withTags tags).manager r).prepare ((c.withTags tags).binding r)).2 =
      ((c.manager r).prepare (c.binding r)).2 := congrArg Prod.snd hprepare
  simp only [report, agreed_withTags, built_withTags, completionLog_withTags, hlog]
  cases c.agreed r <;> rfl

variable {c}

theorem ready_of_withTags (h : (c.withTags tags).Ready) : c.Ready := by
  rwa [Ready, agreed_withTags] at h

theorem Steady.withTags (h : c.Steady) : (c.withTags tags).Steady := fun r hr => by
  rw [phases_withTags]
  exact h r hr

theorem Fits.withTags (h : c.Fits) : (c.withTags tags).Fits where
  card_lt := by
    rw [parties_withTags]
    exact h.card_lt
  claims := by
    rw [parties_withTags]
    exact h.claims
  rows := by
    rw [numbering_withTags, couplings_withTags]
    exact h.rows
  ghosts := by
    rw [numbering_withTags]
    exact h.ghosts

/-- The managers build in step whatever the tags, to the same end. -/
theorem inStep_product (hsteady : c.Steady) (hfits : c.Ready → c.Fits)
    (hnamed : c.parties.Named SubEntity.home) :
    InStep c.count
      (fun r => ((c.manager r).withTags tags).build.bind fun report => .done report.product)
      fun r => (c.report r).product := by
  have hbuild := inStep_build (c := c.withTags tags) (hsteady.withTags tags)
    (fun hready => (hfits (ready_of_withTags tags hready)).withTags tags)
    (by rwa [parties_withTags])
  exact hbuild.bind (.done fun r _ => by rw [product_withTags])

end Crew

/-! ### Several builds -/

section
variable (n : Nat) (plan : Nat → List Product → Manager)

/-- What rank `r` does after the builds that came to `past`: the next of a number of builds. -/
def buildPlan (builds : Nat) (tags : Tags) (r : Nat) (past : List Product) :
    Option (Rounds Product) :=
  if past.length < builds then
    some (((plan r past).withTags tags).build.bind fun report => .done report.product)
  else none

/-- What a number of builds came to at each rank, when all ranks go in lock step, and the messages
that are left.  There is nothing when a rank waits in vain. -/
def lockstep (tags : Tags) : Nat → Option ((Nat → List Product) × Mailbox)
  | 0 => some (fun _ => [], [])
  | builds + 1 => do
    let (past, box) ← lockstep tags builds
    let (reports, box) ← World.run box
      ((List.range n).map fun r => ((plan r (past r)).withTags tags).build)
    some (fun r => past r ++ (reports[r]?).toList.map (·.product), box)

/-- The managers of `n` ranks make a crew, no rank is stopped before it comes to talk to the others,
and what they have to tell each other fits into the words that carry it. -/
def Fitting (manager : Nat → Manager) : Prop :=
  ∃ c : Crew, c.count = n ∧ (∀ r < n, c.manager r = manager r) ∧ c.Steady ∧ (c.Ready → c.Fits) ∧
    c.parties.Named SubEntity.home

end

open World

variable {n builds : Nat} {plan : Nat → List Product → Manager}

/-- A build more, in lock step. -/
theorem lockstep_succ {b : Nat} {past : Nat → List Product} {c : Crew}
    (h : lockstep c.count plan .standard b = some (past, []))
    (hmanager : ∀ r < c.count, c.manager r = (plan r (past r)).withTags .standard)
    (hsteady : c.Steady) (hfits : c.Ready → c.Fits) (hnamed : c.parties.Named SubEntity.home) :
    ∃ past', lockstep c.count plan .standard (b + 1) = some (past', []) ∧
      ∀ r < c.count, past' r = past r ++ [(c.report r).product] := by
  have hprograms : ((List.range c.count).map fun r =>
      ((plan r (past r)).withTags .standard).build) =
        (List.range c.count).map fun r => (c.manager r).build :=
    List.map_congr_left fun r hr => by rw [hmanager r (List.mem_range.1 hr)]
  have hnext : lockstep c.count plan .standard (b + 1) = some (fun r =>
      past r ++ (((List.range c.count).map c.report)[r]?).toList.map (·.product), []) := by
    simp only [lockstep, h, hprograms, Crew.run_build hsteady hfits hnamed, Option.bind_eq_bind,
      Option.bind_some]
  refine ⟨_, hnext, fun r hr => ?_⟩
  rw [List.getElem?_map, List.getElem?_range hr]
  rfl

/-- The builds so far, as the first part of a course with any tags. -/
theorem exists_lockstep
    (h : ∀ b < builds, ∀ past box, lockstep n plan .standard b = some (past, box) →
      Fitting n fun r => (plan r (past r)).withTags .standard) {b : Nat} (hb : b ≤ builds) :
    ∃ past, lockstep n plan .standard b = some (past, []) ∧ (∀ r < n, (past r).length = b) ∧
      ∀ tags results, Course n (buildPlan plan builds tags) past results →
        Course n (buildPlan plan builds tags) (fun _ => []) results := by
  induction b with
  | zero => exact ⟨fun _ => [], rfl, fun _ _ => rfl, fun _ _ => id⟩
  | succ b ih =>
    obtain ⟨past, hlockstep, hlength, hcourse⟩ := ih (by omega)
    obtain ⟨c, rfl, hmanager, hsteady, hfits, hnamed⟩ := h b hb past [] hlockstep
    obtain ⟨past', hlockstep', hpast'⟩ := lockstep_succ hlockstep hmanager hsteady hfits hnamed
    refine ⟨past', hlockstep', fun r hr => ?_, fun tags results hrest => hcourse tags results ?_⟩
    · rw [hpast' r hr, List.length_append, hlength r hr, List.length_singleton]
    · refine .turn (fun r hr => ?_) (c.inStep_product tags hsteady hfits hnamed) hpast' hrest
      rw [buildPlan, if_pos (by rw [hlength r hr]; exact hb), hmanager r hr]
      rfl

/-- **Builds come to the same at every pace and with all tags.**  A number of builds in which all
ranks go in lock step, with the standard tags, ends at all ranks and leaves no message behind.  With
tags from any base, and with ranks that go at their own pace, there is a bound on the length of
schedules, and of whatever the ranks do under a schedule the following holds.

* As long as some rank has builds ahead of it, some rank can step.
* Whatever was taken from a channel is what was sent on it, in the same order.
* What a rank has taken is the one message that its peer sent to it in the same round of the same
  build.
* When all ranks have ended all builds, whether or not these succeeded, all queues are empty, and
  each build came at each rank to what it came to in lock step.

This is asked of the managers that come to a build (`Fitting`): they make a crew, which means that
all ranks compare fields or none does, unless all have the same fields (`Crew.checked`); no rank is
stopped by its own phases, before the builds talk to each other (`Crew.Steady`); and the messages
fit. -/
theorem builds_interleave (n builds : Nat) (plan : Nat → List Product → Manager)
    (h : ∀ b < builds, ∀ past box, lockstep n plan .standard b = some (past, box) →
      Fitting n fun r => (plan r (past r)).withTags .standard) :
    ∃ results, lockstep n plan .standard builds = some (results, []) ∧
      (∀ r < n, (results r).length = builds) ∧
      ∀ base : Tag, ∃ bound, ∀ (schedule : List Nat) (s : Scene Product),
        (∀ r ∈ schedule, r < n) →
        (Scene.start (buildPlan plan builds (.ofBase base))).run?
          (buildPlan plan builds (.ofBase base)) schedule = some s →
        schedule.length ≤ bound ∧
        ((∃ r < n, ¬(s.worker r).Ended) →
          ∃ r < n, (s.step? (buildPlan plan builds (.ofBase base)) r).isSome) ∧
        s.Balanced ∧ s.Faithful n ∧
        ((∀ r < n, (s.worker r).Ended) →
          (∀ c, s.queue c = []) ∧ ∀ r < n, (s.worker r).past = results r) := by
  obtain ⟨results, hlockstep, hlength, hcourse⟩ := exists_lockstep h (Nat.le_refl builds)
  refine ⟨results, hlockstep, hlength, fun base => (hcourse (.ofBase base) results ?_).interleaved⟩
  refine .done (fun r hr => ?_) fun _ _ => rfl
  rw [buildPlan, if_neg (by rw [hlength r hr]; exact Nat.lt_irrefl builds)]

/-- Two bars that share a node are built twice, the second time whatever the first one came to, with
tags of which one is the tag for gathering. -/
theorem builds_interleave_bars :
    (∀ b < 2, ∀ past box, lockstep 2 (fun r _ => Bars.manager 2 r) .standard b = some (past, box) →
      Fitting 2 fun r => (Bars.manager 2 r).withTags .standard) ∧
      gatherTag ∈ (Tags.ofBase 0xFFEE).toList ∧
      ∃ results, lockstep 2 (fun r _ => Bars.manager 2 r) .standard 2 = some (results, []) ∧
        ∃ bound, ∀ (schedule : List Nat) (s : Scene Product), (∀ r ∈ schedule, r < 2) →
          (Scene.start (buildPlan (fun r _ => Bars.manager 2 r) 2 (.ofBase 0xFFEE))).run?
            (buildPlan (fun r _ => Bars.manager 2 r) 2 (.ofBase 0xFFEE)) schedule = some s →
          schedule.length ≤ bound ∧
          ((∀ r < 2, (s.worker r).Ended) → ∀ r < 2, (s.worker r).past = results r) := by
  have hfitting : Fitting 2 fun r => (Bars.manager 2 r).withTags .standard :=
    ⟨Bars.crew 2, rfl, fun _ _ => rfl, (Bars.ready_crew (by decide)).steady, fun _ => Bars.fits_two,
      Negotiation.Parties.named_of_count_lt (by decide) _⟩
  have h : ∀ b < 2, ∀ past box,
      lockstep 2 (fun r _ => Bars.manager 2 r) .standard b = some (past, box) →
        Fitting 2 fun r => (Bars.manager 2 r).withTags .standard := fun _ _ _ _ _ => hfitting
  obtain ⟨results, hlockstep, -, hall⟩ := builds_interleave 2 2 (fun r _ => Bars.manager 2 r) h
  obtain ⟨bound, hbound⟩ := hall 0xFFEE
  refine ⟨h, by decide, results, hlockstep, bound, fun schedule s hschedule hs => ?_⟩
  obtain ⟨hlength, -, -, -, hend⟩ := hbound schedule s hschedule hs
  exact ⟨hlength, fun hended => (hend hended).2⟩

end Unknowns
