import Unknowns.Proofs.Manager.History

/-!
# Nothing is ever out of date

* `Manager.Reached.run_query`: whatever happened before, each question is answered as the builder of
  the manager answers it afresh for its result;
* `Manager.made_build_eq`: what a manager sends in a build, and what comes of it, depends on nothing
  but its fields, its mesh and its place;
* `Manager.histories_do_not_matter`: both for the managers of all ranks of a world.
-/

namespace Unknowns

/-- A builder that never says of a result that there is none. -/
def Builder.Candid (b : Builder) : Prop := ∀ c q, b.fresh c q ≠ .error .notBuilt

namespace IndexMap

theorem ofGids_ne_notBuilt (gids : List UInt64) (numGlobal : UInt64) :
    ofGids gids numGlobal ≠ .error .notBuilt := by
  unfold ofGids
  split
  · split <;> simp
  · simp

end IndexMap

theorem Builder.candid_standard : standard.Candid := by
  intro c q
  cases q with
  | map => exact IndexMap.ofGids_ne_notBuilt _ _
  | overlapMap => exact IndexMap.ofGids_ne_notBuilt _ _
  | graph =>
    intro h
    rcases bind_eq_error_iff.1 h with h | ⟨rows, -, h⟩
    · exact IndexMap.ofGids_ne_notBuilt _ _ h
    · cases h
  | overlapGraph =>
    intro h
    rcases bind_eq_error_iff.1 h with h | ⟨rows, -, h⟩
    · exact IndexMap.ofGids_ne_notBuilt _ _ h
    · cases h

namespace Manager

variable {config : Config} {events : List Event} {m m' : Manager}

/-- **Every answer is fresh.** -/
theorem Reached.run_query (h : Reached config events m) (q : Question) :
    (q.query.run m).1 = m.result >>= fun b => m.builder.fresh b.context q := by
  obtain ⟨cache, hrun, -⟩ := answers_query h.current q
  rw [hrun]

theorem result_eq_error_iff {e : Error} : m.result = .error e ↔ m.built = none ∧ e = .notBuilt := by
  unfold result
  cases m.built <;> simp [eq_comm]

/-- A candid builder answers every question about a result. -/
theorem Reached.run_query_eq_notBuilt_iff (h : Reached config events m) (hcandid : m.builder.Candid)
    (q : Question) : (q.query.run m).1 = .error .notBuilt ↔ m.built = none := by
  rw [h.run_query, bind_eq_error_iff, result_eq_error_iff]
  constructor
  · rintro (⟨hnone, -⟩ | ⟨b, -, hfresh⟩)
    · exact hnone
    · exact absurd hfresh (hcandid _ q)
  · exact fun hnone => .inl ⟨hnone, rfl⟩

/-! ### Building again -/

/-- **What is sent in a build, and what comes of it**, depends on nothing but the fields, the mesh, the
place and what is fixed. -/
theorem made_build_eq (hfields : m.SameFields m') (hbinding : m.binding = m'.binding)
    (hconfig : m.config = m'.config) :
    m.build.made Report.product = m'.build.made Report.product := by
  cases hb : m.binding with
  | none =>
    rw [build_eq_of_none hb, build_eq_of_none (hbinding.symm.trans hb)]
    rfl
  | some b =>
    -- The managers that are left may differ in their builders, so only what is made of the reports
    -- can be the same.
    have hproceed : ∀ ready, (m.proceed b ready).made Report.product =
        (m'.proceed b ready).made Report.product := by
      intro ready
      unfold proceed
      rw [hfields.prepare_eq b, hconfig]
      split
      · rfl
      · rfl
      · show (Rounds.bind _ _).bind _ = (Rounds.bind _ _).bind _
        rw [Rounds.bind_assoc, Rounds.bind_assoc]
        congr 1
        funext x
        obtain ⟨outcome, more⟩ := x
        cases outcome <;> rfl
    rw [build_eq_ite hb, build_eq_ite (hbinding.symm.trans hb), hfields.prepare_eq b,
      hfields.registry, hconfig]
    split
    · rfl
    · show (Rounds.bind _ _).bind _ = (Rounds.bind _ _).bind _
      rw [Rounds.bind_assoc, Rounds.bind_assoc]
      exact congrArg _ (funext hproceed)

/-- Two builds came to the same: the same ids everywhere and, unless the managers have different
builders, the same answers. -/
structure Report.Alike (report report' : Report) : Prop where
  outcome : report.outcome = report'.outcome
  result : report.manager.result = report'.manager.result
  elementGids : ∀ element, report.manager.elementGids element = report'.manager.elementGids element
  answers : report.manager.builder = report'.manager.builder →
    ∀ q : Question, (q.query.run report.manager).1 = (q.query.run report'.manager).1

theorem alike_of_product_eq {report report' : Report} (h : Reached config events report.manager)
    {config' : Config} {events' : List Event} (h' : Reached config' events' report'.manager)
    (hproduct : report.product = report'.product) : report.Alike report' := by
  have hresult : report.manager.result = report'.manager.result := by
    rw [result, result, show report.manager.built = report'.manager.built from
      congrArg Product.built hproduct]
  refine ⟨congrArg Product.outcome hproduct, hresult, fun element => ?_, fun hbuilder q => ?_⟩
  · rw [Manager.elementGids, Manager.elementGids, hresult]
  · rw [h.run_query, h'.run_query, hresult, hbuilder]

/-- A build that is repeated on all ranks goes as it went before. -/
theorem run_build_again {n : Nat} {m m' : Nat → Manager} (hfields : ∀ r < n, (m r).SameFields (m' r))
    (hbinding : ∀ r < n, (m r).binding = (m' r).binding)
    (hconfig : ∀ r < n, (m r).config = (m' r).config) {box box' : Mailbox} {reports : List Report}
    (hrun : World.run box ((List.range n).map fun r => (m r).build) = some (reports, box')) :
    ∃ reports', World.run box ((List.range n).map fun r => (m' r).build) = some (reports', box') ∧
      reports.map Report.product = reports'.map Report.product := by
  have hprograms : ((List.range n).map fun r => (m' r).build).map (Rounds.made · Report.product) =
      ((List.range n).map fun r => (m r).build).map (Rounds.made · Report.product) := by
    rw [List.map_map, List.map_map]
    refine List.map_congr_left fun r hr => ?_
    have hlt := List.mem_range.1 hr
    exact (made_build_eq (hfields r hlt) (hbinding r hlt) (hconfig r hlt)).symm
  have hmade := World.run_map Report.product box ((List.range n).map fun r => (m' r).build)
  rw [hprograms, World.run_map, hrun] at hmade
  obtain ⟨⟨reports', box''⟩, hrun', heq⟩ := Option.map_eq_some_iff.1 hmade.symm
  obtain ⟨hproducts, rfl⟩ := Prod.mk.inj heq
  exact ⟨reports', hrun', hproducts.symm⟩

/-- **The history of a manager shows nowhere.**  Let the managers of all ranks have come to where they
are by any histories, in which the peers did whatever they liked.

* Every question is answered as the latest builder answers it afresh from the numbering, the
  couplings and the remote rows of the result that the latest event left which touches results; if
  it left none, the answer is that there is none.
* There is one just after a build that succeeded: unless the builder itself denies it, `notBuilt` is
  the answer if and only if binding or unbinding a mesh or a build that failed came last.
* When managers with other histories, but with the same fields, meshes and places, build instead, the
  build goes the same way: it ends if it did, leaves the same messages, and gives the same ids, maps
  and graphs. -/
theorem answers_fresh {n : Nat} {config : Nat → Config} {events : Nat → List Event}
    {m : Nat → Manager} (h : ∀ r < n, Reached (config r) (events r) (m r)) :
    (∀ r < n, ∀ q : Question, (q.query.run (m r)).1 =
      match (latest? Event.built? (events r)).getD none with
      | none => .error .notBuilt
      | some b => ((latest? Event.builder? (events r)).getD .standard).fresh
          ⟨b.numbering, b.couplings, b.remoteRows⟩ q) ∧
    (∀ r < n, (m r).isBuilt = (latest? Event.succeeds? (events r)).getD false ∧
      (((latest? Event.builder? (events r)).getD .standard).Candid → ∀ q : Question,
        (q.query.run (m r)).1 = .error .notBuilt ↔
          latest? Event.succeeds? (events r) ≠ some true)) ∧
    ∀ (events' : Nat → List Event) (m' : Nat → Manager),
      (∀ r < n, Reached (config r) (events' r) (m' r)) → (∀ r < n, (m r).SameFields (m' r)) →
      (∀ r < n, (m r).binding = (m' r).binding) → ∀ box reports box',
        World.run box ((List.range n).map fun r => (m r).build) = some (reports, box') →
        ∃ reports', World.run box ((List.range n).map fun r => (m' r).build) =
            some (reports', box') ∧ List.Forall₂ Report.Alike reports reports' := by
  refine ⟨fun r hr q => ?_, fun r hr => ⟨(h r hr).isSome_built, fun hcandid q => ?_⟩,
    fun events' m' h' hfields hbinding box reports box' hrun => ?_⟩
  · rw [(h r hr).run_query, result, (h r hr).built_eq, (h r hr).builder_eq]
    cases (latest? Event.built? (events r)).getD none <;> rfl
  · rw [← (h r hr).builder_eq] at hcandid
    rw [(h r hr).run_query_eq_notBuilt_iff hcandid, ← Option.not_isSome_iff_eq_none,
      (h r hr).isSome_built]
    cases latest? Event.succeeds? (events r) with
    | none => simp
    | some b => cases b <;> simp
  · have hconfig : ∀ r < n, (m r).config = (m' r).config := fun r hr =>
      (h r hr).config_eq.trans (h' r hr).config_eq.symm
    obtain ⟨reports', hrun', hproducts⟩ := run_build_again hfields hbinding hconfig hrun
    refine ⟨reports', hrun', List.forall₂_iff_get.2 ⟨?_, fun r hr hr' => ?_⟩⟩
    · rw [(World.comes_of_run_range hrun).1, (World.comes_of_run_range hrun').1]
    · refine alike_of_product_eq (reached_of_run h hrun (List.getElem?_eq_getElem hr))
        (reached_of_run h' hrun' (List.getElem?_eq_getElem hr')) ?_
      have hget : (reports.map Report.product)[r]? = (reports'.map Report.product)[r]? := by
        rw [hproducts]
      rw [List.getElem?_map, List.getElem?_map, List.getElem?_eq_getElem hr,
        List.getElem?_eq_getElem hr'] at hget
      exact Option.some.inj hget

end Manager

namespace Bars

open Manager

/-- After the build, rank `r` takes a builder whose ids descend. -/
def turned (r : Nat) : List Event :=
  start r ++ [.build ((crew 2).report r).product] ++ [.setBuilder .reversed]

theorem reached_turned {r : Nat} (hr : r < 2) :
    Reached ⟨.standard, true⟩ (turned r) (((crew 2).report r).manager.setBuilder .reversed) :=
  (reached_report hr).step (.setBuilder .reversed)

end Bars

namespace Manager

/-- Two bars are built, and each rank takes another builder.  Before the build there is no answer,
after it the new builder answers, and when the ranks build once more they come to the same ids. -/
theorem answers_fresh_bars :
    (∀ r < 2, Reached ⟨.standard, true⟩ (Bars.turned r)
      (((Bars.crew 2).report r).manager.setBuilder .reversed)) ∧
    (∀ r < 2, ∀ q : Question,
      (q.query.run (((Bars.crew 2).report r).manager.setBuilder .reversed)).1 =
        Builder.reversed.fresh ⟨((Bars.crew 2).built r).numbering,
          ((Bars.crew 2).built r).couplings, ((Bars.crew 2).built r).remoteRows⟩ q) ∧
    (∀ r < 2, Reached ⟨.standard, true⟩ (Bars.start r) (Bars.manager 2 r)) ∧
    (∀ r < 2, ∀ q : Question, (q.query.run (Bars.manager 2 r)).1 = .error .notBuilt) ∧
    (∀ r < 2, (Bars.manager 2 r).SameFields
      (((Bars.crew 2).report r).manager.setBuilder .reversed)) ∧
    (∀ r < 2, (Bars.manager 2 r).binding =
      (((Bars.crew 2).report r).manager.setBuilder .reversed).binding) ∧
    ∃ reports, World.run [] ((List.range 2).map fun r =>
        (((Bars.crew 2).report r).manager.setBuilder .reversed).build) = some (reports, []) ∧
      List.Forall₂ Report.Alike ((List.range 2).map (Bars.crew 2).report) reports := by
  have hmanager : ∀ r < 2, ((Bars.crew 2).report r).manager =
      { (Bars.manager 2 r).discard with built := some ((Bars.crew 2).built r) } :=
    fun r hr => Crew.succeeded_bars.manager_eq hr
  have hreached := fun r (hr : r < 2) => Bars.reached_turned hr
  have hstart := fun r (_ : r < 2) => Bars.reached_manager r
  have hfields : ∀ r < 2, (Bars.manager 2 r).SameFields
      (((Bars.crew 2).report r).manager.setBuilder .reversed) := fun r hr => by
    rw [hmanager r hr]
    exact ⟨rfl, rfl, rfl⟩
  have hbinding : ∀ r < 2, (Bars.manager 2 r).binding =
      (((Bars.crew 2).report r).manager.setBuilder .reversed).binding := fun r hr => by
    rw [hmanager r hr]
    rfl
  have hnotBuilt : ∀ r < 2, ∀ q : Question,
      (q.query.run (Bars.manager 2 r)).1 = .error .notBuilt := by
    intro r hr q
    have hlatest : latest? Event.succeeds? (Bars.start r) = some false := rfl
    refine (((answers_fresh hstart).2.1 r hr).2 Builder.candid_standard q).2 ?_
    rw [hlatest]
    simp
  refine ⟨hreached, fun r hr q => ?_, hstart, hnotBuilt, hfields, hbinding,
    (answers_fresh hstart).2.2 _ _ hreached hfields hbinding _ _ _ Crew.succeeded_bars.run⟩
  have hproduct : ((Bars.crew 2).report r).product.built = some ((Bars.crew 2).built r) := by
    rw [Report.product, hmanager r hr]
  have hbuilt : latest? Event.built? (Bars.turned r) = some (some ((Bars.crew 2).built r)) :=
    congrArg some hproduct
  have hanswer := (answers_fresh hreached).1 r hr q
  rw [hbuilt] at hanswer
  exact hanswer

end Manager

end Unknowns
