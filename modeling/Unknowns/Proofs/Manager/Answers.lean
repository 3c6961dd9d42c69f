import Unknowns.Manager
import Unknowns.Proofs.Outcomes

/-!
# Maps and graphs that are kept

A manager that is asked for a map or a graph (`Question`) answers what it has kept,
or else has the builder make it.  A graph is made over the rows of a map, which may
itself have been kept.

What a manager keeps is `Current` if it is what the builder would make of the
result now.  Under this condition it does not matter what was asked before:

* `Manager.answers_query`: the answer to each question is what the builder makes afresh
  (`Builder.fresh`), nothing else of the manager changes, and what is kept stays current.
-/

namespace Unknowns

/-! ### Questions -/

/-- What a manager is asked about the result of a build. -/
inductive Question where
  | map
  | overlapMap
  | graph
  | overlapGraph
deriving DecidableEq

namespace Question

/-- What is answered to a question. -/
abbrev Answer : Question → Type
  | map => IndexMap
  | overlapMap => IndexMap
  | graph => RowGraph
  | overlapGraph => RowGraph

/-- How a manager finds the answer. -/
def query : (q : Question) → Manager.Query q.Answer
  | map => Manager.map
  | overlapMap => Manager.overlapMap
  | graph => Manager.graph
  | overlapGraph => Manager.overlapGraph

end Question

/-- What a builder makes of a result; a graph is over the rows of the builder's own map. -/
def Builder.fresh (b : Builder) (c : BuildContext) : (q : Question) → Except Error q.Answer
  | .map => b.map c
  | .overlapMap => b.overlapMap c
  | .graph => do b.graph c (← b.map c)
  | .overlapGraph => do b.overlapGraph c (← b.overlapMap c)

namespace Cache

/-- What is kept for a question. -/
def look (c : Cache) : (q : Question) → Option q.Answer
  | .map => c.map
  | .overlapMap => c.overlapMap
  | .graph => c.graph
  | .overlapGraph => c.overlapGraph

/-- An answer is kept. -/
def keep : (q : Question) → q.Answer → Cache → Cache
  | .map, a, c => { c with map := some a }
  | .overlapMap, a, c => { c with overlapMap := some a }
  | .graph, a, c => { c with graph := some a }
  | .overlapGraph, a, c => { c with overlapGraph := some a }

theorem look_empty (q : Question) : empty.look q = none := by cases q <;> rfl

theorem look_keep_self (q : Question) (a : q.Answer) (c : Cache) :
    (keep q a c).look q = some a := by
  cases q <;> rfl

theorem look_keep_of_ne {q q' : Question} (h : q' ≠ q) (a : q.Answer) (c : Cache) :
    (keep q a c).look q' = c.look q' := by
  cases q <;> cases q' <;> first | rfl | exact absurd rfl h

end Cache

namespace Manager

open Question (query)

variable {α β : Type} {m m' : Manager}

/-! ### How questions run -/

/-- What has not been made is made and kept. -/
theorem run_kept {look : Cache → Option α} {keep : α → Cache → Cache} {make : Except Error α}
    {a : α} (hlook : look m.cache = none) (hmake : make = .ok a) :
    (kept look keep make).run m = (.ok a, { m with cache := keep a m.cache }) := by
  rw [kept, run_bind run_get, hlook, hmake]
  rfl

/-! ### What is kept -/

/-- What is kept is what the builder would make of the result. -/
def Current (m : Manager) : Prop :=
  ∀ q a, m.cache.look q = some a → ∃ b, m.built = some b ∧ m.builder.fresh b.context q = .ok a

/-- The manager with other maps and graphs. -/
def withCache (m : Manager) (cache : Cache) : Manager := { m with cache := cache }

/-- Where nothing is kept, nothing is out of date. -/
theorem current_of_empty (h : m.cache = .empty) : m.Current := by
  intro q a ha
  rw [h, Cache.look_empty] at ha
  cases ha

theorem Current.congr (h : m.Current) (hcache : m'.cache = m.cache)
    (hbuilt : m'.built = m.built) (hbuilder : m'.builder = m.builder) : m'.Current := by
  intro q a ha
  rw [hbuilt, hbuilder]
  exact h q a (hcache ▸ ha)

/-- A question comes to an answer, leaves the manager alone but for what it keeps, and keeps nothing
out of date. -/
def Answers (m : Manager) (p : Query α) (answer : Except Error α) : Prop :=
  ∃ cache, p.run m = (answer, m.withCache cache) ∧ (m.withCache cache).Current

theorem Answers.bind {p : Query α} {f : α → Query β} {x : Except Error α}
    {g : α → Except Error β} (h : m.Answers p x)
    (hf : ∀ a cache, x = .ok a → (m.withCache cache).Current →
      (m.withCache cache).Answers (f a) (g a)) : m.Answers (p >>= f) (x >>= g) := by
  obtain ⟨cache, hrun, hcurrent⟩ := h
  cases x with
  | error e => exact ⟨cache, run_bind_error hrun, hcurrent⟩
  | ok a =>
    obtain ⟨cache', hrun', hcurrent'⟩ := hf a cache rfl hcurrent
    exact ⟨cache', (run_bind hrun).trans hrun', hcurrent'⟩

/-- A question looks at the manager first. -/
theorem Answers.get_bind {f : Manager → Query α} {x : Except Error α} (h : m.Answers (f m) x) :
    m.Answers (get >>= f) x := by
  obtain ⟨cache, hrun, hcurrent⟩ := h
  exact ⟨cache, (run_bind run_get).trans hrun, hcurrent⟩

section
variable (hm : m.Current)
include hm

/-- Without the result of a build there is no answer. -/
theorem Answers.of_none (hb : m.built = none) (f : Built → Query α) :
    m.Answers (kept.liftExcept m.result >>= f) (.error .notBuilt) := by
  refine ⟨m.cache, ?_, hm⟩
  rw [result, hb]
  rfl

omit hm in
/-- With a result the question goes on. -/
theorem Answers.of_some {b : Built} (hb : m.built = some b) {f : Built → Query α}
    {x : Except Error α} (h : m.Answers (f b) x) :
    m.Answers (kept.liftExcept m.result >>= f) x := by
  rw [result, hb]
  exact h

/-- An answer that the builder makes may be kept. -/
theorem Current.keep {b : Built} (hb : m.built = some b) {q : Question} {a : q.Answer}
    (ha : m.builder.fresh b.context q = .ok a) : (m.withCache (m.cache.keep q a)).Current := by
  intro q' a' ha'
  by_cases hq : q' = q
  · subst hq
    obtain rfl := Option.some.inj ((Cache.look_keep_self q' a m.cache).symm.trans ha')
    exact ⟨b, hb, ha⟩
  · exact hm q' a' ((Cache.look_keep_of_ne hq a m.cache).symm.trans ha')

/-- An answer that is kept is the one that would be made, so it does not matter which is given. -/
theorem answers_kept {b : Built} (hb : m.built = some b) (q : Question)
    {make : Except Error q.Answer} (hmake : m.builder.fresh b.context q = make) :
    m.Answers (kept (fun c => c.look q) (Cache.keep q) make) make := by
  cases hlook : m.cache.look q with
  | some a =>
    obtain ⟨b', hb', ha⟩ := hm q a hlook
    obtain rfl := Option.some.inj (hb'.symm.trans hb)
    refine ⟨m.cache, ?_, hm⟩
    rw [kept, run_bind run_get, hlook, ← hmake, ha]
    rfl
  | none =>
    cases make with
    | error e =>
      refine ⟨m.cache, ?_, hm⟩
      rw [kept, run_bind run_get, hlook]
      rfl
    | ok a => exact ⟨m.cache.keep q a, run_kept hlook rfl, hm.keep hb hmake⟩

section
variable {b : Built} (hb : m.built = some b)
include hb

theorem answers_map : m.Answers Manager.map (m.builder.map b.context) :=
  .get_bind (.of_some hb (answers_kept hm hb .map rfl))

theorem answers_overlapMap : m.Answers Manager.overlapMap (m.builder.overlapMap b.context) :=
  .get_bind (.of_some hb (answers_kept hm hb .overlapMap rfl))

/-- A graph is made over the rows that the builder's map has, kept or not. -/
theorem answers_graph :
    m.Answers Manager.graph (m.builder.map b.context >>= m.builder.graph b.context) := by
  -- Asking for the map may have changed what is kept, so the rest is asked of a later manager.
  refine .get_bind (.of_some hb ((answers_map hm hb).bind fun rows cache hrows hcurrent => ?_))
  refine answers_kept hcurrent hb .graph ?_
  show (m.builder.map b.context >>= m.builder.graph b.context) = _
  rw [hrows]
  rfl

theorem answers_overlapGraph :
    m.Answers Manager.overlapGraph
      (m.builder.overlapMap b.context >>= m.builder.overlapGraph b.context) := by
  refine .get_bind (.of_some hb ((answers_overlapMap hm hb).bind fun rows cache hrows hcurrent => ?_))
  refine answers_kept hcurrent hb .overlapGraph ?_
  show (m.builder.overlapMap b.context >>= m.builder.overlapGraph b.context) = _
  rw [hrows]
  rfl

end

/-- **All questions are answered as the builder would answer them now**, and none spoils another. -/
theorem answers_query (q : Question) :
    m.Answers q.query (m.result >>= fun b => m.builder.fresh b.context q) := by
  unfold result
  cases hb : m.built with
  | none => cases q <;> exact .get_bind (.of_none hm hb _)
  | some b =>
    cases q with
    | map => exact answers_map hm hb
    | overlapMap => exact answers_overlapMap hm hb
    | graph => exact answers_graph hm hb
    | overlapGraph => exact answers_overlapGraph hm hb

end

/-- A manager that has kept nothing has the builder answer. -/
theorem run_query_of_empty {b : Built} (hb : m.built = some b) (hcache : m.cache = .empty)
    (q : Question) : (q.query.run m).1 = m.builder.fresh b.context q := by
  obtain ⟨cache, hrun, -⟩ := answers_query (current_of_empty hcache) q
  rw [hrun, result, hb]
  rfl

end Manager

end Unknowns
