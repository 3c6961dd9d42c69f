import Mathlib.Data.List.Pairwise
import Unknowns.Proofs.World.Ways

/-!
# Programs in step, at every pace

The ranks of a world run a sequence of programs each; the next one may depend on
the results so far.  In a `Course` the programs that are due together go in step.
Then there is one schedule that leads through all of them, round by round
(`Course.reaches`), and what holds at its end carries over to every schedule:

* `Course.interleaved`: no rank waits forever, all schedules are bounded, whatever a
  rank takes is what its peer sent in the same round of the same program, and when
  all ranks have ended, they have the results of the course and nothing is left in
  any queue.
-/

namespace Unknowns

namespace World

variable {β : Type} {n : Nat} {plan : Nat → List β → Option (Rounds β)} {s t u : Scene β} {r : Nat}

/-- A moment comes before another in the course of a rank. -/
def Moment.Before (x y : Moment) : Prop := x.turn < y.turn ∨ x.turn = y.turn ∧ x.round < y.round

namespace Scene

/-! ### Ranks that are at the same moment -/

/-- Two messages of a rank do not go to the same rank at the same moment. -/
def Apart (p q : Channel × Envelope) : Prop := ¬(p.1.dest = q.1.dest ∧ p.2.sentAt = q.2.sentAt)

instance : Std.Symm Apart := ⟨fun _ _ h he => h ⟨he.1.symm, he.2.symm⟩⟩

/-- All ranks are at the same moment of their course, and nothing is on its way.  Up to then no rank
has sent two messages to another at one moment, and whatever was taken had been sent at the moment
at which it was taken. -/
structure Level (n : Nat) (now : Moment) (s : Scene β) : Prop where
  present : ∀ r < n, (s.worker r).now = now
  queue : ∀ c, s.queue c = []
  earlier : ∀ r < n, ∀ p ∈ (s.worker r).sent, p.2.sentAt.Before now
  single : ∀ r < n, (s.worker r).sent.Pairwise Apart
  received : ∀ r < n, ∀ x ∈ (s.worker r).received,
    x.channel.source < n ∧ x.envelope.sentAt = x.takenAt

theorem level_start (n : Nat) (plan : Nat → List β → Option (Rounds β)) :
    (start plan).Level n ⟨0, 0⟩ where
  present _ _ := rfl
  queue _ := rfl
  earlier _ _ := List.forall_mem_nil _
  single _ _ := .nil
  received _ _ := List.forall_mem_nil _

/-- Through a matched round all ranks come to the same next moment. -/
theorem Level.round {sends : Nat → List Outgoing} {awaits : Nat → List Awaited}
    {payload : Nat → Awaited → Payload} {now : Moment} (hs : s.Level n now)
    (hm : Matched n sends awaits payload) {next : Nat → List (Option Payload) → Rounds β}
    (hp : ∀ r < n, (s.worker r).program = some (.round (sends r) (awaits r) (next r))) :
    ∃ t, Reaches plan n s t ∧ t.Level n ⟨now.turn, now.round + 1⟩ ∧ ∀ r < n,
      (t.worker r).program = some (next r ((awaits r).map fun a => some (payload r a))) ∧
        (t.worker r).past = (s.worker r).past := by
  obtain ⟨t, hreach, hqueue, hworker⟩ := reaches_round hm hp hs.present hs.queue
  have hafter : now.Before ⟨now.turn, now.round + 1⟩ := .inr ⟨rfl, Nat.lt_succ_self _⟩
  have hposted : ∀ r < n, ∀ o, (Worker.posting r (s.worker r).now o).2.sentAt = now :=
    fun r hr o => hs.present r hr
  refine ⟨t, hreach, ⟨fun r hr => ?_, hqueue, fun r hr => ?_, fun r hr => ?_, fun r hr => ?_⟩,
    fun r hr => ?_⟩
  · rw [hworker r hr, ← hs.present r hr]
    rfl
  · rw [hworker r hr]
    refine List.forall_mem_append.2 ⟨fun p hp => ?_,
      List.forall_mem_map.2 fun o _ => (hposted r hr o).symm ▸ hafter⟩
    rcases hs.earlier r hr p hp with hturn | ⟨hturn, hround⟩
    · exact .inl hturn
    · exact .inr ⟨hturn, Nat.lt_succ_of_lt hround⟩
  · rw [hworker r hr]
    refine List.pairwise_append.2 ⟨hs.single r hr, ?_, fun p hp q hq he => ?_⟩
    · rw [List.pairwise_map]
      exact (hm.dests r hr).imp fun hne he => hne he.1
    · obtain ⟨o, -, rfl⟩ := List.mem_map.1 hq
      have hbefore := hs.earlier r hr p hp
      rw [he.2, hposted r hr o] at hbefore
      rcases hbefore with hturn | ⟨-, hround⟩
      · exact Nat.lt_irrefl _ hturn
      · exact Nat.lt_irrefl _ hround
  · rw [hworker r hr]
    refine List.forall_mem_append.2 ⟨hs.received r hr,
      List.forall_mem_map.2 (List.forall_mem_map.2 fun a ha => ?_)⟩
    exact ⟨(hm.sent r hr a ha).1, (hs.present r hr).symm⟩
  · rw [hworker r hr]
    exact ⟨rfl, rfl⟩

/-- Programs that go in step lead all ranks to their ends. -/
theorem Level.inStep {p : Nat → Rounds β} {a : Nat → β} (h : InStep n p a) {now : Moment}
    (hs : s.Level n now) (hp : ∀ r < n, (s.worker r).program = some (p r)) :
    ∃ t round, Reaches plan n s t ∧ t.Level n ⟨now.turn, round⟩ ∧ ∀ r < n,
      (t.worker r).program = some (.done (a r)) ∧ (t.worker r).past = (s.worker r).past := by
  induction h generalizing s now with
  | done hd => exact ⟨s, now.round, .refl s, hs, fun r hr => ⟨by rw [hp r hr, hd r hr], rfl⟩⟩
  | round hround hm _ ih =>
    obtain ⟨t, hreach, hlevel, ht⟩ := hs.round hm fun r hr => by rw [hp r hr, hround r hr]
    obtain ⟨u, round, hreach', hlevel', hu⟩ := ih hlevel fun r hr => (ht r hr).1
    exact ⟨u, round, hreach.trans hreach', hlevel',
      fun r hr => ⟨(hu r hr).1, (hu r hr).2.trans (ht r hr).2⟩⟩

variable (plan) in
/-- Ranks at the ends of their programs go on to the next ones. -/
theorem Level.turn {a : Nat → β} {now : Moment} (hs : s.Level n now)
    (hp : ∀ r < n, (s.worker r).program = some (.done (a r))) :
    ∃ t, Reaches plan n s t ∧ t.Level n ⟨now.turn + 1, 0⟩ ∧ ∀ r < n,
      (t.worker r).past = (s.worker r).past ++ [a r] ∧
        (t.worker r).program = plan r ((s.worker r).past ++ [a r]) := by
  let part (m : Nat) : Scene β := s.upTo m
    (fun r => (s.worker r).nextProgram (a r) (plan r ((s.worker r).past ++ [a r]))) s.queue
  have hreach : Reaches plan n (part 0) (part n) := by
    refine .each fun m hm => ?_
    have hworker : (part m).worker m = s.worker m := worker_upTo_self
    have hstep : (part m).step? plan m = _ := step?_done (by rw [hworker]; exact hp m hm)
    rw [hworker] at hstep
    have hnext : part (m + 1) = (part m).set m _ _ := upTo_succ
    exact .single hm (hnext ▸ hstep)
  have hworker : ∀ r < n, (part n).worker r = _ := fun r hr => worker_upTo hr
  rw [show part 0 = s from upTo_zero] at hreach
  refine ⟨part n, hreach, ⟨fun r hr => ?_, hs.queue, fun r hr p hp => ?_, fun r hr => ?_,
    fun r hr => ?_⟩, fun r hr => ?_⟩
  · have hnow := hs.present r hr
    rw [hworker r hr, ← hnow, Worker.now, Worker.now]
    simp only [Worker.nextProgram, List.length_append, List.length_singleton]
  · rw [hworker r hr] at hp
    rcases hs.earlier r hr p hp with hturn | ⟨hturn, -⟩
    · exact .inl (Nat.lt_succ_of_lt hturn)
    · exact .inl (by rw [hturn]; exact Nat.lt_succ_self now.turn)
  · rw [hworker r hr]
    exact hs.single r hr
  · rw [hworker r hr]
    exact hs.received r hr
  · rw [hworker r hr]
    exact ⟨rfl, rfl⟩

end Scene

/-! ### Courses -/

/-- From the results `past r` on, the ranks below `n` run programs that go in step, one after the
other, and end with `results r`. -/
inductive Course (n : Nat) (plan : Nat → List β → Option (Rounds β)) :
    (Nat → List β) → (Nat → List β) → Prop
  | done {past results : Nat → List β} (hp : ∀ r < n, plan r (past r) = none)
      (hresults : ∀ r < n, past r = results r) : Course n plan past results
  | turn {past past' results : Nat → List β} {p : Nat → Rounds β} {a : Nat → β}
      (hp : ∀ r < n, plan r (past r) = some (p r)) (h : InStep n p a)
      (hpast : ∀ r < n, past' r = past r ++ [a r]) (hrest : Course n plan past' results) :
      Course n plan past results

/-- A rank has ended all its programs. -/
def Worker.Ended (w : Worker β) : Prop := w.program = none

/-- Whatever a rank below `n` has taken was sent to it, at the moment of the sender at which it took
it, and at this moment nothing else was sent to it by this sender. -/
def Scene.Faithful (n : Nat) (s : Scene β) : Prop :=
  ∀ r < n, ∀ x ∈ (s.worker r).received, x.channel.dest = r ∧ ∀ p,
    p ∈ (s.worker x.channel.source).sent ∧ p.1.dest = r ∧ p.2.sentAt = x.takenAt ↔
      p = (x.channel, x.envelope)

namespace Course

open Scene

variable {past results : Nat → List β}

/-- There is a schedule that leads through all programs. -/
theorem reaches (h : Course n plan past results) {now : Moment} (hs : s.Level n now)
    (hpast : ∀ r < n, (s.worker r).past = past r)
    (hp : ∀ r < n, (s.worker r).program = plan r (past r)) :
    ∃ t now', Reaches plan n s t ∧ t.Level n now' ∧ ∀ r < n,
      (t.worker r).Ended ∧ (t.worker r).past = results r := by
  induction h generalizing s now with
  | done hnone hresults =>
    exact ⟨s, now, .refl s, hs, fun r hr =>
      ⟨(hp r hr).trans (hnone r hr), (hpast r hr).trans (hresults r hr)⟩⟩
  | turn hsome hstep hnext _ ih =>
    obtain ⟨t, round, hreach, hlevel, ht⟩ :=
      hs.inStep hstep fun r hr => (hp r hr).trans (hsome r hr)
    obtain ⟨u, hreach', hlevel', hu⟩ := hlevel.turn plan fun r hr => (ht r hr).1
    have hpast' : ∀ r < n, (t.worker r).past = _ := fun r hr => (ht r hr).2.trans (hpast r hr)
    obtain ⟨v, now', hreach'', hlevel'', hv⟩ := ih hlevel'
      (fun r hr => by rw [(hu r hr).1, hpast' r hr, hnext r hr])
      fun r hr => by rw [(hu r hr).2, hpast' r hr, hnext r hr]
    exact ⟨v, now', (hreach.trans hreach').trans hreach'', hlevel'', hv⟩

/-- Records that grow into those of a level scene are faithful. -/
theorem faithful_of_records {now : Moment} (ht : t.Level n now) (hs : s.Balanced)
    (hgrow : ∀ r, (s.worker r).sent <+: (t.worker r).sent ∧
      (s.worker r).received <+: (t.worker r).received) : s.Faithful n := by
  intro r hr x hx
  obtain ⟨hsource, hsentAt⟩ := ht.received r hr x ((hgrow r).2.subset hx)
  have hdest := hs.dest r x hx
  refine ⟨hdest, fun p => ⟨?_, ?_⟩⟩
  · rintro ⟨hp, hpdest, hpat⟩
    by_contra hne
    have hsingle := (ht.single x.channel.source hsource).sublist (hgrow x.channel.source).1.sublist
    exact hsingle.forall hp (hs.mem_sent hx) hne
      ⟨hpdest.trans hdest.symm, hpat.trans hsentAt.symm⟩
  · rintro rfl
    exact ⟨hs.mem_sent hx, hdest, hsentAt⟩

/-- **A course leads to its results at every pace.**  There is a bound on the length of schedules,
and of whatever the ranks do under a schedule the following holds.

* As long as some rank has not ended, some rank can step.
* Whatever was taken from a channel is what was sent on it, in the same order.
* What a rank has taken is the one message that its peer sent to it in the same round of the same
  program.
* When all ranks have ended, all queues are empty and all have the results of the course. -/
theorem interleaved (h : Course n plan (fun _ => []) results) :
    ∃ bound, ∀ (schedule : List Nat) (s : Scene β), (∀ r ∈ schedule, r < n) →
      (start plan).run? plan schedule = some s →
        schedule.length ≤ bound ∧
        ((∃ r < n, ¬(s.worker r).Ended) → ∃ r < n, (s.step? plan r).isSome) ∧
        s.Balanced ∧ s.Faithful n ∧
        ((∀ r < n, (s.worker r).Ended) →
          (∀ c, s.queue c = []) ∧ ∀ r < n, (s.worker r).past = results r) := by
  obtain ⟨t, now, ⟨whole, hwhole, hrun⟩, hlevel, ht⟩ :=
    h.reaches (level_start n plan) (fun _ _ => rfl) fun _ _ => rfl
  refine ⟨whole.length, fun schedule s hschedule hs => ?_⟩
  have hend : ∀ r < n, t.step? plan r = none := fun r hr => step?_ended (ht r hr).1
  obtain ⟨hsub, hrest⟩ := run?_diff (fun r hr => hend r (hschedule r hr)) hrun hs
  have hbalanced := (balanced_start plan).run hs
  have hway : s = t ∨ ∃ q < n, (s.step? plan q).isSome := by
    refine (eq_or_isSome_step?_of_run? hrest).imp_right fun ⟨q, hq, hstep⟩ => ?_
    exact ⟨q, hwhole q (List.diff_subset whole schedule hq), hstep⟩
  refine ⟨hsub.length_le, fun ⟨r, hr, hgoing⟩ => ?_, hbalanced,
    faithful_of_records hlevel hbalanced fun r => prefix_of_run? hrest r, fun hended => ?_⟩
  · refine hway.resolve_left ?_
    rintro rfl
    exact hgoing (ht r hr).1
  · have hsame : s = t := by
      refine hway.resolve_right ?_
      rintro ⟨q, hq, hstep⟩
      rw [step?_ended (hended q hq)] at hstep
      cases hstep
    rw [hsame]
    exact ⟨hlevel.queue, fun r hr => (ht r hr).2⟩

end Course

end World

end Unknowns
