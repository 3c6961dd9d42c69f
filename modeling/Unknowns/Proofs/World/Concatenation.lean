import Mathlib.Order.WellFounded
import Unknowns.Proofs.World.Gatherings

/-!
# What comes of gathering

Where all ranks are on their agendas (`Orderly`), whatever a rank has taken from a peer
in a gathering is what the peer sent in the same one (`Orderly.same_gathering`), no rank
waits forever for the bytes of another one (`Orderly.progress`), and when all have ended
nothing is left under the tag of gathering (`Orderly.queue_eq_nil`).

`gatherings_concatenate` puts this together for every world, every number of gatherings
and every pace, with any other messages under other tags; where there are none, no
schedule goes on forever.
-/

namespace Unknowns

namespace World

variable {β : Type} {n rounds r : Nat} {chunk : Nat → Nat → Payload} {agenda : Nat → Agenda β rounds}
  {s : Scene (Brought β)}

namespace Orderly

section
variable (hs : Orderly n chunk agenda s)
include hs

/-- **What a rank takes from a peer in one of its gatherings** is what the peer sent to it in the
same one. -/
theorem same_gathering (hr : r < n) {x : Receipt} (hx : x ∈ (s.worker r).received)
    (htag : x.channel.tag = gatherTag) :
    x.channel.dest = r ∧ x.channel.source < n ∧
      (x.channel, x.envelope) ∈ (s.worker x.channel.source).sent ∧
      ∃ k, x.envelope.payload = chunk k x.channel.source ∧
        gatheringAt (s.worker x.channel.source).past x.envelope.sentAt = k ∧
        gatheringAt (s.worker r).past x.takenAt = k := by
  have hdest := hs.dest r x hx
  have hchannel : x.channel = ⟨x.channel.source, r, gatherTag⟩ := by rw [← hdest, ← htag]
  obtain ⟨_, _, hkept⟩ := (hs.position r hr).exists_kept
  obtain ⟨k, htaken, hpeer, htakenAt⟩ := hkept.of_received hx hchannel
  have hsource := ((mem_peers hr).1 hpeer).1
  have heven : Scene.sentOn ⟨x.channel.source, r, gatherTag⟩ (s.worker x.channel.source).sent =
      Scene.takenFrom ⟨x.channel.source, r, gatherTag⟩ (s.worker r).received ++
        s.queue ⟨x.channel.source, r, gatherTag⟩ := hs.even _ rfl
  have hsent : (Scene.sentOn ⟨x.channel.source, r, gatherTag⟩
      (s.worker x.channel.source).sent)[k]? = some x.envelope := by
    obtain ⟨hlt, -⟩ := List.getElem?_eq_some_iff.1 htaken
    rw [heven, List.getElem?_append_left hlt, htaken]
  obtain ⟨_, _, hkept'⟩ := (hs.position _ hsource).exists_kept
  obtain ⟨hpayload, hsentAt⟩ := hkept'.of_sentOn hsent
  refine ⟨hdest, hsource, ?_, k, hpayload, hsentAt, htakenAt⟩
  rw [hchannel]
  exact Scene.mem_sentOn.1 (List.mem_of_getElem? hsent)

/-- A rank that has ended has gathered as often as it was to. -/
theorem of_ended (hr : r < n) (h : (s.worker r).Ended) :
    (gatherings (s.worker r).past).length = rounds ∧
      Kept n rounds chunk r (s.worker r) (seat n r).peers (seat n r).peers := by
  cases hs.position r hr with
  | resting hnext _ hkept =>
    exact ⟨Nat.le_antisymm hkept.le ((agenda r).le_of_ended _ hnext), hkept⟩
  | other _ _ hp _ => cases hp.symm.trans h
  | gathering _ _ _ hp _ => cases hp.symm.trans h
  | gathered _ hp _ => cases hp.symm.trans h

/-- **When all ranks have ended, no message is left.** -/
theorem queue_eq_nil (hended : ∀ r < n, (s.worker r).Ended) {c : Channel} (hc : c.tag = gatherTag) :
    s.queue c = [] := by
  obtain ⟨source, dest, tag⟩ := c
  obtain rfl : tag = gatherTag := hc
  have heven : Scene.sentOn ⟨source, dest, gatherTag⟩ (s.worker source).sent =
      Scene.takenFrom ⟨source, dest, gatherTag⟩ (s.worker dest).received ++
        s.queue ⟨source, dest, gatherTag⟩ := hs.even _ rfl
  have hbalance := congrArg List.length heven
  rw [List.length_append] at hbalance
  refine List.length_eq_zero_iff.1 ?_
  by_cases hsource : source < n
  · obtain ⟨hrounds, hkept⟩ := hs.of_ended hsource (hended source hsource)
    have hsent := hkept.length_sentOn dest
    rw [passed_self, hrounds] at hsent
    by_cases hpeer : dest ∈ (seat n source).peers
    · obtain ⟨hdest, hne⟩ := (mem_peers hsource).1 hpeer
      obtain ⟨hrounds', hkept'⟩ := hs.of_ended hdest (hended dest hdest)
      have htaken := hkept'.length_takenFrom source
      rw [passed_self, hrounds', if_pos ((mem_peers hdest).2 ⟨hsource, hne.symm⟩)] at htaken
      rw [if_pos hpeer] at hsent
      omega
    · rw [if_neg hpeer] at hsent
      omega
  · rw [hs.outside source (Nat.le_of_not_lt hsource)] at hbalance
    have hnone : (Scene.sentOn ⟨source, dest, gatherTag⟩ []).length = 0 := rfl
    omega

/-- **A rank that cannot step** and does not wait for other messages waits for the bytes of a peer,
having sent its own to all. -/
theorem waits_of_stuck (hr : r < n) (hgoing : ¬(s.worker r).Ended)
    (hstep : ¬(s.step? (agendaPlan n chunk agenda) r).isSome) (hother : ¬s.AwaitsOther r) :
    (gatherings (s.worker r).past).length < rounds ∧ ∃ q toTake, q ∈ (seat n r).peers ∧
      Kept n rounds chunk r (s.worker r) [] (q :: toTake) ∧ s.queue ⟨q, r, gatherTag⟩ = [] := by
  have hnone : ∀ {t}, s.step? (agendaPlan n chunk agenda) r ≠ some t := fun h =>
    hstep (Option.isSome_iff_exists.2 ⟨_, h⟩)
  cases hs.position r hr with
  | resting _ hp _ => exact absurd hp hgoing
  | @other program _ havoids hp _ =>
    cases program with
    | done result => exact absurd (Scene.step?_done hp) hnone
    | round sends awaits next =>
      cases sends with
      | cons o sends => exact absurd (Scene.step?_send hp) hnone
      | nil =>
        cases awaits with
        | nil => exact absurd (Scene.step?_nextRound hp) hnone
        | cons a awaits =>
          cases hqueue : s.queue (Worker.inlet r a) with
          | cons e rest => exact absurd (Scene.step?_take hp hqueue) hnone
          | nil =>
            have ha := havoids.2.1 a (List.mem_cons_self ..)
            exact absurd ⟨a, awaits, _, hp, ha, hqueue⟩ hother
  | @gathering toSend had toTake hnext hsend htake hp hkept =>
    cases toSend with
    | cons p toSend => exact absurd (Scene.step?_send hp) hnone
    | nil =>
      cases toTake with
      | nil => exact absurd (Scene.step?_nextRound hp) hnone
      | cons q toTake =>
        refine ⟨(agenda r).lt_of_gather _ hnext, q, toTake,
          htake ▸ List.mem_append_right _ (List.mem_cons_self ..), hkept, ?_⟩
        cases hqueue : s.queue ⟨q, r, gatherTag⟩ with
        | nil => rfl
        | cons e rest => exact absurd (Scene.step?_take hp hqueue) hnone
  | gathered _ hp _ => exact absurd (Scene.step?_done hp) hnone

/-- **As long as some rank has not ended**, some rank can step, unless one waits for a message under
another tag. -/
theorem progress (h : ∃ r < n, ¬(s.worker r).Ended) :
    ∃ r < n, (s.step? (agendaPlan n chunk agenda) r).isSome ∨ s.AwaitsOther r := by
  by_contra hstuck
  have hwaits := fun (r : Nat) (hr : r < n) (hgoing : ¬(s.worker r).Ended) =>
    hs.waits_of_stuck hr hgoing (fun hstep => hstuck ⟨r, hr, .inl hstep⟩)
      fun hother => hstuck ⟨r, hr, .inr hother⟩
  -- Of the ranks that go on, one that has ended the fewest gatherings waits for a peer in vain.
  obtain ⟨r, ⟨hr, hgoing⟩, hleast⟩ := WellFounded.has_min
    (measure fun r => (gatherings (s.worker r).past).length).wf {r | r < n ∧ ¬(s.worker r).Ended} h
  obtain ⟨hlt, q, toTake, hq, hkept, hqueue⟩ := hwaits r hr hgoing
  obtain ⟨hqn, hne⟩ := (mem_peers hr).1 hq
  have hr' : r ∈ (seat n q).peers := (mem_peers hqn).2 ⟨hr, hne.symm⟩
  have heven : Scene.sentOn ⟨q, r, gatherTag⟩ (s.worker q).sent =
      Scene.takenFrom ⟨q, r, gatherTag⟩ (s.worker r).received ++ s.queue ⟨q, r, gatherTag⟩ :=
    hs.even _ rfl
  have hbalance := congrArg List.length heven
  rw [hqueue, List.append_nil, hkept.length_takenFrom, passed_cons_self hq] at hbalance
  by_cases hended : (s.worker q).Ended
  · obtain ⟨hrounds, hkept'⟩ := hs.of_ended hqn hended
    rw [hkept'.length_sentOn, passed_self, if_pos hr', hrounds] at hbalance
    omega
  · obtain ⟨-, _, _, -, hkept', -⟩ := hwaits q hqn hended
    rw [hkept'.length_sentOn, passed_of_not_mem hr' List.not_mem_nil] at hbalance
    have hle : ¬(gatherings (s.worker q).past).length < (gatherings (s.worker r).past).length :=
      hleast q ⟨hqn, hended⟩
    omega

end

end Orderly

/-! ### Nothing but gathering -/

section
variable (hlength : ∀ k < rounds, ∀ r < n, ∀ q < n, (chunk k r).length = (chunk k q).length)
  (honly : ∀ r < n, ∀ past program avoids, (agenda r).next past ≠ some (.other program avoids))

include honly in
/-- A rank that does nothing else gathers as often as it is to. -/
theorem next_of_only (hr : r < n) (past : List (Brought β)) :
    (agenda r).next past = if (gatherings past).length < rounds then some .gather else none := by
  cases hnext : (agenda r).next past with
  | none => rw [if_neg (Nat.not_lt.2 ((agenda r).le_of_ended past hnext))]
  | some errand =>
    cases errand with
    | gather => rw [if_pos ((agenda r).lt_of_gather past hnext)]
    | other program avoids => exact absurd hnext (honly r hr past program avoids)

include honly in
/-- Nothing else is taken then. -/
theorem Orderly.tag_of_take (hs : Orderly n chunk agenda s) (hr : r < n) {c : Channel}
    {next : Envelope → Worker (Brought β)}
    (h : (s.worker r).move (agendaPlan n chunk agenda r) r = .take c next) : c.tag = gatherTag := by
  cases hs.position r hr with
  | resting _ hp _ =>
    rw [Worker.move, hp] at h
    cases h
  | other hnext _ _ _ =>
    obtain ⟨program, avoids, hnext⟩ := hnext
    exact absurd hnext (honly r hr _ program avoids)
  | @gathering toSend had toTake _ _ _ hp _ =>
    rw [Worker.move, hp] at h
    cases toSend with
    | cons p toSend => cases h
    | nil =>
      cases toTake with
      | nil => cases h
      | cons q toTake =>
        obtain ⟨rfl, -⟩ := Worker.Move.take.inj h
        rfl
  | gathered _ hp _ =>
    rw [Worker.move, hp] at h
    cases h

include honly in
theorem Orderly.not_awaitsOther (hs : Orderly n chunk agenda s) (hr : r < n) : ¬s.AwaitsOther r := by
  rintro ⟨a, awaits, next, hp, ha, -⟩
  have hmove : ∃ w, (s.worker r).move (agendaPlan n chunk agenda r) r =
      .take (Worker.inlet r a) w := ⟨_, by rw [Worker.move, hp]⟩
  obtain ⟨w, hmove⟩ := hmove
  exact ha (hs.tag_of_take honly hr hmove)

include hlength honly in
/-- **The same schedule is possible without messages under other tags**, and leads to the same
place. -/
theorem exists_run_of_reached {schedule : List Nat}
    (h : Reached n (agendaPlan n chunk agenda) schedule s) :
    (∀ r ∈ schedule, r < n) ∧ ∃ s', (Scene.start (agendaPlan n chunk agenda)).run?
      (agendaPlan n chunk agenda) schedule = some s' ∧ s.Agree s' := by
  induction h with
  | start => exact ⟨List.forall_mem_nil _, _, rfl, rfl, fun _ _ => rfl⟩
  | @step schedule s t r h hr hstep ih =>
    obtain ⟨hschedule, s', hrun, hagree⟩ := ih
    have hs := Orderly.of_reached hlength h
    obtain ⟨t', hstep', hagree'⟩ := hagree.step (fun c w => hs.tag_of_take honly hr) hstep
    refine ⟨List.forall_mem_append.2 ⟨hschedule, List.forall_mem_singleton.2 hr⟩, t', ?_, hagree'⟩
    rw [Scene.run?_append, hrun]
    exact Option.bind_eq_some_iff.2 ⟨s', rfl, Option.bind_eq_some_iff.2 ⟨t', hstep', rfl⟩⟩
  | stray _ hqueue ih =>
    obtain ⟨hschedule, s', hrun, hagree⟩ := ih
    exact ⟨hschedule, s', hrun, hagree.worker,
      fun c hc => (hagree.queue c hc).trans (hqueue c hc).symm⟩

/-- What came of the first gatherings. -/
def gatheredIn (n : Nat) (chunk : Nat → Nat → Payload) (k : Nat) : List (Brought β) :=
  (List.range k).map fun i => .gathered (.ok (joint n (chunk i)))

theorem length_gatherings_gatheredIn (k : Nat) :
    (gatherings (gatheredIn n chunk k : List (Brought β))).length = k := by
  rw [gatheredIn, gatherings_map_gathered, List.length_map, List.length_range]

include hlength honly

/-- Gatherings so far, as the first part of a course. -/
theorem course_gatherings {k : Nat} (hk : k ≤ rounds) {results : Nat → List (Brought β)}
    (hrest : Course n (agendaPlan n chunk agenda) (fun _ => gatheredIn n chunk k) results) :
    Course n (agendaPlan n chunk agenda) (fun _ => []) results := by
  induction k with
  | zero => exact hrest
  | succ k ih =>
    have hgathers := succeeds_gather fun r hr => hlength k hk r hr 0 (Nat.zero_lt_of_lt hr)
    have hstep : InStep n (fun r => (.gather : Errand β).program n chunk r k)
        fun _ => .gathered (.ok (joint n (chunk k))) :=
      InStep.bind (f := fun _ bytes => .done (Brought.gathered bytes)) hgathers (.done fun _ _ => rfl)
    refine ih (by omega) (.turn (fun r hr => ?_) hstep (fun r hr => ?_) hrest)
    · rw [agendaPlan, next_of_only honly hr, length_gatherings_gatheredIn, if_pos (Nat.lt_of_succ_le hk)]
      rfl
    · rw [gatheredIn, List.range_succ, List.map_append]
      rfl

/-- **All gatherings of ranks that do nothing else** are a course. -/
theorem course_of_only :
    Course n (agendaPlan n chunk agenda) (fun _ => []) fun _ => gatheredIn n chunk rounds := by
  refine course_gatherings hlength honly (Nat.le_refl rounds) (.done (fun r hr => ?_) fun _ _ => rfl)
  rw [agendaPlan, next_of_only honly hr, length_gatherings_gatheredIn,
    if_neg (Nat.lt_irrefl rounds)]
  rfl

end

/-- **Gathering concatenates what all ranks pass, and gatherings keep apart.**  All ranks of a world
gather the same number of times under the one tag reserved for it; in gathering `k`, rank `r` passes
`chunk k r`, as many bytes as the others.  Otherwise each runs any programs, and messages come and go
at any time, but under other tags.  Of whatever the ranks do under a schedule the following holds.

* What a rank has for its gatherings so far is, for each of them, what all ranks pass in it, in the
  order of the ranks.
* What a rank has taken in its gathering `k` is what another one sent to it in its own gathering `k`.
* As long as some rank has not ended, some rank can step, unless one waits for a message under
  another tag.
* When all ranks have ended, nothing is left under the tag of gathering, and all have all gatherings.

If all that the ranks do is gather, there is a bound on the length of schedules, and some rank can
step until all have ended. -/
theorem gatherings_concatenate (n rounds : Nat) (chunk : Nat → Nat → Payload)
    (hlength : ∀ k < rounds, ∀ r < n, ∀ q < n, (chunk k r).length = (chunk k q).length)
    (agenda : Nat → Agenda β rounds) :
    (∀ schedule s, Reached n (agendaPlan n chunk agenda) schedule s →
      (∀ r < n, ∃ ended ≤ rounds, gatherings (s.worker r).past =
        (List.range ended).map fun k => .ok (joint n (chunk k))) ∧
      (∀ r < n, ∀ x ∈ (s.worker r).received, x.channel.tag = gatherTag →
        x.channel.dest = r ∧ x.channel.source < n ∧
          (x.channel, x.envelope) ∈ (s.worker x.channel.source).sent ∧
          ∃ k, x.envelope.payload = chunk k x.channel.source ∧
            gatheringAt (s.worker x.channel.source).past x.envelope.sentAt = k ∧
            gatheringAt (s.worker r).past x.takenAt = k) ∧
      ((∃ r < n, ¬(s.worker r).Ended) →
        ∃ r < n, (s.step? (agendaPlan n chunk agenda) r).isSome ∨ s.AwaitsOther r) ∧
      ((∀ r < n, (s.worker r).Ended) → (∀ c, c.tag = gatherTag → s.queue c = []) ∧
        ∀ r < n, gatherings (s.worker r).past =
          (List.range rounds).map fun k => .ok (joint n (chunk k)))) ∧
    ((∀ r < n, ∀ past program avoids, (agenda r).next past ≠ some (.other program avoids)) →
      ∃ bound, ∀ schedule s, Reached n (agendaPlan n chunk agenda) schedule s →
        schedule.length ≤ bound ∧ ((∃ r < n, ¬(s.worker r).Ended) →
          ∃ r < n, (s.step? (agendaPlan n chunk agenda) r).isSome)) := by
  refine ⟨fun schedule s hreached => ?_, fun honly => ?_⟩
  · have hs := Orderly.of_reached hlength hreached
    refine ⟨fun r hr => ?_, fun r hr x hx htag => hs.same_gathering hr hx htag, hs.progress,
      fun hended => ⟨fun c hc => hs.queue_eq_nil hended hc, fun r hr => ?_⟩⟩
    · obtain ⟨_, _, hkept⟩ := (hs.position r hr).exists_kept
      exact ⟨_, hkept.le, hkept.results⟩
    · obtain ⟨hrounds, hkept⟩ := hs.of_ended hr (hended r hr)
      rw [hkept.results, hrounds]
  · obtain ⟨bound, hbound⟩ := (course_of_only hlength honly).interleaved
    refine ⟨bound, fun schedule s hreached => ?_⟩
    obtain ⟨hschedule, s', hrun, hagree⟩ := exists_run_of_reached hlength honly hreached
    refine ⟨(hbound schedule s' hschedule hrun).1, fun hgoing => ?_⟩
    have hs := Orderly.of_reached hlength hreached
    obtain ⟨r, hr, hstep | hother⟩ := hs.progress hgoing
    · exact ⟨r, hr, hstep⟩
    · exact absurd hother (hs.not_awaitsOther honly hr)

/-- A rank passes its number, and with every gathering one byte more. -/
def growing (k r : Nat) : Payload := UInt8.ofNat r :: List.replicate k 7

/-- Rank 0 sends a message under another tag between its gatherings, and rank 1 takes it when it has
gathered twice. -/
def courier (r : Nat) : Agenda Unit 2 where
  next past :=
    if (gatherings past).length < 2 then
      if r = 0 ∧ past.length = 1 then
        some (.other (.round [⟨1, 5, [9]⟩] [] fun _ => .done ())
          ⟨by decide, List.forall_mem_nil _, fun _ => trivial⟩)
      else some .gather
    else if r = 1 ∧ past.length = 2 then
      some (.other (.round [] [⟨0, 5⟩] fun _ => .done ())
        ⟨List.forall_mem_nil _, by decide, fun _ => trivial⟩)
    else none
  lt_of_gather past h := by
    by_contra hlt
    rw [if_neg hlt] at h
    split at h <;> cases h
  le_of_ended past h := by
    by_contra hle
    rw [if_pos (Nat.not_le.1 hle)] at h
    split at h <;> cases h

/-- Two gatherings, and nothing else. -/
def gatherTwice : Agenda Unit 2 where
  next past := if (gatherings past).length < 2 then some .gather else none
  lt_of_gather past h := by
    by_contra hlt
    rw [if_neg hlt] at h
    cases h
  le_of_ended past h := by
    by_contra hle
    rw [if_pos (Nat.not_le.1 hle)] at h
    cases h

/-- Two ranks gather twice, with a message under another tag between; rank 0 has sent its bytes for
the second gathering before rank 1 has taken those for the first. -/
theorem gatherings_concatenate_courier :
    (∀ k < 2, ∀ r < 2, ∀ q < 2, (growing k r).length = (growing k q).length) ∧
    (∃ s, Reached 2 (agendaPlan 2 growing courier)
        [0, 1, 0, 0, 0, 0, 0, 0, 0, 1, 1, 1, 1, 0, 0, 0, 1, 1, 1, 1, 1, 1] s ∧
      (∀ r < 2, (s.worker r).Ended) ∧ (∀ c, c.tag = gatherTag → s.queue c = []) ∧
      ∀ r < 2, gatherings (s.worker r).past = [.ok [0, 1], .ok [0, 7, 1, 7]]) ∧
    ∃ bound, ∀ schedule s, Reached 2 (agendaPlan 2 growing fun _ => gatherTwice) schedule s →
      schedule.length ≤ bound := by
  have hlength : ∀ k < 2, ∀ r < 2, ∀ q < 2, (growing k r).length = (growing k q).length :=
    fun _ _ _ _ _ _ => rfl
  have hrun : ((Scene.start (agendaPlan 2 growing courier)).run? (agendaPlan 2 growing courier)
      [0, 1, 0, 0, 0, 0, 0, 0, 0, 1, 1, 1, 1, 0, 0, 0, 1, 1, 1, 1, 1, 1]).map
        (fun s => ((s.worker 0).program.isNone, (s.worker 1).program.isNone)) =
      some (true, true) := rfl
  obtain ⟨s, hrun, hended⟩ := Option.map_eq_some_iff.1 hrun
  obtain ⟨hzero, hone⟩ := Prod.mk.inj hended
  have hreached := Reached.start.run (n := 2) (by decide) hrun
  have hall : ∀ r < 2, (s.worker r).Ended := by
    intro r hr
    obtain rfl | rfl : r = 0 ∨ r = 1 := by omega
    · exact Option.isNone_iff_eq_none.1 hzero
    · exact Option.isNone_iff_eq_none.1 hone
  obtain ⟨hscenes, -⟩ := gatherings_concatenate 2 2 growing hlength courier
  obtain ⟨-, -, -, hend⟩ := hscenes _ s hreached
  obtain ⟨-, honly⟩ := gatherings_concatenate 2 2 growing hlength fun _ => gatherTwice
  obtain ⟨bound, hbound⟩ := honly fun r _ past program avoids h => by
    change (if (gatherings past).length < 2 then some Errand.gather else none) = _ at h
    split at h <;> cases h
  exact ⟨hlength, ⟨s, hreached, hall, (hend hall).1, (hend hall).2⟩, bound,
    fun schedule s h => (hbound schedule s h).1⟩

end World

end Unknowns
