import Unknowns.Proofs.World.Agendas

/-!
# Gatherings keep apart

All ranks of a world gather the same number of times, always under the one tag that is
reserved for it.  A rank that is fast may have sent its bytes for the next gathering
while a slow one is still waiting for those of the present one.  What keeps the
gatherings apart is that messages of one sender under one tag are taken in turn, and
that in every gathering each rank sends one message to each peer and takes one from it
(`Kept`).  So the message that a rank takes from a peer in its gathering `k` is the one
that the peer sent in its own gathering `k` (`Orderly.payload_eq`), whatever the ranks do
otherwise (`Orderly.of_reached`).
-/

namespace Unknowns

namespace World

variable {β : Type} {n rounds r : Nat} {chunk : Nat → Nat → Payload} {w : Worker (Brought β)}

namespace Worker

/-- The messages that a rank sent. -/
def sentNotes (w : Worker β) : List Note := w.sent.map fun p => ⟨p.1, p.2.sentAt, p.2.payload⟩

/-- The messages that a rank took. -/
def takenNotes (w : Worker β) : List Note :=
  w.received.map fun x => ⟨x.channel, x.takenAt, x.envelope.payload⟩

theorem filter_sentNotes (w : Worker β) (c : Channel) :
    w.sentNotes.filter (·.channel = c) =
      (Scene.sentOn c w.sent).map fun e => ⟨c, e.sentAt, e.payload⟩ := by
  rw [sentNotes, List.filter_map, Scene.sentOn, List.map_map]
  refine List.map_congr_left fun p hp => ?_
  have hc : p.1 = c := of_decide_eq_true (List.mem_filter.1 hp).2
  simp [hc]

theorem filter_takenNotes (w : Worker β) (c : Channel) :
    w.takenNotes.filter (·.channel = c) = (w.received.filter (·.channel = c)).map
      fun x => ⟨x.channel, x.takenAt, x.envelope.payload⟩ := by
  rw [takenNotes, List.filter_map]
  rfl

end Worker

/-- A rank that has ended some gatherings has the bytes of all ranks for each of them.  In the
present one it has not yet sent its bytes to `toSend` nor taken those of `toTake`. -/
structure Kept (n rounds : Nat) (chunk : Nat → Nat → Payload) (r : Nat) (w : Worker (Brought β))
    (toSend toTake : List Nat) : Prop where
  le : (gatherings w.past).length ≤ rounds
  results : gatherings w.past =
    (List.range (gatherings w.past).length).map fun k => .ok (joint n (chunk k))
  sent : Log (seat n r).peers (fun q => ⟨r, q, gatherTag⟩) (fun k _ => chunk k r) w.past w.sentNotes
    toSend
  taken : Log (seat n r).peers (fun q => ⟨q, r, gatherTag⟩) chunk w.past w.takenNotes toTake

namespace Kept

variable {toSend toTake : List Nat} (h : Kept n rounds chunk r w toSend toTake)
include h

theorem post_other {o : Outgoing} (ho : o.tag ≠ gatherTag) (rest : Rounds (Brought β)) :
    Kept n rounds chunk r (w.post r [o] rest) toSend toTake := by
  refine ⟨h.le, h.results, ?_, h.taken⟩
  have hnotes : (w.post r [o] rest).sentNotes =
      w.sentNotes ++ [⟨⟨r, o.dest, o.tag⟩, w.now, o.payload⟩] := List.map_append
  rw [hnotes]
  exact h.sent.other (Nat.le_refl _) fun q he => ho (Channel.mk.inj he).2.2

theorem collect_other {a : Awaited} (ha : a.tag ≠ gatherTag) (e : Envelope)
    (rest : Rounds (Brought β)) : Kept n rounds chunk r (w.collect r [(a, e)] rest) toSend toTake := by
  refine ⟨h.le, h.results, h.sent, ?_⟩
  have hnotes : (w.collect r [(a, e)] rest).takenNotes =
      w.takenNotes ++ [⟨⟨a.source, r, a.tag⟩, w.now, e.payload⟩] := List.map_append
  rw [hnotes]
  exact h.taken.other (Nat.le_refl _) fun q he => ha (Channel.mk.inj he).2.2

theorem nextRound (rest : Rounds (Brought β)) :
    Kept n rounds chunk r (w.nextRound rest) toSend toTake := ⟨h.le, h.results, h.sent, h.taken⟩

omit h in
/-- A rank sends its bytes to a peer. -/
theorem post {p : Nat} (h : Kept n rounds chunk r w (p :: toSend) toTake)
    (hp : p ∈ (seat n r).peers) (hsend : p ∉ toSend) (rest : Rounds (Brought β)) :
    Kept n rounds chunk r
      (w.post r [⟨p, gatherTag, chunk (gatherings w.past).length r⟩] rest) toSend toTake := by
  refine ⟨h.le, h.results, ?_, h.taken⟩
  have hnotes : (w.post r [⟨p, gatherTag, chunk (gatherings w.past).length r⟩] rest).sentNotes =
      w.sentNotes ++ [⟨⟨r, p, gatherTag⟩, w.now, chunk (gatherings w.past).length r⟩] :=
    List.map_append
  rw [hnotes]
  exact h.sent.add hp hsend (fun _ _ he => (Channel.mk.inj he).2.1) rfl

omit h in
/-- A rank takes the bytes of a peer. -/
theorem collect {p : Nat} (h : Kept n rounds chunk r w toSend (p :: toTake))
    (hp : p ∈ (seat n r).peers) (htake : p ∉ toTake) {e : Envelope}
    (he : e.payload = chunk (gatherings w.past).length p) (rest : Rounds (Brought β)) :
    Kept n rounds chunk r (w.collect r [(⟨p, gatherTag⟩, e)] rest) toSend toTake := by
  refine ⟨h.le, h.results, h.sent, ?_⟩
  have hnotes : (w.collect r [(⟨p, gatherTag⟩, e)] rest).takenNotes =
      w.takenNotes ++ [⟨⟨p, r, gatherTag⟩, w.now, e.payload⟩] := List.map_append
  rw [hnotes, he]
  exact h.taken.add hp htake (fun _ _ hc => (Channel.mk.inj hc).1) rfl

theorem ended_other (result : β) (next : Option (Rounds (Brought β))) :
    Kept n rounds chunk r (w.nextProgram (.other result) next) toSend toTake := by
  have hpast : gatherings (w.past ++ [.other result]) = gatherings w.past := by simp
  refine ⟨?_, ?_, h.sent.extend _ fun q => by rw [hpast], h.taken.extend _ fun q => by rw [hpast]⟩
  · show (gatherings (w.past ++ [_])).length ≤ rounds
    rw [hpast]
    exact h.le
  · show gatherings (w.past ++ [_]) = (List.range (gatherings (w.past ++ [_])).length).map _
    rw [hpast]
    exact h.results

omit h in
/-- A rank that has sent and taken all messages of a gathering has them all ahead of it in the next
one. -/
theorem ended_gather (h : Kept n rounds chunk r w [] []) (hlt : (gatherings w.past).length < rounds)
    (next : Option (Rounds (Brought β))) :
    Kept n rounds chunk r
      (w.nextProgram (.gathered (.ok (joint n (chunk (gatherings w.past).length)))) next)
      (seat n r).peers (seat n r).peers := by
  have hlength : ∀ bytes, (gatherings (w.past ++ [(.gathered bytes : Brought β)])).length =
      (gatherings w.past).length + 1 := fun bytes => by simp
  have hpassed : ∀ bytes q,
      passed (seat n r).peers (gatherings (w.past ++ [(.gathered bytes : Brought β)])).length
        (seat n r).peers q = passed (seat n r).peers (gatherings w.past).length [] q :=
    fun bytes q => by rw [hlength, passed_nil]
  refine ⟨(hlength _).trans_le hlt, ?_, h.sent.extend _ (hpassed _), h.taken.extend _ (hpassed _)⟩
  show gatherings (w.past ++ [_]) = (List.range (gatherings (w.past ++ [_])).length).map _
  rw [hlength, List.range_succ, List.map_append, ← h.results, gatherings_append,
    gatherings_gathered]
  rfl

theorem length_sentOn (q : Nat) : (Scene.sentOn ⟨r, q, gatherTag⟩ w.sent).length =
    passed (seat n r).peers (gatherings w.past).length toSend q := by
  have hlength := h.sent.length_messages q
  rwa [Worker.filter_sentNotes, List.length_map] at hlength

theorem length_takenFrom (q : Nat) : (Scene.takenFrom ⟨q, r, gatherTag⟩ w.received).length =
    passed (seat n r).peers (gatherings w.past).length toTake q := by
  have hlength := h.taken.length_messages q
  rw [Worker.filter_takenNotes, List.length_map] at hlength
  rw [Scene.takenFrom, List.length_map, hlength]

/-- The message at place `k` to a peer was sent in gathering `k`. -/
theorem of_sentOn {q k : Nat} {e : Envelope}
    (he : (Scene.sentOn ⟨r, q, gatherTag⟩ w.sent)[k]? = some e) :
    e.payload = chunk k r ∧ gatheringAt w.past e.sentAt = k := by
  have hnote : (w.sentNotes.filter (·.channel = ⟨r, q, gatherTag⟩))[k]? =
      some ⟨⟨r, q, gatherTag⟩, e.sentAt, e.payload⟩ := by
    rw [Worker.filter_sentNotes, List.getElem?_map, he]
    rfl
  exact (h.sent.of_getElem? (q := q) hnote).2

/-- A message was taken in the gathering that its place belongs to. -/
theorem of_received {q : Nat} {x : Receipt} (hx : x ∈ w.received)
    (hchannel : x.channel = ⟨q, r, gatherTag⟩) :
    ∃ k, (Scene.takenFrom ⟨q, r, gatherTag⟩ w.received)[k]? = some x.envelope ∧
      q ∈ (seat n r).peers ∧ gatheringAt w.past x.takenAt = k := by
  have hmem : x ∈ w.received.filter (·.channel = ⟨q, r, gatherTag⟩) :=
    List.mem_filter.2 ⟨hx, decide_eq_true hchannel⟩
  obtain ⟨k, hk⟩ := List.mem_iff_getElem?.1 hmem
  have hnote : (w.takenNotes.filter (·.channel = ⟨q, r, gatherTag⟩))[k]? =
      some ⟨x.channel, x.takenAt, x.envelope.payload⟩ := by
    rw [Worker.filter_takenNotes, List.getElem?_map, hk]
    rfl
  obtain ⟨hlt, -, hat⟩ := h.taken.of_getElem? (q := q) hnote
  refine ⟨k, by rw [Scene.takenFrom, List.getElem?_map, hk]; rfl, ?_, hat⟩
  by_contra hq
  rw [passed, if_neg hq] at hlt
  exact Nat.not_lt_zero k hlt

end Kept

/-! ### Where a rank is -/

/-- Where a rank is in its agenda, and in its gathering when it is in one. -/
inductive Position (n : Nat) (chunk : Nat → Nat → Payload) (r : Nat) (agenda : Agenda β rounds)
    (w : Worker (Brought β)) : Prop
  /-- It has ended. -/
  | resting (hnext : agenda.next w.past = none) (hp : w.program = none)
      (h : Kept n rounds chunk r w (seat n r).peers (seat n r).peers)
  /-- It runs another program. -/
  | other {program : Rounds β}
      (hnext : ∃ program avoids, agenda.next w.past = some (.other program avoids))
      (havoids : program.Avoids gatherTag)
      (hp : w.program = some (program.bind fun result => .done (.other result)))
      (h : Kept n rounds chunk r w (seat n r).peers (seat n r).peers)
  /-- It has taken the bytes of the peers `had`, and has still to send its own to `toSend` and to take
  those of `toTake`. -/
  | gathering {toSend had toTake : List Nat} (hnext : agenda.next w.past = some .gather)
      (hsend : toSend <:+ (seat n r).peers) (htake : (seat n r).peers = had ++ toTake)
      (hp : w.program = some (.round
        (toSend.map fun p => ⟨p, gatherTag, chunk (gatherings w.past).length r⟩)
        (toTake.map fun p => ⟨p, gatherTag⟩)
        fun replies => .done (.gathered (.ok (assembled r (chunk (gatherings w.past).length r)
          (had.map (fun p => some (chunk (gatherings w.past).length p)) ++ replies))))))
      (h : Kept n rounds chunk r w toSend toTake)
  /-- It has the bytes of all ranks. -/
  | gathered (hnext : agenda.next w.past = some .gather)
      (hp : w.program = some (.done (.gathered (.ok (joint n (chunk (gatherings w.past).length))))))
      (h : Kept n rounds chunk r w [] [])

section
variable {agenda : Nat → Agenda β rounds} {toSend toTake : List Nat}

theorem peers_one (hr : r < 1) : (seat 1 r).peers = [] := by
  obtain rfl : r = 0 := Nat.lt_one_iff.1 hr
  rfl

/-- A rank begins what is next in its agenda. -/
theorem Position.enter (hr : r < n) (hp : w.program = agendaPlan n chunk agenda r w.past)
    (h : Kept n rounds chunk r w (seat n r).peers (seat n r).peers) :
    Position n chunk r (agenda r) w := by
  cases hnext : (agenda r).next w.past with
  | none => exact .resting hnext (by rw [hp, agendaPlan, hnext]; rfl) h
  | some errand =>
    replace hp : w.program = some (errand.program n chunk r (gatherings w.past).length) := by
      rw [hp, agendaPlan, hnext]
      rfl
    cases errand with
    | other program havoids => exact .other ⟨program, havoids, hnext⟩ havoids hp h
    | gather =>
      by_cases hn : n = 1
      · subst hn
        rw [program_gather_one hr] at hp
        rw [peers_one hr] at h
        exact .gathered hnext hp h
      · rw [program_gather_many hn hr] at hp
        exact .gathering hnext List.suffix_rfl (List.nil_append _).symm hp h

/-- Every rank goes by its agenda, no message has got lost under the tag of gathering, and nobody
else sends any. -/
structure Orderly (n : Nat) (chunk : Nat → Nat → Payload) (agenda : Nat → Agenda β rounds)
    (s : Scene (Brought β)) : Prop where
  position : ∀ r < n, Position n chunk r (agenda r) (s.worker r)
  outside : ∀ r, n ≤ r → (s.worker r).sent = []
  dest : ∀ r, ∀ x ∈ (s.worker r).received, x.channel.dest = r
  even : ∀ c, c.tag = gatherTag → s.Even c

theorem Position.exists_kept {agenda : Agenda β rounds} (h : Position n chunk r agenda w) :
    ∃ toSend toTake, Kept n rounds chunk r w toSend toTake := by
  cases h with
  | resting _ _ h => exact ⟨_, _, h⟩
  | other _ _ _ h => exact ⟨_, _, h⟩
  | gathering _ _ _ _ h => exact ⟨_, _, h⟩
  | gathered _ _ h => exact ⟨_, _, h⟩

namespace Orderly

variable {s t : Scene (Brought β)} (hs : Orderly n chunk agenda s)

theorem start (n : Nat) (chunk : Nat → Nat → Payload) (agenda : Nat → Agenda β rounds) :
    Orderly n chunk agenda (.start (agendaPlan n chunk agenda)) where
  position _ hr := .enter hr rfl ⟨Nat.zero_le _, rfl, .start, .start⟩
  outside _ _ := rfl
  dest _ := List.forall_mem_nil _
  even _ _ := rfl

include hs

/-- **The next message of a peer** has its bytes of the present gathering. -/
theorem payload_eq (hr : r < n) {q : Nat} (h : Kept n rounds chunk r (s.worker r) toSend (q :: toTake))
    (hq : q ∈ (seat n r).peers) {e : Envelope} {rest : List Envelope}
    (hqueue : s.queue ⟨q, r, gatherTag⟩ = e :: rest) :
    e.payload = chunk (gatherings (s.worker r).past).length q := by
  have heven : Scene.sentOn ⟨q, r, gatherTag⟩ (s.worker q).sent =
      Scene.takenFrom ⟨q, r, gatherTag⟩ (s.worker r).received ++ s.queue ⟨q, r, gatherTag⟩ :=
    hs.even ⟨q, r, gatherTag⟩ rfl
  have hlength := h.length_takenFrom q
  rw [passed_cons_self hq] at hlength
  obtain ⟨_, _, hkept⟩ := (hs.position q ((mem_peers hr).1 hq).1).exists_kept
  refine (hkept.of_sentOn (q := r) ?_).1
  rw [heven, hqueue, ← hlength, List.getElem?_append_right (Nat.le_refl _), Nat.sub_self]
  rfl

omit hs in
/-- A step of another program keeps the gatherings so far. -/
theorem position_other (hr : r < n) {program : Rounds β}
    (hother : ∃ program avoids, (agenda r).next (s.worker r).past = some (.other program avoids))
    (havoids : program.Avoids gatherTag)
    (hp : (s.worker r).program = some (program.bind fun result => .done (.other result)))
    (hkept : Kept n rounds chunk r (s.worker r) (seat n r).peers (seat n r).peers)
    (h : s.step? (agendaPlan n chunk agenda) r = some t) :
    Position n chunk r (agenda r) (t.worker r) := by
  cases program with
  | done result =>
    rw [Scene.step?_done hp] at h
    obtain rfl := Option.some.inj h
    rw [Scene.worker_set_self]
    exact .enter hr rfl (hkept.ended_other result _)
  | round sends awaits next =>
    obtain ⟨hsends, hawaits, hnext⟩ := havoids
    cases sends with
    | cons o sends =>
      obtain ⟨ho, hsends⟩ := List.forall_mem_cons.1 hsends
      rw [Scene.step?_send hp] at h
      obtain rfl := Option.some.inj h
      rw [Scene.worker_set_self]
      have hrest : (Rounds.round sends awaits next).Avoids gatherTag := ⟨hsends, hawaits, hnext⟩
      exact .other hother hrest rfl (hkept.post_other ho _)
    | nil =>
      cases awaits with
      | nil =>
        rw [Scene.step?_nextRound hp] at h
        obtain rfl := Option.some.inj h
        rw [Scene.worker_set_self]
        exact .other hother (hnext []) rfl (hkept.nextRound _)
      | cons a awaits =>
        obtain ⟨ha, hawaits⟩ := List.forall_mem_cons.1 hawaits
        cases hqueue : s.queue (Worker.inlet r a) with
        | nil =>
          rw [Scene.step?_waiting hp hqueue] at h
          cases h
        | cons e rest =>
          rw [Scene.step?_take hp hqueue] at h
          obtain rfl := Option.some.inj h
          rw [Scene.worker_set_self]
          have hrest : (Rounds.round [] awaits fun replies =>
              next (some e.payload :: replies)).Avoids gatherTag :=
            ⟨List.forall_mem_nil _, hawaits, fun replies => hnext _⟩
          exact .other hother hrest rfl (hkept.collect_other ha e _)

/-- A step in a gathering: the next message goes to a peer or comes from one, or all have come. -/
theorem position_gathering {width : Nat} (hr : r < n)
    (hwidth : ∀ q < n, (chunk (gatherings (s.worker r).past).length q).length = width)
    {toSend had toTake : List Nat} (hnext : (agenda r).next (s.worker r).past = some .gather)
    (hsend : toSend <:+ (seat n r).peers) (htake : (seat n r).peers = had ++ toTake)
    (hp : (s.worker r).program = some (.round
      (toSend.map fun p => ⟨p, gatherTag, chunk (gatherings (s.worker r).past).length r⟩)
      (toTake.map fun p => ⟨p, gatherTag⟩)
      fun replies => .done (.gathered (.ok (assembled r
        (chunk (gatherings (s.worker r).past).length r)
        (had.map (fun p => some (chunk (gatherings (s.worker r).past).length p)) ++ replies))))))
    (hkept : Kept n rounds chunk r (s.worker r) toSend toTake)
    (h : s.step? (agendaPlan n chunk agenda) r = some t) :
    Position n chunk r (agenda r) (t.worker r) := by
  have hnodup := (pairwise_peers hr).imp Nat.ne_of_lt
  cases toSend with
  | cons p toSend =>
    rw [Scene.step?_send hp] at h
    obtain rfl := Option.some.inj h
    rw [Scene.worker_set_self]
    have hp' : p ∉ toSend := (List.nodup_cons.1 (hnodup.sublist hsend.sublist)).1
    exact .gathering hnext ((List.suffix_cons p toSend).trans hsend) htake rfl
      (hkept.post (hsend.subset (List.mem_cons_self ..)) hp' _)
  | nil =>
    cases toTake with
    | cons q toTake =>
      have hq : q ∈ (seat n r).peers := htake ▸ List.mem_append_right _ (List.mem_cons_self ..)
      have hq' : q ∉ toTake := by
        rw [htake] at hnodup
        exact (List.nodup_cons.1 (List.nodup_append.1 hnodup).2.1).1
      cases hqueue : s.queue (Worker.inlet r ⟨q, gatherTag⟩) with
      | nil =>
        rw [Scene.step?_waiting hp hqueue] at h
        cases h
      | cons e rest =>
        have hpayload := hs.payload_eq hr hkept hq hqueue
        rw [Scene.step?_take hp hqueue] at h
        obtain rfl := Option.some.inj h
        rw [Scene.worker_set_self]
        refine .gathering hnext hsend (htake.trans (List.append_cons ..)) ?_
          (hkept.collect hq hq' hpayload _)
        simp only [Worker.collect, hpayload, List.map_append, List.append_assoc, List.map_cons,
          List.map_nil, List.cons_append, List.nil_append]
    | nil =>
      have hall : assembled r (chunk (gatherings (s.worker r).past).length r)
          (had.map (fun p => some (chunk (gatherings (s.worker r).past).length p)) ++ []) =
            joint n (chunk (gatherings (s.worker r).past).length) := by
        rw [List.append_nil] at htake ⊢
        rw [← htake]
        exact assembled_peers hwidth hr
      rw [Scene.step?_nextRound hp, hall] at h
      obtain rfl := Option.some.inj h
      rw [Scene.worker_set_self]
      exact .gathered hnext rfl (hkept.nextRound _)

section
variable (hlength : ∀ k < rounds, ∀ r < n, ∀ q < n, (chunk k r).length = (chunk k q).length)
include hlength

/-- **A rank that steps stays on its agenda.** -/
theorem position_step (hr : r < n) (h : s.step? (agendaPlan n chunk agenda) r = some t) :
    Position n chunk r (agenda r) (t.worker r) := by
  cases hs.position r hr with
  | resting _ hp _ =>
    rw [Scene.step?_ended hp] at h
    cases h
  | other hother havoids hp hkept => exact position_other hr hother havoids hp hkept h
  | gathering hnext hsend htake hp hkept =>
    have hlt := (agenda r).lt_of_gather _ hnext
    exact hs.position_gathering hr (fun q hq => hlength _ hlt q hq r hr) hnext hsend htake hp hkept h
  | gathered hnext hp hkept =>
    rw [Scene.step?_done hp] at h
    obtain rfl := Option.some.inj h
    rw [Scene.worker_set_self]
    exact .enter hr rfl (hkept.ended_gather ((agenda r).lt_of_gather _ hnext) _)

theorem step (hr : r < n) (h : s.step? (agendaPlan n chunk agenda) r = some t) :
    Orderly n chunk agenda t where
  position q hq := by
    by_cases he : q = r
    · rw [he]
      exact hs.position_step hlength hr h
    · rw [Scene.worker_of_step?_ne h he]
      exact hs.position q hq
  outside q hq := by
    rw [Scene.worker_of_step?_ne h (by omega)]
    exact hs.outside q hq
  dest := Scene.dest_of_step? hs.dest h
  even c hc := (hs.even c hc).step h

omit hs in
/-- **At any time all ranks are on their agendas**, whatever happens under other tags. -/
theorem of_reached {schedule : List Nat} (h : Reached n (agendaPlan n chunk agenda) schedule s) :
    Orderly n chunk agenda s := by
  induction h with
  | start => exact start n chunk agenda
  | step _ hr hstep ih => exact ih.step hlength hr hstep
  | stray _ hqueue ih =>
    refine ⟨ih.position, ih.outside, ih.dest, fun c hc => ?_⟩
    have heven := ih.even c hc
    unfold Scene.Even at heven ⊢
    rw [heven]
    exact congrArg _ (hqueue c hc).symm

end

end Orderly

end

end World

end Unknowns
