import Unknowns.Proofs.World.Course
import Unknowns.Proofs.World.Exchange

/-!
# Gathering among other programs

An `Agenda` tells what a rank does next, from what came of its errands so far: it gathers,
or it runs some program that leaves the tag of gathering alone.  All that is laid down
is how often it gathers.  Ranks step in any order, and in between anything may happen
to the queues of other tags (`Reached`), which does not matter to a step that takes
nothing from there (`Scene.Agree.step`).

A `Log` says that of the messages that a rank sent to its peers, or took from them,
under the tag of gathering, the first belongs to its first gathering, the second to its
second, and so on, but that in the present one some peers are left.
-/

namespace Unknowns

/-- No message under a tag is sent or awaited, whatever comes. -/
def Rounds.Avoids {α : Type} (tag : Tag) : Rounds α → Prop
  | .done _ => True
  | .round sends awaits next =>
    (∀ o ∈ sends, o.tag ≠ tag) ∧ (∀ a ∈ awaits, a.tag ≠ tag) ∧
      ∀ replies, (next replies).Avoids tag

namespace World

variable {β : Type} {rounds : Nat}

/-- Something that a rank does. -/
inductive Errand (β : Type) where
  /-- It gathers the bytes of all ranks. -/
  | gather
  /-- It runs a program that leaves the tag of gathering alone. -/
  | other (program : Rounds β) (avoids : program.Avoids gatherTag)

/-- What came of an errand. -/
inductive Brought (β : Type) where
  | gathered (bytes : Except Error Payload)
  | other (result : β)

/-- What came of the gatherings so far. -/
def gatherings (past : List (Brought β)) : List (Except Error Payload) :=
  past.filterMap fun
    | .gathered bytes => some bytes
    | .other _ => none

/-- What a rank does next, from what came so far.  It gathers a number of times, and not more. -/
structure Agenda (β : Type) (rounds : Nat) where
  next : List (Brought β) → Option (Errand β)
  lt_of_gather : ∀ past, next past = some .gather → (gatherings past).length < rounds
  le_of_ended : ∀ past, next past = none → rounds ≤ (gatherings past).length

/-- The program of an errand; rank `r` passes `chunk k r` when it gathers after `k` gatherings. -/
def Errand.program (n : Nat) (chunk : Nat → Nat → Payload) (r k : Nat) : Errand β → Rounds (Brought β)
  | .gather => (Unknowns.gather (seat n r) (chunk k r)).run.bind fun bytes => .done (.gathered bytes)
  | .other program _ => program.bind fun result => .done (.other result)

/-- The programs of the ranks of a world by their agendas. -/
def agendaPlan (n : Nat) (chunk : Nat → Nat → Payload) (agenda : Nat → Agenda β rounds) (r : Nat)
    (past : List (Brought β)) : Option (Rounds (Brought β)) :=
  ((agenda r).next past).map (Errand.program n chunk r (gatherings past).length)

/-- The scenes that the ranks below `n` get to by the steps of a schedule, while in between anything
may happen to the queues of other tags than that of gathering. -/
inductive Reached {γ : Type} (n : Nat) (plan : Nat → List γ → Option (Rounds γ)) :
    List Nat → Scene γ → Prop
  | start : Reached n plan [] (.start plan)
  | step {schedule : List Nat} {s t : Scene γ} {r : Nat} (h : Reached n plan schedule s) (hr : r < n)
      (hstep : s.step? plan r = some t) : Reached n plan (schedule ++ [r]) t
  | stray {schedule : List Nat} {s : Scene γ} {queue : Channel → List Envelope}
      (h : Reached n plan schedule s) (hqueue : ∀ c, c.tag = gatherTag → queue c = s.queue c) :
      Reached n plan schedule ⟨s.worker, queue⟩

/-- With no other messages than their own, the ranks get where the schedule leads. -/
theorem Reached.run {γ : Type} {n : Nat} {plan : Nat → List γ → Option (Rounds γ)}
    {s t : Scene γ} {before schedule : List Nat} (hs : Reached n plan before s)
    (hschedule : ∀ r ∈ schedule, r < n) (h : s.run? plan schedule = some t) :
    Reached n plan (before ++ schedule) t := by
  induction schedule generalizing s before with
  | nil => rwa [List.append_nil, ← Option.some.inj h]
  | cons r schedule ih =>
    obtain ⟨hr, hrest⟩ := List.forall_mem_cons.1 hschedule
    obtain ⟨u, hstep, hrun⟩ := Option.bind_eq_some_iff.1 h
    rw [List.append_cons]
    exact ih (hs.step hr hstep) hrest hrun

/-! ### Messages under other tags -/

/-- The rank waits for a message under another tag than that of gathering, and there is none. -/
def Scene.AwaitsOther {γ : Type} (s : Scene γ) (r : Nat) : Prop :=
  ∃ a awaits next, (s.worker r).program = some (.round [] (a :: awaits) next) ∧
    a.tag ≠ gatherTag ∧ s.queue (Worker.inlet r a) = []

/-- The ranks are at the same place, and the same messages are on their way under the tag of
gathering. -/
structure Scene.Agree {γ : Type} (s s' : Scene γ) : Prop where
  worker : s'.worker = s.worker
  queue : ∀ c, c.tag = gatherTag → s'.queue c = s.queue c

/-- **What happens under other tags does not matter** to a step that takes nothing from there. -/
theorem Scene.Agree.step {γ : Type} {plan : Nat → List γ → Option (Rounds γ)} {s s' t : Scene γ}
    {r : Nat} (hs : s.Agree s')
    (htake : ∀ c w, (s.worker r).move (plan r) r = .take c w → c.tag = gatherTag)
    (h : s.step? plan r = some t) : ∃ t', s'.step? plan r = some t' ∧ t.Agree t' := by
  obtain ⟨w, heffect, hworker⟩ := Scene.step?_eq_some_iff.1 h
  suffices hqueue : ∃ queue', ((s.worker r).move (plan r) r).effect? s'.queue = some (w, queue') ∧
      ∀ c, c.tag = gatherTag → queue' c = t.queue c by
    obtain ⟨queue', heffect', hqueue⟩ := hqueue
    refine ⟨⟨Function.update s.worker r w, queue'⟩, ?_, hworker.symm, hqueue⟩
    exact Scene.step?_eq_some_iff.2 ⟨w, by rw [hs.worker, heffect'], by rw [hs.worker]⟩
  cases hmove : (s.worker r).move (plan r) r with
  | rest =>
    rw [hmove] at heffect
    cases heffect
  | go w' =>
    rw [hmove] at heffect
    obtain ⟨rfl, hqueue⟩ := Prod.mk.inj (Option.some.inj heffect)
    exact ⟨s'.queue, rfl, fun c hc => (hs.queue c hc).trans (congrFun hqueue c)⟩
  | send p w' =>
    rw [hmove] at heffect
    obtain ⟨rfl, hqueue⟩ := Prod.mk.inj (Option.some.inj heffect)
    refine ⟨push p s'.queue, rfl, fun c hc => ?_⟩
    rw [← hqueue, push, push, Function.update_apply, Function.update_apply]
    split
    · next hp => rw [hs.queue _ (hp ▸ hc)]
    · exact hs.queue c hc
  | take d w' =>
    have hd := htake d w' hmove
    rw [hmove] at heffect
    obtain ⟨⟨e, queue⟩, hpop, hw⟩ := Option.map_eq_some_iff.1 heffect
    obtain ⟨rfl, hqueue⟩ := Prod.mk.inj hw
    obtain ⟨rest, hrest, rfl⟩ := pop?_eq_some_iff.1 hpop
    have hpop' : pop? d s'.queue = some (e, Function.update s'.queue d rest) :=
      pop?_eq_some_iff.2 ⟨rest, by rw [hs.queue d hd, hrest], rfl⟩
    replace hqueue : Function.update s.queue d rest = t.queue := hqueue
    refine ⟨Function.update s'.queue d rest, by rw [Worker.Move.effect?, hpop']; rfl, fun c hc => ?_⟩
    rw [← hqueue, Function.update_apply, Function.update_apply]
    split
    · rfl
    · exact hs.queue c hc

/-! ### Gatherings so far -/

@[simp] theorem gatherings_append (past more : List (Brought β)) :
    gatherings (past ++ more) = gatherings past ++ gatherings more := List.filterMap_append

@[simp] theorem gatherings_gathered (bytes : Except Error Payload) :
    gatherings [(.gathered bytes : Brought β)] = [bytes] := rfl

@[simp] theorem gatherings_other (result : β) : gatherings [Brought.other result] = [] := rfl

theorem gatherings_map_gathered {α : Type} (xs : List α) (f : α → Except Error Payload) :
    gatherings (xs.map fun x => (.gathered (f x) : Brought β)) = xs.map f := by
  induction xs with
  | nil => rfl
  | cons x xs ih => exact congrArg (f x :: ·) ih

/-- The bytes of all ranks, in their order. -/
def joint (n : Nat) (own : Nat → Payload) : Payload := (List.range n).flatMap own

section
variable {n r k : Nat} {chunk : Nat → Nat → Payload}

theorem program_gather_one (hr : r < 1) :
    (.gather : Errand β).program 1 chunk r k = .done (.gathered (.ok (joint 1 (chunk k)))) := by
  obtain rfl : r = 0 := Nat.lt_one_iff.1 hr
  have hjoint : joint 1 (chunk k) = chunk k 0 := List.append_nil _
  rw [Errand.program, gather_one hr, hjoint]
  rfl

theorem program_gather_many (hn : n ≠ 1) (hr : r < n) :
    (.gather : Errand β).program n chunk r k =
      .round ((seat n r).peers.map fun p => ⟨p, gatherTag, chunk k r⟩)
        ((seat n r).peers.map fun p => ⟨p, gatherTag⟩)
        fun replies => .done (.gathered (.ok (assembled r (chunk k r) replies))) := by
  rw [Errand.program, gather_many hn hr]
  rfl

end

/-! ### Logs -/

/-- Number of gatherings that a rank had ended at a moment. -/
def gatheringAt (past : List (Brought β)) (m : Moment) : Nat := (gatherings (past.take m.turn)).length

/-- A message that was sent or taken, and when. -/
structure Note where
  channel : Channel
  moment : Moment
  payload : Payload
deriving DecidableEq

/-- Number of messages between a rank and `q` after `k` gatherings and a part of the next one, in
which the peers `left` have their message still ahead of them. -/
def passed (peers : List Nat) (k : Nat) (left : List Nat) (q : Nat) : Nat :=
  if q ∈ peers then if q ∈ left then k else k + 1 else 0

section
variable {peers left : List Nat} {k q : Nat}

theorem passed_self : passed peers k peers q = if q ∈ peers then k else 0 := by
  unfold passed
  split <;> rfl

theorem passed_nil : passed peers k [] q = passed peers (k + 1) peers q := by
  rw [passed_self]
  simp [passed]

theorem passed_cons_self (hq : q ∈ peers) : passed peers k (q :: left) q = k := by
  simp [passed, hq]

theorem passed_of_not_mem (hq : q ∈ peers) (hleft : q ∉ left) : passed peers k left q = k + 1 := by
  simp [passed, hq, hleft]

theorem passed_cons_of_ne {p : Nat} (hne : q ≠ p) :
    passed peers k (p :: left) q = passed peers k left q := by
  simp [passed, hne]

end

/-- The messages on the channels between a rank and its peers are those of its gatherings in turn,
with their contents; the present one has the peers `left` still ahead of it. -/
structure Log (peers : List Nat) (channel : Nat → Channel) (content : Nat → Nat → Payload)
    (past : List (Brought β)) (notes : List Note) (left : List Nat) : Prop where
  turn : ∀ x ∈ notes, x.moment.turn ≤ past.length
  messages : ∀ q, (notes.filter (·.channel = channel q)).map
      (fun x => (x.payload, gatheringAt past x.moment)) =
    (List.range (passed peers (gatherings past).length left q)).map fun i => (content i q, i)

namespace Log

variable {peers left : List Nat} {channel : Nat → Channel} {content : Nat → Nat → Payload}
  {past : List (Brought β)} {notes : List Note}

theorem start : Log peers channel content ([] : List (Brought β)) [] peers where
  turn := List.forall_mem_nil _
  messages q := by simp [passed_self, gatherings]

/-- Messages on other channels do not matter. -/
theorem other (h : Log peers channel content past notes left) {x : Note}
    (hturn : x.moment.turn ≤ past.length) (hother : ∀ q, x.channel ≠ channel q) :
    Log peers channel content past (notes ++ [x]) left where
  turn := List.forall_mem_append.2 ⟨h.turn, List.forall_mem_singleton.2 hturn⟩
  messages q := by
    rw [List.filter_append, List.filter_cons_of_neg (by simpa using hother q), List.filter_nil,
      List.append_nil]
    exact h.messages q

/-- **The message of a peer that is left** is that of the present gathering. -/
theorem add {p : Nat} {m : Moment} (h : Log peers channel content past notes (p :: left))
    (hp : p ∈ peers) (hleft : p ∉ left) (hchannel : Function.Injective channel)
    (hm : m.turn = past.length) :
    Log peers channel content past
      (notes ++ [⟨channel p, m, content (gatherings past).length p⟩]) left where
  turn := List.forall_mem_append.2 ⟨h.turn, List.forall_mem_singleton.2 (Nat.le_of_eq hm)⟩
  messages q := by
    have hmessages := h.messages q
    rw [List.filter_append, List.map_append, hmessages]
    by_cases hq : q = p
    · subst hq
      have hpresent : gatheringAt past m = (gatherings past).length := by
        rw [gatheringAt, hm, List.take_length]
      rw [passed_cons_self hp, passed_of_not_mem hp hleft, List.range_succ, List.map_append,
        List.filter_cons_of_pos (by simp)]
      simp [hpresent]
    · have hne : channel p ≠ channel q := fun he => hq (hchannel he).symm
      rw [passed_cons_of_ne hq, List.filter_cons_of_neg (by simpa using hne)]
      simp

/-- When an errand has ended, the messages so far are still those of the same gatherings. -/
theorem extend (h : Log peers channel content past notes left) (came : Brought β) {left' : List Nat}
    (hpassed : ∀ q, passed peers (gatherings (past ++ [came])).length left' q =
      passed peers (gatherings past).length left q) :
    Log peers channel content (past ++ [came]) notes left' where
  turn x hx := Nat.le_trans (h.turn x hx) (by simp)
  messages q := by
    rw [hpassed, ← h.messages q]
    refine List.map_congr_left fun x hx => ?_
    have hturn := h.turn x (List.mem_filter.1 hx).1
    rw [gatheringAt, List.take_append_of_le_length hturn, gatheringAt]

/-- As many messages have passed between the rank and `q` as are logged. -/
theorem length_messages (h : Log peers channel content past notes left) (q : Nat) :
    (notes.filter (·.channel = channel q)).length =
      passed peers (gatherings past).length left q := by
  have hlength := congrArg List.length (h.messages q)
  rwa [List.length_map, List.length_map, List.length_range] at hlength

/-- The message at place `i` is that of gathering `i`. -/
theorem of_getElem? (h : Log peers channel content past notes left) {q i : Nat} {x : Note}
    (hx : (notes.filter (·.channel = channel q))[i]? = some x) :
    i < passed peers (gatherings past).length left q ∧ x.payload = content i q ∧
      gatheringAt past x.moment = i := by
  obtain ⟨hlt, -⟩ := List.getElem?_eq_some_iff.1 hx
  rw [h.length_messages q] at hlt
  have hget := congrArg (·[i]?) (h.messages q)
  simp only [List.getElem?_map, hx, List.getElem?_range hlt, Option.map_some, Option.some.injEq,
    Prod.mk.injEq] at hget
  exact ⟨hlt, hget⟩

end Log

end World

end Unknowns
