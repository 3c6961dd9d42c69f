import Mathlib.Data.List.Sublists
import Unknowns.Comm.Rounds

/-!
# Ranks that go at their own pace

In a `Scene` every rank is somewhere in its own sequence of programs, and the
messages on their way queue up by sender, receiver and tag.  A single step is one
of one rank (`Scene.step?`): it sends one message, or takes the first of a queue,
or goes on by itself; a rank that waits for an empty queue cannot step.  A
*schedule* tells which ranks step, one after the other (`Scene.run?`).

* `Scene.step?_comm`: steps of two ranks that are both possible can be made in
  either order, with the same outcome;
* `Scene.run?_diff`: so if some schedule leads to an end, every schedule is part of
  it, and what it leaves out leads to the same end;
* `Scene.Balanced`: what was sent was either taken, in the same order, or is still
  in its queue.

Workers keep a record of what they sent and took, and when.  Programs do not see
it.
-/

namespace Unknowns

namespace World

/-- Messages from one rank to another under one tag are taken in the order in which they were
sent. -/
structure Channel where
  source : Nat
  dest : Nat
  tag : Tag
deriving DecidableEq

/-- A moment in the course of a rank. -/
structure Moment where
  /-- Number of programs that the rank has ended. -/
  turn : Nat
  /-- Number of rounds of the present program that it has ended. -/
  round : Nat
deriving DecidableEq

/-- A message, and when its sender sent it. -/
structure Envelope where
  payload : Payload
  sentAt : Moment
deriving DecidableEq

/-- A message that was taken, and when its receiver took it. -/
structure Receipt where
  channel : Channel
  envelope : Envelope
  takenAt : Moment
deriving DecidableEq

/-- A rank on its course through a sequence of programs. -/
structure Worker (β : Type) where
  /-- The results of the programs that it has ended. -/
  past : List β
  /-- What is left of the present program; none means that the rank has ended all of them. -/
  program : Option (Rounds β)
  /-- Number of rounds of the present program that it has ended. -/
  round : Nat
  sent : List (Channel × Envelope)
  received : List Receipt

/-- All ranks, and the messages on their way. -/
structure Scene (β : Type) where
  worker : Nat → Worker β
  queue : Channel → List Envelope

variable {β : Type}

namespace Worker

def now (w : Worker β) : Moment := ⟨w.past.length, w.round⟩

/-- The record of a message that `rank` sends. -/
def posting (rank : Nat) (now : Moment) (o : Outgoing) : Channel × Envelope :=
  (⟨rank, o.dest, o.tag⟩, ⟨o.payload, now⟩)

/-- The channel on which `rank` waits for a message. -/
def inlet (rank : Nat) (a : Awaited) : Channel := ⟨a.source, rank, a.tag⟩

/-- The rank has sent some messages. -/
def post (w : Worker β) (rank : Nat) (sends : List Outgoing) (rest : Rounds β) : Worker β :=
  { w with program := some rest, sent := w.sent ++ sends.map (posting rank w.now) }

/-- The rank has taken some messages. -/
def collect (w : Worker β) (rank : Nat) (taken : List (Awaited × Envelope)) (rest : Rounds β) :
    Worker β :=
  { w with
    program := some rest
    received := w.received ++ taken.map fun x => ⟨inlet rank x.1, x.2, w.now⟩ }

/-- The rank has gone on to the next round of its program. -/
def nextRound (w : Worker β) (rest : Rounds β) : Worker β :=
  { w with program := some rest, round := w.round + 1 }

/-- The rank has ended its program with a result and gone on to the next one, if there is one. -/
def nextProgram (w : Worker β) (result : β) (next : Option (Rounds β)) : Worker β :=
  { w with past := w.past ++ [result], program := next, round := 0 }

@[simp] theorem now_post (w : Worker β) (rank : Nat) (sends : List Outgoing) (rest : Rounds β) :
    (w.post rank sends rest).now = w.now := rfl

@[simp] theorem now_collect (w : Worker β) (rank : Nat) (taken : List (Awaited × Envelope))
    (rest : Rounds β) : (w.collect rank taken rest).now = w.now := rfl

/-- What is sent in two parts is sent. -/
theorem post_post (w : Worker β) (rank : Nat) (sends more : List Outgoing) (rest rest' : Rounds β) :
    (w.post rank sends rest).post rank more rest' = w.post rank (sends ++ more) rest' := by
  simp [post, now]

/-- What is taken in two parts is taken. -/
theorem collect_collect (w : Worker β) (rank : Nat) (taken more : List (Awaited × Envelope))
    (rest rest' : Rounds β) :
    (w.collect rank taken rest).collect rank more rest' = w.collect rank (taken ++ more) rest' := by
  simp [collect, now]

/-- What a rank is about to do. -/
inductive Move (β : Type) where
  /-- It has ended. -/
  | rest
  /-- It goes on by itself. -/
  | go (w : Worker β)
  /-- It sends a message. -/
  | send (posting : Channel × Envelope) (w : Worker β)
  /-- It takes a message, if there is one. -/
  | take (c : Channel) (w : Envelope → Worker β)

/-- The messages of a round are sent one by one, and then the awaited ones are taken one by one.
When a program has ended, the next one is the one that `plan` has for the results so far. -/
def move (plan : List β → Option (Rounds β)) (rank : Nat) (w : Worker β) : Move β :=
  match w.program with
  | none => .rest
  | some (.done a) => .go (w.nextProgram a (plan (w.past ++ [a])))
  | some (.round (o :: sends) awaits next) =>
    .send (posting rank w.now o) (w.post rank [o] (.round sends awaits next))
  | some (.round [] (a :: awaits) next) =>
    .take (inlet rank a) fun e =>
      w.collect rank [(a, e)] (.round [] awaits fun replies => next (some e.payload :: replies))
  | some (.round [] [] next) => .go (w.nextRound (next []))

end Worker

/-! ### Queues -/

/-- The queues after a message was sent. -/
def push (p : Channel × Envelope) (queue : Channel → List Envelope) : Channel → List Envelope :=
  Function.update queue p.1 (queue p.1 ++ [p.2])

/-- The first message of a queue, and the queues without it. -/
def pop? (c : Channel) (queue : Channel → List Envelope) :
    Option (Envelope × (Channel → List Envelope)) :=
  match queue c with
  | [] => none
  | e :: rest => some (e, Function.update queue c rest)

section
variable {queue queue₁ queue₂ : Channel → List Envelope} {c d : Channel} {e f : Envelope}

theorem pop?_eq_some_iff :
    pop? c queue = some (e, queue₁) ↔
      ∃ rest, queue c = e :: rest ∧ queue₁ = Function.update queue c rest := by
  unfold pop?
  cases queue c with
  | nil => simp
  | cons e' rest => simp [eq_comm]

theorem push_comm {p q : Channel × Envelope} (h : p.1 ≠ q.1) :
    push p (push q queue) = push q (push p queue) := by
  unfold push
  rw [Function.update_of_ne h, Function.update_of_ne h.symm, Function.update_comm h]

/-- What is sent comes behind what is there. -/
theorem pop?_push (h : pop? c queue = some (e, queue₁)) (p : Channel × Envelope) :
    pop? c (push p queue) = some (e, push p queue₁) := by
  obtain ⟨rest, hrest, rfl⟩ := pop?_eq_some_iff.1 h
  refine pop?_eq_some_iff.2 ?_
  by_cases hp : p.1 = c
  · refine ⟨rest ++ [p.2], by simp [push, hp, hrest], ?_⟩
    simp [push, hp]
  · refine ⟨rest, by rw [push, Function.update_of_ne (Ne.symm hp), hrest], ?_⟩
    unfold push
    rw [Function.update_of_ne hp, Function.update_comm hp]

theorem pop?_comm (hne : c ≠ d) (h₁ : pop? c queue = some (e, queue₁))
    (h₂ : pop? d queue = some (f, queue₂)) :
    ∃ queue', pop? d queue₁ = some (f, queue') ∧ pop? c queue₂ = some (e, queue') := by
  obtain ⟨rest₁, hrest₁, rfl⟩ := pop?_eq_some_iff.1 h₁
  obtain ⟨rest₂, hrest₂, rfl⟩ := pop?_eq_some_iff.1 h₂
  refine ⟨Function.update (Function.update queue c rest₁) d rest₂, ?_, ?_⟩
  · exact pop?_eq_some_iff.2 ⟨rest₂, by rw [Function.update_of_ne hne.symm, hrest₂], rfl⟩
  · refine pop?_eq_some_iff.2 ⟨rest₁, by rw [Function.update_of_ne hne, hrest₁], ?_⟩
    rw [Function.update_comm hne]

end

/-! ### Steps -/

namespace Worker

/-- The worker and the queues after a move, if it is possible. -/
def Move.effect? (queue : Channel → List Envelope) :
    Move β → Option (Worker β × (Channel → List Envelope))
  | .rest => none
  | .go w => some (w, queue)
  | .send p w => some (w, push p queue)
  | .take c w => (pop? c queue).map fun x => (w x.1, x.2)

/-- A move of `rank` sends on channels from it and takes from channels to it. -/
def Move.Of (rank : Nat) : Move β → Prop
  | .rest => True
  | .go _ => True
  | .send p _ => p.1.source = rank
  | .take c _ => c.dest = rank

theorem of_move (plan : List β → Option (Rounds β)) (rank : Nat) (w : Worker β) :
    (w.move plan rank).Of rank := by
  unfold move
  split <;> first | exact trivial | rfl

/-- **Moves of two ranks do not get in each other's way.** -/
theorem Move.effect?_comm {r q : Nat} (hne : r ≠ q) {m m' : Move β} (hm : m.Of r) (hm' : m'.Of q)
    {queue queue₁ queue₂ : Channel → List Envelope} {w w' : Worker β}
    (h : m.effect? queue = some (w, queue₁)) (h' : m'.effect? queue = some (w', queue₂)) :
    ∃ queue', m'.effect? queue₁ = some (w', queue') ∧ m.effect? queue₂ = some (w, queue') := by
  cases m with
  | rest => cases h
  | go v =>
    obtain ⟨rfl, rfl⟩ := Prod.mk.inj (Option.some.inj h)
    exact ⟨queue₂, h', rfl⟩
  | send p v =>
    obtain ⟨rfl, rfl⟩ := Prod.mk.inj (Option.some.inj h)
    cases m' with
    | rest => cases h'
    | go v' =>
      obtain ⟨rfl, rfl⟩ := Prod.mk.inj (Option.some.inj h')
      exact ⟨_, rfl, rfl⟩
    | send p' v' =>
      obtain ⟨rfl, rfl⟩ := Prod.mk.inj (Option.some.inj h')
      have hchannel : p.1 ≠ p'.1 := fun he => hne (hm.symm.trans ((congrArg _ he).trans hm'))
      exact ⟨_, rfl, by rw [Move.effect?, push_comm hchannel]⟩
    | take c v' =>
      obtain ⟨⟨e, queue₂⟩, hpop, hw⟩ := Option.map_eq_some_iff.1 h'
      obtain ⟨rfl, rfl⟩ := Prod.mk.inj hw
      exact ⟨_, by rw [Move.effect?, pop?_push hpop]; rfl, rfl⟩
  | take c v =>
    obtain ⟨⟨e, queue₁⟩, hpop, hw⟩ := Option.map_eq_some_iff.1 h
    obtain ⟨rfl, rfl⟩ := Prod.mk.inj hw
    cases m' with
    | rest => cases h'
    | go v' =>
      obtain ⟨rfl, rfl⟩ := Prod.mk.inj (Option.some.inj h')
      exact ⟨_, rfl, h⟩
    | send p' v' =>
      obtain ⟨rfl, rfl⟩ := Prod.mk.inj (Option.some.inj h')
      exact ⟨_, rfl, by rw [Move.effect?, pop?_push hpop]; rfl⟩
    | take c' v' =>
      obtain ⟨⟨e', queue₂⟩, hpop', hw'⟩ := Option.map_eq_some_iff.1 h'
      obtain ⟨rfl, rfl⟩ := Prod.mk.inj hw'
      have hchannel : c ≠ c' := fun he => hne (hm.symm.trans ((congrArg _ he).trans hm'))
      obtain ⟨queue', h₁, h₂⟩ := pop?_comm hchannel hpop hpop'
      exact ⟨queue', by rw [Move.effect?, h₁]; rfl, by rw [Move.effect?, h₂]; rfl⟩

end Worker

namespace Scene

/-- All ranks before their first program, and nothing on its way. -/
def start (plan : Nat → List β → Option (Rounds β)) : Scene β :=
  ⟨fun r => ⟨[], plan r [], 0, [], []⟩, fun _ => []⟩

variable (plan : Nat → List β → Option (Rounds β))

/-- The scene after one step of `rank`; there is none when the rank has ended or waits for an empty
queue. -/
def step? (rank : Nat) (s : Scene β) : Option (Scene β) :=
  (((s.worker rank).move (plan rank) rank).effect? s.queue).map fun x =>
    ⟨Function.update s.worker rank x.1, x.2⟩

/-- The scene after the ranks of a schedule have stepped in turn. -/
def run? : List Nat → Scene β → Option (Scene β)
  | [], s => some s
  | rank :: schedule, s => (s.step? plan rank).bind (run? schedule)

variable {plan} {s s₁ s₂ t u : Scene β} {r q : Nat}

/-- The scene after a rank and the queues have changed. -/
def set (s : Scene β) (r : Nat) (w : Worker β) (queue : Channel → List Envelope) : Scene β :=
  ⟨Function.update s.worker r w, queue⟩

@[simp] theorem queue_set (w : Worker β) (queue : Channel → List Envelope) :
    (s.set r w queue).queue = queue := rfl

@[simp] theorem worker_set_self (w : Worker β) (queue : Channel → List Envelope) :
    (s.set r w queue).worker r = w := Function.update_self ..

@[simp] theorem set_set (w w' : Worker β) (queue queue' : Channel → List Envelope) :
    (s.set r w queue).set r w' queue' = s.set r w' queue' := by
  simp [set]

theorem set_self : s.set r (s.worker r) s.queue = s := by
  simp [set]

theorem step?_eq_some_iff :
    s.step? plan r = some t ↔ ∃ w,
      ((s.worker r).move (plan r) r).effect? s.queue = some (w, t.queue) ∧
        t.worker = Function.update s.worker r w := by
  rw [step?, Option.map_eq_some_iff]
  constructor
  · rintro ⟨⟨w, queue⟩, h, rfl⟩
    exact ⟨w, h, rfl⟩
  · rintro ⟨w, h, hworker⟩
    exact ⟨(w, t.queue), h, by rw [← hworker]⟩

/-- A rank that has ended cannot step. -/
theorem step?_ended (h : (s.worker r).program = none) : s.step? plan r = none := by
  rw [step?, Worker.move, h]
  rfl

theorem step?_done {a : β} (h : (s.worker r).program = some (.done a)) :
    s.step? plan r = some (s.set r
      ((s.worker r).nextProgram a (plan r ((s.worker r).past ++ [a]))) s.queue) := by
  rw [step?, Worker.move, h]
  rfl

section
variable {o : Outgoing} {sends : List Outgoing} {a : Awaited} {awaits : List Awaited}
  {next : List (Option Payload) → Rounds β}

theorem step?_send (h : (s.worker r).program = some (.round (o :: sends) awaits next)) :
    s.step? plan r = some (s.set r ((s.worker r).post r [o] (.round sends awaits next))
      (push (Worker.posting r (s.worker r).now o) s.queue)) := by
  rw [step?, Worker.move, h]
  rfl

theorem step?_take {e : Envelope} {rest : List Envelope}
    (h : (s.worker r).program = some (.round [] (a :: awaits) next))
    (hqueue : s.queue (Worker.inlet r a) = e :: rest) :
    s.step? plan r = some (s.set r
      ((s.worker r).collect r [(a, e)]
        (.round [] awaits fun replies => next (some e.payload :: replies)))
      (Function.update s.queue (Worker.inlet r a) rest)) := by
  have hpop := pop?_eq_some_iff.2 ⟨rest, hqueue, rfl⟩
  rw [step?, Worker.move, h]
  simp only [Worker.Move.effect?, hpop]
  rfl

/-- A rank that waits for an empty queue cannot step. -/
theorem step?_waiting (h : (s.worker r).program = some (.round [] (a :: awaits) next))
    (hqueue : s.queue (Worker.inlet r a) = []) : s.step? plan r = none := by
  rw [step?, Worker.move, h]
  simp only [Worker.Move.effect?, pop?, hqueue]
  rfl

theorem step?_nextRound (h : (s.worker r).program = some (.round [] [] next)) :
    s.step? plan r = some (s.set r ((s.worker r).nextRound (next [])) s.queue) := by
  rw [step?, Worker.move, h]
  rfl

end

/-- **Steps of two ranks can be made in either order.** -/
theorem step?_comm (hne : r ≠ q) (hr : s.step? plan r = some s₁) (hq : s.step? plan q = some s₂) :
    ∃ t, s₁.step? plan q = some t ∧ s₂.step? plan r = some t := by
  obtain ⟨w, hw, hworker⟩ := step?_eq_some_iff.1 hr
  obtain ⟨w', hw', hworker'⟩ := step?_eq_some_iff.1 hq
  obtain ⟨queue', h', h⟩ := Worker.Move.effect?_comm hne (Worker.of_move ..) (Worker.of_move ..) hw hw'
  refine ⟨⟨Function.update s₁.worker q w', queue'⟩, step?_eq_some_iff.2 ⟨w', ?_, rfl⟩,
    step?_eq_some_iff.2 ⟨w, ?_, ?_⟩⟩
  · rw [hworker, Function.update_of_ne hne.symm, h']
  · rw [hworker', Function.update_of_ne hne, h]
  · rw [hworker, hworker', Function.update_comm hne]

/-! ### Schedules -/

theorem run?_append (K L : List Nat) (s : Scene β) :
    s.run? plan (K ++ L) = (s.run? plan K).bind (run? plan L) := by
  induction K generalizing s with
  | nil => rfl
  | cons r K ih =>
    show (s.step? plan r).bind _ = ((s.step? plan r).bind _).bind _
    rw [Option.bind_assoc]
    exact congrArg _ (funext ih)

/-- On the way to a scene some rank can step, unless this is the scene already. -/
theorem eq_or_isSome_step?_of_run? {K : List Nat} (h : s.run? plan K = some t) :
    s = t ∨ ∃ r ∈ K, (s.step? plan r).isSome := by
  cases K with
  | nil => exact .inl (Option.some.inj h)
  | cons r K =>
    obtain ⟨u, hstep, -⟩ := Option.bind_eq_some_iff.1 h
    exact .inr ⟨r, List.mem_cons_self .., Option.isSome_iff_exists.2 ⟨u, hstep⟩⟩

/-- **A step that is possible now is one of those on any way to an end**, and the others lead to the
end from there. -/
theorem run?_erase {L : List Nat} (hend : t.step? plan r = none) (hL : s.run? plan L = some t)
    (hr : s.step? plan r = some s₁) : r ∈ L ∧ s₁.run? plan (L.erase r) = some t := by
  induction L generalizing s s₁ with
  | nil =>
    obtain rfl : s = t := Option.some.inj hL
    rw [hend] at hr
    cases hr
  | cons q L ih =>
    obtain ⟨s₂, hq, hrest⟩ := Option.bind_eq_some_iff.1 hL
    by_cases hne : r = q
    · subst hne
      obtain rfl := Option.some.inj (hr.symm.trans hq)
      rw [List.erase_cons_head]
      exact ⟨List.mem_cons_self .., hrest⟩
    · obtain ⟨s', hq', hr'⟩ := step?_comm hne hr hq
      obtain ⟨hmem, hlast⟩ := ih hrest hr'
      rw [List.erase_cons_tail (by simpa using Ne.symm hne)]
      exact ⟨List.mem_cons_of_mem _ hmem, Option.bind_eq_some_iff.2 ⟨s', hq', hlast⟩⟩

/-- **If some schedule leads to an end, every schedule is part of it**, and what it leaves out leads
to the same end. -/
theorem run?_diff {K L : List Nat} (hend : ∀ r ∈ K, t.step? plan r = none)
    (hL : s.run? plan L = some t) (hK : s.run? plan K = some u) :
    K.Subperm L ∧ u.run? plan (L.diff K) = some t := by
  induction K generalizing s L with
  | nil =>
    obtain rfl := Option.some.inj hK
    exact ⟨List.nil_subperm, by rwa [List.diff_nil]⟩
  | cons r K ih =>
    obtain ⟨s₁, hr, hrest⟩ := Option.bind_eq_some_iff.1 hK
    have hends := List.forall_mem_cons.1 hend
    obtain ⟨hmem, herase⟩ := run?_erase hends.1 hL hr
    obtain ⟨hsub, hdiff⟩ := ih hends.2 herase hrest
    refine ⟨?_, by rwa [List.diff_cons]⟩
    have hcons : (r :: K).Subperm (r :: L.erase r) := (List.subperm_cons r).2 hsub
    exact hcons.trans (List.perm_cons_erase hmem).symm.subperm

/-! ### Records -/

/-- The messages among those sent that went on a channel. -/
def sentOn (c : Channel) (sent : List (Channel × Envelope)) : List Envelope :=
  (sent.filter (·.1 = c)).map (·.2)

/-- The messages among those taken that came on a channel. -/
def takenFrom (c : Channel) (received : List Receipt) : List Envelope :=
  (received.filter (·.channel = c)).map (·.envelope)

theorem mem_sentOn {c : Channel} {e : Envelope} {sent : List (Channel × Envelope)} :
    e ∈ sentOn c sent ↔ (c, e) ∈ sent := by
  simp [sentOn]

theorem sentOn_append (c : Channel) (sent more : List (Channel × Envelope)) :
    sentOn c (sent ++ more) = sentOn c sent ++ sentOn c more := by
  simp [sentOn]

theorem sentOn_eq_nil {c : Channel} {sent : List (Channel × Envelope)}
    (h : ∀ p ∈ sent, p.1 ≠ c) : sentOn c sent = [] := by
  rw [sentOn, List.filter_eq_nil_iff.2 fun p hp => by simpa using h p hp, List.map_nil]

theorem takenFrom_append (c : Channel) (received more : List Receipt) :
    takenFrom c (received ++ more) = takenFrom c received ++ takenFrom c more := by
  simp [takenFrom]

theorem takenFrom_eq_nil {c : Channel} {received : List Receipt}
    (h : ∀ x ∈ received, x.channel ≠ c) : takenFrom c received = [] := by
  rw [takenFrom, List.filter_eq_nil_iff.2 fun x hx => by simpa using h x hx, List.map_nil]

/-- **What a step does to records and queues.**  What the rank sent comes behind what was in the
queues, and what it took was in front. -/
theorem step?_records (h : s.step? plan r = some t) :
    ∃ w sent received, t.worker = Function.update s.worker r w ∧
      w.sent = (s.worker r).sent ++ sent ∧ w.received = (s.worker r).received ++ received ∧
      (∀ p ∈ sent, p.1.source = r) ∧ (∀ x ∈ received, x.channel.dest = r) ∧
      ∀ c, s.queue c ++ sentOn c sent = takenFrom c received ++ t.queue c := by
  obtain ⟨w, happly, hworker⟩ := step?_eq_some_iff.1 h
  have hnone : ∀ queue, queue = t.queue → ∀ c, queue c ++ sentOn c [] = takenFrom c [] ++ t.queue c :=
    fun queue hqueue c => by rw [hqueue]; exact List.append_nil _
  refine ⟨w, ?_⟩
  unfold Worker.move at happly
  split at happly
  · cases happly
  · obtain ⟨rfl, hqueue⟩ := Prod.mk.inj (Option.some.inj happly)
    exact ⟨[], [], hworker, (List.append_nil _).symm, (List.append_nil _).symm,
      List.forall_mem_nil _, List.forall_mem_nil _, hnone _ hqueue⟩
  · next o _ _ _ _ =>
    obtain ⟨rfl, hqueue⟩ := Prod.mk.inj (Option.some.inj happly)
    refine ⟨[Worker.posting r (s.worker r).now o], [], hworker, rfl, (List.append_nil _).symm,
      List.forall_mem_singleton.2 rfl, List.forall_mem_nil _, fun c => ?_⟩
    rw [← hqueue, push, Function.update_apply]
    by_cases hc : c = (Worker.posting r (s.worker r).now o).1
    · subst hc
      simp [sentOn, takenFrom]
    · rw [if_neg hc, sentOn_eq_nil (List.forall_mem_singleton.2 (Ne.symm hc)), List.append_nil]
      rfl
  · next a _ _ _ =>
    obtain ⟨⟨e, queue⟩, hpop, hw⟩ := Option.map_eq_some_iff.1 happly
    obtain ⟨rfl, rfl⟩ := Prod.mk.inj hw
    obtain ⟨rest, hrest, hqueue⟩ := pop?_eq_some_iff.1 hpop
    refine ⟨[], [⟨Worker.inlet r a, e, (s.worker r).now⟩], hworker, (List.append_nil _).symm, rfl,
      List.forall_mem_nil _, List.forall_mem_singleton.2 rfl, fun c => ?_⟩
    rw [hqueue, Function.update_apply]
    by_cases hc : c = Worker.inlet r a
    · subst hc
      simp [sentOn, takenFrom, hrest]
    · rw [if_neg hc, takenFrom_eq_nil (List.forall_mem_singleton.2 (Ne.symm hc))]
      exact List.append_nil _
  · obtain ⟨rfl, hqueue⟩ := Prod.mk.inj (Option.some.inj happly)
    exact ⟨[], [], hworker, (List.append_nil _).symm, (List.append_nil _).symm,
      List.forall_mem_nil _, List.forall_mem_nil _, hnone _ hqueue⟩

/-- A step of a rank does not change the other ranks. -/
theorem worker_of_step?_ne (h : s.step? plan r = some t) (hq : q ≠ r) :
    t.worker q = s.worker q := by
  obtain ⟨w, -, hworker⟩ := step?_eq_some_iff.1 h
  rw [hworker, Function.update_of_ne hq]

/-- What has been sent on a channel has been taken from it, in the same order, or is still in the
queue. -/
def Even (s : Scene β) (c : Channel) : Prop :=
  sentOn c (s.worker c.source).sent = takenFrom c (s.worker c.dest).received ++ s.queue c

/-- One step of a rank leaves a channel even. -/
theorem Even.step {c : Channel} (hs : s.Even c) (h : s.step? plan r = some t) : t.Even c := by
  obtain ⟨w, sent, received, hworker, hsent, hreceived, hsource, hdest, hqueue⟩ := step?_records h
  have hsentOn : sentOn c (t.worker c.source).sent =
      sentOn c (s.worker c.source).sent ++ sentOn c sent := by
    rw [hworker, Function.update_apply]
    split
    · next hc => rw [hsent, sentOn_append, hc]
    · next hc =>
      have hother : sentOn c sent = [] := sentOn_eq_nil fun p hp he => hc (he ▸ hsource p hp)
      rw [hother, List.append_nil]
  have htakenFrom : takenFrom c (t.worker c.dest).received =
      takenFrom c (s.worker c.dest).received ++ takenFrom c received := by
    rw [hworker, Function.update_apply]
    split
    · next hc => rw [hreceived, takenFrom_append, hc]
    · next hc =>
      have hother : takenFrom c received = [] := takenFrom_eq_nil fun x hx he => hc (he ▸ hdest x hx)
      rw [hother, List.append_nil]
  unfold Even at hs ⊢
  rw [hsentOn, htakenFrom, hs, List.append_assoc, hqueue, List.append_assoc]

/-- A rank takes only what was sent to it. -/
theorem dest_of_step? (hs : ∀ q, ∀ x ∈ (s.worker q).received, x.channel.dest = q)
    (h : s.step? plan r = some t) : ∀ q, ∀ x ∈ (t.worker q).received, x.channel.dest = q := by
  obtain ⟨w, sent, received, hworker, -, hreceived, -, hdest, -⟩ := step?_records h
  intro q
  rw [hworker, Function.update_apply]
  split
  · next hq =>
    rw [hreceived, hq]
    exact List.forall_mem_append.2 ⟨hs r, hdest⟩
  · exact hs q

/-- All channels are even, and every rank has sent from itself and taken what was sent to it. -/
structure Balanced (s : Scene β) : Prop where
  source : ∀ r, ∀ p ∈ (s.worker r).sent, p.1.source = r
  dest : ∀ r, ∀ x ∈ (s.worker r).received, x.channel.dest = r
  queue : ∀ c, sentOn c (s.worker c.source).sent =
    takenFrom c (s.worker c.dest).received ++ s.queue c

theorem balanced_start (plan : Nat → List β → Option (Rounds β)) : (start plan).Balanced :=
  ⟨fun _ => List.forall_mem_nil _, fun _ => List.forall_mem_nil _, fun _ => rfl⟩

/-- One step of a rank keeps the balance of all channels. -/
theorem Balanced.step (hs : s.Balanced) (h : s.step? plan r = some t) : t.Balanced := by
  obtain ⟨w, sent, -, hworker, hsent, -, hsource, -, -⟩ := step?_records h
  refine ⟨fun q => ?_, dest_of_step? hs.dest h, fun c => Even.step (hs.queue c) h⟩
  rw [hworker, Function.update_apply]
  split
  · next hq =>
    rw [hsent, hq]
    exact List.forall_mem_append.2 ⟨hs.source r, hsource⟩
  · exact hs.source q

/-- **At any time every channel is in balance.** -/
theorem Balanced.run {K : List Nat} (hs : s.Balanced) (h : s.run? plan K = some t) :
    t.Balanced := by
  induction K generalizing s with
  | nil => exact Option.some.inj h ▸ hs
  | cons r K ih =>
    obtain ⟨u, hstep, hrest⟩ := Option.bind_eq_some_iff.1 h
    exact ih (hs.step hstep) hrest

/-- What has been taken has been sent. -/
theorem Balanced.mem_sent (hs : s.Balanced) {x : Receipt} (hx : x ∈ (s.worker r).received) :
    (x.channel, x.envelope) ∈ (s.worker x.channel.source).sent := by
  refine mem_sentOn.1 ?_
  rw [hs.queue, hs.dest r x hx]
  refine List.mem_append_left _ (List.mem_map.2 ⟨x, List.mem_filter.2 ⟨hx, ?_⟩, rfl⟩)
  exact decide_eq_true rfl

/-- Records only grow. -/
theorem prefix_of_step? (h : s.step? plan r = some t) (q : Nat) :
    (s.worker q).sent <+: (t.worker q).sent ∧
      (s.worker q).received <+: (t.worker q).received := by
  obtain ⟨w, sent, received, hworker, hsent, hreceived, -⟩ := step?_records h
  rw [hworker, Function.update_apply]
  split
  · next hq =>
    rw [hq, hsent, hreceived]
    exact ⟨List.prefix_append .., List.prefix_append ..⟩
  · exact ⟨List.prefix_refl _, List.prefix_refl _⟩

theorem prefix_of_run? {K : List Nat} (h : s.run? plan K = some t) (q : Nat) :
    (s.worker q).sent <+: (t.worker q).sent ∧
      (s.worker q).received <+: (t.worker q).received := by
  induction K generalizing s with
  | nil => exact Option.some.inj h ▸ ⟨List.prefix_refl _, List.prefix_refl _⟩
  | cons r K ih =>
    obtain ⟨u, hstep, hrest⟩ := Option.bind_eq_some_iff.1 h
    have hone := prefix_of_step? hstep q
    have hothers := ih hrest
    exact ⟨hone.1.trans hothers.1, hone.2.trans hothers.2⟩

end Scene

end World

end Unknowns
