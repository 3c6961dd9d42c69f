import Unknowns.Proofs.World.Interleaved
import Unknowns.Proofs.World.Lockstep

/-!
# Ways through a round

How ranks that go at their own pace can get from one scene to another
(`Scene.Reaches`), if each does its part in turn:

* `Scene.reaches_sends`, `Scene.reaches_takes`: one rank sends all messages of a
  round, and takes all that it waits for;
* `Scene.reaches_round`: all ranks get through a matched round, first all of them
  sending and then all of them taking.
-/

namespace Unknowns

namespace World

namespace Scene

variable {β : Type} {n : Nat} {plan : Nat → List β → Option (Rounds β)} {s t u : Scene β} {r : Nat}

/-- The ranks below `n` can get from one scene to another. -/
def Reaches (plan : Nat → List β → Option (Rounds β)) (n : Nat) (s t : Scene β) : Prop :=
  ∃ K : List Nat, (∀ r ∈ K, r < n) ∧ s.run? plan K = some t

namespace Reaches

theorem refl (s : Scene β) : Reaches plan n s s := ⟨[], List.forall_mem_nil _, rfl⟩

theorem trans (h : Reaches plan n s t) (h' : Reaches plan n t u) : Reaches plan n s u := by
  obtain ⟨K, hK, hrun⟩ := h
  obtain ⟨L, hL, hrun'⟩ := h'
  exact ⟨K ++ L, List.forall_mem_append.2 ⟨hK, hL⟩, by rw [run?_append, hrun]; exact hrun'⟩

theorem head (hr : r < n) (h : s.step? plan r = some t) (h' : Reaches plan n t u) :
    Reaches plan n s u := by
  obtain ⟨K, hK, hrun⟩ := h'
  exact ⟨r :: K, List.forall_mem_cons.2 ⟨hr, hK⟩, Option.bind_eq_some_iff.2 ⟨t, h, hrun⟩⟩

theorem single (hr : r < n) (h : s.step? plan r = some t) : Reaches plan n s t := head hr h (refl t)

/-- Ranks that act one after the other. -/
theorem each {f : Nat → Scene β} {k : Nat} (h : ∀ m < k, Reaches plan n (f m) (f (m + 1))) :
    Reaches plan n (f 0) (f k) := by
  induction k with
  | zero => exact refl _
  | succ k ih => exact (ih fun m hm => h m (Nat.lt_succ_of_lt hm)).trans (h k (Nat.lt_succ_self k))

end Reaches

/-! ### What one rank does -/

section
variable {sends : List Outgoing} {awaits : List Awaited} {next : List (Option Payload) → Rounds β}

/-- A rank sends all messages of a round. -/
theorem reaches_sends (hr : r < n) (h : (s.worker r).program = some (.round sends awaits next)) :
    Reaches plan n s (s.set r ((s.worker r).post r sends (.round [] awaits next))
      fun c => s.queue c ++ sentOn c (sends.map (Worker.posting r (s.worker r).now))) := by
  induction sends generalizing s with
  | nil =>
    have hworker : (s.worker r).post r [] (.round [] awaits next) = s.worker r := by
      rw [Worker.post, List.map_nil, List.append_nil, ← h]
    have hqueue : (fun c => s.queue c ++ sentOn c ([].map (Worker.posting r (s.worker r).now))) =
        s.queue := funext fun c => List.append_nil _
    rw [hworker, hqueue, set_self]
    exact .refl s
  | cons o sends ih =>
    have hrest := ih (s := s.set r ((s.worker r).post r [o] (.round sends awaits next))
      (push (Worker.posting r (s.worker r).now o) s.queue)) (by rw [worker_set_self]; rfl)
    simp only [worker_set_self, set_set, queue_set, Worker.now_post, Worker.post_post,
      List.singleton_append] at hrest
    refine .head hr (step?_send h) ?_
    convert hrest using 2
    funext c
    rw [List.map_cons, push, Function.update_apply]
    by_cases hc : c = (Worker.posting r (s.worker r).now o).1
    · subst hc
      simp [sentOn]
    · simp [sentOn, hc, Ne.symm hc]

theorem inlet_inj {a b : Awaited} : Worker.inlet r a = Worker.inlet r b ↔ a = b := by
  cases a; cases b
  simp [Worker.inlet]

/-- A rank takes all awaited messages of a round and goes on to its next round. -/
theorem reaches_takes (hr : r < n) {envelope : Awaited → Envelope} (hnodup : awaits.Nodup)
    (hqueue : ∀ a ∈ awaits, s.queue (Worker.inlet r a) = [envelope a])
    (h : (s.worker r).program = some (.round [] awaits next)) :
    Reaches plan n s (s.set r
      (((s.worker r).collect r (awaits.map fun a => (a, envelope a)) (.round [] [] next)).nextRound
        (next (awaits.map fun a => some (envelope a).payload)))
      fun c => if ∃ a ∈ awaits, Worker.inlet r a = c then [] else s.queue c) := by
  induction awaits generalizing s next with
  | nil =>
    refine .head hr (step?_nextRound h) ?_
    convert Reaches.refl _ using 2
    · simp [Worker.collect, Worker.nextRound]
    · simp
  | cons a awaits ih =>
    have ha := List.nodup_cons.1 hnodup
    have hqueues := List.forall_mem_cons.1 hqueue
    let queue := Function.update s.queue (Worker.inlet r a) []
    have hother : ∀ b ∈ awaits, queue (Worker.inlet r b) = [envelope b] := by
      intro b hb
      have hne : Worker.inlet r b ≠ Worker.inlet r a := fun he => ha.1 (inlet_inj.1 he ▸ hb)
      exact (Function.update_of_ne hne ..).trans (hqueues.2 b hb)
    have hrest := ih (s := s.set r ((s.worker r).collect r [(a, envelope a)]
      (.round [] awaits fun replies => next (some (envelope a).payload :: replies))) queue)
      ha.2 hother (by rw [worker_set_self]; rfl)
    simp only [worker_set_self, set_set, queue_set, Worker.collect_collect] at hrest
    refine .head hr (step?_take h hqueues.1) ?_
    convert hrest using 2
    · rfl
    · funext c
      simp only [queue, Function.update_apply, List.exists_mem_cons_iff]
      by_cases hc : c = Worker.inlet r a
      · subst hc
        simp
      · simp [hc, Ne.symm hc]

end

/-! ### What all ranks do in turn -/

/-- The scene after the ranks below `m` and the queues have changed. -/
def upTo (s : Scene β) (m : Nat) (f : Nat → Worker β) (queue : Channel → List Envelope) : Scene β :=
  ⟨fun r => if r < m then f r else s.worker r, queue⟩

section
variable {f : Nat → Worker β} {queue queue' : Channel → List Envelope} {m : Nat}

theorem upTo_zero : s.upTo 0 f s.queue = s := by
  simp only [upTo, Nat.not_lt_zero, if_false]

theorem worker_upTo_self : (s.upTo m f queue).worker m = s.worker m := if_neg (Nat.lt_irrefl m)

theorem worker_upTo (hr : r < m) : (s.upTo m f queue).worker r = f r := if_pos hr

theorem upTo_succ : s.upTo (m + 1) f queue' = (s.upTo m f queue).set m (f m) queue' := by
  unfold upTo set
  congr 1
  funext r
  dsimp only
  rw [Function.update_apply]
  rcases Nat.lt_trichotomy r m with hr | rfl | hr
  · rw [if_pos (by omega), if_neg (by omega), if_pos hr]
  · rw [if_pos (by omega), if_pos rfl]
  · rw [if_neg (by omega), if_neg (by omega), if_neg (by omega)]

end

/-! ### What all ranks do in a round -/

/-- A rank sends its message to another under one tag only, and once. -/
theorem sentOn_postings {now : Moment} {q : Nat} {sends : List Outgoing}
    (h : sends.Pairwise fun o₁ o₂ => o₁.dest ≠ o₂.dest) {o : Outgoing} (ho : o ∈ sends) :
    sentOn ⟨q, o.dest, o.tag⟩ (sends.map (Worker.posting q now)) = [⟨o.payload, now⟩] := by
  induction sends with
  | nil => cases ho
  | cons o' sends ih =>
    have hfirst := List.pairwise_cons.1 h
    rcases List.mem_cons.1 ho with rfl | ho
    · have hnone : sentOn ⟨q, o.dest, o.tag⟩ (sends.map (Worker.posting q now)) = [] := by
        refine sentOn_eq_nil (List.forall_mem_map.2 fun o' ho' he => ?_)
        exact hfirst.1 o' ho' (Channel.mk.inj he).2.1.symm
      rw [List.map_cons, ← List.singleton_append, sentOn_append, hnone]
      simp [sentOn, Worker.posting]
    · have hnone : sentOn ⟨q, o.dest, o.tag⟩ [Worker.posting q now o'] = [] :=
        sentOn_eq_nil (List.forall_mem_singleton.2 fun he =>
          hfirst.1 o ho (Channel.mk.inj he).2.1)
      rw [List.map_cons, ← List.singleton_append, sentOn_append, hnone, List.nil_append,
        ih hfirst.2 ho]

section
variable {sends : Nat → List Outgoing} {awaits : Nat → List Awaited}
  {payload : Nat → Awaited → Payload} {now : Moment}

/-- The queues when all ranks have sent the messages of a round and none has been taken. -/
def posted (n : Nat) (sends : Nat → List Outgoing) (now : Moment) (c : Channel) : List Envelope :=
  if c.source < n then sentOn c ((sends c.source).map (Worker.posting c.source now)) else []

/-- In a matched round the message that a rank waits for is the only one in its queue. -/
theorem posted_of_awaited (h : Matched n sends awaits payload) (hr : r < n) {a : Awaited}
    (ha : a ∈ awaits r) : posted n sends now (Worker.inlet r a) = [⟨payload r a, now⟩] := by
  obtain ⟨hsource, hsent⟩ := h.sent r hr a ha
  exact (if_pos hsource).trans (sentOn_postings (h.dests a.source hsource) hsent)

/-- Nothing else is sent. -/
theorem posted_of_not_awaited (h : Matched n sends awaits payload) {c : Channel}
    (hc : ¬(c.dest < n ∧ ⟨c.source, c.tag⟩ ∈ awaits c.dest)) : posted n sends now c = [] := by
  unfold posted
  split
  · next hsource =>
    refine sentOn_eq_nil (List.forall_mem_map.2 fun o ho he => hc ?_)
    have hawaited := h.awaited c.source hsource o ho
    rw [← he]
    exact hawaited
  · rfl

theorem posted_succ (m : Nat) : posted (m + 1) sends now = fun c =>
    posted m sends now c ++ sentOn c ((sends m).map (Worker.posting m now)) := by
  funext c
  unfold posted
  by_cases hc : c.source = m
  · rw [if_pos (by omega), if_neg (by omega), hc, List.nil_append]
  · have hother : sentOn c ((sends m).map (Worker.posting m now)) = [] :=
      sentOn_eq_nil (List.forall_mem_map.2 fun o _ he => hc (congrArg Channel.source he).symm)
    have hlt : c.source < m + 1 ↔ c.source < m := by omega
    rw [hother, List.append_nil, if_congr hlt rfl rfl]

/-- When rank `m` takes what it waits for, the queues to it are empty as those to the ranks below
are. -/
theorem posted_taken (h : Matched n sends awaits payload) (m : Nat) (c : Channel) :
    (if c.dest < m + 1 then [] else posted n sends now c) =
      if ∃ a ∈ awaits m, Worker.inlet m a = c then []
      else if c.dest < m then [] else posted n sends now c := by
  by_cases hawaited : ∃ a ∈ awaits m, Worker.inlet m a = c
  · have hdest : c.dest = m := by
      obtain ⟨a, -, rfl⟩ := hawaited
      rfl
    rw [if_pos hawaited, if_pos (by omega)]
  · rw [if_neg hawaited]
    by_cases hc : c.dest = m
    · have hnone : posted n sends now c = [] := posted_of_not_awaited h fun hmem =>
        hawaited ⟨⟨c.source, c.tag⟩, hc ▸ hmem.2, by rw [← hc]; rfl⟩
      rw [hnone, ite_self, ite_self]
    · have hlt : c.dest < m + 1 ↔ c.dest < m := by omega
      rw [if_congr hlt rfl rfl]

/-- All ranks send the messages of a round, one rank after the other. -/
theorem reaches_posted {next : Nat → List (Option Payload) → Rounds β}
    (hp : ∀ r < n, (s.worker r).program = some (.round (sends r) (awaits r) (next r)))
    (hnow : ∀ r < n, (s.worker r).now = now) (hqueue : ∀ c, s.queue c = []) :
    Reaches plan n s (s.upTo n
      (fun r => (s.worker r).post r (sends r) (.round [] (awaits r) (next r)))
      (posted n sends now)) := by
  let half (m : Nat) : Scene β := s.upTo m
    (fun r => (s.worker r).post r (sends r) (.round [] (awaits r) (next r))) (posted m sends now)
  have hstart : half 0 = s := by
    have hnil : posted 0 sends now = s.queue := funext fun c => (hqueue c).symm ▸ rfl
    simp only [half, hnil, upTo_zero]
  have hreach : Reaches plan n (half 0) (half n) := by
    refine .each fun m hm => ?_
    have hworker : (half m).worker m = s.worker m := worker_upTo_self
    have hsends : Reaches plan n (half m) _ := reaches_sends hm (by rw [hworker]; exact hp m hm)
    rw [hworker, hnow m hm] at hsends
    have hnext : half (m + 1) = (half m).set m _ _ := upTo_succ
    rwa [hnext, posted_succ]
  rwa [hstart] at hreach

/-- All ranks take what they wait for, one rank after the other, and nothing is left. -/
theorem reaches_taken (h : Matched n sends awaits payload)
    {next : Nat → List (Option Payload) → Rounds β}
    (hp : ∀ r < n, (s.worker r).program = some (.round [] (awaits r) (next r)))
    (hqueue : s.queue = posted n sends now) :
    Reaches plan n s (s.upTo n
      (fun r => ((s.worker r).collect r ((awaits r).map fun a => (a, ⟨payload r a, now⟩))
        (.round [] [] (next r))).nextRound (next r ((awaits r).map fun a => some (payload r a))))
      fun _ => []) := by
  let part (m : Nat) : Scene β := s.upTo m
    (fun r => ((s.worker r).collect r ((awaits r).map fun a => (a, ⟨payload r a, now⟩))
      (.round [] [] (next r))).nextRound (next r ((awaits r).map fun a => some (payload r a))))
    fun c => if c.dest < m then [] else posted n sends now c
  have hstart : part 0 = s := by
    simp only [part, Nat.not_lt_zero, if_false, ← hqueue]
    exact upTo_zero
  have hempty : (fun c : Channel => if c.dest < n then [] else posted n sends now c) =
      fun _ => [] := by
    funext c
    split
    · rfl
    · next hc => exact posted_of_not_awaited h fun hawaited => hc hawaited.1
  have hreach : Reaches plan n (part 0) (part n) := by
    refine .each fun m hm => ?_
    have hworker : (part m).worker m = s.worker m := worker_upTo_self
    have hinlet : ∀ a ∈ awaits m, (part m).queue (Worker.inlet m a) = [⟨payload m a, now⟩] :=
      fun a ha => (if_neg (Nat.lt_irrefl m)).trans (posted_of_awaited h hm ha)
    have htakes : Reaches plan n (part m) _ :=
      reaches_takes hm (h.nodup m hm) hinlet (by rw [hworker]; exact hp m hm)
    rw [hworker] at htakes
    have hnext : part (m + 1) = (part m).set m _ _ := upTo_succ
    simp only [hnext, posted_taken h]
    exact htakes
  rw [hstart] at hreach
  simp only [part, hempty] at hreach
  exact hreach

/-- **All ranks get through a matched round**, and nothing is left in the queues. -/
theorem reaches_round (h : Matched n sends awaits payload)
    {next : Nat → List (Option Payload) → Rounds β}
    (hp : ∀ r < n, (s.worker r).program = some (.round (sends r) (awaits r) (next r)))
    (hnow : ∀ r < n, (s.worker r).now = now) (hqueue : ∀ c, s.queue c = []) :
    ∃ t, Reaches plan n s t ∧ (∀ c, t.queue c = []) ∧ ∀ r < n, t.worker r =
      (((s.worker r).post r (sends r) (.round [] (awaits r) (next r))).collect r
        ((awaits r).map fun a => (a, ⟨payload r a, now⟩)) (.round [] [] (next r))).nextRound
          (next r ((awaits r).map fun a => some (payload r a))) := by
  have hposted : Reaches plan n s _ := reaches_posted hp hnow hqueue
  have hworker : ∀ r < n, ((s.upTo n
      (fun r => (s.worker r).post r (sends r) (.round [] (awaits r) (next r)))
      (posted n sends now)).worker r).program = some (.round [] (awaits r) (next r)) :=
    fun r hr => by rw [worker_upTo hr]; rfl
  refine ⟨_, hposted.trans (reaches_taken h hworker rfl), fun _ => rfl, fun r hr => ?_⟩
  rw [worker_upTo hr, worker_upTo hr]

end

end Scene

end World

end Unknowns
