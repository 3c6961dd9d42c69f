import Unknowns.Proofs.World.Replies

/-!
# One rank against a box of deliveries

What the peers of a rank send may be anything.  `Rounds.against` runs the program of
one rank against a box in which it all lies ready, so a theorem about every box is one
about every peer.

Messages from one rank under one tag queue up (`queued`), and waiting for one takes the
first of its queue and leaves the other queues alone (`queued_takeAll`).
`waits` lists what a program waits for, in turn.  A program in parts is run part by
part, the later ones against what the earlier ones left (`against_bind`, and for programs
that may fail `against_ok_iff`).
-/

namespace Unknowns

namespace Rounds

variable {α β : Type}

/-! ### Queues -/

/-- The wait that a delivery ends. -/
def Delivery.answers (d : Delivery) : Awaited := ⟨d.source, d.tag⟩

/-- The deliveries that end a wait, in the order in which they are taken. -/
def queued (box : List Delivery) (a : Awaited) : List (Option Payload) :=
  (box.filter fun d => d.answers = a).map (·.payload)

/-- What comes when a message is awaited; nothing comes where nothing is queued. -/
def arrival (box : List Delivery) (a : Awaited) : Option Payload := (queued box a).head?.join

theorem queued_cons (d : Delivery) (box : List Delivery) (a : Awaited) :
    queued (d :: box) a = if d.answers = a then d.payload :: queued box a else queued box a := by
  by_cases hd : d.answers = a <;> simp [queued, hd]

theorem take_cons (d : Delivery) (box : List Delivery) (a : Awaited) :
    take (d :: box) a =
      if d.answers = a then (d.payload, box) else ((take box a).1, d :: (take box a).2) := by
  obtain ⟨source, tag⟩ := a
  simp only [take, Delivery.answers, Awaited.mk.injEq]

theorem take_fst (box : List Delivery) (a : Awaited) : (take box a).1 = arrival box a := by
  induction box with
  | nil => rfl
  | cons d box ih =>
    rw [take_cons, arrival, queued_cons]
    split
    · rfl
    · exact ih

/-- Taking a message shortens its queue and no other one. -/
theorem queued_take (box : List Delivery) (a b : Awaited) :
    queued (take box a).2 b = if b = a then (queued box b).tail else queued box b := by
  induction box with
  | nil => simp [take, queued]
  | cons d box ih =>
    rw [take_cons, queued_cons]
    by_cases hd : d.answers = a
    · obtain rfl := hd
      by_cases hb : b = d.answers
      · simp [hb]
      · simp [hb, Ne.symm hb]
    · by_cases hb : b = a
      · obtain rfl := hb
        simp [hd, queued_cons, ih]
      · simp [hd, hb, queued_cons, ih]

theorem arrival_take {box : List Delivery} {a b : Awaited} (h : b ≠ a) :
    arrival (take box a).2 b = arrival box b := by
  rw [arrival, queued_take, if_neg h, arrival]

theorem takeAll_cons (box : List Delivery) (a : Awaited) (awaits : List Awaited) :
    takeAll box (a :: awaits) =
      ((take box a).1 :: (takeAll (take box a).2 awaits).1,
        (takeAll (take box a).2 awaits).2) := rfl

/-- Messages of which none is awaited twice are what their queues begin with. -/
theorem takeAll_fst {awaits : List Awaited} (h : awaits.Nodup) (box : List Delivery) :
    (takeAll box awaits).1 = awaits.map (arrival box) := by
  induction awaits generalizing box with
  | nil => rfl
  | cons a awaits ih =>
    obtain ⟨ha, hrest⟩ := List.nodup_cons.1 h
    have hothers : awaits.map (arrival (take box a).2) = awaits.map (arrival box) :=
      List.map_congr_left fun b hb => arrival_take (ne_of_mem_of_not_mem hb ha)
    rw [takeAll_cons, List.map_cons, take_fst, ih hrest, hothers]

/-- **Whatever is awaited is taken from its queue**, and nothing else is. -/
theorem queued_takeAll {awaits : List Awaited} (h : awaits.Nodup) (box : List Delivery)
    (b : Awaited) :
    queued (takeAll box awaits).2 b =
      if b ∈ awaits then (queued box b).tail else queued box b := by
  induction awaits generalizing box with
  | nil => rfl
  | cons a awaits ih =>
    obtain ⟨ha, hrest⟩ := List.nodup_cons.1 h
    rw [takeAll_cons, ih hrest, queued_take]
    by_cases hb : b = a
    · subst hb
      simp [ha]
    · simp [hb]

/-! ### Programs -/

/-- All messages that a program waits for against a box, in turn. -/
def waits : List Delivery → Rounds α → List Awaited
  | _, done _ => []
  | box, round _ awaits next =>
    awaits ++ waits (takeAll box awaits).2 (next (takeAll box awaits).1)

theorem against_round (box : List Delivery) (sends : List Outgoing) (awaits : List Awaited)
    (next : List (Option Payload) → Rounds α) :
    (round sends awaits next).against box =
      let rest := (next (takeAll box awaits).1).against (takeAll box awaits).2
      (rest.1, sends ++ rest.2.1, rest.2.2) := rfl

/-- **Part by part**, the second one against what the first one left. -/
theorem against_bind (box : List Delivery) (p : Rounds α) (f : α → Rounds β) :
    (p >>= f).against box =
      let first := p.against box
      let second := (f first.1).against first.2.2
      (second.1, first.2.1 ++ second.2.1, second.2.2) := by
  induction p generalizing box with
  | done a => rfl
  | round sends awaits next ih =>
    show (round sends awaits fun replies => next replies >>= f).against box = _
    simp only [against_round, ih, List.append_assoc]

section
variable {box : List Delivery} {p : Protocol α} {f : α → Protocol β}

/-- A program whose first part succeeds goes on against what this left. -/
theorem against_bind_ok {a : α} (h : (p.run.against box).1 = .ok a) :
    ((p >>= f).run.against box).1 = ((f a).run.against (p.run.against box).2.2).1 := by
  have hbind := congrArg Prod.fst (against_bind box p.run (ExceptT.bindCont f))
  simp only [h] at hbind
  exact hbind

/-- A program whose first part fails ends there. -/
theorem against_bind_error {e : Error} (h : (p.run.against box).1 = .error e) :
    ((p >>= f).run.against box).1 = .error e := by
  have hbind := congrArg Prod.fst (against_bind box p.run (ExceptT.bindCont f))
  simp only [h] at hbind
  exact hbind

theorem against_ok_iff {b : β} :
    ((p >>= f).run.against box).1 = .ok b ↔
      ∃ a, (p.run.against box).1 = .ok a ∧
        ((f a).run.against (p.run.against box).2.2).1 = .ok b := by
  cases h : (p.run.against box).1 with
  | ok a =>
    rw [against_bind_ok h]
    refine ⟨fun hb => ⟨a, rfl, hb⟩, ?_⟩
    rintro ⟨_, ⟨⟩, hb⟩
    exact hb
  | error e =>
    rw [against_bind_error h]
    exact ⟨nofun, fun ⟨_, ha, _⟩ => by cases ha⟩

end

/-- Against a box a program comes to one of the results that it may come to. -/
theorem comes_against (box : List Delivery) (p : Rounds α) : Comes p (p.against box).1 := by
  induction p generalizing box with
  | done a => exact .done a
  | round sends awaits next ih => exact .round _ (ih _ _)

/-- A program fails against a box as it may fail. -/
theorem FailsOnly.of_against {allowed : Error → Prop} {p : Protocol α} (h : FailsOnly allowed p)
    {box : List Delivery} {e : Error} (he : (p.run.against box).1 = .error e) : allowed e :=
  h e (he ▸ comes_against box p.run)

end Rounds

end Unknowns
