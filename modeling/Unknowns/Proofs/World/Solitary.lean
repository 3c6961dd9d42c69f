import Unknowns.Proofs.World.Exchange

/-!
# A rank that is alone

In a world of one rank there are no peers, so no round sends or awaits anything
(`Rounds.Quiet`).  Such a program does in the world what it does alone
(`Rounds.Quiet.run_eq`), and it does not matter whether the rank can talk.  What it
comes to is found part by part (`Rounds.alone_bind`).
-/

namespace Unknowns

namespace Rounds

variable {α β : Type}

/-- No round of the program sends or awaits a message. -/
inductive Quiet : Rounds α → Prop
  | done (a : α) : Quiet (done a)
  | round {next : List (Option Payload) → Rounds α} (h : Quiet (next [])) :
    Quiet (round [] [] next)

namespace Quiet

theorem bind {p : Rounds α} {f : α → Rounds β} (h : Quiet p) (hf : ∀ a, Quiet (f a)) :
    Quiet (p >>= f) := by
  induction h with
  | done a => exact hf a
  | round _ ih => exact .round ih

/-- **A quiet program runs in the world of one rank as it runs alone.** -/
theorem run_eq {p : Rounds α} (h : Quiet p) (box : Mailbox) :
    World.run box [p] = some ([p.alone], box) := by
  induction h with
  | done a => rfl
  | @round next _ ih =>
    have hpost : Mailbox.post box 0 [] = box := List.append_nil box
    simp only [World.run, World.runFrom, World.postAll, hpost, Mailbox.takeAll?, World.advanceAll?,
      alone, List.map_nil]
    exact ih

theorem protocol_bind {p : Protocol α} {f : α → Protocol β} (h : Quiet p.run)
    (hf : ∀ a, Quiet (f a).run) : Quiet (p >>= f).run := by
  refine h.bind fun a => ?_
  cases a with
  | ok a => exact hf a
  | error e => exact .done (Except.error e)

theorem ofExcept (e : Except Error α) : Quiet (Protocol.ofExcept e).run := .done e

end Quiet

/-! ### Exchanges without peers -/

theorem quiet_exchangeSizes (tag : Tag) (counts : Table Nat Nat) :
    Quiet (exchangeSizes [] tag counts).run := .round (.done _)

theorem quiet_exchangeRecords {ρ : Type} [Record ρ] (tag : Tag) (outgoing : Table Nat (List ρ))
    (expected : Table Nat Nat) : Quiet (exchangeRecords [] tag outgoing expected).run :=
  .round (.done _)

theorem quiet_exchangeLists {ρ : Type} [Record ρ] (sizeTag dataTag : Tag)
    (outgoing : Table Nat (List ρ)) : Quiet (exchangeLists [] sizeTag dataTag outgoing).run :=
  .protocol_bind (quiet_exchangeSizes ..) fun _ => quiet_exchangeRecords ..

theorem quiet_gather (own : Payload) : Quiet (gather (World.seat 1 0) own).run := by
  have hone : (World.seat 1 0).count = 1 ∨ (World.seat 1 0).serial = true := Or.inl rfl
  rw [gather, if_neg (World.not_astray Nat.one_pos own), if_pos hone]
  exact .done _

/-- Alone it does not matter whether the rank can talk. -/
theorem gather_solitary : gather Seat.solitary = gather (World.seat 1 0) := by
  funext own
  have hstray : ¬(own.length > 0 ∧ Seat.solitary.count ≤ Seat.solitary.rank) :=
    World.not_astray Nat.one_pos own
  have hserial : Seat.solitary.count = 1 ∨ Seat.solitary.serial = true := Or.inl rfl
  have hone : (World.seat 1 0).count = 1 ∨ (World.seat 1 0).serial = true := Or.inl rfl
  rw [gather, gather, if_neg hstray, if_neg (World.not_astray Nat.one_pos own), if_pos hserial,
    if_pos hone]
  rfl

/-! ### The outcome, part by part -/

theorem alone_bind (p : Rounds α) (f : α → Rounds β) : (p >>= f).alone = (f p.alone).alone := by
  induction p with
  | done a => rfl
  | round sends awaits next ih => exact ih _

theorem alone_protocol_bind (p : Protocol α) (f : α → Protocol β) :
    (p >>= f).run.alone = p.run.alone >>= fun a => (f a).run.alone := by
  refine (alone_bind p.run (ExceptT.bindCont f)).trans ?_
  cases p.run.alone <;> rfl

/-- A program whose first part succeeds goes on with what comes of it. -/
theorem alone_protocol_bind_ok {p : Protocol α} {f : α → Protocol β} {a : α}
    (h : p.run.alone = .ok a) : (p >>= f).run.alone = (f a).run.alone := by
  rw [alone_protocol_bind, h]
  rfl

/-- What comes of a world of one rank comes of the rank alone. -/
theorem Quiet.alone_of_run {p : Rounds α} {a : α} (h : Quiet p) {box box' : Mailbox}
    (hrun : World.run box [p] = some ([a], box')) : p.alone = a :=
  (List.cons.inj (Prod.mk.inj (Option.some.inj ((h.run_eq box).symm.trans hrun))).1).1

theorem Quiet.alone_eq {p : Nat → Rounds α} {a : Nat → α} (h : Quiet (p 0))
    (hp : World.InStep 1 p a) : (p 0).alone = a 0 :=
  h.alone_of_run hp.run_eq

end Rounds

end Unknowns
