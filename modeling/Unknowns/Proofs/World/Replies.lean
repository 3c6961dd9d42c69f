import Mathlib.Data.List.Forall2
import Unknowns.Comm.World

/-!
# A program and its peers

One rank cannot tell what its peers do: in every round anything may come, or
nothing.  `Rounds.Comes p a` says that the program `p` ends with `a` when some
replies come, whatever these are, so that what holds of all such results holds in
every world.

* `Rounds.comes_bind_iff`: what a program comes to, part by part;
* `Rounds.FailsOnly`: which errors it may come to;
* `World.comes_of_run`: what ranks that run together come to is one of these results;
* `World.run_map`: what is made of the results does not matter to the run.
-/

namespace Unknowns

namespace Rounds

variable {α β γ : Type}

/-- A program ends with a result when some replies come. -/
inductive Comes : Rounds α → α → Prop
  | done (a : α) : Comes (done a) a
  | round {sends : List Outgoing} {awaits : List Awaited}
      {next : List (Option Payload) → Rounds α} {a : α} (replies : List (Option Payload))
      (h : Comes (next replies) a) : Comes (round sends awaits next) a

theorem comes_done_iff {a b : α} : Comes (done a) b ↔ b = a := by
  constructor
  · rintro ⟨⟩
    rfl
  · rintro rfl
    exact .done b

/-- **Part by part.** -/
theorem comes_bind_iff {p : Rounds α} {f : α → Rounds β} {b : β} :
    Comes (p >>= f) b ↔ ∃ a, Comes p a ∧ Comes (f a) b := by
  constructor
  · intro h
    induction p with
    | done a => exact ⟨a, .done a, h⟩
    | round sends awaits next ih =>
      cases h with
      | round replies h =>
        obtain ⟨a, ha, hb⟩ := ih replies h
        exact ⟨a, .round replies ha, hb⟩
  · rintro ⟨a, ha, hb⟩
    induction ha with
    | done _ => exact hb
    | round replies _ ih => exact .round replies (ih hb)

/-- A program that may fail succeeds if both of its parts do. -/
theorem comes_ok_bind_iff {p : Protocol α} {f : α → Protocol β} {b : β} :
    Comes (p >>= f).run (.ok b) ↔ ∃ a, Comes p.run (.ok a) ∧ Comes (f a).run (.ok b) := by
  refine comes_bind_iff.trans ⟨?_, fun ⟨a, ha, hb⟩ => ⟨.ok a, ha, hb⟩⟩
  rintro ⟨x, hx, hb⟩
  cases x with
  | ok a => exact ⟨a, hx, hb⟩
  | error e => cases hb

/-- The program ends with no other errors than those that are allowed, whatever replies come. -/
def FailsOnly (allowed : Error → Prop) (p : Protocol α) : Prop :=
  ∀ e, Comes p.run (.error e) → allowed e

/-- Errors come from the parts. -/
theorem FailsOnly.bind {allowed : Error → Prop} {p : Protocol α} {f : α → Protocol β}
    (hp : FailsOnly allowed p) (hf : ∀ a, FailsOnly allowed (f a)) : FailsOnly allowed (p >>= f) := by
  intro e h
  obtain ⟨x, hx, he⟩ := comes_bind_iff.1 h
  cases x with
  | ok a => exact hf a e he
  | error e' =>
    obtain rfl : e = e' := Except.error.inj (comes_done_iff.1 he)
    exact hp e hx

theorem failsOnly_ofExcept {allowed : Error → Prop} {x : Except Error α}
    (h : ∀ e, x = .error e → allowed e) : FailsOnly allowed (Protocol.ofExcept x) :=
  fun e he => h e (comes_done_iff.1 he).symm

theorem failsOnly_pure (allowed : Error → Prop) (a : α) : FailsOnly allowed (pure a) :=
  fun _ he => nomatch comes_done_iff.1 he

/-- A round of messages does not fail by itself. -/
theorem failsOnly_rounds (allowed : Error → Prop) (p : Rounds α) :
    FailsOnly allowed (p : Protocol α) := by
  intro e h
  obtain ⟨a, -, ha⟩ := comes_bind_iff.1 h
  exact nomatch comes_done_iff.1 ha

theorem bind_assoc (p : Rounds α) (f : α → Rounds β) (g : β → Rounds γ) :
    (p.bind f).bind g = p.bind fun a => (f a).bind g := by
  induction p with
  | done a => rfl
  | round sends awaits next ih =>
    simp only [bind]
    exact congrArg _ (funext ih)

/-- What is made of the result of a program. -/
def made (p : Rounds α) (f : α → β) : Rounds β := p.bind fun a => done (f a)

@[simp] theorem made_done (a : α) (f : α → β) : (done a).made f = done (f a) := rfl

@[simp] theorem made_round (sends : List Outgoing) (awaits : List Awaited)
    (next : List (Option Payload) → Rounds α) (f : α → β) :
    (round sends awaits next).made f = round sends awaits fun replies => (next replies).made f := rfl

end Rounds

namespace World

open Rounds

variable {α β : Type}

theorem comes_of_results? {programs : List (Rounds α)} {results : List α}
    (h : results? programs = some results) : List.Forall₂ Comes programs results := by
  induction programs generalizing results with
  | nil =>
    obtain rfl : [] = results := Option.some.inj h
    exact .nil
  | cons p programs ih =>
    cases p with
    | done a =>
      obtain ⟨as, has, rfl⟩ := Option.map_eq_some_iff.1 h
      exact .cons (.done a) (ih has)
    | round _ _ _ => cases h

/-- Programs come to whatever they come to after a round. -/
theorem comes_of_advanceAll? {rank : Nat} {box box' : Mailbox} {programs rest : List (Rounds α)}
    {results : List α} (h : advanceAll? rank box programs = some (rest, box'))
    (hrest : List.Forall₂ Comes rest results) : List.Forall₂ Comes programs results := by
  induction programs generalizing rank box rest results with
  | nil =>
    obtain ⟨rfl, rfl⟩ := Prod.mk.inj (Option.some.inj h)
    exact hrest
  | cons p programs ih =>
    cases p with
    | done a => cases h
    | round sends awaits next =>
      obtain ⟨⟨replies, box₁⟩, -, h⟩ := Option.bind_eq_some_iff.1 h
      obtain ⟨⟨others, box₂⟩, hothers, h⟩ := Option.bind_eq_some_iff.1 h
      obtain ⟨rfl, rfl⟩ := Prod.mk.inj (Option.some.inj h)
      cases hrest with
      | cons ha has => exact .cons (.round replies ha) (ih hothers has)

theorem comes_of_runFrom {box box' : Mailbox} {p : Rounds α} {others : List (Rounds α)}
    {results : List α} (h : runFrom box p others = some (results, box')) :
    List.Forall₂ Comes (p :: others) results := by
  induction p generalizing box others with
  | done a =>
    obtain ⟨as, has, h⟩ := Option.map_eq_some_iff.1 h
    obtain ⟨rfl, -⟩ := Prod.mk.inj h
    exact .cons (.done a) (comes_of_results? has)
  | round sends awaits next ih =>
    obtain ⟨⟨replies, box₁⟩, -, h⟩ := Option.bind_eq_some_iff.1 h
    obtain ⟨⟨rest, box₂⟩, hrest, h⟩ := Option.bind_eq_some_iff.1 h
    cases ih replies h with
    | cons ha has => exact .cons (.round replies ha) (comes_of_advanceAll? hrest has)

/-- **What ranks that run together come to** is what each of them may come to. -/
theorem comes_of_run {box box' : Mailbox} {programs : List (Rounds α)} {results : List α}
    (h : run box programs = some (results, box')) : List.Forall₂ Comes programs results := by
  cases programs with
  | nil =>
    obtain ⟨rfl, -⟩ := Prod.mk.inj (Option.some.inj h)
    exact .nil
  | cons p others => exact comes_of_runFrom h

/-- The same rank by rank. -/
theorem comes_of_run_range {n : Nat} {p : Nat → Rounds α} {box box' : Mailbox} {results : List α}
    (h : run box ((List.range n).map p) = some (results, box')) :
    results.length = n ∧ ∀ r a, results[r]? = some a → r < n ∧ Comes (p r) a := by
  obtain ⟨hlength, hget⟩ := List.forall₂_iff_get.1 (comes_of_run h)
  rw [List.length_map, List.length_range] at hlength
  refine ⟨hlength.symm, fun r a ha => ?_⟩
  obtain ⟨hr, rfl⟩ := List.getElem?_eq_some_iff.1 ha
  have hcomes := hget r (by simpa using hlength ▸ hr) hr
  simp only [List.get_eq_getElem, List.getElem_map, List.getElem_range] at hcomes
  exact ⟨hlength ▸ hr, hcomes⟩

/-! ### What is made of results -/

variable (f : α → β)

theorem postAll_map (rank : Nat) (box : Mailbox) (programs : List (Rounds α)) :
    postAll rank box (programs.map (made · f)) = postAll rank box programs := by
  induction programs generalizing rank box with
  | nil => rfl
  | cons p programs ih => cases p <;> exact ih ..

theorem results?_map (programs : List (Rounds α)) :
    results? (programs.map (made · f)) = (results? programs).map (List.map f) := by
  induction programs with
  | nil => rfl
  | cons p programs ih =>
    cases p with
    | done a =>
      show (results? (programs.map (made · f))).map _ = ((results? programs).map _).map _
      rw [ih, Option.map_map, Option.map_map]
      rfl
    | round _ _ _ => rfl

theorem advanceAll?_map (rank : Nat) (box : Mailbox) (programs : List (Rounds α)) :
    advanceAll? rank box (programs.map (made · f)) =
      (advanceAll? rank box programs).map fun x => (x.1.map (made · f), x.2) := by
  induction programs generalizing rank box with
  | nil => rfl
  | cons p programs ih =>
    cases p with
    | done a => rfl
    | round sends awaits next =>
      simp only [List.map_cons, made_round, advanceAll?, Option.bind_eq_bind]
      cases Mailbox.takeAll? rank awaits box with
      | none => rfl
      | some taken =>
        simp only [Option.bind_some, ih]
        cases advanceAll? (rank + 1) taken.2 programs <;> rfl

theorem runFrom_map (box : Mailbox) (p : Rounds α) (others : List (Rounds α)) :
    runFrom box (made p f) (others.map (made · f)) =
      (runFrom box p others).map fun x => (x.1.map f, x.2) := by
  -- The run goes by the program of the first rank, and so does the induction.
  induction p generalizing box others with
  | done a =>
    simp only [made_done, runFrom, results?_map, Option.map_map]
    rfl
  | round sends awaits next ih =>
    simp only [made_round, runFrom, Option.bind_eq_bind, postAll_map]
    cases Mailbox.takeAll? 0 awaits (postAll 1 (Mailbox.post box 0 sends) others) with
    | none => rfl
    | some taken =>
      simp only [Option.bind_some, advanceAll?_map]
      cases advanceAll? 1 taken.2 others with
      | none => rfl
      | some rest => exact ih ..

/-- **What is made of the results does not matter to the run.** -/
theorem run_map (box : Mailbox) (programs : List (Rounds α)) :
    run box (programs.map (made · f)) = (run box programs).map fun x => (x.1.map f, x.2) := by
  cases programs with
  | nil => rfl
  | cons p others => exact runFrom_map f box p others

end World

end Unknowns
