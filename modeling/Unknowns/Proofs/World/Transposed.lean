import Unknowns.Proofs.World.Course
import Unknowns.Proofs.World.Exchange

/-!
# Exchanges one after the other

All ranks exchange lists a number of times, always under the same two tags, which may
even be one.  What a rank has for others may depend on what came to it so far.
`Transposed` says that what comes is what goes out with sender and receiver changed
over.  The exchanges make up a course (`course_exchanges`), so this holds at every
pace, and no exchange takes a message of another one: `exchanges_transpose`.
-/

namespace Unknowns

namespace World

variable {ρ : Type}

/-- Every rank has just the non-empty lists that other ranks have for it, each under the rank that
has it. -/
def Transposed (n : Nat) (outgoing incoming : Nat → Table Nat (List ρ)) : Prop :=
  ∀ q < n, ∀ p records, (incoming q).get? p = some records ↔
    (p < n ∧ p ≠ q) ∧ records ≠ [] ∧ records = listFor (outgoing p) q

theorem transposed_incomingLists (n : Nat) (outgoing : Nat → Table Nat (List ρ)) :
    Transposed n outgoing (incomingLists n outgoing) := by
  intro q hq p records
  rw [← Table.mem_entries_iff]
  exact mem_entries_incomingLists hq

section
variable [Record ρ]

/-- What came of the exchanges of a rank so far. -/
abbrev Past (ρ : Type) := List (Except Error (Table Nat (List ρ)))

variable (n exchanges : Nat) (sizeTag dataTag : Tag) (outgoing : Nat → Past ρ → Table Nat (List ρ))

/-- What rank `r` does after its exchanges so far: the next of a number of exchanges. -/
def exchangePlan (r : Nat) (past : Past ρ) : Option (Rounds (Except Error (Table Nat (List ρ)))) :=
  if past.length < exchanges then
    some (exchangeLists (seat n r).peers sizeTag dataTag (outgoing r past)).run
  else none

omit [Record ρ] in
/-- What comes to rank `r` in its first exchanges. -/
def pastOf : Nat → Nat → Past ρ
  | 0, _ => []
  | e + 1, r => pastOf e r ++ [.ok (incomingLists n (fun s => outgoing s (pastOf e s)) r)]

/-- What comes to rank `r` in exchange `e`. -/
def incomingIn (e : Nat) : Nat → Table Nat (List ρ) :=
  incomingLists n fun s => outgoing s (pastOf n outgoing e s)

omit [Record ρ] in
theorem pastOf_eq (e r : Nat) :
    pastOf n outgoing e r = (List.range e).map fun i => .ok (incomingIn n outgoing i r) := by
  induction e with
  | zero => rfl
  | succ e ih =>
    rw [List.range_succ, List.map_append, ← ih]
    rfl

variable {n exchanges outgoing} [LawfulRecord ρ]

/-- The exchanges so far, as the first part of a course. -/
theorem course_exchanges
    (hcount : ∀ r < n, ∀ past : Past ρ, past.length < exchanges → ∀ d < n, r ≠ d →
      (listFor (outgoing r past) d).length < 2 ^ 32)
    {e : Nat} (he : e ≤ exchanges) {results : Nat → Past ρ}
    (hrest : Course n (exchangePlan n exchanges sizeTag dataTag outgoing) (pastOf n outgoing e)
      results) :
    Course n (exchangePlan n exchanges sizeTag dataTag outgoing) (fun _ => []) results := by
  induction e with
  | zero => exact hrest
  | succ e ih =>
    have hlength : ∀ r, (pastOf n outgoing e r).length < exchanges := fun r => by
      rw [pastOf_eq, List.length_map, List.length_range]
      exact he
    refine ih (by omega) (.turn (fun r _ => if_pos (hlength r)) ?_ (fun r _ => rfl) hrest)
    exact succeeds_exchangeLists sizeTag dataTag fun s hs d hd hne =>
      hcount s hs _ (hlength s) d hd hne

/-- **An exchange of lists is a transposition, and it stays one when it is repeated.**  All ranks of
a world exchange lists a number of times under the same two tags; to the others each list has fewer
than 2³² records.  Then there is something to come to every rank in every exchange, the transposition
of what goes out in it, such that of whatever the ranks do under a schedule the following holds.

* No schedule is longer than a bound, and as long as some rank has exchanges ahead of it, some rank
  can step.
* Whatever was taken from a channel is what was sent on it, in the same order, and in the same round
  of the same exchange.
* When all ranks have ended, all queues are empty, all exchanges have succeeded at all ranks, and
  each has what was to come to it. -/
theorem exchanges_transpose (n exchanges : Nat) (sizeTag dataTag : Tag)
    (outgoing : Nat → Past ρ → Table Nat (List ρ))
    (hcount : ∀ r < n, ∀ past : Past ρ, past.length < exchanges → ∀ d < n, r ≠ d →
      (listFor (outgoing r past) d).length < 2 ^ 32) :
    ∃ incoming : Nat → Nat → Table Nat (List ρ),
      let past (e r : Nat) : Past ρ := (List.range e).map fun i => .ok (incoming i r)
      (∀ e < exchanges, Transposed n (fun r => outgoing r (past e r)) (incoming e)) ∧
      ∃ bound, ∀ (schedule : List Nat) (s : Scene (Except Error (Table Nat (List ρ)))),
        (∀ r ∈ schedule, r < n) →
        (Scene.start (exchangePlan n exchanges sizeTag dataTag outgoing)).run?
          (exchangePlan n exchanges sizeTag dataTag outgoing) schedule = some s →
        schedule.length ≤ bound ∧
        ((∃ r < n, ¬(s.worker r).Ended) →
          ∃ r < n, (s.step? (exchangePlan n exchanges sizeTag dataTag outgoing) r).isSome) ∧
        s.Balanced ∧ s.Faithful n ∧
        ((∀ r < n, (s.worker r).Ended) →
          (∀ c, s.queue c = []) ∧ ∀ r < n, (s.worker r).past = past exchanges r) := by
  refine ⟨incomingIn n outgoing, ?_⟩
  simp only [← pastOf_eq]
  refine ⟨fun e _ => transposed_incomingLists n _, Course.interleaved ?_⟩
  refine course_exchanges sizeTag dataTag hcount (Nat.le_refl exchanges)
    (.done (fun r _ => if_neg ?_) fun _ _ => rfl)
  rw [pastOf_eq, List.length_map, List.length_range]
  exact Nat.lt_irrefl exchanges

end

/-- A rank has copies of its number for itself and the next two ranks: one more than its number, and
one more with every exchange. -/
def upward (r : Nat) (past : Past GidRecord) : Table Nat (List GidRecord) :=
  Table.tabulate [r, r + 1, r + 2] fun _ =>
    List.replicate (r + 1 + past.length) (.ofGid? (some (.ofNat r)))

theorem length_upward_le (r : Nat) (past : Past GidRecord) (d : Nat) :
    (listFor (upward r past) d).length ≤ r + 1 + past.length := by
  rw [listFor, upward, Table.get?_tabulate]
  split <;> simp

/-- Three ranks exchange such copies twice. -/
theorem exchanges_transpose_upward :
    (∀ r < 3, ∀ past : Past GidRecord, past.length < 2 → ∀ d < 3, r ≠ d →
      (listFor (upward r past) d).length < 2 ^ 32) ∧
    ∃ incoming : Nat → Nat → Table Nat (List GidRecord),
      (incoming 0 2).get? 1 = some (.replicate 2 (.ofGid? (some 1))) ∧
      (incoming 1 2).get? 1 = some (.replicate 3 (.ofGid? (some 1))) ∧
      (incoming 1 2).get? 2 = none ∧
      ∃ bound, ∀ (schedule : List Nat) (s : Scene (Except Error (Table Nat (List GidRecord)))),
        (∀ r ∈ schedule, r < 3) →
        (Scene.start (exchangePlan 3 2 10 11 upward)).run? (exchangePlan 3 2 10 11 upward) schedule =
          some s →
        schedule.length ≤ bound ∧
        ((∀ r < 3, (s.worker r).Ended) →
          ∀ r < 3, (s.worker r).past = [.ok (incoming 0 r), .ok (incoming 1 r)]) := by
  have hcount : ∀ r < 3, ∀ past : Past GidRecord, past.length < 2 → ∀ d < 3, r ≠ d →
      (listFor (upward r past) d).length < 2 ^ 32 := by
    intro r hr past hpast d _ _
    have hle := length_upward_le r past d
    omega
  obtain ⟨incoming, htransposed, bound, hbound⟩ := exchanges_transpose 3 2 10 11 upward hcount
  have hfirst := htransposed 0 (by decide) 2 (by decide)
  have hsecond := htransposed 1 (by decide) 2 (by decide)
  refine ⟨hcount, incoming, (hfirst 1 _).2 ⟨by decide, by decide, rfl⟩,
    (hsecond 1 _).2 ⟨by decide, by decide, rfl⟩, ?_, bound, fun schedule s hschedule hs => ?_⟩
  · exact Option.eq_none_iff_forall_ne_some.2 fun records h =>
      ((hsecond 2 records).1 h).1.2 rfl
  · obtain ⟨hlength, -, -, -, hend⟩ := hbound schedule s hschedule hs
    exact ⟨hlength, fun hended => (hend hended).2⟩

end World

end Unknowns
