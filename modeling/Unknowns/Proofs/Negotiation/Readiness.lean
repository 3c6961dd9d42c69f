import Unknowns.Negotiation
import Unknowns.Proofs.World.Exchange

/-!
# Ranks agree that they are ready

Whatever the ranks bring to the agreement, they go through it in step, and each
gets its part of `agreed` (`inStep_agreeReady`).  `agreed_eq` says what that is:

* a rank that failed is told its own error;
* the others are told all ranks that failed;
* where none failed, fingerprints that differ are told to all, with the lowest
  rank whose fingerprint is not that of rank 0.

Either all ranks go on or none does (`agreed_eq_ok_iff`).
-/

namespace Unknowns

namespace Negotiation

open World

/-- What comes of the agreement at rank `r`, when rank `s` brings the outcome `own s` and the
fingerprint `fingerprint s`. -/
def agreed (n : Nat) (own : Nat → Except Error Unit) (fingerprint : Nat → UInt64) (check : Bool)
    (r : Nat) : Except Error Unit := do
  reserve n (Record.width Status)
  own r
  checkStatuses check ((List.range n).map fun s => Status.of (own s).isOk (fingerprint s))

/-- The ranks that bring an error, ascending. -/
def failed (n : Nat) (own : Nat → Except Error Unit) : List Nat :=
  (List.range n).filter fun r => !(own r).isOk

/-- The lowest rank whose fingerprint is not that of rank 0. -/
def differing? (n : Nat) (fingerprint : Nat → UInt64) : Option Nat :=
  (List.range n).findIdx? fun r => fingerprint r ≠ fingerprint 0

variable {n : Nat} {own : Nat → Except Error Unit} {fingerprint : Nat → UInt64} {check : Bool}

theorem agreeReady_eq (seat : Seat) (own : Except Error Unit) (word : UInt64) (check : Bool) :
    agreeReady seat own word check = (do
      Protocol.ofExcept (reserve seat.count (Record.width Status))
      let gathered ← gather seat (Record.encode (Status.of own.isOk word))
      Protocol.ofExcept own
      Protocol.ofExcept (checkStatuses check (Record.decodeMany seat.count gathered))) := by
  cases own <;> rfl

/-- **All ranks get through the agreement together**, whether or not all compare fields. -/
theorem inStep_agreeReady (n : Nat) (own : Nat → Except Error Unit) (fingerprint : Nat → UInt64)
    (check : Nat → Bool) :
    InStep n (fun r => (agreeReady (seat n r) (own r) (fingerprint r) (check r)).run)
      fun r => agreed n own fingerprint (check r) r := by
  simp only [agreeReady_eq]
  cases hroom : reserve n (Record.width Status) with
  | error e =>
    refine .done fun r hr => ?_
    rw [agreed, count_seat hr, hroom]
    rfl
  | ok _ =>
    have hreserve : Succeeds n
        (fun r => Protocol.ofExcept (reserve (seat n r).count (Record.width Status)))
        fun _ => () := succeeds_ofExcept fun r hr => by rw [count_seat hr, hroom]
    have hgather : Succeeds n (fun r => gather (seat n r)
        (Record.encode (Status.of (own r).isOk (fingerprint r)))) _ :=
      succeeds_gather fun r _ => LawfulRecord.length_encode _
    have hdecode := Record.decodeMany_encodeAll
      ((List.range n).map fun s => Status.of (own s).isOk (fingerprint s))
    rw [Record.encodeAll, List.flatMap_map, List.length_map, List.length_range] at hdecode
    refine hreserve.inStep_bind (f := fun r _ => do
      let gathered ← gather (seat n r) (Record.encode (Status.of (own r).isOk (fingerprint r)))
      Protocol.ofExcept (own r)
      Protocol.ofExcept (checkStatuses (check r) (Record.decodeMany (seat n r).count gathered)))
      (hgather.inStep_bind (.done fun r hr => ?_))
    rw [agreed, count_seat hr, hdecode, hroom]
    cases own r <;> rfl

/-! ### What comes of it -/

theorem mem_failed {r : Nat} : r ∈ failed n own ↔ r < n ∧ (own r).isOk = false := by
  simp [failed]

theorem differing?_eq_some_iff {r : Nat} :
    differing? n fingerprint = some r ↔
      r < n ∧ fingerprint r ≠ fingerprint 0 ∧ ∀ s < r, fingerprint s = fingerprint 0 := by
  simp [differing?, List.findIdx?_eq_some_iff_getElem, and_left_comm]

theorem differing?_eq_none_iff :
    differing? n fingerprint = none ↔ ∀ r < n, fingerprint r = fingerprint 0 := by
  simp [differing?, List.findIdx?_eq_none_iff]

theorem failed_statuses (n : Nat) (own : Nat → Except Error Unit) (fingerprint : Nat → UInt64) :
    ((((List.range n).map fun s => Status.of (own s).isOk (fingerprint s)).zipIdx.filter
      fun s => !s.1.isReady).map (·.2)) = failed n own := by
  have hzip : ((List.range n).map fun s => Status.of (own s).isOk (fingerprint s)).zipIdx =
      (List.range n).map fun s => (Status.of (own s).isOk (fingerprint s), s) :=
    List.ext_getElem (by simp) fun i _ _ => by simp
  have hid : ((fun p : Status × Nat => p.2) ∘
      fun s => (Status.of (own s).isOk (fingerprint s), s)) = id := rfl
  rw [hzip, List.filter_map, List.map_map, hid, List.map_id, failed]
  refine List.filter_congr fun s _ => ?_
  rw [Function.comp_apply]
  cases own s <;> rfl

theorem findIdx?_statuses (n : Nat) (own : Nat → Except Error Unit) (fingerprint : Nat → UInt64) :
    (((List.range n).map fun s => Status.of (own s).isOk (fingerprint s)).findIdx? fun s =>
      some s.fingerprint ≠ (((List.range n).map fun s =>
        Status.of (own s).isOk (fingerprint s)).head?).map (·.fingerprint)) =
      differing? n fingerprint := by
  cases n with
  | zero => rfl
  | succ n =>
    have hhead : (((List.range (n + 1)).map fun s =>
        Status.of (own s).isOk (fingerprint s)).head?).map (·.fingerprint) =
          some (fingerprint 0) := by
      rw [List.range_succ_eq_map]
      rfl
    rw [hhead, List.findIdx?_map, differing?]
    congr 1
    funext r
    simp [Status.of]

/-- The statuses tell whom the agreement has to name. -/
theorem checkStatuses_eq (n : Nat) (own : Nat → Except Error Unit) (fingerprint : Nat → UInt64)
    (check : Bool) :
    checkStatuses check ((List.range n).map fun s => Status.of (own s).isOk (fingerprint s)) =
      if failed n own ≠ [] then .error (.peerFailure (failed n own))
      else if check then
        match differing? n fingerprint with
        | some r => .error (.registrationMismatch r)
        | none => .ok ()
      else .ok () := by
  cases hdiffers : differing? n fingerprint <;>
    simp only [checkStatuses, failed_statuses, findIdx?_statuses, hdiffers]

/-- Where no fields differ, it does not matter whether they are compared. -/
theorem agreed_of_forall_eq (h : ∀ r < n, fingerprint r = fingerprint 0) (check' : Bool) (r : Nat) :
    agreed n own fingerprint check r = agreed n own fingerprint check' r := by
  rw [agreed, agreed, checkStatuses_eq, checkStatuses_eq, differing?_eq_none_iff.2 h, ite_self,
    ite_self]

/-- **What each rank is told.** -/
theorem agreed_eq (h : n * Record.width Status < memoryBound) (r : Nat) :
    agreed n own fingerprint check r =
      match own r with
      | .error e => .error e
      | .ok () =>
        if failed n own ≠ [] then .error (.peerFailure (failed n own))
        else if check then
          match differing? n fingerprint with
          | some d => .error (.registrationMismatch d)
          | none => .ok ()
        else .ok () := by
  rw [agreed, (reserve_eq_ok_iff n _).2 h, checkStatuses_eq]
  cases own r <;> rfl

/-- **Either all ranks go on or none does.** -/
theorem agreed_eq_ok_iff {r : Nat} (hr : r < n) :
    agreed n own fingerprint check r = .ok () ↔
      n * Record.width Status < memoryBound ∧ failed n own = [] ∧
        (check → differing? n fingerprint = none) := by
  by_cases hroom : n * Record.width Status < memoryBound
  · rw [agreed_eq hroom]
    cases hown : own r with
    | error e =>
      have hne : failed n own ≠ [] := List.ne_nil_of_mem (mem_failed.2 ⟨hr, by rw [hown]; rfl⟩)
      simp [hne]
    | ok _ =>
      by_cases hfailed : failed n own = []
      · cases check
        · simp [hroom, hfailed]
        · cases differing? n fingerprint <;> simp [hroom, hfailed]
      · simp [hfailed]
  · have herror : reserve n (Record.width Status) ≠ .ok () := fun h =>
      hroom ((reserve_eq_ok_iff n _).1 h)
    have hnone : agreed n own fingerprint check r ≠ .ok () := by
      rw [agreed]
      cases hreserve : reserve n (Record.width Status) with
      | error e => exact fun h => by cases h
      | ok _ => exact absurd hreserve herror
    simp [hroom, hnone]

end Negotiation

end Unknowns
