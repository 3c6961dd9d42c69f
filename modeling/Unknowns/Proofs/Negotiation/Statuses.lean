import Unknowns.Proofs.Negotiation.Readiness
import Unknowns.Proofs.World.Arrivals

/-!
# What a status has to say

Before the ranks negotiate they send each other a status, and what a peer sends in its
place may be any bytes or nothing.  `Endorsed` is what one expects of a status that lets
a rank go on: a complete record of the present version from a rank that is ready, whose
fingerprint is the same where that is checked.

The agreement asks for less.  A message is cut or filled up with zeros, which changes no
word of it (`wordAt_fitTo`), and of its words only readiness and fingerprint are looked at:
`agreeReady_eq_ok_iff`.  A missing message does not let a rank go on, and neither does one
that ends before its ready word.  But a message of another version does, and so do messages
that are too short or too long: `agreeReady_takes_strangers`.
-/

namespace Unknowns

/-! ### Cut and filled up -/

theorem readBytes_replicate_zero (k : Nat) : readBytes (List.replicate k 0) = 0 := by
  induction k with
  | zero => rfl
  | succ k ih => rw [List.replicate_succ, readBytes, ih]; rfl

/-- High bytes that are zero do not count. -/
theorem readBytes_append_zeros (bytes : Payload) (k : Nat) :
    readBytes (bytes ++ List.replicate k 0) = readBytes bytes := by
  induction bytes with
  | nil => exact readBytes_replicate_zero k
  | cons b bytes ih => rw [List.cons_append, readBytes, ih, readBytes]

/-- **Words are not changed when bytes are cut behind them or zeros are added.** -/
theorem wordAt_fitTo {start width length : Nat} (h : start + width ≤ length)
    (reply : Option Payload) :
    wordAt (fitTo length reply) start width = wordAt (reply.getD []) start width := by
  have hcut : min width (length - start) = width := by omega
  simp only [wordAt, fitTo, List.drop_append, List.take_append, List.drop_replicate,
    List.take_replicate, readBytes_append_zeros, List.drop_take, List.take_take, hcut]

namespace Status

/-- A status is read as if nothing had been cut and no zeros added. -/
theorem decode_fitTo (reply : Option Payload) :
    (Record.decode (fitTo (Record.width Status) reply) : Status) =
      Record.decode (reply.getD []) := by
  have hword : ∀ start width, start + width ≤ 16 →
      wordAt (fitTo (Record.width Status) reply) start width =
        wordAt (reply.getD []) start width := fun _ _ h => wordAt_fitTo h reply
  simp only [Record.decode]
  rw [hword 0 2 (by decide), hword 2 2 (by decide), hword 4 4 (by decide), hword 8 8 (by decide)]

/-- Bytes that end before the ready word do not say that a rank is ready. -/
theorem not_isReady_of_length {bytes : Payload} (h : bytes.length ≤ 2) :
    (Record.decode bytes : Status).isReady = false := by
  have hnil : bytes.drop 2 = [] := List.drop_eq_nil_of_le h
  have hready : (Record.decode bytes : Status).ready = .ofNat (wordAt bytes 2 2) := rfl
  rw [isReady, hready, wordAt, hnil]
  rfl

end Status

namespace Negotiation

open World Rounds

/-- The message is a complete status of the present version. -/
def Intact (bytes : Payload) : Prop :=
  bytes.length = Record.width Status ∧ (Record.decode bytes : Status).version = wireVersion

/-- The message says that its sender is ready and, where that is checked, that it has the same
fingerprint; words that have not come count as zero. -/
def Agrees (check : Bool) (fingerprint : UInt64) (bytes : Payload) : Prop :=
  (Record.decode bytes : Status).isReady ∧
    (check → (Record.decode bytes : Status).fingerprint = fingerprint)

instance (bytes : Payload) : Decidable (Intact bytes) := inferInstanceAs (Decidable (_ ∧ _))

instance (check : Bool) (fingerprint : UInt64) (bytes : Payload) :
    Decidable (Agrees check fingerprint bytes) := inferInstanceAs (Decidable (_ ∧ (_ → _)))

/-- What one expects of a message that lets a rank go on. -/
def Endorsed (check : Bool) (fingerprint : UInt64) (reply : Option Payload) : Prop :=
  ∃ bytes, reply = some bytes ∧ Intact bytes ∧ Agrees check fingerprint bytes

/-! ### The statuses of all ranks -/

/-- Statuses are in order if all ranks are ready and, where that is checked, all fingerprints are
that of the first one. -/
theorem checkStatuses_eq_ok_iff {check : Bool} {statuses : List Status} :
    checkStatuses check statuses = .ok () ↔
      (∀ s ∈ statuses, s.isReady) ∧
        (check → ∀ s ∈ statuses, some s.fingerprint = statuses.head?.map (·.fingerprint)) := by
  have hfailed : ((statuses.zipIdx.filter fun s => !s.1.isReady).map (·.2)) = [] ↔
      ∀ s ∈ statuses, s.isReady := by
    rw [List.map_eq_nil_iff, List.filter_eq_nil_iff]
    simp only [Bool.not_eq_true', Bool.not_eq_false]
    constructor
    · intro h s hs
      obtain ⟨i, hi⟩ := List.mem_iff_getElem?.1 hs
      exact h (s, i) (List.mk_mem_zipIdx_iff_getElem?.2 hi)
    · rintro h ⟨s, i⟩ hs
      exact h s (List.mem_of_getElem? (List.mk_mem_zipIdx_iff_getElem?.1 hs))
  have hdiffers : (statuses.findIdx? fun s =>
      some s.fingerprint ≠ statuses.head?.map (·.fingerprint)) = none ↔
        ∀ s ∈ statuses, some s.fingerprint = statuses.head?.map (·.fingerprint) := by
    simp [List.findIdx?_eq_none_iff]
  rw [← hfailed, ← hdiffers]
  by_cases hnil : (statuses.zipIdx.filter fun s => !s.1.isReady).map (·.2) = []
  · cases check with
    | false => simp [checkStatuses, hnil]
    | true =>
      cases hfirst : statuses.findIdx? fun s =>
          some s.fingerprint ≠ statuses.head?.map (·.fingerprint) with
      | none => simp only [checkStatuses, hnil, hfirst]; simp
      | some r => simp only [checkStatuses, hnil, hfirst]; simp
  · simp [checkStatuses, hnil]

/-- Values are all that of the first one just if they are all that of any one. -/
theorem forall_eq_head_iff {α β : Type} [DecidableEq β] {xs : List α} {x : α} (hx : x ∈ xs)
    (f : α → β) : (∀ y ∈ xs, some (f y) = xs.head?.map f) ↔ ∀ y ∈ xs, f y = f x := by
  obtain ⟨z, zs, rfl⟩ := List.exists_cons_of_ne_nil (List.ne_nil_of_mem hx)
  simp only [List.head?_cons, Option.map_some, Option.some.injEq]
  constructor
  · exact fun h y hy => (h y hy).trans (h x hx).symm
  · exact fun h y hy => (h y hy).trans (h z (List.mem_cons_self ..)).symm

/-- The status of rank `p` as rank `r` reads it. -/
def statusOf (box : List Delivery) (r : Nat) (fingerprint : UInt64) (p : Nat) : Status :=
  Record.decode (slot box r (Record.encode (Status.of true fingerprint)) p)

theorem statusOf_self (box : List Delivery) (r : Nat) (fingerprint : UInt64) :
    statusOf box r fingerprint r = Status.of true fingerprint := by
  rw [statusOf, slot, if_pos rfl, LawfulRecord.decode_encode]

theorem statusOf_peer (box : List Delivery) {r p : Nat} (hp : p ≠ r) (fingerprint : UInt64) :
    statusOf box r fingerprint p = Record.decode ((arrival box ⟨p, gatherTag⟩).getD []) := by
  rw [statusOf, slot, if_neg hp, LawfulRecord.length_encode, Status.decode_fitTo]

/-- A ready rank goes on as the statuses tell it, if there is room for them. -/
theorem against_agreeReady {n r : Nat} (hr : r < n) (box : List Delivery) (fingerprint : UInt64)
    (check : Bool) :
    ((agreeReady (seat n r) (.ok ()) fingerprint check).run.against box).1 = .ok () ↔
      n * Record.width Status < memoryBound ∧
        checkStatuses check ((List.range n).map (statusOf box r fingerprint)) = .ok () := by
  have hgather := against_gather hr box (Record.encode (Status.of true fingerprint))
  have hwidth : ∀ p ∈ List.range n,
      (slot box r (Record.encode (Status.of true fingerprint)) p).length = Record.width Status :=
    fun p _ => (length_slot ..).trans (LawfulRecord.length_encode _)
  have hdecode := Record.decodeMany_flatMap hwidth
  rw [List.length_range] at hdecode
  rw [agreeReady_eq, count_seat hr, ← reserve_eq_ok_iff]
  have hreserve : ((Protocol.ofExcept (reserve n (Record.width Status))).run.against box).1 =
      reserve n (Record.width Status) := rfl
  cases hroom : reserve n (Record.width Status) with
  | error e =>
    rw [hroom] at hreserve
    rw [against_bind_error hreserve]
    exact iff_of_false nofun fun h => nomatch h.1
  | ok _ =>
    rw [hroom] at hreserve
    rw [against_bind_ok hreserve, and_iff_right rfl]
    show ((gather (seat n r) (Record.encode (Status.of true fingerprint)) >>= _).run.against
      box).1 = _ ↔ _
    rw [against_bind_ok hgather]
    show checkStatuses check (Record.decodeMany n _) = _ ↔ _
    rw [hdecode]
    rfl

/-- **Only readiness and fingerprint of what came are looked at.** -/
theorem agreeReady_eq_ok_iff {n r : Nat} (hr : r < n) (box : List Delivery) (fingerprint : UInt64)
    (check : Bool) :
    ((agreeReady (seat n r) (.ok ()) fingerprint check).run.against box).1 = .ok () ↔
      n * Record.width Status < memoryBound ∧ ∀ p < n, p ≠ r →
        ∃ bytes, arrival box ⟨p, gatherTag⟩ = some bytes ∧ Agrees check fingerprint bytes := by
  have hself := statusOf_self box r fingerprint
  have hmem : statusOf box r fingerprint r ∈ (List.range n).map (statusOf box r fingerprint) :=
    List.mem_map_of_mem (List.mem_range.2 hr)
  rw [against_agreeReady hr, checkStatuses_eq_ok_iff, forall_eq_head_iff hmem Status.fingerprint,
    hself]
  simp only [List.forall_mem_map, List.mem_range]
  refine and_congr_right fun _ => ⟨fun ⟨hready, hsame⟩ p hp hne => ?_, fun h => ⟨?_, ?_⟩⟩
  · have hstatus := statusOf_peer box hne fingerprint
    have hready := hready p hp
    have hsame := fun hcheck => hsame hcheck p hp
    rw [hstatus] at hready hsame
    cases hcame : arrival box ⟨p, gatherTag⟩ with
    | none =>
      have hnil : ([] : Payload).length ≤ 2 := Nat.zero_le 2
      rw [hcame, Option.getD_none, Status.not_isReady_of_length hnil] at hready
      cases hready
    | some bytes =>
      rw [hcame] at hready hsame
      exact ⟨bytes, rfl, hready, hsame⟩
  · intro p hp
    by_cases hne : p = r
    · rw [hne, hself]
      rfl
    · obtain ⟨bytes, hcame, hready, -⟩ := h p hp hne
      rw [statusOf_peer box hne, hcame]
      exact hready
  · intro hcheck p hp
    by_cases hne : p = r
    · rw [hne, hself]
    · obtain ⟨bytes, hcame, -, hsame⟩ := h p hp hne
      rw [statusOf_peer box hne, hcame]
      exact hsame hcheck

/-- **When a ready rank goes on**, whatever its peers send in place of their statuses.

* It goes on just if there is room for the statuses, and something came from every peer of which the
  ready word says ready and, where that is checked, the fingerprint word is its own fingerprint.
* Where nothing came that is not a complete status of the present version, it goes on just if there
  is room and every peer has sent one that says so.
* It does not go on where nothing came from some peer, or no more than two bytes. -/
theorem ready_rank_goes_on_iff {n r : Nat} (hr : r < n) (box : List Delivery) (fingerprint : UInt64)
    (check : Bool) :
    let outcome := ((agreeReady (seat n r) (.ok ()) fingerprint check).run.against box).1
    (outcome = .ok () ↔
      n * Record.width Status < memoryBound ∧ ∀ p < n, p ≠ r →
        ∃ bytes, arrival box ⟨p, gatherTag⟩ = some bytes ∧ Agrees check fingerprint bytes) ∧
    ((∀ p < n, p ≠ r → ∀ bytes, arrival box ⟨p, gatherTag⟩ = some bytes → Intact bytes) →
      (outcome = .ok () ↔
        n * Record.width Status < memoryBound ∧ ∀ p < n, p ≠ r →
          Endorsed check fingerprint (arrival box ⟨p, gatherTag⟩))) ∧
    ∀ p < n, p ≠ r →
      (∀ bytes, arrival box ⟨p, gatherTag⟩ = some bytes → bytes.length ≤ 2) → outcome ≠ .ok () := by
  have hiff := agreeReady_eq_ok_iff hr box fingerprint check
  refine ⟨hiff, fun hintact => hiff.trans (and_congr_right fun _ =>
    forall_congr' fun p => forall_congr' fun hp => forall_congr' fun hne =>
      exists_congr fun bytes => ?_), fun p hp hne hshort hok => ?_⟩
  · exact and_congr_right fun hcame => (and_iff_right (hintact p hp hne bytes hcame)).symm
  · obtain ⟨bytes, hcame, hready, -⟩ := (hiff.1 hok).2 p hp hne
    rw [Status.not_isReady_of_length (hshort bytes hcame)] at hready
    cases hready

/-- Two ranks, of which the other one sends a complete status. -/
theorem ready_rank_goes_on_pair :
    0 < 2 ∧ ((agreeReady (seat 2 0) (.ok ()) 5 true).run.against
      [⟨1, gatherTag, some (Record.encode (Status.of true 5))⟩]).1 = .ok () := by
  have hr : 0 < 2 := by decide
  refine ⟨hr, (ready_rank_goes_on_iff hr _ 5 true).1.2 ⟨by decide, fun p hp hne => ?_⟩⟩
  obtain rfl : p = 1 := by omega
  exact ⟨_, rfl, by decide⟩

/-- Rank 0 of two goes on where this comes from the other one, although it is no complete status of
the present version that says so. -/
def WronglyTaken (bytes : Payload) : Prop :=
  ((agreeReady (seat 2 0) (.ok ()) 0 true).run.against [⟨1, gatherTag, some bytes⟩]).1 = .ok () ∧
    ¬Endorsed true 0 (arrival [⟨1, gatherTag, some bytes⟩] ⟨1, gatherTag⟩)

theorem wronglyTaken {bytes : Payload} (hagrees : Agrees true 0 bytes) (hstrange : ¬Intact bytes) :
    WronglyTaken bytes := by
  have hcame : arrival [⟨1, gatherTag, some bytes⟩] ⟨1, gatherTag⟩ = some bytes := rfl
  refine ⟨(agreeReady_eq_ok_iff (by decide) _ 0 true).2 ⟨by decide, fun p hp hne => ?_⟩, ?_⟩
  · obtain rfl : p = 1 := by omega
    exact ⟨bytes, hcame, hagrees⟩
  · rw [hcame]
    rintro ⟨_, ⟨⟩, hintact, -⟩
    exact hstrange hintact

/-- A status of version 2, one of which only three bytes came and one that something follows are
taken, also where fingerprints are checked. -/
theorem agreeReady_takes_strangers :
    WronglyTaken (Record.encode (⟨2, 1, 0, 0⟩ : Status)) ∧ WronglyTaken [1, 0, 1] ∧
      WronglyTaken (Record.encode (Status.of true 0) ++ [9]) :=
  ⟨wronglyTaken (by decide) (by decide), wronglyTaken (by decide) (by decide),
    wronglyTaken (by decide) (by decide)⟩

end Negotiation

end Unknowns
