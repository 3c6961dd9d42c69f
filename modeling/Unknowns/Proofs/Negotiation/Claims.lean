import Unknowns.Proofs.Negotiation.Bookkeeping
import Unknowns.Proofs.Negotiation.Outcome
import Unknowns.Proofs.World.Exchange

/-!
# Claims arrive at their homes

The first phase of a negotiation.  Everything that passes between rank `s` and
home `d` in any phase is aligned with `w.sent home s d`, the keys that `s` claims
at `d`.  Tables of such lists leave out the empty ones (`Lists`), since these are
not sent; a table is determined by its lists (`Lists.ext`), and what comes from
the peers is completed by what a rank keeps for itself (`withOwn_eq_listTable`).

A claim carries the key with field and component reduced to 32 bits
(`carriedKey`), so ranks with too many fields or components may claim one key
for two of their own.

`succeeds_collectClaims`: the claims for these keys arrive at `d`, and `d` knows
how many they are, if they are few enough to be counted (`Parties.Brief`).
-/

namespace Unknowns

namespace Negotiation

/-! ### Tables of lists -/

section
variable {ρ σ : Type}

/-- The table has the list `f d` for `d`, unless it is empty. -/
def Lists (t : Table Nat (List ρ)) (f : Nat → List ρ) : Prop :=
  ∀ d, t.get? d = if f d = [] then none else some (f d)

/-- The table of the lists `f d` for `d` below `n`. -/
def listTable (n : Nat) (f : Nat → List ρ) : Table Nat (List ρ) :=
  Table.tabulate ((List.range n).filter fun d => !(f d).isEmpty) f

namespace Lists

variable {t u : Table Nat (List ρ)} {f : Nat → List ρ}

theorem getD_get? (h : Lists t f) (d : Nat) : (t.get? d).getD [] = f d := by
  rw [h d]
  split
  · next hd => exact hd.symm
  · rfl

theorem ext (ht : Lists t f) (hu : Lists u f) : t = u :=
  Table.ext_get? fun d => (ht d).trans (hu d).symm

theorem map (h : Lists t f) (g : Nat → ρ → σ) :
    Lists (t.map fun d xs => xs.map (g d)) fun d => (f d).map (g d) := by
  intro d
  rw [Table.get?_map, h d]
  by_cases hd : f d = [] <;> simp [hd]

theorem length_getD (h : Lists t f) (d : Nat) :
    (((t.map fun _ xs => xs.length).get? d).getD 0) = (f d).length := by
  rw [Table.get?_map, h d]
  by_cases hd : f d = [] <;> simp [hd]

theorem mem_entries (h : Lists t f) {e : Nat × List ρ} :
    e ∈ t.entries ↔ f e.1 ≠ [] ∧ e.2 = f e.1 := by
  rw [Table.mem_entries_iff (k := e.1) (v := e.2), h]
  by_cases hd : f e.1 = [] <;> simp [hd, eq_comm]

end Lists

theorem pairwise_before_range (n : Nat) : (List.range n).Pairwise Before :=
  List.pairwise_lt_range.imp fun h => Nat.compare_eq_lt.2 h

theorem lists_listTable {n : Nat} {f : Nat → List ρ} (h : ∀ d, n ≤ d → f d = []) :
    Lists (listTable n f) f := by
  intro d
  simp only [listTable, Table.get?_tabulate, List.mem_filter, List.mem_range]
  by_cases hd : f d = []
  · simp [hd]
  · have hlt : d < n := Nat.lt_of_not_le fun hle => hd (h d hle)
    simp [hd, hlt]

/-- Going through the entries is going through the ranks, where empty lists contribute nothing. -/
theorem flatMap_entries_listTable {n : Nat} {f : Nat → List ρ} (g : Nat → List ρ → List σ)
    (hg : ∀ d, g d [] = []) :
    (listTable n f).entries.flatMap (fun e => g e.1 e.2) =
      (List.range n).flatMap fun d => g d (f d) := by
  rw [listTable, Table.entries_tabulate f ((pairwise_before_range n).filter _), List.flatMap_map]
  induction List.range n with
  | nil => rfl
  | cons d ds ih =>
    by_cases hd : f d = []
    · rw [List.filter_cons_of_neg (by simp [hd]), ih, List.flatMap_cons, hd, hg, List.nil_append]
    · rw [List.filter_cons_of_pos (by simpa using hd), List.flatMap_cons, List.flatMap_cons, ih]

theorem findSome?_entries_listTable {n : Nat} {f : Nat → List ρ} (g : Nat → List ρ → Option σ)
    (hg : ∀ d, g d [] = none) :
    (listTable n f).entries.findSome? (fun e => g e.1 e.2) =
      (List.range n).findSome? fun d => g d (f d) := by
  rw [listTable, Table.entries_tabulate f ((pairwise_before_range n).filter _), List.findSome?_map]
  induction List.range n with
  | nil => rfl
  | cons d ds ih =>
    by_cases hd : f d = []
    · rw [List.filter_cons_of_neg (by simp [hd]), ih, List.findSome?_cons, hd, hg]
    · rw [List.filter_cons_of_pos (by simpa using hd), List.findSome?_cons, List.findSome?_cons, ih]
      rfl

/-- What a rank keeps for itself completes what comes from its peers. -/
theorem withOwn_eq_listTable {n r : Nat} (hr : r < n) (lists : Nat → Nat → List ρ)
    {outgoing : Table Nat (List ρ)} (hout : Lists outgoing (lists r)) :
    withOwn r (Table.tabulate ((World.seat n r).peers.filter fun s => !(lists s r).isEmpty)
      fun s => lists s r) outgoing = listTable n fun s => lists s r := by
  refine Table.ext_get? fun s => ?_
  simp only [listTable, Table.get?_tabulate, List.mem_filter, List.mem_range]
  unfold withOwn
  rw [hout r]
  by_cases hrr : lists r r = []
  · simp only [hrr, if_true, Table.get?_tabulate, List.mem_filter, World.mem_peers hr]
    by_cases hs : s = r
    · subst hs
      simp [hrr]
    · simp [hs]
  · simp only [hrr, if_false, Table.get?_insert, Table.get?_tabulate, List.mem_filter,
      World.mem_peers hr]
    by_cases hs : s = r
    · subst hs
      simp [hrr, hr]
    · simp [hs]

end

/-- A key as claims carry it: with field and component reduced to 32 bits. -/
def carriedKey (k : DofKey) : DofKey := (Claim.ofKey k none).key

@[simp] theorem entity_carriedKey (k : DofKey) : (carriedKey k).entity = k.entity := by
  have hd : k.entity.dim.toUInt32.toUInt8 = k.entity.dim := UInt8.toUInt8_toUInt32 _
  simp only [carriedKey, Claim.ofKey, Claim.key, hd]

/-- **A key that fits into 32 bits is claimed as itself.** -/
theorem carriedKey_eq_self {k : DofKey} (hf : k.field < 2 ^ 32) (hc : k.component < 2 ^ 32) :
    carriedKey k = k :=
  Claim.key_ofKey_eq_iff.2 ⟨hf, hc⟩

namespace Parties

open World

variable {w : Parties} {home : HomeRule} {tags : Tags}

/-! ### Claims -/

/-- The keys that rank `s` claims at home `d`. -/
def sent (w : Parties) (home : HomeRule) (s d : Nat) : List DofKey :=
  if s < w.count then (w.keys s).filter fun k => home k.entity w.count = d else []

/-- The claim of rank `s` for a key. -/
def claimOf (w : Parties) (s : Nat) (k : DofKey) : Claim := Claim.ofKey k (w.hint s k.entity)

/-- The claims that one rank sends to another are few enough to be counted in 32 bits. -/
def Brief (w : Parties) (home : HomeRule) : Prop :=
  ∀ s < w.count, ∀ d < w.count, s ≠ d → (w.sent home s d).length < 2 ^ 32

/-- The claims that come to home `d`. -/
def arrived (w : Parties) (home : HomeRule) (d : Nat) : Table Nat (List Claim) :=
  listTable w.count fun s => (w.sent home s d).map (w.claimOf s)

theorem mem_sent {s d : Nat} {k : DofKey} :
    k ∈ w.sent home s d ↔ s < w.count ∧ k ∈ w.keys s ∧ home k.entity w.count = d := by
  unfold sent
  split <;> simp_all

theorem sent_eq_nil {s : Nat} (hs : w.count ≤ s) (d : Nat) : w.sent home s d = [] :=
  if_neg (Nat.not_lt.2 hs)

/-- Only ranks of the world are homes. -/
theorem sent_eq_nil_of_le (hhome : ∀ e, home e w.count < w.count) {s d : Nat} (hd : w.count ≤ d) :
    w.sent home s d = [] := by
  refine List.eq_nil_iff_forall_not_mem.2 fun k hk => ?_
  have hlt := hhome k.entity
  rw [(mem_sent.1 hk).2.2] at hlt
  omega

theorem nodup_sent (h : w.Numerable) (s d : Nat) : (w.sent home s d).Nodup := by
  unfold sent
  split
  · next hs => exact (nodup_of_pairwise (h.ascending s hs)).filter _
  · exact List.nodup_nil

/-- Ranks with fewer than 2³² keys have no more to claim anywhere. -/
theorem Valid.brief (h : w.Valid) (home : HomeRule) : w.Brief home := by
  intro s hs d _ _
  rw [sent, if_pos hs]
  exact Nat.lt_of_le_of_lt (List.length_filter_le ..) (h.length_lt s hs)

/-- **The claims of a rank are its keys, each at its home.** -/
theorem lists_byHome {r : Nat} (hr : r < w.count) :
    Lists (byHome home (seat w.count r) (w.keys r)) (w.sent home r) := by
  intro d
  have hsent : w.sent home r d = (w.keys r).filter fun k => home k.entity w.count = d := if_pos hr
  rw [byHome, count_seat hr, Table.get?_groupBy, hsent]
  by_cases hany : (w.keys r).any fun k => home k.entity w.count = d
  · have hne : (w.keys r).filter (fun k => home k.entity w.count = d) ≠ [] := by
      obtain ⟨k, hk, hkd⟩ := List.any_eq_true.1 hany
      exact List.ne_nil_of_mem (List.mem_filter.2 ⟨hk, hkd⟩)
    rw [if_pos hany, if_neg hne]
  · have hnil : (w.keys r).filter (fun k => home k.entity w.count = d) = [] :=
      List.filter_eq_nil_iff.2 fun k hk hkd => hany (List.any_eq_true.2 ⟨k, hk, hkd⟩)
    rw [if_neg hany, if_pos hnil]

theorem key_claimOf (s : Nat) (k : DofKey) : (w.claimOf s k).key = carriedKey k := rfl

/-- How many claims come to rank `r` from each of its peers. -/
def claimCounts (w : Parties) (home : HomeRule) (r : Nat) : Table Nat Nat :=
  Table.tabulate (seat w.count r).peers fun p => (w.sent home p r).length

theorem getD_claimCounts {r p : Nat} (hr : r < w.count) (hp : p < w.count) (hne : p ≠ r) :
    ((w.claimCounts home r).get? p).getD 0 = (w.sent home p r).length := by
  rw [claimCounts, Table.get?_tabulate, if_pos ((mem_peers hr).2 ⟨hp, hne⟩)]
  rfl

/-- **All claims arrive at their homes.** -/
theorem succeeds_collectClaims (h : w.Brief home) :
    Succeeds w.count
      (fun r => collectClaims (seat w.count r) tags (w.hint r)
        (byHome home (seat w.count r) (w.keys r)))
      (fun r => (w.claimCounts home r, w.arrived home r)) := by
  have hbyHome : ∀ r < w.count, Lists (byHome home (seat w.count r) (w.keys r)) (w.sent home r) :=
    fun r hr => lists_byHome hr
  refine Succeeds.bind ((succeeds_exchangeSizes tags.sizes fun r hr p hp hne => ?_).congr
    (fun _ _ => rfl) (b := w.claimCounts home) fun r hr => ?_) ?_
  · rw [(hbyHome p hp).length_getD]
    exact h p hp r hr hne
  · refine Table.ext_get? fun p => ?_
    rw [claimCounts, Table.get?_tabulate, Table.get?_tabulate]
    split
    · next hp => rw [(hbyHome p ((mem_peers hr).1 hp).1).length_getD]
    · rfl
  · refine Succeeds.bind (succeeds_exchangeRecords tags.claims
      (fun s d => (w.sent home s d).map (w.claimOf s))
      (fun s hs d _ => ((hbyHome s hs).map _).getD_get? d) fun r hr s hs hne => ?_) ?_
    · rw [List.length_map, getD_claimCounts hr hs hne]
    · refine (succeeds_pure w.count fun r => (w.claimCounts home r, w.arrived home r)).congr
        (fun r hr => ?_) fun _ _ => rfl
      exact congrArg (fun t => pure (w.claimCounts home r, t))
        (withOwn_eq_listTable hr (fun s d => (w.sent home s d).map (w.claimOf s))
          ((hbyHome r hr).map fun _ => w.claimOf r))

end Parties

end Negotiation

end Unknowns
