import Unknowns.Proofs.Lists
import Unknowns.Proofs.Negotiation.Owners

/-!
# Every rank learns the numbers of its keys

The last two phases of a negotiation.  The counts that are gathered give every
rank its interval of numbers (`succeeds_gatherTotals`, `interval_settled`).  Only the
owner of a key reports numbers for it, so what its home relays is a number of the
owner (`resolve?_reports`), and it reaches every claimant (`succeeds_spreadGids`).

`Parties.settled` is what a rank knows in the end; `succeeds_negotiate` says that
all ranks come to know it.
-/

namespace Unknowns

namespace Negotiation

namespace Parties

open World

variable {w : Parties} {home : HomeRule} {tags : Tags}

/-! ### The first number of every rank -/

/-- **Every rank learns how much every rank owns.** -/
theorem succeeds_gatherTotals {n : Nat} (owned : Nat → Nat) :
    Succeeds n (fun r => gatherTotals (seat n r) (owned r))
      (fun _ => (List.range n).map fun s => UInt64.ofNat (owned s)) := by
  refine Succeeds.bind (succeeds_gather fun r _ => length_writeBytes 8 (owned r)) ?_
  refine (succeeds_pure n fun _ => (List.range n).map fun s => UInt64.ofNat (owned s)).congr
    (fun r hr => ?_) fun _ _ => rfl
  have hwords : readWords (List.range n).length
      ((List.range n).flatMap fun s => writeBytes 8 (owned s)) = _ :=
    readWords_flatMap fun s _ => length_writeBytes 8 (owned s)
  rw [List.length_range] at hwords
  simp only [count_seat hr, hwords, ofNat_readBytes_writeBytes]

/-- The keys that rank `r` owns, ascending. -/
def settledOwned (w : Parties) (home : HomeRule) (r : Nat) : List DofKey :=
  (w.keys r).filter fun k => w.settledOwner home k = r

/-- The keys that the ranks below `r` own, by their owners. -/
def settledBelow (w : Parties) (home : HomeRule) (r : Nat) : List DofKey :=
  (List.range r).flatMap (w.settledOwned home)

/-- The number that rank `r` gives to a key that it owns. -/
def ownNumber (w : Parties) (home : HomeRule) (r : Nat) (k : DofKey) : Nat :=
  (w.settledBelow home r).length + (w.settledOwned home r).idxOf k

theorem mem_settledOwned {r : Nat} {k : DofKey} :
    k ∈ w.settledOwned home r ↔ k ∈ w.keys r ∧ w.settledOwner home k = r := by
  simp [settledOwned]

theorem settledBelow_succ (r : Nat) :
    w.settledBelow home (r + 1) = w.settledBelow home r ++ w.settledOwned home r := by
  simp [settledBelow, List.range_succ]

variable (home) in
/-- No more keys are owned than there are. -/
theorem length_settledBelow_lt (h : w.Numerable) {r : Nat} (hr : r ≤ w.count) :
    (w.settledBelow home r).length < 2 ^ 64 - 1 := by
  have hnodup : (w.settledBelow home r).Nodup := by
    refine List.nodup_flatMap.2 ⟨fun s hs => ?_, ?_⟩
    · have hs := List.mem_range.1 hs
      exact (nodup_of_pairwise (h.ascending s (by omega))).filter _
    · refine List.pairwise_lt_range.imp fun {s t} hst k hs ht => ?_
      have hs := (mem_settledOwned.1 hs).2
      have ht := (mem_settledOwned.1 ht).2
      omega
  have hsub : (w.settledBelow home r).toFinset ⊆ w.allKeys := by
    intro k hk
    obtain ⟨s, hs, hk⟩ := List.mem_flatMap.1 (List.mem_toFinset.1 hk)
    have hs := List.mem_range.1 hs
    exact mem_allKeys.2 ⟨s, by omega, (mem_settledOwned.1 hk).1⟩
  calc (w.settledBelow home r).length
      = (w.settledBelow home r).toFinset.card := (List.toFinset_card_of_nodup hnodup).symm
    _ ≤ w.allKeys.card := Finset.card_le_card hsub
    _ < 2 ^ 64 - 1 := h.card_lt

theorem length_settledOwned_lt (h : w.Numerable) {r : Nat} (hr : r < w.count) :
    (w.settledOwned home r).length < 2 ^ 64 := by
  have hlt := length_settledBelow_lt home h (show r + 1 ≤ w.count from hr)
  rw [settledBelow_succ, List.length_append] at hlt
  omega

/-- **The numbers of a rank lie in its interval.** -/
theorem ownNumber_lt {r : Nat} {k : DofKey} (hk : k ∈ w.settledOwned home r) :
    w.ownNumber home r k < (w.settledBelow home (r + 1)).length := by
  have hlt := List.idxOf_lt_length_of_mem hk
  rw [settledBelow_succ, List.length_append, ownNumber]
  omega

/-- Numbers of keys fit into words, and the largest word is none of them. -/
theorem toNat_ofNat_le (h : w.Numerable) {i r : Nat} (hr : r ≤ w.count)
    (hi : i ≤ (w.settledBelow home r).length) :
    (UInt64.ofNat i).toNat = i ∧ UInt64.ofNat i ≠ noGid := by
  have hlt := length_settledBelow_lt home h hr
  have hval : (UInt64.ofNat i).toNat = i :=
    UInt64.toNat_ofNat_of_lt' (Nat.lt_of_le_of_lt hi (Nat.lt_trans hlt (by decide)))
  refine ⟨hval, fun he => ?_⟩
  have hno : noGid.toNat = 2 ^ 64 - 1 := by decide
  rw [he, hno] at hval
  omega

theorem ownNumber_word (h : w.Numerable) {r : Nat} {k : DofKey} (hr : r < w.count)
    (hk : k ∈ w.settledOwned home r) :
    (UInt64.ofNat (w.ownNumber home r k)).toNat = w.ownNumber home r k ∧
      UInt64.ofNat (w.ownNumber home r k) ≠ noGid :=
  toNat_ofNat_le h (show r + 1 ≤ w.count from hr) (Nat.le_of_lt (ownNumber_lt hk))

variable (home) in
/-- The counts of the ranks below `r` add up to the first number of rank `r`. -/
theorem total_settled (h : w.Numerable) {r : Nat} (hr : r ≤ w.count) :
    total (((List.range r).map fun s =>
        UInt64.ofNat (w.settledOwned home s).length).map UInt64.toNat) =
      (w.settledBelow home r).length := by
  rw [List.map_map, settledBelow, length_flatMap]
  refine congrArg total (List.map_congr_left fun s hs => ?_)
  have hs : s < w.count := Nat.lt_of_lt_of_le (List.mem_range.1 hs) hr
  exact UInt64.toNat_ofNat_of_lt' (length_settledOwned_lt h hs)

variable (home) in
/-- **The interval of a rank** begins behind the keys of the ranks below it. -/
theorem interval_settled (h : w.Numerable) {r : Nat} (hr : r < w.count) :
    interval r ((List.range w.count).map fun s => UInt64.ofNat (w.settledOwned home s).length) =
      .ok (UInt64.ofNat (w.settledBelow home r).length,
        UInt64.ofNat (w.settledBelow home w.count).length) := by
  have hall := total_settled home h (Nat.le_refl w.count)
  have hlt := Nat.lt_trans (length_settledBelow_lt home h (Nat.le_refl w.count))
    (show 2 ^ 64 - 1 < wordSize by decide)
  rw [interval_eq_ok (hall ▸ hlt), hall, ← List.map_take, List.take_range,
    Nat.min_eq_left (Nat.le_of_lt hr), total_settled home h (Nat.le_of_lt hr)]

variable (home) in
/-- **A rank numbers what it owns from its first number on.** -/
theorem numberOwned_eq (h : w.Numerable) {r : Nat} (hr : r < w.count) :
    numberOwned (UInt64.ofNat (w.settledBelow home r).length) (w.settledOwned home r) =
      Table.tabulate (w.settledOwned home r) fun k => UInt64.ofNat (w.ownNumber home r k) := by
  have hnodup : (w.settledOwned home r).Nodup := (nodup_of_pairwise (h.ascending r hr)).filter _
  have hlist : (w.settledOwned home r).zipIdx.map
      (fun k => (k.1, UInt64.ofNat (w.settledBelow home r).length + UInt64.ofNat k.2)) =
        (w.settledOwned home r).map fun k => (k, UInt64.ofNat (w.ownNumber home r k)) := by
    refine List.ext_getElem (by simp) fun i hi hj => ?_
    have hi : i < (w.settledOwned home r).length := by simpa using hi
    rw [List.getElem_map, List.getElem_map, List.getElem_zipIdx, Nat.zero_add, ownNumber,
      hnodup.idxOf_getElem i hi, UInt64.ofNat_add]
  rw [numberOwned, hlist]
  rfl

/-! ### What the owners report -/

theorem gid?_ofGid? {g : UInt64} (hg : g ≠ noGid) : (GidRecord.ofGid? (some g)).gid? = some g :=
  if_neg hg

theorem gid?_ofGid?_none : (GidRecord.ofGid? none).gid? = none := if_pos rfl

/-- The number that rank `s` gave to a key itself. -/
def ownNumber? (w : Parties) (home : HomeRule) (s : Nat) (k : DofKey) : Option UInt64 :=
  if k ∈ w.settledOwned home s then some (UInt64.ofNat (w.ownNumber home s k)) else none

/-- What rank `s` reports to home `d`, in the places of its claims. -/
def reported (w : Parties) (home : HomeRule) (s d : Nat) : List GidRecord :=
  (w.sent home s d).map fun k => GidRecord.ofGid? (w.ownNumber? home s k)

/-- All that home `d` reads of the reports. -/
def reportsAt (w : Parties) (home : HomeRule) (d : Nat) : List (DofKey × UInt64) :=
  reports (w.arrived home d) (listTable w.count fun s => w.reported home s d)

/-- **Only owners report numbers.** -/
theorem mem_reportsAt (h : w.Numerable) {d : Nat} {k : DofKey} {g : UInt64} :
    (k, g) ∈ w.reportsAt home d ↔
      ∃ s, ∃ j ∈ w.sent home s d, w.settledOwner home j = s ∧ carriedKey j = k ∧
        g = UInt64.ofNat (w.ownNumber home s j) := by
  have hup : ∀ s, ((listTable w.count fun s => w.reported home s d).get? s).getD [] =
      w.reported home s d := fun s =>
    (lists_listTable fun s hs => by rw [reported, sent_eq_nil hs, List.map_nil]).getD_get? s
  have hentries : w.reportsAt home d =
      (List.range w.count).flatMap fun s =>
        ((w.sent home s d).map fun k =>
          (w.claimOf s k, GidRecord.ofGid? (w.ownNumber? home s k)))
            |>.filterMap fun r => (r.2.gid?).map fun g => (r.1.key, g) := by
    rw [reportsAt, reports, arrived, flatMap_entries_listTable
      (fun s (cs : List Claim) => (cs.zip (((listTable w.count fun s =>
        w.reported home s d).get? s).getD [])).filterMap fun r =>
          (r.2.gid?).map fun g => (r.1.key, g)) fun _ => rfl]
    refine List.flatMap_congr fun s _ => ?_
    rw [hup, reported, List.zip_map']
  rw [hentries]
  simp only [List.mem_flatMap, List.mem_range, List.mem_filterMap, List.mem_map,
    Option.map_eq_some_iff, Prod.mk.injEq]
  constructor
  · rintro ⟨s, hs, _, ⟨j, hj, rfl⟩, g', hg', hkey, rfl⟩
    by_cases ho : j ∈ w.settledOwned home s
    · simp only [ownNumber?, if_pos ho, gid?_ofGid? (ownNumber_word h hs ho).2,
        Option.some.injEq] at hg'
      exact ⟨s, j, hj, (mem_settledOwned.1 ho).2, hkey, hg'.symm⟩
    · simp only [ownNumber?, if_neg ho, gid?_ofGid?_none] at hg'
      cases hg'
  · rintro ⟨s, j, hj, ho, hkey, rfl⟩
    have hmem := mem_sent.1 hj
    have ho : j ∈ w.settledOwned home s := mem_settledOwned.2 ⟨hmem.2.1, ho⟩
    refine ⟨s, hmem.1, _, ⟨j, hj, rfl⟩, UInt64.ofNat (w.ownNumber home s j), ?_, hkey, rfl⟩
    simp only [ownNumber?, if_pos ho, gid?_ofGid? (ownNumber_word h hmem.1 ho).2]

/-- Where something is reported for a key, one of the numbers that are reported counts. -/
theorem exists_resolve?_eq_some {es : List (DofKey × UInt64)} {k : DofKey} {g : UInt64}
    (h : (k, g) ∈ es) : ∃ g', (k, g') ∈ es ∧ resolve? es k = some g' := by
  have hne : es.filter (fun r => r.1 = k) ≠ [] :=
    List.ne_nil_of_mem (List.mem_filter.2 ⟨h, decide_eq_true rfl⟩)
  have hlast := List.getLast_mem hne
  rw [resolve?, List.getLast?_eq_some_getLast hne, Option.map_some]
  generalize (es.filter fun r => r.1 = k).getLast hne = r at hlast ⊢
  obtain ⟨hmem, hkey⟩ := List.mem_filter.1 hlast
  obtain ⟨j, g'⟩ := r
  obtain rfl : j = k := of_decide_eq_true hkey
  exact ⟨g', hmem, rfl⟩

/-- The number that the home of a key relays to the claimants. -/
def relayedNumber (w : Parties) (home : HomeRule) (k : DofKey) : UInt64 :=
  (resolve? (w.reportsAt home (home k.entity w.count)) (carriedKey k)).getD noGid

/-- **The home relays a number that the owner of the key gave**, to this key or to another one that
is claimed as the same. -/
theorem resolve?_reports (h : w.Numerable) {s d : Nat} {k : DofKey} (hk : k ∈ w.sent home s d) :
    resolve? (w.reportsAt home d) (carriedKey k) = some (w.relayedNumber home k) ∧
      ∃ j ∈ w.settledOwned home (w.settledOwner home k), carriedKey j = carriedKey k ∧
        w.relayedNumber home k = UInt64.ofNat (w.ownNumber home (w.settledOwner home k) j) := by
  obtain ⟨hs, hmem, rfl⟩ := mem_sent.1 hk
  obtain ⟨j, hj, hkey⟩ := exists_claim_of_owner home hs hmem
  have hreport := (mem_reportsAt h).2 ⟨_, j, hj, settledOwner_congr hkey, hkey, rfl⟩
  obtain ⟨g, hg, hresolve⟩ := exists_resolve?_eq_some hreport
  obtain ⟨t, i, hi, ht, hkey, rfl⟩ := (mem_reportsAt h).1 hg
  obtain rfl : t = w.settledOwner home k := ht ▸ settledOwner_congr hkey
  have hvalue : w.relayedNumber home k =
      UInt64.ofNat (w.ownNumber home (w.settledOwner home k) i) := by
    rw [relayedNumber, hresolve, Option.getD_some]
  exact ⟨hvalue ▸ hresolve, i, mem_settledOwned.2 ⟨(mem_sent.1 hi).2.1, ht⟩, hkey, hvalue⟩

/-! ### What the homes relay -/

/-- What home `d` relays to rank `s`, in the places of its claims. -/
def relayed (w : Parties) (home : HomeRule) (d s : Nat) : List GidRecord :=
  (w.sent home s d).map fun k => GidRecord.ofGid? (some (w.relayedNumber home k))

theorem lists_relay (h : w.Numerable) (d : Nat) :
    Lists (relay (w.arrived home d) (w.reportsAt home d)) (w.relayed home d) := by
  have hnil : ∀ s, w.count ≤ s → (w.sent home s d).map (w.claimOf s) = [] := fun s hs => by
    rw [sent_eq_nil hs, List.map_nil]
  have hlists := (lists_listTable hnil).map fun _ c =>
    GidRecord.ofGid? (resolve? (w.reportsAt home d) c.key)
  have hsame : ∀ s, ((w.sent home s d).map (w.claimOf s)).map (fun c =>
      GidRecord.ofGid? (resolve? (w.reportsAt home d) c.key)) = w.relayed home d s := by
    intro s
    rw [relayed, List.map_map]
    refine List.map_congr_left fun k hk => ?_
    simp only [Function.comp_apply, key_claimOf, (resolve?_reports h hk).1]
  simp only [hsame] at hlists
  exact hlists

theorem get?_addNumber {gids : Table DofKey UInt64} {e : DofKey × GidRecord} {g : UInt64}
    (h : e.2.gid? = some g) (k : DofKey) :
    (addNumber gids e).get? k =
      if k = e.1 then some ((gids.get? k).getD g) else gids.get? k := by
  rw [addNumber, h]
  by_cases hk : k = e.1
  · subst hk
    cases ht : gids.get? e.1 <;> simp [ht]
  · cases ht : gids.get? e.1 <;> simp [hk]

/-- Numbers are added for the keys that have none yet. -/
theorem get?_foldl_addNumber {es : List (DofKey × GidRecord)} {f : DofKey → UInt64}
    (h : ∀ e ∈ es, e.2.gid? = some (f e.1)) (gids : Table DofKey UInt64) (k : DofKey) :
    (es.foldl addNumber gids).get? k =
      if k ∈ es.map (·.1) then some ((gids.get? k).getD (f k)) else gids.get? k := by
  induction es generalizing gids with
  | nil => rfl
  | cons e es ih =>
    have hrest := ih (fun r hr => h r (List.mem_cons_of_mem _ hr)) (addNumber gids e)
    rw [List.foldl_cons, hrest, get?_addNumber (h e (List.mem_cons_self ..)), List.map_cons]
    by_cases hk : k = e.1
    · subst hk
      simp
    · have hiff : k ∈ e.1 :: es.map (·.1) ↔ k ∈ es.map (·.1) := by
        rw [List.mem_cons, or_iff_right hk]
      simp only [if_neg hk, hiff]

/-! ### What a rank knows in the end -/

/-- The number of a key, as rank `r` knows it. -/
def settledNumber (w : Parties) (home : HomeRule) (r : Nat) (k : DofKey) : UInt64 :=
  if k ∈ w.settledOwned home r then UInt64.ofNat (w.ownNumber home r k) else w.relayedNumber home k

/-- What rank `r` knows in the end. -/
def settled (w : Parties) (home : HomeRule) (r : Nat) : Numbering where
  rank := r
  ownership := w.settledOwnership home r
  gids := Table.tabulate (w.keys r) (w.settledNumber home r)
  numOwned := (w.settledOwned home r).length
  ownedBase := UInt64.ofNat (w.settledBelow home r).length
  numGlobal := UInt64.ofNat (w.settledBelow home w.count).length

variable (home) in
/-- **The number of a key is one that its owner gave**, to this key or to another one that is
claimed as the same. -/
theorem exists_settledNumber_eq (h : w.Numerable) {r : Nat} (hr : r < w.count) {k : DofKey}
    (hk : k ∈ w.keys r) :
    ∃ j ∈ w.settledOwned home (w.settledOwner home k), carriedKey j = carriedKey k ∧
      w.settledNumber home r k = UInt64.ofNat (w.ownNumber home (w.settledOwner home k) j) := by
  by_cases ho : k ∈ w.settledOwned home r
  · obtain rfl := (mem_settledOwned.1 ho).2
    exact ⟨k, ho, rfl, if_pos ho⟩
  · have hsent : k ∈ w.sent home r (home k.entity w.count) := mem_sent.2 ⟨hr, hk, rfl⟩
    rw [settledNumber, if_neg ho]
    exact (resolve?_reports h hsent).2

/-- **Every claimant takes over the numbers that it did not give itself.** -/
theorem addRelayed_eq (h : w.Numerable) {r : Nat} (hr : r < w.count)
    {down : Table Nat (List GidRecord)} (hdown : ∀ d, (down.get? d).getD [] = w.relayed home d r) :
    addRelayed (byHome home (seat w.count r) (w.keys r)).entries down
        (Table.tabulate (w.settledOwned home r) fun k => UInt64.ofNat (w.ownNumber home r k)) =
      (w.settled home r).gids := by
  have hclaims : (byHome home (seat w.count r) (w.keys r)).entries.flatMap
      (fun c => c.2.zip ((down.get? c.1).getD [])) =
        (byHome home (seat w.count r) (w.keys r)).entries.flatMap fun c => c.2.map fun k =>
          (k, GidRecord.ofGid? (some (w.relayedNumber home k))) := by
    refine List.flatMap_congr fun c hc => ?_
    have hc := ((lists_byHome hr).mem_entries.1 hc).2
    rw [hdown, relayed, hc, zip_map_self]
  have hkeys : ((byHome home (seat w.count r) (w.keys r)).entries.flatMap fun c => c.2.map fun k =>
      (k, GidRecord.ofGid? (some (w.relayedNumber home k)))).map (·.1) =
        (byHome home (seat w.count r) (w.keys r)).entries.flatMap (·.2) := by
    rw [List.map_flatMap]
    refine List.flatMap_congr fun c _ => ?_
    rw [List.map_map]
    exact List.map_id _
  refine Table.ext_get? fun k => ?_
  rw [addRelayed, hclaims, get?_foldl_addNumber (f := w.relayedNumber home), hkeys]
  · simp only [mem_flatMap_byHome, settled, settledNumber, Table.get?_tabulate]
    by_cases hk : k ∈ w.keys r
    · by_cases ho : k ∈ w.settledOwned home r <;> simp [hk, ho]
    · have ho : k ∉ w.settledOwned home r := fun hm => hk (mem_settledOwned.1 hm).1
      simp [hk, ho]
  · intro e he
    obtain ⟨c, hc, he⟩ := List.mem_flatMap.1 he
    obtain ⟨k, hk, rfl⟩ := List.mem_map.1 he
    rw [((lists_byHome hr).mem_entries.1 hc).2] at hk
    obtain ⟨-, j, hj, -, hvalue⟩ := resolve?_reports h hk
    have howner := settledOwner_lt home (mem_sent.1 hk).1 (mem_sent.1 hk).2.1
    refine gid?_ofGid? ?_
    rw [hvalue]
    exact (ownNumber_word h howner hj).2

variable (tags) in
/-- **Every rank learns the numbers of its keys.** -/
theorem succeeds_spreadGids (h : w.Numerable) (hhome : ∀ e, home e w.count < w.count) :
    Succeeds w.count
      (fun r => spreadGids (seat w.count r) tags (byHome home (seat w.count r) (w.keys r))
        (w.claimCounts home r) (w.arrived home r)
        (Table.tabulate (w.settledOwned home r) fun k => UInt64.ofNat (w.ownNumber home r k)))
      (fun r => (w.settled home r).gids) := by
  have hup : ∀ r < w.count, Lists ((byHome home (seat w.count r) (w.keys r)).map fun _ ks =>
      ks.map fun k => GidRecord.ofGid? ((Table.tabulate (w.settledOwned home r) fun k =>
        UInt64.ofNat (w.ownNumber home r k)).get? k)) (w.reported home r) := by
    intro r hr
    simp only [Table.get?_tabulate]
    exact (lists_byHome hr).map fun _ k => GidRecord.ofGid? (w.ownNumber? home r k)
  refine Succeeds.bind (succeeds_exchangeRecords tags.gidsUp (w.reported home)
    (fun s hs d _ => (hup s hs).getD_get? d) fun r hr s hs hne => ?_) ?_
  · rw [reported, List.length_map, getD_claimCounts hr hs hne]
  · have hdown := succeeds_exchangeRecords (n := w.count) tags.gidsDown (w.relayed home)
      (fun d _ s _ => (lists_relay h d).getD_get? s)
      fun r hr d _ _ => by rw [relayed, List.length_map, (lists_byHome hr).length_getD]
    refine (hdown.bind (f := fun r downIn => pure (addRelayed
      (byHome home (seat w.count r) (w.keys r)).entries
      (withOwn r downIn (relay (w.arrived home r) (w.reportsAt home r)))
      (Table.tabulate (w.settledOwned home r) fun k => UInt64.ofNat (w.ownNumber home r k))))
      ((succeeds_pure w.count fun r => (w.settled home r).gids).congr (fun r hr => ?_)
        fun _ _ => rfl)).congr (fun r hr => ?_) fun _ _ => rfl
    · have hrelayed := withOwn_eq_listTable hr (w.relayed home) (lists_relay h r)
      rw [hrelayed, addRelayed_eq h hr fun d => (lists_listTable fun d hd => ?_).getD_get? d]
      rw [relayed, sent_eq_nil_of_le hhome hd, List.map_nil]
    · rw [reportsAt, ← withOwn_eq_listTable hr (w.reported home) (hup r hr)]
      rfl

/-! ### The whole negotiation -/

theorem checkComplete_settled (r : Nat) :
    checkComplete (w.settled home r).gids (w.keys r) = .ok () :=
  checkComplete_eq_ok_iff.2 fun k hk =>
    ⟨w.settledNumber home r k, by rw [settled, Table.get?_tabulate, if_pos hk]⟩

variable (tags) in
/-- **A negotiation succeeds** on all ranks, whatever the homes are, and every rank ends up knowing
what is settled for its keys. -/
theorem succeeds_negotiate (h : w.Numerable) (hbrief : w.Brief home) (hnamed : w.Named home)
    (hhome : ∀ e, home e w.count < w.count) :
    Succeeds w.count (fun r => negotiate home (seat w.count r) tags (w.hint r) (w.keys r))
      (w.settled home) := by
  refine Succeeds.bind (succeeds_collectClaims hbrief)
    (Succeeds.bind (succeeds_learnOwners hnamed hhome) ?_)
  have howned : ∀ r < w.count,
      (w.settledOwnership home r).ownedKeys = w.settledOwned home r := fun r hr =>
    Ownership.ownedKeys_ofOwners (h.ascending r hr)
  have htotals := succeeds_gatherTotals (n := w.count) fun r => (w.settledOwned home r).length
  refine (htotals.congr (fun r hr => by rw [howned r hr]) fun _ _ => rfl).bind ?_
  refine Succeeds.bind (succeeds_ofExcept fun r hr => interval_settled home h hr) ?_
  have hlast : Succeeds w.count
      (fun r => do
        Protocol.ofExcept (checkComplete (w.settled home r).gids (w.keys r))
        pure (w.settled home r))
      (w.settled home) :=
    Succeeds.bind (succeeds_ofExcept fun r _ => checkComplete_settled r)
      (succeeds_pure w.count (w.settled home))
  have hspread := (succeeds_spreadGids tags h hhome).bind (f := fun r gids => do
    Protocol.ofExcept (checkComplete gids (w.keys r))
    pure { w.settled home r with gids := gids }) hlast
  refine hspread.congr (fun r hr => ?_) fun _ _ => rfl
  have hnumber := numberOwned_eq home h hr
  have hrank : (seat w.count r).rank = r := rfl
  simp only [howned r hr, hrank, hnumber]
  rfl

end Parties

end Negotiation

end Unknowns
