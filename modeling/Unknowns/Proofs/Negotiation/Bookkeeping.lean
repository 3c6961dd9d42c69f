import Unknowns.Negotiation
import Unknowns.Proofs.Field.Layout
import Unknowns.Proofs.Outcomes

/-!
# What a rank writes down

In a negotiation a rank writes down owners and numbers from what its peers answer.
What follows holds whatever they answer.

* Its keys are claimed at their homes, each once and no others (`mem_flatMap_byHome`).
* Owners are written down for just the claimed keys, or none at all
  (`mem_keys_of_collectOwners`).
* The counts that it gathers are words (`readWords_flatMap`), and if their sum is one too,
  they give it an interval of numbers (`interval_eq_ok`).
* The keys that it owns are numbered in their order (`get?_numberOwned`).  Numbers that
  are relayed to it are added for claimed keys, and no number that is there is replaced
  (`get?_addRelayed_of_some`).
* In the end every key has a number, or the check fails (`checkComplete_eq_ok_iff`).
-/

namespace Unknowns

namespace Table

theorem pairwise_keys {κ ν : Type} [Ord κ] (t : Table κ ν) : t.keys.Pairwise Before :=
  List.pairwise_map.2 t.sorted

/-- Grouping keeps all items and adds none. -/
theorem mem_flatMap_groupBy {κ α : Type} [Ord κ] [Std.TransOrd κ] [Std.LawfulEqOrd κ]
    [DecidableEq κ] (f : α → κ) (xs : List α) {x : α} :
    x ∈ (groupBy f xs).entries.flatMap (·.2) ↔ x ∈ xs := by
  rw [List.mem_flatMap]
  constructor
  · rintro ⟨e, he, hx⟩
    have hget := mem_entries_iff.1 he
    rw [get?_groupBy, Option.ite_none_right_eq_some, Option.some.injEq] at hget
    rw [← hget.2] at hx
    exact List.mem_of_mem_filter hx
  · intro hx
    have hany : xs.any (fun y => f y = f x) = true :=
      List.any_eq_true.2 ⟨x, hx, decide_eq_true rfl⟩
    refine ⟨(f x, xs.filter fun y => f y = f x), mem_entries_iff.2 ?_,
      List.mem_filter.2 ⟨hx, decide_eq_true rfl⟩⟩
    rw [get?_groupBy, if_pos hany]

end Table

namespace Negotiation

variable {keys : List DofKey} {gids : Table DofKey UInt64} {k : DofKey} {g : UInt64}

theorem mem_flatMap_byHome (home : HomeRule) (seat : Seat) (keys : List DofKey) :
    k ∈ (byHome home seat keys).entries.flatMap (·.2) ↔ k ∈ keys :=
  Table.mem_flatMap_groupBy _ keys

/-! ### Owners -/

/-- Recording owners adds their keys. -/
theorem mem_keys_foldl_setOwner (me : Nat) (answers : List (DofKey × OwnerReply)) (o : Ownership) :
    k ∈ (answers.foldl (fun o r => o.setOwner r.1 r.2.rank me) o).keys ↔
      k ∈ o.keys ∨ k ∈ answers.map (·.1) := by
  induction answers generalizing o with
  | nil => simp
  | cons r answers ih =>
    have hset : k ∈ (o.setOwner r.1 r.2.rank me).keys ↔ k ∈ o.keys ∨ k = r.1 := by
      rw [Ownership.keys, Ownership.keys, Table.mem_keys_iff, Table.mem_keys_iff, Ownership.setOwner,
        Table.get?_insert]
      by_cases hk : k = r.1 <;> simp [hk]
    rw [List.foldl_cons, ih, hset, List.map_cons, List.mem_cons, or_assoc]

/-- **Owners are written down for all claimed keys or for none.** -/
theorem mem_keys_of_collectOwners {me : Nat} {replies : Table Nat (List OwnerReply)}
    {claims : List (Nat × List DofKey)} {o o' : Ownership}
    (h : collectOwners me replies claims o = .ok o') :
    k ∈ o'.keys ↔ k ∈ o.keys ∨ k ∈ claims.flatMap (·.2) := by
  induction claims generalizing o with
  | nil =>
    obtain rfl := Except.ok.inj h
    simp
  | cons c claims ih =>
    obtain ⟨home, ks⟩ := c
    obtain ⟨o₁, hrecord, hrest⟩ := bind_eq_ok_iff.1 h
    unfold recordOwners at hrecord
    split at hrecord
    · cases hrecord
    · next hlength =>
      obtain rfl := Except.ok.inj hrecord
      have hfst : (ks.zip ((replies.get? home).getD [])).map (·.1) = ks :=
        List.map_fst_zip (Nat.le_of_eq (not_not.1 hlength).symm)
      rw [ih hrest, mem_keys_foldl_setOwner, hfst, List.flatMap_cons, List.mem_append, or_assoc]

/-! ### Counts -/

/-- The words that are read are those of the ranks' byte strings. -/
theorem readWords_flatMap {ranks : List Nat} {f : Nat → Payload}
    (hf : ∀ r ∈ ranks, (f r).length = 8) :
    readWords ranks.length (ranks.flatMap f) =
      ranks.map fun r => UInt64.ofNat (readBytes (f r)) := by
  induction ranks with
  | nil => rfl
  | cons r ranks ih =>
    have hr := hf r (List.mem_cons_self ..)
    rw [List.flatMap_cons, List.length_cons, readWords, wordAt, List.drop_zero, List.take_left' hr,
      List.drop_left' hr, ih fun s hs => hf s (List.mem_cons_of_mem _ hs), List.map_cons]

/-- A number that was written is read as a word. -/
theorem ofNat_readBytes_writeBytes (n : Nat) :
    UInt64.ofNat (readBytes (writeBytes 8 n)) = UInt64.ofNat n := by
  rw [readBytes_writeBytes]
  exact UInt64.ofNat_mod_size

theorem total_take_le (counts : List Nat) (r : Nat) : total (counts.take r) ≤ total counts := by
  have hsplit := total_append (counts.take r) (counts.drop r)
  rw [List.take_append_drop] at hsplit
  omega

theorem wordTotal_eq_ok {words : List UInt64} (h : total (words.map UInt64.toNat) < wordSize) :
    wordTotal words = .ok (UInt64.ofNat (total (words.map UInt64.toNat))) := by
  rw [wordTotal, word?_eq_some_iff.2 ⟨h, rfl⟩]
  rfl

/-- **There is an interval** where all keys together can be counted. -/
theorem interval_eq_ok {totals : List UInt64} (h : total (totals.map UInt64.toNat) < wordSize)
    (r : Nat) :
    interval r totals = .ok (UInt64.ofNat (total ((totals.take r).map UInt64.toNat)),
      UInt64.ofNat (total (totals.map UInt64.toNat))) := by
  have hbelow : total ((totals.take r).map UInt64.toNat) < wordSize := by
    rw [List.map_take]
    exact Nat.lt_of_le_of_lt (total_take_le _ r) h
  rw [interval, wordTotal_eq_ok hbelow, wordTotal_eq_ok h]
  rfl

/-! ### Numbers -/

/-- **The keys owned here are numbered in their order.** -/
theorem get?_numberOwned (base : UInt64) (h : keys.Pairwise Before) :
    (numberOwned base keys).get? k = some g ↔
      ∃ i, keys[i]? = some k ∧ g = base + UInt64.ofNat i := by
  have hfst : (keys.zipIdx.map fun e => (e.1, base + UInt64.ofNat e.2)).map (·.1) = keys := by
    rw [List.map_map]
    exact List.zipIdx_map_fst ..
  have hsorted : (keys.zipIdx.map fun e => (e.1, base + UInt64.ofNat e.2)).Pairwise
      fun a b => Before a.1 b.1 := by
    refine List.pairwise_map.1 ?_
    rwa [hfst]
  rw [numberOwned, Table.get?_ofList hsorted, Table.find_eq_some hsorted, List.mem_map]
  constructor
  · rintro ⟨⟨j, i⟩, he, heq⟩
    obtain ⟨rfl, rfl⟩ := Prod.mk.inj heq
    exact ⟨i, List.mk_mem_zipIdx_iff_getElem?.1 he, rfl⟩
  · rintro ⟨i, hi, rfl⟩
    exact ⟨(k, i), List.mk_mem_zipIdx_iff_getElem?.2 hi, rfl⟩

/-- Every owned key gets a number. -/
theorem exists_numberOwned (base : UInt64) (h : keys.Pairwise Before) (hk : k ∈ keys) :
    ∃ g, (numberOwned base keys).get? k = some g := by
  obtain ⟨i, hi⟩ := List.mem_iff_getElem?.1 hk
  exact ⟨_, (get?_numberOwned base h).2 ⟨i, hi, rfl⟩⟩

/-- A number that is there is not replaced. -/
theorem get?_addNumber_of_some (e : DofKey × GidRecord) (h : gids.get? k = some g) :
    (addNumber gids e).get? k = some g := by
  unfold addNumber
  split
  · next g' _ hnone =>
    have hne : k ≠ e.1 := by
      rintro rfl
      rw [h] at hnone
      cases hnone
    rw [Table.get?_insert, if_neg hne, h]
  · exact h

/-- A number is added for its own key. -/
theorem of_get?_addNumber {e : DofKey × GidRecord} (h : (addNumber gids e).get? k = some g) :
    gids.get? k = some g ∨ k = e.1 := by
  unfold addNumber at h
  split at h
  · rw [Table.get?_insert] at h
    by_cases hk : k = e.1
    · exact .inr hk
    · rw [if_neg hk] at h
      exact .inl h
  · exact .inl h

theorem get?_foldl_addNumber_of_some (es : List (DofKey × GidRecord)) (h : gids.get? k = some g) :
    (es.foldl addNumber gids).get? k = some g := by
  induction es generalizing gids with
  | nil => exact h
  | cons e es ih => exact ih (get?_addNumber_of_some e h)

theorem of_get?_foldl_addNumber {es : List (DofKey × GidRecord)}
    (h : (es.foldl addNumber gids).get? k = some g) :
    gids.get? k = some g ∨ k ∈ es.map (·.1) := by
  induction es generalizing gids with
  | nil => exact .inl h
  | cons e es ih =>
    rcases ih h with h | h
    · refine (of_get?_addNumber h).imp_right fun hk => ?_
      rw [hk]
      exact List.mem_cons_self ..
    · exact .inr (List.mem_cons_of_mem _ h)

variable {claims : List (Nat × List DofKey)} {down : Table Nat (List GidRecord)}

/-- **What is relayed replaces no number.** -/
theorem get?_addRelayed_of_some (claims : List (Nat × List DofKey))
    (down : Table Nat (List GidRecord)) (h : gids.get? k = some g) :
    (addRelayed claims down gids).get? k = some g :=
  get?_foldl_addNumber_of_some _ h

/-- Numbers are added for no other keys than those that are claimed. -/
theorem of_get?_addRelayed (h : (addRelayed claims down gids).get? k = some g) :
    gids.get? k = some g ∨ k ∈ claims.flatMap (·.2) := by
  refine (of_get?_foldl_addNumber h).imp_right fun hk => ?_
  obtain ⟨e, he, rfl⟩ := List.mem_map.1 hk
  obtain ⟨c, hc, he⟩ := List.mem_flatMap.1 he
  exact List.mem_flatMap.2 ⟨c, hc, (List.of_mem_zip he).1⟩

/-! ### The check -/

theorem checkComplete_eq_ok_iff :
    checkComplete gids keys = .ok () ↔ ∀ k ∈ keys, ∃ g, gids.get? k = some g := by
  have hcontains : ∀ k, (!gids.contains k) = false ↔ ∃ g, gids.get? k = some g := by
    intro k
    rw [Bool.not_eq_false', Table.contains, Option.isSome_iff_exists]
  have hnone : (keys.find? fun k => !gids.contains k) = none ↔
      ∀ k ∈ keys, ∃ g, gids.get? k = some g := by
    simp only [List.find?_eq_none, Bool.not_eq_true, hcontains]
  rw [← hnone, checkComplete]
  cases keys.find? fun k => !gids.contains k <;> simp

theorem of_checkComplete_eq_error {e : Error} (h : checkComplete gids keys = .error e) :
    ∃ k ∈ keys, e = .missingGlobalIndex k := by
  unfold checkComplete at h
  split at h
  · next k hk => exact ⟨k, List.mem_of_find?_eq_some hk, (Except.error.inj h).symm⟩
  · cases h

end Negotiation

end Unknowns
