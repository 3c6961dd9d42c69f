import Mathlib.Data.Finset.Card
import Unknowns.IndexMap
import Unknowns.Table

/-!
# The lookup of an index map

An index map keeps no table of places: `lid?` searches the ids.  Here is the table
(`places`), which is filled in local order, so that a later place of an id stands in for an
earlier one, and here are the checks of an index map made on it (`checkPlaces`): no id is
repeated if the table has as many entries as the map.

* `lid?_eq_some_iff`: local and global ids determine each other;
* `lid?_eq_get?_places`: what `lid?` finds is in the table;
* `map_ofGids`: the checks made on the table are those that `ofGids` makes.
-/

namespace Unknowns.IndexMap

variable {gids : List UInt64} {numGlobal gid : UInt64} {lid : Nat}

/-- The places of the ids; of two places of one id the later stands. -/
def places (gids : List UInt64) : Table UInt64 Nat := .ofList gids.zipIdx

/-- The checks of an index map, made on its table of places. -/
def checkPlaces (gids : List UInt64) (numGlobal : UInt64) : Except Error Unit :=
  let distinct := (places gids).size
  if distinct ≠ gids.length then
    .error (.invalidIndexMap (.duplicates gids.length distinct))
  else
    match gids.find? fun g => ¬ g < numGlobal with
    | some g => .error (.invalidIndexMap (.outOfRange g numGlobal))
    | none => .ok ()

theorem places_append_singleton (gids : List UInt64) (gid : UInt64) :
    places (gids ++ [gid]) = (places gids).insert gid gids.length := by
  rw [places, List.zipIdx_append, Table.ofList, List.foldl_append, Nat.zero_add]
  rfl

theorem getElem?_append_singleton_eq_some_iff {last : UInt64} (h : gid ≠ last) :
    (gids ++ [last])[lid]? = some gid ↔ gids[lid]? = some gid := by
  rw [List.getElem?_append]
  split_ifs with hlt
  · rfl
  · rw [List.getElem?_singleton, List.getElem?_eq_none (Nat.le_of_not_lt hlt)]
    split_ifs
    · exact iff_of_false (fun he => h (Option.some.inj he).symm) not_false
    · rfl

/-- **The table has the last place of each id.** -/
theorem get?_places_eq_some_iff :
    (places gids).get? gid = some lid ↔
      gids[lid]? = some gid ∧ ∀ later, lid < later → gids[later]? ≠ some gid := by
  induction gids using List.reverseRecOn with
  | nil => exact iff_of_false (Option.some_ne_none _).symm fun h => Option.some_ne_none _ h.1.symm
  | append_singleton gids last ih =>
    rw [places_append_singleton, Table.get?_insert]
    split_ifs with hlast
    · subst hlast
      constructor
      · rintro ⟨rfl⟩
        refine ⟨List.getElem?_concat_length, fun later hlater => ?_⟩
        rw [List.getElem?_eq_none (by rw [List.length_append]; exact hlater)]
        exact (Option.some_ne_none _).symm
      · rintro ⟨hget, hlater⟩
        have hle : lid ≤ gids.length := by
          have hlt := (List.getElem?_eq_some_iff.1 hget).1
          rw [List.length_append] at hlt
          exact Nat.le_of_lt_succ hlt
        rcases Nat.eq_or_lt_of_le hle with rfl | hlt
        · rfl
        · exact absurd List.getElem?_concat_length (hlater gids.length hlt)
    · simp only [ih, ne_eq, getElem?_append_singleton_eq_some_iff hlast]

theorem isSome_get?_places : ((places gids).get? gid).isSome = true ↔ gid ∈ gids := by
  induction gids using List.reverseRecOn with
  | nil => exact iff_of_false Bool.false_ne_true List.not_mem_nil
  | append_singleton gids last ih =>
    rw [places_append_singleton, Table.get?_insert, List.mem_append, List.mem_singleton]
    split_ifs with hlast
    · exact iff_of_true rfl (.inr hlast)
    · rw [ih, or_iff_left hlast]

/-- A table has as many entries as there are ids that are distinct. -/
theorem size_places (gids : List UInt64) : (places gids).size = gids.toFinset.card := by
  have hkeys : (places gids).keys.toFinset = gids.toFinset := by
    ext gid
    rw [List.mem_toFinset, List.mem_toFinset, Table.mem_keys_iff, isSome_get?_places]
  rw [← hkeys, List.toFinset_card_of_nodup (Table.nodup_keys _), Table.keys, List.length_map]
  rfl

theorem length_ascending (gids : List UInt64) : (ascending gids).length = gids.toFinset.card := by
  have hids : (ascending gids).toFinset = gids.toFinset := by
    ext gid
    rw [List.mem_toFinset, List.mem_toFinset, mem_ascending]
  rw [← hids, List.toFinset_card_of_nodup (nodup_of_pairwise (pairwise_ascending gids))]

/-- **No id is repeated if the table has as many entries as the map.** -/
theorem size_places_eq_length_iff : (places gids).size = gids.length ↔ gids.Nodup := by
  rw [size_places]
  exact Multiset.toFinset_card_eq_card_iff_nodup

/-- **Local and global ids determine each other.** -/
theorem lid?_eq_some_iff {m : IndexMap} {gid : UInt64} {lid : Nat} :
    m.lid? gid = some lid ↔ m.gid? lid = some gid := by
  rw [lid?, gid?, List.idxOf?_eq_some_iff]
  constructor
  · rintro ⟨hlt, hget, -⟩
    rw [List.getElem?_eq_getElem hlt, hget]
  · intro hget
    obtain ⟨hlt, rfl⟩ := List.getElem?_eq_some_iff.1 hget
    refine ⟨hlt, rfl, fun j hj he => ?_⟩
    exact Nat.ne_of_lt hj ((m.nodup.getElem_inj_iff).1 he)

/-- **What is found is in the table**: of each id the only place. -/
theorem lid?_eq_get?_places (m : IndexMap) (gid : UInt64) :
    m.lid? gid = (places m.gids).get? gid := by
  refine Option.ext fun lid => ?_
  rw [lid?_eq_some_iff, get?_places_eq_some_iff, gid?]
  refine (and_iff_left_of_imp fun hget later hlt hlater => ?_).symm
  obtain ⟨_, hlid⟩ := List.getElem?_eq_some_iff.1 hget
  obtain ⟨_, heq⟩ := List.getElem?_eq_some_iff.1 hlater
  exact Nat.ne_of_lt hlt (m.nodup.getElem_inj_iff.1 (hlid.trans heq.symm))

/-- **The checks are those made on the table.** -/
theorem map_ofGids (gids : List UInt64) (numGlobal : UInt64) :
    ((ofGids gids numGlobal).map fun _ => ()) = checkPlaces gids numGlobal := by
  unfold ofGids checkPlaces
  by_cases hnodup : gids.Nodup
  · rw [dif_pos hnodup, if_neg (not_not.2 (size_places_eq_length_iff.2 hnodup))]
    cases hfind : gids.find? fun g => ¬ g < numGlobal with
    | none =>
      rw [dif_pos (by simpa using hfind)]
      rfl
    | some g =>
      have hg : g ∈ gids ∧ ¬ g < numGlobal :=
        ⟨List.mem_of_find?_eq_some hfind, by simpa using List.find?_some hfind⟩
      rw [dif_neg fun hall => hg.2 (by simpa using List.all_eq_true.1 hall g hg.1)]
      rfl
  · rw [dif_neg hnodup, if_pos (mt size_places_eq_length_iff.1 hnodup), length_ascending,
      size_places]
    rfl

end Unknowns.IndexMap
