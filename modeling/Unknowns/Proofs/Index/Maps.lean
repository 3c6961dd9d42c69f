import Unknowns.Proofs.Index.Lookup
import Unknowns.Proofs.Json.Forms

/-!
# Which ids make an index map, and what it is good for

Ids make an index map if they are distinct and in range; the map keeps their order, and
local and global ids are inverse to each other in it.  Ids that make none are told why:
that one is repeated, or which is the first out of range.  A form is read the same way as
a list of ids is taken (`parseIndexMap?_indexMapFields`), so a map that is written reads
back: `IndexMap.ofGids_inverts`.
-/

namespace Unknowns

namespace IndexMap

variable {gids : List UInt64} {numGlobal : UInt64} {m : IndexMap}

theorem exists_ofGids_iff :
    (∃ m, ofGids gids numGlobal = .ok m) ↔ gids.Nodup ∧ ∀ g ∈ gids, g < numGlobal := by
  constructor
  · rintro ⟨m, hm⟩
    unfold ofGids at hm
    split_ifs at hm with hnodup hall
    exact ⟨hnodup, by simpa using hall⟩
  · rintro ⟨hnodup, hall⟩
    exact ⟨⟨gids, numGlobal, hnodup, hall⟩, ofGids_self ⟨gids, numGlobal, hnodup, hall⟩⟩

/-- The map keeps the ids with their order, and the range. -/
theorem fields_of_ofGids (h : ofGids gids numGlobal = .ok m) :
    m.gids = gids ∧ m.numGlobal = numGlobal := by
  unfold ofGids at h
  split_ifs at h
  obtain rfl := Except.ok.inj h
  exact ⟨rfl, rfl⟩

theorem contains_iff {gid : UInt64} : m.contains gid = true ↔ gid ∈ m.gids := by
  rw [contains, Option.isSome_iff_exists, List.mem_iff_getElem?]
  exact exists_congr fun _ => lid?_eq_some_iff

/-- Ids of which one is repeated are refused with their number and that of the distinct ones. -/
theorem ofGids_of_not_nodup (h : ¬ gids.Nodup) :
    ofGids gids numGlobal =
      .error (.invalidIndexMap (.duplicates gids.length gids.toFinset.card)) := by
  rw [ofGids, dif_neg h, length_ascending]

/-- Distinct ids of which one is out of range are refused with the first such one. -/
theorem ofGids_of_not_lt (hnodup : gids.Nodup) (h : ∃ g ∈ gids, ¬ g < numGlobal) :
    ∃ before g after, gids = before ++ g :: after ∧ (∀ x ∈ before, x < numGlobal) ∧
      ¬ g < numGlobal ∧
      ofGids gids numGlobal = .error (.invalidIndexMap (.outOfRange g numGlobal)) := by
  obtain ⟨g, hfind⟩ : ∃ g, gids.find? (fun g => ¬ g < numGlobal) = some g := by
    rw [← Option.isSome_iff_exists, List.find?_isSome]
    simpa using h
  obtain ⟨hg, before, after, rfl, hbefore⟩ := List.find?_eq_some_iff_append.1 hfind
  have hnot : ¬ g < numGlobal := of_decide_eq_true hg
  refine ⟨before, g, after, rfl, fun x hx => by simpa using hbefore x hx, hnot, ?_⟩
  have hall : ¬ (before ++ g :: after).all (· < numGlobal) = true := fun hall =>
    hnot (of_decide_eq_true (List.all_eq_true.1 hall g (List.mem_append_right _ List.mem_cons_self)))
  rw [ofGids, dif_pos hnodup, dif_neg hall, hfind, Option.getD_some]

end IndexMap

namespace Form

/-- The form that the index map with the given ids and the given range would have. -/
def indexMapFields (gids : List UInt64) (numGlobal : UInt64) : Json :=
  .obj [("gids", write gids), ("num_global", write numGlobal)]

theorem written_indexMapFields (gids : List UInt64) (numGlobal : UInt64) :
    Json.Written (indexMapFields gids numGlobal) := by
  refine .obj (fun f hf => ?_) fun f hf => ?_ <;>
    obtain rfl | rfl := List.mem_pair.1 hf
  · exact ⟨"gids", rfl⟩
  · exact ⟨"num_global", rfl⟩
  · exact LawfulForm.written_write gids
  · exact LawfulForm.written_write numGlobal

/-- **A form is taken as its ids are.** -/
theorem readIndexMap_indexMapFields (gids : List UInt64) (numGlobal : UInt64) :
    readIndexMap (indexMapFields gids numGlobal) = some (IndexMap.ofGids gids numGlobal) := by
  have hnames : ["gids", "num_global"].Nodup := by decide
  have hrecord : (indexMapFields gids numGlobal).record? ["gids", "num_global"] =
      some [write gids, write numGlobal] :=
    Json.record?_obj [("gids", write gids), ("num_global", write numGlobal)] hnames
  rw [readIndexMap, hrecord]
  simp only [Option.bind_eq_bind, Option.bind_some, LawfulForm.read_write]

/-- And so is its text. -/
theorem parseIndexMap?_indexMapFields (gids : List UInt64) (numGlobal : UInt64) :
    parseIndexMap? (indexMapFields gids numGlobal).render =
      some (IndexMap.ofGids gids numGlobal) := by
  rw [parseIndexMap?, Json.parseFront?_render (written_indexMapFields gids numGlobal)]
  simp only [Option.bind_eq_bind, Option.bind_some, readIndexMap_indexMapFields]
  cases IndexMap.ofGids gids numGlobal with
  | error e => rfl
  | ok m => rfl

end Form

/-- **Distinct ids in range, and no others, make an index map, in which local and global ids are
inverse to each other**; the map keeps the order of the ids, it finds what the table of their places
says, and it reads back from its form.  Of ids that make none the error names the first that is out
of range or, if any is repeated, their number and how many of them are distinct.  The checks are
those of the table against the list, and reading a form makes the same ones. -/
theorem IndexMap.ofGids_inverts (gids : List UInt64) (numGlobal : UInt64) :
    ((∃ m, ofGids gids numGlobal = .ok m) ↔ gids.Nodup ∧ ∀ g ∈ gids, g < numGlobal) ∧
    (∀ m, ofGids gids numGlobal = .ok m →
      m.gids = gids ∧ m.numGlobal = numGlobal ∧
      (∀ lid, m.gid? lid = gids[lid]?) ∧
      (∀ gid lid, m.lid? gid = some lid ↔ m.gid? lid = some gid) ∧
      (∀ gid, m.lid? gid = (places gids).get? gid) ∧
      (∀ gid, m.contains gid = true ↔ gid ∈ gids) ∧
      Form.readIndexMap (Form.writeIndexMap m) = some (.ok m) ∧
      Form.parseIndexMap? (Form.writeIndexMap m).render = some (.ok m)) ∧
    (¬ gids.Nodup →
      ofGids gids numGlobal =
        .error (.invalidIndexMap (.duplicates gids.length gids.toFinset.card))) ∧
    (gids.Nodup → (∃ g ∈ gids, ¬ g < numGlobal) →
      ∃ before g after, gids = before ++ g :: after ∧ (∀ x ∈ before, x < numGlobal) ∧
        ¬ g < numGlobal ∧
        ofGids gids numGlobal = .error (.invalidIndexMap (.outOfRange g numGlobal))) ∧
    ((ofGids gids numGlobal).map fun _ => ()) = checkPlaces gids numGlobal ∧
    Form.readIndexMap (Form.indexMapFields gids numGlobal) = some (ofGids gids numGlobal) ∧
    Form.parseIndexMap? (Form.indexMapFields gids numGlobal).render =
      some (ofGids gids numGlobal) := by
  refine ⟨exists_ofGids_iff, fun m hm => ?_, ofGids_of_not_nodup, ofGids_of_not_lt,
    map_ofGids gids numGlobal, Form.readIndexMap_indexMapFields gids numGlobal,
    Form.parseIndexMap?_indexMapFields gids numGlobal⟩
  obtain ⟨rfl, rfl⟩ := fields_of_ofGids hm
  have hread := Form.readIndexMap_indexMapFields m.gids m.numGlobal
  have hparse := Form.parseIndexMap?_indexMapFields m.gids m.numGlobal
  rw [hm] at hread hparse
  exact ⟨rfl, rfl, fun _ => rfl, fun _ _ => lid?_eq_some_iff, lid?_eq_get?_places m,
    fun _ => contains_iff, hread, hparse⟩

/-- Ids out of order make a map; of a repeated one, and of two out of range, the errors tell. -/
theorem IndexMap.ofGids_inverts_three :
    (∃ m, ofGids [4, 2, 9] 10 = .ok m ∧ m.lid? 9 = some 2 ∧ m.gid? 2 = some 9 ∧
      Form.parseIndexMap? (Form.writeIndexMap m).render = some (.ok m)) ∧
    ofGids [7, 3, 7] 5 = .error (.invalidIndexMap (.duplicates 3 2)) ∧
    ofGids [1, 8, 6] 5 = .error (.invalidIndexMap (.outOfRange 8 5)) := by
  refine ⟨?_, ?_, ?_⟩
  · obtain ⟨m, hm⟩ := (ofGids_inverts [4, 2, 9] 10).1.2 ⟨by decide, by simp⟩
    obtain ⟨-, -, hget, hlid, -, -, -, hparse⟩ := (ofGids_inverts [4, 2, 9] 10).2.1 m hm
    exact ⟨m, hm, (hlid 9 2).2 (hget 2), hget 2, hparse⟩
  · exact (ofGids_inverts [7, 3, 7] 5).2.2.1 (by decide)
  · obtain ⟨before, g, after, heq, hbefore, hg, herror⟩ :=
      (ofGids_inverts [1, 8, 6] 5).2.2.2.1 (by decide) ⟨8, by simp, by decide⟩
    rcases before with _ | ⟨x, _ | ⟨y, before⟩⟩
    · obtain ⟨rfl, -⟩ := List.cons.inj heq
      exact absurd (by decide) hg
    · obtain ⟨rfl, -⟩ := List.cons.inj (List.cons.inj heq).2
      exact herror
    · obtain ⟨rfl, -⟩ := List.cons.inj (List.cons.inj heq).2
      exact absurd (hbefore 8 (by simp)) (by decide)

end Unknowns
