import Unknowns.Proofs.Build.Elements
import Unknowns.Proofs.Negotiation.Designations

/-!
# Designated owners in a build

A mesh designates owners of sub-entities, but a rank can own only the unknowns
that its elements refer to (`Crew.References`).  Where all ranks know the same
designations, the designated rank owns every unknown on the sub-entity that it
refers to; one that it does not refer to, as when the field is registered only
for blocks of other ranks, goes to the lowest rank that does
(`Succeeded.owner_designated`, `Succeeded.designated_rank_without_field`).
-/

namespace Unknowns

namespace Crew

open World Negotiation Parties

variable {c : Crew} {report : Nat → Manager.Report}

/-- An element of rank `r` has a place for the key. -/
def References (c : Crew) (report : Nat → Manager.Report) (r : Nat) (k : DofKey) : Prop :=
  ∃ e < (c.mesh r).numElements, ∃ place, (report r).manager.Addresses (c.mesh r) e place k

namespace Succeeded

/-- **The keys that a rank negotiates** are those that its elements refer to. -/
theorem references_iff (h : c.Succeeded report) {r : Nat} (hr : r < c.count) {k : DofKey} :
    c.References report r k ↔ k ∈ c.parties.keys r := by
  rw [mem_keys_parties]
  constructor
  · rintro ⟨e, he, place, haddress⟩
    obtain ⟨ks, hks, -⟩ := h.exists_keys hr he
    exact ⟨ks, List.mem_of_getElem? hks,
      List.mem_of_getElem? ((h.addresses_iff hr he hks).1 haddress)⟩
  · rintro ⟨ks, hks, hk⟩
    obtain ⟨e, hks⟩ := List.mem_iff_getElem?.1 hks
    obtain ⟨place, hplace⟩ := List.mem_iff_getElem?.1 hk
    have he := h.lt_numElements hr hks
    exact ⟨e, he, place, (h.addresses_iff hr he hks).2 hplace⟩

/-- All ranks that refer to a key know its owner. -/
theorem owner?_eq (h : c.Succeeded report) {r : Nat} (hr : r < c.count) {k : DofKey}
    (hk : k ∈ c.parties.keys r) :
    ∃ n, (report r).manager.numbering = .ok n ∧ n.ownership.owner? k = some (c.keyOwner k) := by
  refine ⟨_, h.numbering_eq_ok hr, ?_⟩
  rw [h.numbering_eq hr, owner?_numbering, keys_carried, if_pos hk, keyOwner]

end Succeeded

end Crew

/-! ### Two bars in blocks of their own -/

namespace Joint

/-- Rank 1 is designated for the common node. -/
def designated (e : SubEntity) : Option Nat := if e = .node 2 then some 1 else none

/-- Rank `r` holds the bar between the nodes `r + 1` and `r + 2`, in block `r`. -/
def mesh (r : Nat) : Mesh :=
  { Mesh.ofTables [⟨0, some .segment, if r = 0 then [0] else []⟩,
      ⟨1, some .segment, if r = 0 then [] else [0]⟩] 1 [some (.ofNat r)]
      [some [.node (.ofNat (r + 1)), .node (.ofNat (r + 2)), .edge (.ofNat (r + 10))]] with
    entityOwner := designated }

/-- Field `u` is on block 0 and field `v` on block 1. -/
def manager (r : Nat) : Manager :=
  { Manager.new ⟨.standard, true⟩ with
    binding := some ⟨mesh r, World.seat 2 r⟩
    registry := ⟨Table.tabulate ["u", "v"] fun n => if n = "u" then 0 else 1, ["u", "v"]⟩
    blockPatterns := Table.tabulate [0, 1] fun b =>
      Table.tabulate [if b = 0 then 0 else 1] fun _ => Bars.nodal }

/-- The managers of the two bars. -/
def crew : Crew where
  count := 2
  config := ⟨.standard, true⟩
  manager := manager
  mesh := mesh
  seat := World.seat 2
  bound _ _ := rfl
  tags _ _ := rfl
  checked := .inl fun _ _ => rfl
  seated _ _ := .inl rfl

theorem isOk_outcome : ∀ r < 2, (crew.outcome r).isOk = true := by decide +kernel

theorem ready_crew : crew.Ready := by
  refine fun r hr => (Negotiation.agreed_eq_ok_iff hr).2 ⟨by decide, ?_, fun _ => ?_⟩
  · refine List.filter_eq_nil_iff.2 fun s hs => ?_
    rw [isOk_outcome s (List.mem_range.1 hs)]
    exact Bool.false_ne_true
  · exact Negotiation.differing?_eq_none_iff.2 fun _ _ => rfl

theorem fits_crew : crew.Fits where
  card_lt := by decide +kernel
  claims := by
    unfold Negotiation.Parties.Brief
    decide +kernel
  rows := by decide +kernel
  ghosts := by decide +kernel

theorem succeeded_crew : crew.Succeeded crew.report where
  count_lt := by decide
  fits _ := fits_crew
  narrow := by
    unfold Negotiation.Parties.Narrow
    decide +kernel
  run := Crew.run_build ready_crew.steady (fun _ => fits_crew)
    (Negotiation.Parties.named_of_count_lt (by decide) _)
  ok r hr := (Crew.outcome_report r).trans (ready_crew r hr)

theorem references_u : crew.References crew.report 0 ⟨.node 2, 0, 0⟩ :=
  (succeeded_crew.references_iff (by decide)).2 (by decide +kernel)

theorem references_v : crew.References crew.report 1 ⟨.node 2, 1, 0⟩ :=
  (succeeded_crew.references_iff (by decide)).2 (by decide +kernel)

end Joint

/-! ### Owners -/

namespace Crew

open World Negotiation Parties

namespace Succeeded

variable {c : Crew} {report : Nat → Manager.Report}

/-- **The designated rank owns what it refers to.**  After a build in which all ranks know the same
designations, each unknown on a sub-entity that is designated to a rank of the world has one owner,
known to all ranks that refer to it.  This is the designated rank exactly if that refers to the
unknown, and else the lowest rank that does. -/
theorem owner_designated (h : c.Succeeded report) {owner : SubEntity → Option Nat}
    (hcommon : ∀ s < c.count, (c.mesh s).entityOwner = owner) {r : Nat} (hr : r < c.count)
    {k : DofKey} (hdesignated : owner k.entity = some r) {s : Nat} (hs : s < c.count)
    (hk : c.References report s k) :
    ∃ o < c.count, c.References report o k ∧
      (∀ t < c.count, c.References report t k →
        ∃ n, (report t).manager.numbering = .ok n ∧ n.ownership.owner? k = some o) ∧
      (o = r ↔ c.References report r k) ∧
      (o ≠ r → ∀ t < o, ¬ c.References report t k) := by
  have hkeys := (h.references_iff hs).1 hk
  have hall : k ∈ c.parties.allKeys := mem_allKeys.2 ⟨s, hs, hkeys⟩
  have hcarried : k ∈ c.parties.carried.allKeys := mem_allKeys_of_mem hs hkeys
  have hlt : c.keyOwner k < c.count := owner_lt hcarried
  have href : c.References report (c.keyOwner k) k :=
    (h.references_iff hlt).2 (mem_keys_owner hcarried)
  have hmod : r % 2 ^ 32 = r := Nat.mod_eq_of_lt (Nat.lt_trans hr h.count_lt)
  have howner : c.keyOwner k =
      if r ∈ c.parties.claimants k then r else (c.parties.claimants k).min?.getD 0 := by
    rw [keyOwner, owner_carried_of_common (w := c.parties) h.count_lt hcommon hall,
      ruled_of_some (d := r) (by rw [hdesignated, Option.map_some, hmod])]
  refine ⟨c.keyOwner k, hlt, href,
    fun t ht htk => h.owner?_eq ht ((h.references_iff ht).1 htk), ⟨?_, fun hrk => ?_⟩,
    fun hne t ht htk => ?_⟩
  · exact fun he => he ▸ href
  · rw [howner, if_pos (mem_claimants.2 ⟨hr, (h.references_iff hr).1 hrk⟩)]
  · have hout : r ∉ c.parties.claimants k := fun hm => hne (howner.trans (if_pos hm))
    have htc : t < c.count := Nat.lt_trans ht hlt
    have hclaim : t ∈ c.parties.claimants k := mem_claimants.2 ⟨htc, (h.references_iff htc).1 htk⟩
    obtain ⟨m, hm⟩ := Option.isSome_iff_exists.1 (List.isSome_min?_of_mem hclaim)
    rw [howner, if_neg hout, hm, Option.getD_some] at ht
    exact absurd ht (Nat.not_lt.2 ((List.min?_eq_some_iff.1 hm).2 t hclaim))

/-- Field `v` is on both ends of the bar of rank 1, which owns it on the common node. -/
theorem owner_designated_joint :
    Joint.crew.References Joint.crew.report 1 ⟨.node 2, 1, 0⟩ ∧
      ∃ n, (Joint.crew.report 1).manager.numbering = .ok n ∧
        n.ownership.owner? ⟨.node 2, 1, 0⟩ = some 1 := by
  have hk := Joint.references_v
  have hcommon : ∀ s < Joint.crew.count, (Joint.crew.mesh s).entityOwner = Joint.designated :=
    fun _ _ => rfl
  obtain ⟨o, -, -, hknown, howner, -⟩ :=
    Joint.succeeded_crew.owner_designated hcommon (r := 1) (by decide) rfl (by decide) hk
  obtain ⟨n, hn, hown⟩ := hknown 1 (by decide) hk
  exact ⟨hk, n, hn, howner.2 hk ▸ hown⟩

/-- **A designated rank need not own all unknowns.**  Rank 1 is designated for node 2, which its bar
has, but field `u` is only on the block of rank 0, which owns it there. -/
theorem designated_rank_without_field :
    Joint.crew.Succeeded Joint.crew.report ∧
      (∀ s < Joint.crew.count, (Joint.crew.mesh s).entityOwner = Joint.designated) ∧
      Joint.designated (.node 2) = some 1 ∧
      (∃ connectivity, (Joint.crew.mesh 1).connectivity 0 = some connectivity ∧
        .node 2 ∈ connectivity) ∧
      Joint.crew.References Joint.crew.report 0 ⟨.node 2, 0, 0⟩ ∧
      ∃ n, (Joint.crew.report 0).manager.numbering = .ok n ∧
        n.ownership.owner? ⟨.node 2, 0, 0⟩ = some 0 := by
  have hkeys := (Joint.succeeded_crew.references_iff (by decide)).1 Joint.references_u
  obtain ⟨n, hn, hown⟩ := Joint.succeeded_crew.owner?_eq (by decide) hkeys
  have howner : Joint.crew.keyOwner ⟨.node 2, 0, 0⟩ = 0 := by decide +kernel
  exact ⟨Joint.succeeded_crew, fun _ _ => rfl, rfl, ⟨_, rfl, by decide⟩, Joint.references_u, n, hn,
    howner ▸ hown⟩

end Succeeded

end Crew

end Unknowns
