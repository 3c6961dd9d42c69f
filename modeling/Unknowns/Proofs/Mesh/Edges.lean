import Mathlib.Data.List.Rotate
import Mathlib.Data.Nat.Find
import Mathlib.Data.Nat.Sqrt
import Mathlib.Data.Sym.Sym2
import Unknowns.Proofs.Mesh.FromNodes

/-!
# Ids of edges

Two nodes give their edge its id by a pairing of their own ids, which loses nothing:
the larger id is the square root of the pairing, and the smaller one is the rest.
The pairing fits a word as long as the larger id is below `2 ^ 32`.

* `edgeGid?_eq_some_iff`: an id is the pairing itself, never what is left of it in a word;
* `edgesAround_eq_error_iff`: the edges around a plane cell have ids unless a node is too large, and
  the first pair with such a node is reported;
* `edges_paired`: hence when elements that are given by their nodes are refused, and when
  they share an edge.
-/

namespace Unknowns

open Assembly (subEntities pairsAround edgeBetween edgesAround addElementFromNodes)

/-! ### The pairing -/

/-- The square of the larger number plus the smaller one. -/
def pairing (a b : Nat) : Nat := max a b * max a b + min a b

theorem pairing_comm (a b : Nat) : pairing a b = pairing b a := by
  rw [pairing, pairing, max_comm, min_comm]

theorem sqrt_pairing (a b : Nat) : Nat.sqrt (pairing a b) = max a b :=
  Nat.sqrt_add_eq _ (by omega)

/-- **The pairing determines the two numbers**, but not their order. -/
theorem pairing_eq_pairing_iff {a b c d : Nat} :
    pairing a b = pairing c d ↔ s(a, b) = s(c, d) := by
  constructor
  · intro h
    have hmax : max a b = max c d := by rw [← sqrt_pairing, h, sqrt_pairing]
    have hmin : min a b = min c d := by
      rw [pairing, pairing, hmax] at h
      exact Nat.add_left_cancel h
    rw [Sym2.eq_iff]
    omega
  · intro h
    obtain ⟨rfl, rfl⟩ | ⟨rfl, rfl⟩ := Sym2.eq_iff.1 h
    · rfl
    · exact pairing_comm ..

/-- **The pairing fits a word exactly if both numbers fit half a word.** -/
theorem pairing_lt_iff (a b : Nat) : pairing a b < UInt64.size ↔ max a b < 2 ^ 32 := by
  have hmin : min a b ≤ max a b := by omega
  have hword : UInt64.size = 2 ^ 32 * 2 ^ 32 := rfl
  unfold pairing
  constructor
  · intro h
    by_contra hle
    have hsquare := Nat.mul_le_mul (Nat.le_of_not_lt hle) (Nat.le_of_not_lt hle)
    omega
  · intro h
    calc max a b * max a b + min a b
        < max a b * max a b + 2 ^ 32 := by omega
      _ ≤ (2 ^ 32 - 1) * (2 ^ 32 - 1) + 2 ^ 32 :=
        Nat.add_le_add_right (Nat.mul_le_mul (by omega) (by omega)) _
      _ ≤ UInt64.size := by decide

/-- **An id is the whole pairing.** -/
theorem edgeGid?_eq_some_iff {a b g : UInt64} :
    edgeGid? a b = some g ↔ g.toNat = pairing a.toNat b.toNat := by
  show (if pairing a.toNat b.toNat < UInt64.size then
    some (UInt64.ofNat (pairing a.toNat b.toNat)) else none) = some g ↔ _
  split
  · next h =>
    rw [Option.some_inj, ← UInt64.toNat_inj, UInt64.toNat_ofNat', Nat.mod_eq_of_lt h, eq_comm]
  · next h => exact iff_of_false nofun fun heq => h (heq ▸ g.toNat_lt)

theorem edgeGid?_isSome_iff {a b : UInt64} :
    (edgeGid? a b).isSome ↔ max a.toNat b.toNat < 2 ^ 32 := by
  rw [← pairing_lt_iff, Option.isSome_iff_exists]
  simp only [edgeGid?_eq_some_iff]
  constructor
  · rintro ⟨g, hg⟩
    exact hg ▸ g.toNat_lt
  · intro h
    exact ⟨.ofNat _, by rw [UInt64.toNat_ofNat', Nat.mod_eq_of_lt h]⟩

theorem edgeGid?_eq_none_iff {a b : UInt64} :
    edgeGid? a b = none ↔ 2 ^ 32 ≤ max a.toNat b.toNat := by
  rw [← Option.not_isSome_iff_eq_none, edgeGid?_isSome_iff, Nat.not_lt]

theorem edgeGid?_comm (a b : UInt64) : edgeGid? a b = edgeGid? b a := by
  ext g
  rw [edgeGid?_eq_some_iff, edgeGid?_eq_some_iff, pairing_comm]

theorem toNat_pair_inj {a b c d : UInt64} :
    s(a.toNat, b.toNat) = s(c.toNat, d.toNat) ↔ s(a, b) = s(c, d) := by
  simp only [Sym2.eq_iff, UInt64.toNat_inj]

theorem edgeGid?_inj {a b c d : UInt64} (h : (edgeGid? a b).isSome) :
    edgeGid? a b = edgeGid? c d ↔ s(a, b) = s(c, d) := by
  obtain ⟨g, hg⟩ := Option.isSome_iff_exists.1 h
  rw [hg, eq_comm, edgeGid?_eq_some_iff, edgeGid?_eq_some_iff.1 hg, pairing_eq_pairing_iff,
    toNat_pair_inj]

/-! ### Around a cell -/

/-- At place `i` of a list stands `a`, and `b` follows; the last member is followed by the first. -/
def Around (nodes : List UInt64) (i : Nat) (a b : UInt64) : Prop :=
  nodes[i]? = some a ∧ nodes[(i + 1) % nodes.length]? = some b

/-- The first pair around a list of which a member has no room in half a word. -/
def FirstOversized (nodes : List UInt64) (a b : UInt64) : Prop :=
  ∃ i, Around nodes i a b ∧ 2 ^ 32 ≤ max a.toNat b.toNat ∧
    ∀ j < i, ∀ c d, Around nodes j c d → max c.toNat d.toNat < 2 ^ 32

theorem edgeBetween_eq_ok_iff {a b g : UInt64} :
    edgeBetween a b = .ok g ↔ edgeGid? a b = some g := by
  unfold edgeBetween
  cases edgeGid? a b <;> simp

theorem edgeBetween_eq_error_iff {a b : UInt64} {e : Error} :
    edgeBetween a b = .error e ↔ 2 ^ 32 ≤ max a.toNat b.toNat ∧ e = .edgeIdOverflow a b := by
  rw [← edgeGid?_eq_none_iff]
  unfold edgeBetween
  cases edgeGid? a b <;> simp [eq_comm]

section
variable {nodes : List UInt64} {i : Nat} {a b : UInt64}

theorem getElem?_pairsAround : (pairsAround nodes)[i]? = some (a, b) ↔ Around nodes i a b := by
  rw [pairsAround, List.getElem?_zip_eq_some]
  refine and_congr_right fun ha => ?_
  have hlt : i < nodes.length := (List.getElem?_eq_some_iff.1 ha).1
  rw [← List.rotate_eq_drop_append_take (by omega), List.getElem?_rotate hlt]

theorem mem_pairsAround : (a, b) ∈ pairsAround nodes ↔ ∃ i, Around nodes i a b := by
  simp only [List.mem_iff_getElem?, getElem?_pairsAround]

/-- **The edges are those of the pairs around the list.** -/
theorem mem_edgesAround {edges : List UInt64} (h : edgesAround nodes = .ok edges) {g : UInt64} :
    g ∈ edges ↔ ∃ i a b, Around nodes i a b ∧ edgeGid? a b = some g := by
  rw [mem_iff_of_mapM h]
  simp only [Prod.exists, mem_pairsAround, edgeBetween_eq_ok_iff]
  exact ⟨fun ⟨a, b, ⟨i, haround⟩, hg⟩ => ⟨i, a, b, haround, hg⟩,
    fun ⟨i, a, b, haround, hg⟩ => ⟨a, b, ⟨i, haround⟩, hg⟩⟩

theorem isSome_of_edgesAround {edges : List UInt64} (h : edgesAround nodes = .ok edges)
    (haround : Around nodes i a b) : (edgeGid? a b).isSome := by
  obtain ⟨g, -, hg⟩ := (getElem?_of_mapM h).2 i (a, b) (getElem?_pairsAround.2 haround)
  exact Option.isSome_iff_exists.2 ⟨g, edgeBetween_eq_ok_iff.1 hg⟩

/-- **Which pair has no edge**: the first one with a node that has no room in half a word. -/
theorem edgesAround_eq_error_iff {e : Error} :
    edgesAround nodes = .error e ↔ ∃ a b, FirstOversized nodes a b ∧ e = .edgeIdOverflow a b := by
  have hfits : ∀ c d, max c.toNat d.toNat < 2 ^ 32 ↔ ∃ g, edgeBetween c d = .ok g := by
    intro c d
    simp only [edgeBetween_eq_ok_iff, ← edgeGid?_isSome_iff, Option.isSome_iff_exists]
  rw [edgesAround, mapM_eq_error_iff]
  constructor
  · rintro ⟨before, ⟨a, b⟩, rest, hsplit, he, hbefore⟩
    obtain ⟨hlarge, rfl⟩ := edgeBetween_eq_error_iff.1 he
    refine ⟨a, b, ⟨before.length, ?_, hlarge, fun j hj c d hcd => ?_⟩, rfl⟩
    · rw [← getElem?_pairsAround, hsplit, List.getElem?_append_right le_rfl, Nat.sub_self]
      rfl
    · rw [← getElem?_pairsAround, hsplit, List.getElem?_append_left hj] at hcd
      exact (hfits c d).2 (hbefore (c, d) (List.mem_of_getElem? hcd))
  · rintro ⟨a, b, ⟨i, haround, hlarge, hfirst⟩, rfl⟩
    have hget := getElem?_pairsAround.2 haround
    obtain ⟨hi, hpair⟩ := List.getElem?_eq_some_iff.1 hget
    refine ⟨(pairsAround nodes).take i, (a, b), (pairsAround nodes).drop (i + 1), ?_,
      edgeBetween_eq_error_iff.2 ⟨hlarge, rfl⟩, fun p hp => ?_⟩
    · rw [← hpair, ← List.drop_eq_getElem_cons hi, List.take_append_drop]
    · obtain ⟨j, hj, rfl⟩ := List.mem_take_iff_getElem.1 hp
      have hlt : j < (pairsAround nodes).length := by omega
      have hget : (pairsAround nodes)[j]? = some (_, _) := List.getElem?_eq_getElem hlt
      exact (hfits _ _).1 (hfirst j (by omega) _ _ (getElem?_pairsAround.1 hget))

/-- A pair with a node that is too large is preceded by a first one. -/
theorem exists_firstOversized_iff :
    (∃ a b, FirstOversized nodes a b) ↔
      ∃ i a b, Around nodes i a b ∧ 2 ^ 32 ≤ max a.toNat b.toNat := by
  constructor
  · rintro ⟨a, b, i, haround, hlarge, -⟩
    exact ⟨i, a, b, haround, hlarge⟩
  · intro h
    classical
    obtain ⟨a, b, haround, hlarge⟩ := Nat.find_spec h
    refine ⟨a, b, Nat.find h, haround, hlarge, fun j hj c d hcd => ?_⟩
    exact Nat.lt_of_not_le fun hle => Nat.find_min h hj ⟨c, d, hcd, hle⟩

end

/-! ### Elements of plane cells -/

namespace Assembly

variable {m : AssembledMesh} {block : BlockId} {b : Block}

theorem addElement_ne_edgeIdOverflow (hb : m.blocks.get? block = some b)
    (ids : List (List UInt64)) (x y : UInt64) :
    ((addElement block ids).run m).1 ≠ .error (.edgeIdOverflow x y) := by
  rw [run_addElement hb]
  repeat' split
  all_goals exact nofun

/-- **When an element of a plane cell is refused for its edges.** -/
theorem addElementFromNodes_eq_edgeIdOverflow_iff (hb : m.blocks.get? block = some b)
    (hdim : b.cell.dimension = 2) {nodes : List UInt64} {cellGid x y : UInt64} :
    ((addElementFromNodes block nodes cellGid).run m).1 = .error (.edgeIdOverflow x y) ↔
      nodes.length = b.cell.subEntityCount 0 ∧ FirstOversized nodes x y := by
  rw [run_addElementFromNodes hb, hdim]
  split
  · next hlength => exact iff_of_false nofun fun h => hlength h.1
  · next hlength =>
    have herror : FirstOversized nodes x y ↔
        edgesAround nodes = .error (.edgeIdOverflow x y) := by
      rw [edgesAround_eq_error_iff]
      exact ⟨fun h => ⟨x, y, h, rfl⟩, by rintro ⟨_, _, h, ⟨⟩⟩; exact h⟩
    rw [herror, and_iff_right (not_not.1 hlength)]
    cases hedges : edgesAround nodes with
    | ok edges => exact iff_of_false (addElement_ne_edgeIdOverflow hb _ x y) nofun
    | error e => simp

end Assembly

/-- The edges of an element of a plane cell are those between the nodes that it lists side by
side. -/
theorem FromNodes.edge_mem_iff {cell : Cell} {nodes : List UInt64} {cellGid : UInt64} {e : Nat}
    {m : AssembledMesh} (h : FromNodes cell nodes cellGid e m) (hdim : cell.dimension = 2) :
    ∃ connectivity, m.toMesh.connectivity e = some connectivity ∧
      (∀ i a b, Around nodes i a b → (edgeGid? a b).isSome) ∧
      ∀ g, SubEntity.edge g ∈ connectivity ↔
        ∃ i a b, Around nodes i a b ∧ edgeGid? a b = some g := by
  obtain ⟨ids, hlisted, hget⟩ := h.connectivity_eq
  cases hlisted with
  | point hpoint => omega
  | line hline => omega
  | plane _ hedges =>
    refine ⟨_, hget, fun i a b => isSome_of_edgesAround hedges, fun g => ?_⟩
    rw [← mem_edgesAround hedges]
    exact mk_mem_iff 1 (ofDimension_subEntities (by simp) 1) g

section
variable {cell₁ cell₂ : Cell} {nodes₁ nodes₂ : List UInt64} {cellGid₁ cellGid₂ : UInt64}
  {e₁ e₂ : Nat} {m₁ m₂ : AssembledMesh}

/-- Two elements of plane cells have an edge in common exactly when they list the same two nodes
side by side. -/
theorem FromNodes.shares_edge_iff (h₁ : FromNodes cell₁ nodes₁ cellGid₁ e₁ m₁)
    (h₂ : FromNodes cell₂ nodes₂ cellGid₂ e₂ m₂) (hdim₁ : cell₁.dimension = 2)
    (hdim₂ : cell₂.dimension = 2) :
    ∃ connectivity₁ connectivity₂, m₁.toMesh.connectivity e₁ = some connectivity₁ ∧
      m₂.toMesh.connectivity e₂ = some connectivity₂ ∧
      ((∃ g, SubEntity.edge g ∈ connectivity₁ ∧ SubEntity.edge g ∈ connectivity₂) ↔
        ∃ i a b j c d, Around nodes₁ i a b ∧ Around nodes₂ j c d ∧ s(a, b) = s(c, d)) := by
  obtain ⟨c₁, hget₁, hsome₁, hedges₁⟩ := h₁.edge_mem_iff hdim₁
  obtain ⟨c₂, hget₂, -, hedges₂⟩ := h₂.edge_mem_iff hdim₂
  refine ⟨c₁, c₂, hget₁, hget₂, ?_⟩
  simp only [hedges₁, hedges₂]
  constructor
  · rintro ⟨g, ⟨i, a, b, haround₁, hg₁⟩, ⟨j, c, d, haround₂, hg₂⟩⟩
    refine ⟨i, a, b, j, c, d, haround₁, haround₂, (edgeGid?_inj ?_).1 (hg₁.trans hg₂.symm)⟩
    exact Option.isSome_iff_exists.2 ⟨g, hg₁⟩
  · rintro ⟨i, a, b, j, c, d, haround₁, haround₂, hsame⟩
    have hsome := hsome₁ i a b haround₁
    obtain ⟨g, hg⟩ := Option.isSome_iff_exists.1 hsome
    exact ⟨g, ⟨i, a, b, haround₁, hg⟩, j, c, d, haround₂,
      ((edgeGid?_inj hsome).2 hsame).symm.trans hg⟩

end

/-- **Edges get their ids from pairs of nodes without loss.**  Two nodes have an id for their edge
as long as both are below `2 ^ 32`; it is the pairing itself, does not depend on their order and
determines both.  Hence an element of a plane cell that lists as many nodes as the cell has is
refused for its edges exactly if a node is too large, with the first such pair, and two such
elements, of one mesh or of two, have an edge in common exactly when they list the same two nodes
side by side. -/
theorem edges_paired :
    (∀ a b, (edgeGid? a b).isSome ↔ max a.toNat b.toNat < 2 ^ 32) ∧
    (∀ a b g, edgeGid? a b = some g → g.toNat = pairing a.toNat b.toNat) ∧
    (∀ a b, edgeGid? a b = edgeGid? b a) ∧
    (∀ a b c d, (edgeGid? a b).isSome → (edgeGid? c d).isSome →
      (edgeGid? a b = edgeGid? c d ↔ s(a, b) = s(c, d))) ∧
    (∀ (m : AssembledMesh) block cell nodes cellGid, m.toMesh.blockCell block = some cell →
      cell.dimension = 2 →
      (∀ a b, ((addElementFromNodes block nodes cellGid).run m).1 =
          .error (.edgeIdOverflow a b) ↔
        nodes.length = cell.subEntityCount 0 ∧ FirstOversized nodes a b) ∧
      ((∃ a b, FirstOversized nodes a b) ↔
        ∃ i a b, Around nodes i a b ∧ 2 ^ 32 ≤ max a.toNat b.toNat)) ∧
    ∀ cell₁ nodes₁ cellGid₁ e₁ m₁ cell₂ nodes₂ cellGid₂ e₂ m₂,
      FromNodes cell₁ nodes₁ cellGid₁ e₁ m₁ → FromNodes cell₂ nodes₂ cellGid₂ e₂ m₂ →
      cell₁.dimension = 2 → cell₂.dimension = 2 →
      ∃ connectivity₁ connectivity₂, m₁.toMesh.connectivity e₁ = some connectivity₁ ∧
        m₂.toMesh.connectivity e₂ = some connectivity₂ ∧
        ((∃ g, SubEntity.edge g ∈ connectivity₁ ∧ SubEntity.edge g ∈ connectivity₂) ↔
          ∃ i a b j c d, Around nodes₁ i a b ∧ Around nodes₂ j c d ∧ s(a, b) = s(c, d)) := by
  refine ⟨fun a b => edgeGid?_isSome_iff, fun a b g => edgeGid?_eq_some_iff.1, edgeGid?_comm,
    fun a b c d h _ => edgeGid?_inj h, fun m block cell nodes cellGid hcell hdim => ?_,
    fun _ _ _ _ _ _ _ _ _ _ h₁ h₂ hdim₁ hdim₂ => h₁.shares_edge_iff h₂ hdim₁ hdim₂⟩
  obtain ⟨b, hb, rfl⟩ := Option.map_eq_some_iff.1 hcell
  exact ⟨fun x y => Assembly.addElementFromNodes_eq_edgeIdOverflow_iff hb hdim,
    exists_firstOversized_iff⟩

/-- **The nodes are counted before their edges are looked at**: two of them are no triangle, and this
is what is reported, however large they are. -/
theorem nodes_counted_before_edges :
    FirstOversized [4294967296, 1] 4294967296 1 ∧
      ((addElementFromNodes 0 [4294967296, 1] 5).run
        (AssembledMesh.empty.after [.addBlock 0 .triangle])).1 =
          .error (.connectivityMismatch 0 3 2) := by
  refine ⟨⟨0, ⟨rfl, rfl⟩, by decide, fun j hj => ?_⟩, rfl⟩
  exact absurd hj (Nat.not_lt_zero j)

/-- A mesh of one triangle. -/
def triangleOn (nodes : List UInt64) : AssembledMesh :=
  AssembledMesh.empty.after [.addBlock 0 .triangle, .addElementFromNodes 0 nodes 10]

theorem fromNodes_triangle {nodes : List UInt64}
    (h : ((addElementFromNodes 0 nodes 10).run
      (AssembledMesh.empty.after [.addBlock 0 .triangle])).1 = .ok 0) :
    FromNodes .triangle nodes 10 0 (triangleOn nodes) := by
  have hrun : triangleOn nodes = ((addElementFromNodes 0 nodes 10).run
      (AssembledMesh.empty.after [.addBlock 0 .triangle])).2 := by
    show (Prod.snd ((Call.addElementFromNodes 0 nodes 10).perform.run _)) = _
    rw [Call.perform, run_map]
    rfl
  exact hrun ▸ .added rfl h

theorem edges_paired_triangles :
    (edgeGid? 3 2 = edgeGid? 2 3 ∧ edgeGid? 3 2 ≠ edgeGid? 3 1) ∧
      ((addElementFromNodes 0 [0, 4294967296, 1] 5).run
        (AssembledMesh.empty.after [.addBlock 0 .triangle])).1 =
          .error (.edgeIdOverflow 0 4294967296) ∧
      ∃ connectivity₁ connectivity₂,
        (triangleOn [1, 2, 3]).toMesh.connectivity 0 = some connectivity₁ ∧
        (triangleOn [3, 2, 4]).toMesh.connectivity 0 = some connectivity₂ ∧
        ∃ g, SubEntity.edge g ∈ connectivity₁ ∧ SubEntity.edge g ∈ connectivity₂ := by
  obtain ⟨-, -, -, hinj, hrefused, hshared⟩ := edges_paired
  refine ⟨⟨(hinj 3 2 2 3 rfl rfl).2 (by decide), fun h => ?_⟩, ?_, ?_⟩
  · exact absurd ((hinj 3 2 3 1 rfl rfl).1 h) (by decide)
  · refine ((hrefused _ 0 .triangle [0, 4294967296, 1] 5 rfl rfl).1 _ _).2 ⟨rfl, 0, ?_, ?_, ?_⟩
    · exact ⟨rfl, rfl⟩
    · decide
    · exact fun j hj => absurd hj (Nat.not_lt_zero j)
  · obtain ⟨c₁, c₂, hget₁, hget₂, h⟩ := hshared .triangle [1, 2, 3] 10 0 (triangleOn [1, 2, 3])
      .triangle [3, 2, 4] 10 0 (triangleOn [3, 2, 4]) (fromNodes_triangle rfl)
      (fromNodes_triangle rfl) rfl rfl
    exact ⟨c₁, c₂, hget₁, hget₂, h.2 ⟨1, 2, 3, 0, 3, 2, ⟨rfl, rfl⟩, ⟨rfl, rfl⟩, by decide⟩⟩

end Unknowns
