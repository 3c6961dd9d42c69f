import Unknowns.Proofs.Build.Elements
import Unknowns.Proofs.Manager.History

/-!
# What was registered stands

* `Registry.Inverse.register`: names and numbers belong together, a new name gets the next free
  number, and no number is given up;
* `Manager.Reached.named`: so the names of a manager are those of its history, each once, in the
  order in which they first occur;
* `Manager.Reached.layouts`: the layouts of a result are those of the fields that are registered now;
* `Manager.registrations_stand`: names, numbers and patterns of a manager as its history has them, and
  the layouts of a result as its patterns have them.
-/

namespace Unknowns

/-- A list without repetitions grows by what is new. -/
theorem eraseDups_append_singleton {α : Type} [DecidableEq α] (xs : List α) (x : α) :
    (xs ++ [x]).eraseDups = if x ∈ xs.eraseDups then xs.eraseDups else xs.eraseDups ++ [x] := by
  rw [List.eraseDups_append]
  by_cases hx : x ∈ xs <;> simp [List.removeAll, List.eraseDups_cons, hx]

theorem getElem?_append_singleton {α : Type} {xs : List α} {x y : α} {i : Nat} :
    (xs ++ [x])[i]? = some y ↔ xs[i]? = some y ∨ i = xs.length ∧ y = x := by
  rcases Nat.lt_trichotomy i xs.length with hi | rfl | hi
  · rw [List.getElem?_append_left hi, or_iff_left fun h => Nat.ne_of_lt hi h.1]
  · simp [eq_comm]
  · have hlength : (xs ++ [x]).length ≤ i := by rwa [List.length_append]
    rw [List.getElem?_eq_none hlength, List.getElem?_eq_none (Nat.le_of_lt hi)]
    simp [Nat.ne_of_gt hi]

namespace Registry

variable {r r' : Registry} {name : String} {num : Nat}

/-- The number of a name is its place among the names. -/
def Inverse (r : Registry) : Prop := ∀ name num, r.num? name = some num ↔ r.name? num = some name

/-- What a registration does: nothing to a name that is known, and a new one comes last. -/
theorem register_eq_ok (h : r.register name = .ok (num, r')) :
    r.num? name = some num ∧ r' = r ∨
      r.num? name = none ∧ num = r.names.length ∧
        r' = ⟨r.byName.insert name num, r.names ++ [name]⟩ := by
  unfold register at h
  split at h
  · cases h
  · split at h
    · next k hk =>
      obtain ⟨rfl, rfl⟩ := Prod.mk.inj (Except.ok.inj h)
      exact .inl ⟨hk, rfl⟩
    · next hnone =>
      obtain ⟨rfl, rfl⟩ := Prod.mk.inj (Except.ok.inj h)
      exact .inr ⟨hnone, rfl, rfl⟩

namespace Inverse

theorem mem_names (h : r.Inverse) : name ∈ r.names ↔ ∃ num, r.num? name = some num := by
  simp only [h name, name?, List.mem_iff_getElem?]

/-- **A registration keeps names and numbers together.** -/
theorem register (h : r.Inverse) (hr : r.register name = .ok (num, r')) :
    r'.Inverse ∧ r'.num? name = some num ∧
      (∀ s k, r.num? s = some k → r'.num? s = some k) ∧
      r'.names = if name ∈ r.names then r.names else r.names ++ [name] := by
  rcases register_eq_ok hr with ⟨hnum, rfl⟩ | ⟨hnone, rfl, rfl⟩
  · exact ⟨h, hnum, fun _ _ => id, (if_pos (h.mem_names.2 ⟨num, hnum⟩)).symm⟩
  · have hnew : name ∉ r.names := fun hmem => by
      obtain ⟨k, hk⟩ := h.mem_names.1 hmem
      rw [hnone] at hk
      cases hk
    have hget : ∀ s, num? ⟨r.byName.insert name r.names.length, r.names ++ [name]⟩ s =
        if s = name then some r.names.length else r.num? s := fun s => Table.get?_insert ..
    refine ⟨fun s k => ?_, by rw [hget, if_pos rfl], fun s k hk => ?_, (if_neg hnew).symm⟩
    · show _ ↔ (r.names ++ [name])[k]? = some s
      rw [hget, getElem?_append_singleton, ← name?, ← h s k]
      by_cases hs : s = name
      · subst hs
        simp [hnone, eq_comm]
      · simp [hs]
    · have hs : s ≠ name := by
        rintro rfl
        rw [hnone] at hk
        cases hk
      rw [hget, if_neg hs, hk]

end Inverse

end Registry

namespace Manager

variable {config : Config} {events : List Event} {m : Manager}

/-- The names that a history registers, each once, in the order of their first registration. -/
def namesIn (events : List Event) : List String :=
  ((events.filterMap Event.field?).map Prod.fst).eraseDups

/-- The fields of a manager are those of its history. -/
structure Named (events : List Event) (m : Manager) : Prop where
  inverse : m.registry.Inverse
  names : m.registry.names = namesIn events
  /-- Each name has the number that its registrations answered. -/
  numbers : ∀ name num, (name, num) ∈ events.filterMap Event.field? →
    m.registry.num? name = some num

/-- A history registers a field for one block. -/
def RegisteredFor (events : List Event) (block : BlockId) : Prop :=
  ∃ name pattern num, .register (some block) name pattern (.ok num) ∈ events

/-- An event that registers nothing. -/
theorem namesIn_append_of_none {e : Event} (h : e.field? = none) :
    namesIn (events ++ [e]) = namesIn events := by
  rw [namesIn, List.filterMap_append, List.filterMap_cons_none h, List.filterMap_nil,
    List.append_nil, namesIn]

theorem namesIn_append_of_some {e : Event} {name : String} {num : Nat}
    (h : e.field? = some (name, num)) :
    namesIn (events ++ [e]) =
      if name ∈ namesIn events then namesIn events else namesIn events ++ [name] := by
  rw [namesIn, List.filterMap_append, List.filterMap_cons_some h, List.filterMap_nil,
    List.map_append, List.map_singleton, eraseDups_append_singleton]
  rfl

theorem mem_fields_append {e : Event} {name : String} {num : Nat} :
    (name, num) ∈ (events ++ [e]).filterMap Event.field? ↔
      (name, num) ∈ events.filterMap Event.field? ∨ e.field? = some (name, num) := by
  simp [List.filterMap_append, List.mem_append]

/-- The layouts of a result are those of the fields on the mesh that is bound. -/
def LayoutsStand (m : Manager) : Prop :=
  ∀ b, m.built = some b → ∃ binding, m.binding = some binding ∧
    m.patternPhase binding.mesh = .ok b.layouts

theorem LayoutsStand.congr {m' : Manager} (h : m.LayoutsStand) (hbuilt : m'.built = m.built)
    (hbinding : m'.binding = m.binding) (hfields : m'.SameFields m) : m'.LayoutsStand := by
  intro b hb
  obtain ⟨binding, hbound, hphase⟩ := h b (hbuilt ▸ hb)
  exact ⟨binding, hbinding.trans hbound, (hfields.patternPhase_eq binding.mesh).trans hphase⟩

namespace Reached

/-- **Names and numbers are as the history has them.** -/
theorem named (h : Reached config events m) : Named events m := by
  induction h with
  | new => exact ⟨fun name num => ⟨nofun, nofun⟩, rfl, nofun⟩
  | @step events m e m' h hs ih =>
    have heffect := hs.effect h.current
    cases hfield : e.field? with
    | none =>
      have hregistry : m'.registry = m.registry := (heffect.sameFields hfield).registry
      refine ⟨hregistry ▸ ih.inverse, ?_, fun name num hmem => ?_⟩
      · rw [hregistry, ih.names, namesIn_append_of_none hfield]
      · rw [mem_fields_append, hfield] at hmem
        rw [hregistry]
        exact ih.numbers name num (hmem.resolve_right nofun)
    | some field =>
      obtain ⟨name, num⟩ := field
      obtain ⟨hinverse, hnum, hkept, hnames⟩ :=
        ih.inverse.register (heffect.registry name num hfield)
      refine ⟨hinverse, ?_, fun name' num' hmem => ?_⟩
      · rw [hnames, ih.names, namesIn_append_of_some hfield]
      · rw [mem_fields_append, hfield] at hmem
        rcases hmem with hmem | hmem
        · exact hkept name' num' (ih.numbers name' num' hmem)
        · obtain ⟨rfl, rfl⟩ := Prod.mk.inj (Option.some.inj hmem)
          exact hnum

/-- **The blocks with fields of their own** are those that the history names. -/
theorem mem_blockPatterns_iff (h : Reached config events m) {block : BlockId} :
    block ∈ m.blockPatterns.keys ↔ RegisteredFor events block := by
  unfold RegisteredFor
  induction h with
  | new => exact iff_of_false List.not_mem_nil (by simp)
  | @step events m e m' h hs ih =>
    have heffect := hs.effect h.current
    cases hfield : e.field? with
    | none =>
      have hother : ∀ name pattern num, e ≠ .register (some block) name pattern (.ok num) := by
        rintro name pattern num rfl
        cases hfield
      rw [(heffect.sameFields hfield).blockPatterns, ih]
      simp [Ne.symm (hother _ _ _)]
    | some field =>
      cases hs with
      | @register scope name pattern num _ hadd =>
        rw [mem_blockPatterns_of_addTo hadd, ih]
        simp [exists_or, eq_comm]
      | _ => cases hfield

/-- A field that has a pattern somewhere has a name. -/
theorem exists_fieldName (h : Reached config events m) {scope : Option BlockId} {field : Nat}
    {p : FieldPattern} (hp : m.patternIn? scope field = some p) :
    ∃ name, m.fieldName field = .ok name := by
  rw [h.patternIn?_eq] at hp
  obtain ⟨e, he, hpattern⟩ := List.mem_filterMap.1 (List.mem_of_getLast? hp)
  cases e with
  | register scope' name pattern outcome =>
    cases outcome with
    | error _ => cases hpattern
    | ok num =>
      have hsame : (if scope = scope' ∧ field = num then some pattern else none) = some p := hpattern
      obtain ⟨⟨-, rfl⟩, -⟩ := Option.ite_none_right_eq_some.1 hsame
      have hnum := h.named.numbers name field (List.mem_filterMap.2 ⟨_, he, rfl⟩)
      exact ⟨name, by rw [fieldName, (h.named.inverse name field).1 hnum]⟩
  | _ => cases hpattern

/-- **The layouts of a result stay those of the fields on the mesh**, since while there is a result
neither can change. -/
theorem layoutsStand (h : Reached config events m) : m.LayoutsStand := by
  induction h with
  | new => exact nofun
  | @step events m e m' h hs ih =>
    cases hs with
    | bind mesh seat => exact nofun
    | reset => exact nofun
    | setBuilder builder => exact ih.congr rfl rfl ⟨rfl, rfl, rfl⟩
    | refuse _ => exact ih
    | register hadd =>
      obtain ⟨hnone, -, -, hothers⟩ := registers_of_addTo hadd
      have hbuilt : m'.built = m.built := by rw [hothers]
      intro b hb
      -- Fields change only while there is no result, so there are no layouts to go out of date.
      rw [hbuilt, hnone] at hb
      cases hb
    | @build report hcomes =>
      have hleaves := leaves_of_comes hcomes
      intro b hb
      obtain ⟨binding, hbinding, hphase⟩ := hleaves.layouts b hb
      refine ⟨binding, ?_, (hleaves.sameFields.patternPhase_eq binding.mesh).trans hphase⟩
      rw [hleaves.manager]
      exact hbinding
    | ask q =>
      obtain ⟨cache, hrun, -⟩ := answers_query h.current q
      rw [hrun]
      exact ih.congr rfl rfl ⟨rfl, rfl, rfl⟩

end Reached

/-- **What was registered stands.**  Let a manager have come to where it is by any history, in which
its peers did whatever they liked.

* The names of the history, each once and in the order of their first registration, have the numbers
  from 0 on; a number without a name is unknown, and numbers lead back to their names.
* Whatever number a registration answered, its name has it now.
* The pattern of a field on a block is the latest that was registered for it on this block; where
  there was none, it is the latest that was registered for it on all blocks.
* A registration is refused if there is a result or if the name is empty, with an error that says
  which, and then all is as it was.
* As long as there is a result, each block of the bound mesh that has a field has a layout, which
  merges the fields of the block, each with its pattern, and no others; a block without fields has
  none. -/
theorem registrations_stand (h : Reached config events m) :
    (∀ name num, m.registry.num? name = some num ↔ m.fieldName num = .ok name) ∧
    (∀ num, m.fieldName num = match (namesIn events)[num]? with
      | some name => .ok name
      | none => .error (.unknownField num)) ∧
    (∀ scope name pattern num, .register scope name pattern (.ok num) ∈ events →
      m.registry.num? name = some num) ∧
    (∀ block field, m.fieldPattern? block field =
      (latest? (Event.pattern? (some block) field) events).or
        (latest? (Event.pattern? none field) events)) ∧
    (∀ scope name pattern,
      (∀ error, m.addTo scope name pattern = .error error ↔
        m.isBuilt ∧ error = .alreadyBuilt name ∨
          m.isBuilt = false ∧ name = "" ∧ error = .emptyFieldName) ∧
      ∀ error m', m.Step (.register scope name pattern (.error error)) m' → m' = m) ∧
    (m.isBuilt → ∃ binding, m.binding = some binding ∧ ∀ block ∈ binding.mesh.blockIds,
      ((∃ field p, m.fieldPattern? block field = some p) →
        ∃ l, m.blockLayout block = .ok l ∧ m.Merges binding.mesh block l) ∧
      ((∀ field, m.fieldPattern? block field = none) →
        m.blockLayout block = .error (.unknownBlock block))) := by
  have hnamed := h.named
  refine ⟨fun name num => ?_, fun num => ?_, fun scope name pattern num hmem => ?_,
    fun block field => ?_, fun scope name pattern => ⟨fun error => ?_, fun error m' hs => ?_⟩,
    fun hbuilt => ?_⟩
  · rw [hnamed.inverse name num, fieldName]
    cases m.registry.name? num <;> simp
  · have hlookup : m.registry.name? num = (namesIn events)[num]? := by
      rw [Registry.name?, hnamed.names]
    unfold fieldName
    cases hname : (namesIn events)[num]? <;> rw [hlookup, hname]
  · exact hnamed.numbers name num (List.mem_filterMap.2 ⟨_, hmem, rfl⟩)
  · rw [fieldPattern?_eq_or, h.patternIn?_eq, h.patternIn?_eq]
  · rw [addTo_eq_error_iff, isBuilt, Option.isSome_eq_false_iff, Option.isNone_iff_eq_none]
  · cases hs
    rfl
  · obtain ⟨b, hb⟩ := Option.isSome_iff_exists.1 hbuilt
    obtain ⟨binding, hbinding, hphase⟩ := h.layoutsStand b hb
    refine ⟨binding, hbinding, fun block hblock => ⟨?_, fun hempty => ?_⟩⟩
    · rintro ⟨field, p, hp⟩
      obtain ⟨l, hl⟩ := exists_get?_of_fieldPattern? hphase hblock hp
      exact ⟨l, by rw [blockLayout_eq hb, hl], merges_of_get? hphase hl⟩
    · rw [blockLayout_eq hb, get?_of_fieldPattern?_eq_none hphase hempty]

/-- A field that a rank registers before a build and one that it may not register after it. -/
theorem registrations_stand_bars :
    let events := Bars.start 0 ++ [.build ((Bars.crew 2).report 0).product] ++
      [.register (some 1) "v" Bars.nodal (.error (.alreadyBuilt "v"))]
    let m := ((Bars.crew 2).report 0).manager
    Reached ⟨.standard, true⟩ events m ∧ m.registry.num? "u" = some 0 ∧ m.fieldName 0 = .ok "u" ∧
      m.fieldName 1 = .error (.unknownField 1) ∧ m.fieldPattern? 1 0 = some Bars.nodal ∧
      ∃ l, m.blockLayout 1 = .ok l ∧ m.Merges (Bars.mesh 0) 1 l := by
  intro events m
  have hmanager : m = { (Bars.manager 2 0).discard with built := some ((Bars.crew 2).built 0) } :=
    Crew.succeeded_bars.manager_eq (r := 0) (by decide)
  have hrefused : m.addTo (some 1) "v" Bars.nodal = .error (.alreadyBuilt "v") := by
    rw [hmanager]
    rfl
  have h : Reached ⟨.standard, true⟩ events m := (Bars.reached_report (by decide)).step (.refuse hrefused)
  obtain ⟨hinverse, hnames, hnumbers, hpatterns, -, hlayouts⟩ := registrations_stand h
  have hpattern : m.fieldPattern? 1 0 = some Bars.nodal := hpatterns 1 0
  have hbinding : m.binding = some ⟨Bars.mesh 0, World.seat 2 0⟩ := by
    rw [hmanager]
    rfl
  obtain ⟨binding, hbound, hblocks⟩ := hlayouts (by rw [hmanager]; rfl)
  obtain rfl := Option.some.inj (hbound.symm.trans hbinding)
  exact ⟨h, hnumbers none "u" Bars.nodal 0 (by simp [events, Bars.start]), hnames 0, hnames 1, hpattern,
    (hblocks 1 (List.mem_singleton.2 rfl)).1 ⟨0, Bars.nodal, hpattern⟩⟩

end Manager

end Unknowns
