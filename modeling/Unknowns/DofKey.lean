import Unknowns.SubEntity

/-!
# Keys of unknowns

A `DofKey` names one scalar unknown (degree of freedom) without reference to a
rank: the sub-entity that carries it, the field, and the component among the
field's unknowns on that sub-entity.
-/

namespace Unknowns

/-- One scalar unknown of the whole mesh. -/
structure DofKey where
  /-- Where the unknown sits. -/
  entity : SubEntity
  /-- Number of the field. -/
  field : Nat
  /-- Position among the field's unknowns on the sub-entity. -/
  component : Nat
deriving DecidableEq, Inhabited

namespace DofKey

/-- By sub-entity, then by field, then by component. -/
instance : Ord DofKey :=
  ⟨compareLex (compareOn entity) (compareLex (compareOn field) (compareOn component))⟩

instance : Std.TransOrd DofKey :=
  inferInstanceAs (Std.TransCmp
    (compareLex (compareOn entity) (compareLex (compareOn field) (compareOn component))))

instance : Std.LawfulEqOrd DofKey where
  eq_of_compare {a b} h := by
    have h' : (compareLex (compareOn entity)
        (compareLex (compareOn field) (compareOn component))) a b = .eq := h
    rw [compareLex_eq_eq, compareLex_eq_eq] at h'
    have h₁ : a.entity = b.entity := Std.LawfulEqOrd.eq_of_compare h'.1
    have h₂ : a.field = b.field := Std.LawfulEqOrd.eq_of_compare h'.2.1
    have h₃ : a.component = b.component := Std.LawfulEqOrd.eq_of_compare h'.2.2
    cases a; cases b; simp_all

end DofKey

end Unknowns
