import Unknowns.Error
import Unknowns.Table

/-!
# Names and numbers of fields

Fields are numbered from 0 in the order in which their names first occur; a name
that occurs again keeps its number.  `Registry.fingerprint` condenses the list
of names into a word, so that ranks can compare their registrations without
exchanging them.
-/

namespace Unknowns

/-- The registered fields. -/
structure Registry where
  /-- The number of each name. -/
  byName : Table String Nat
  /-- The names in the order of their numbers. -/
  names : List String
deriving DecidableEq

namespace Registry

/-- No field is registered. -/
def empty : Registry := ⟨∅, []⟩

instance : EmptyCollection Registry := ⟨empty⟩

/-- The number of a name, which is the next free one if the name is new.  The empty name is
refused. -/
def register (r : Registry) (name : String) : Except Error (Nat × Registry) :=
  if name = "" then .error .emptyFieldName
  else
    match r.byName.get? name with
    | some n => .ok (n, r)
    | none =>
      .ok (r.names.length, ⟨r.byName.insert name r.names.length, r.names ++ [name]⟩)

/-- The number of a name. -/
def num? (r : Registry) (name : String) : Option Nat := r.byName.get? name

/-- The name with a number. -/
def name? (r : Registry) (num : Nat) : Option String := r.names[num]?

/-- Number of registered fields. -/
def size (r : Registry) : Nat := r.names.length

/-- Whether no field is registered. -/
def isEmpty (r : Registry) : Bool := r.names.isEmpty

/-- Numbers with their names, ascending. -/
def toList (r : Registry) : List (Nat × String) := r.names.zipIdx.map fun p => (p.2, p.1)

/-- The byte that ends a name: it occurs in no UTF-8 text. -/
def terminator : UInt8 := 0xff

/-- The bytes of the names, each name followed by the terminator. -/
def bytes (r : Registry) : List UInt8 :=
  r.names.flatMap fun s => s.toUTF8.toList ++ [terminator]

/-- One byte enters the digest: exclusive or, then a product with an odd number. -/
def digestByte (h : UInt64) (b : UInt8) : UInt64 := (h ^^^ b.toUInt64) * 0x100000001b3

/-- A word that depends on all names and on their order. -/
def fingerprint (r : Registry) : UInt64 := r.bytes.foldl digestByte 0xcbf29ce484222325

/-- How messages name a field: by its name if it has one, else by its number. -/
def label (r : Registry) (num : Nat) : FieldLabel :=
  match r.name? num with
  | some s => .name s
  | none => .number num

end Registry

end Unknowns
