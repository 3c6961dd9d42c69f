import Unknowns.Json.Quotation

/-!
# JSON values

Values of JSON with the order of object fields kept.  Strings and field names
are kept as they are written.  Whole numbers are told apart from numbers with a
fraction or an exponent, which no form of this library uses: a place for a whole
number refuses `1.0`.
-/

namespace Unknowns

/-- A JSON value. -/
inductive Json where
  | null
  | bool (b : Bool)
  /-- A number without fraction and exponent. -/
  | int (n : Int)
  /-- Any other number, as it is written. -/
  | real (text : String)
  | str (q : Quotation)
  | arr (items : List Json)
  /-- Fields in the order in which they are written; a name may occur twice. -/
  | obj (fields : List (Quotation × Json))

namespace Json

instance : Inhabited Json := ⟨null⟩

/-- A natural number. -/
def nat (n : Nat) : Json := int n

/-- The list of the values of some items. -/
def list {α : Type} (f : α → Json) (xs : List α) : Json := arr (xs.map f)

/-- The value of an item, or `null`. -/
def option {α : Type} (f : α → Json) (x : Option α) : Json := (x.map f).getD null

/-- The value of a field; of two with one name the later counts. -/
def get? (name : String) : Json → Option Json
  | obj fields => (fields.reverse.find? (·.1.text? = some name)).map (·.2)
  | _ => none

/-- The fields of an object by the texts that their names say. -/
def named? (fields : List (Quotation × Json)) : Option (List (String × Json)) :=
  fields.mapM fun f => f.1.text?.map fun name => (name, f.2)

/-- The values of the named fields of an object, each of which must occur exactly once.  Other fields
are ignored, but their names have to say texts.  A list of as many values stands for the fields in
order. -/
def record? (names : List String) : Json → Option (List Json)
  | obj fields => do
    let fields ← named? fields
    names.mapM fun name =>
      match fields.filter (·.1 = name) with
      | [f] => some f.2
      | _ => none
  | arr items => if items.length = names.length then some items else none
  | _ => none

mutual

/-- The text of a value, without blanks. -/
def render : Json → String
  | null => "null"
  | bool true => "true"
  | bool false => "false"
  | int n => toString n
  | real t => t
  | str q => q.render
  | arr items => "[" ++ renderItems items ++ "]"
  | obj fields => "\x7b" ++ renderFields fields ++ "\x7d"

/-- The texts of some values, separated by commas. -/
def renderItems : List Json → String
  | [] => ""
  | [x] => render x
  | x :: rest => render x ++ "," ++ renderItems rest

/-- The texts of some fields, separated by commas. -/
def renderFields : List (Quotation × Json) → String
  | [] => ""
  | [(name, x)] => name.render ++ ":" ++ render x
  | (name, x) :: rest => name.render ++ ":" ++ render x ++ "," ++ renderFields rest

end

end Json

end Unknowns
