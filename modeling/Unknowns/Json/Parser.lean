import Unknowns.Json

/-!
# Reading JSON

`Json.parse?` reads a whole text as one value.  The grammar is the strict one:
no leading zeros, no raw control characters in strings, no escapes but those of
JSON, and nothing but blanks after the value.

Readers take the characters that are left and answer a value with the
characters behind it.
-/

namespace Unknowns

namespace Json

/-- The blanks of JSON. -/
def isBlank (c : Char) : Bool := c = ' ' || c = '\n' || c = '\t' || c = '\r'

/-- The characters from the first one that is not blank. -/
def skipBlanks (cs : List Char) : List Char := cs.dropWhile isBlank

/-- The digits at the front. -/
def readDigits (cs : List Char) : List Char × List Char := cs.span Char.isDigit

/-- The number with the given decimal digits. -/
def digitsValue (ds : List Char) : Nat := ds.foldl (fun n d => n * 10 + (d.toNat - 48)) 0

/-- The whole part of a number: one digit, or several of which the first is not zero. -/
def readWhole (cs : List Char) : Option (List Char × List Char) :=
  match readDigits cs with
  | ([], _) => none
  | (d :: ds, rest) => if d = '0' ∧ ds ≠ [] then none else some (d :: ds, rest)

/-- The fraction of a number, if there is one. -/
def readFraction : List Char → Option (List Char × List Char)
  | '.' :: rest =>
    match readDigits rest with
    | ([], _) => none
    | (ds, rest) => some ('.' :: ds, rest)
  | rest => some ([], rest)

/-- The exponent of a number, if there is one. -/
def readExponent : List Char → Option (List Char × List Char)
  | c :: rest =>
    if c = 'e' ∨ c = 'E' then
      let (sign, rest) :=
        match rest with
        | '+' :: rest => (['+'], rest)
        | '-' :: rest => (['-'], rest)
        | rest => ([], rest)
      match readDigits rest with
      | ([], _) => none
      | (ds, rest) => some (c :: sign ++ ds, rest)
    else some ([], c :: rest)
  | [] => some ([], [])

/-- A number; negative zero counts as one that is not whole. -/
def readNumber (negative : Bool) (cs : List Char) : Option (Json × List Char) := do
  let (whole, rest) ← readWhole cs
  let (fraction, rest) ← readFraction rest
  let (exponent, rest) ← readExponent rest
  let sign := if negative then ['-'] else []
  let n := digitsValue whole
  if fraction.isEmpty && exponent.isEmpty && !(negative && n == 0) then
    some (int (if negative then -n else n), rest)
  else some (real (String.ofList (sign ++ whole ++ fraction ++ exponent)), rest)

mutual

/-- A value, in at most `fuel` steps. -/
def readValue : Nat → List Char → Option (Json × List Char)
  | 0, _ => none
  | fuel + 1, cs =>
    match skipBlanks cs with
    | 'n' :: 'u' :: 'l' :: 'l' :: rest => some (null, rest)
    | 't' :: 'r' :: 'u' :: 'e' :: rest => some (bool true, rest)
    | 'f' :: 'a' :: 'l' :: 's' :: 'e' :: rest => some (bool false, rest)
    | '"' :: rest => (Quotation.read? rest).map fun r => (str r.1, r.2)
    | '[' :: rest =>
      match skipBlanks rest with
      | ']' :: rest => some (arr [], rest)
      | rest => (readItems fuel rest).map fun r => (arr r.1, r.2)
    | '\x7b' :: rest =>
      match skipBlanks rest with
      | '\x7d' :: rest => some (obj [], rest)
      | rest => (readFields fuel rest).map fun r => (obj r.1, r.2)
    | '-' :: rest => readNumber true rest
    | rest => readNumber false rest

/-- The items of a list that has some, with its closing bracket. -/
def readItems : Nat → List Char → Option (List Json × List Char)
  | 0, _ => none
  | fuel + 1, cs => do
    let (x, rest) ← readValue fuel cs
    match skipBlanks rest with
    | ',' :: rest => do
      let (xs, rest) ← readItems fuel rest
      some (x :: xs, rest)
    | ']' :: rest => some ([x], rest)
    | _ => none

/-- The fields of an object that has some, with its closing brace. -/
def readFields : Nat → List Char → Option (List (Quotation × Json) × List Char)
  | 0, _ => none
  | fuel + 1, cs =>
    match skipBlanks cs with
    | '"' :: rest => do
      let (name, rest) ← Quotation.read? rest
      match skipBlanks rest with
      | ':' :: rest => do
        let (x, rest) ← readValue fuel rest
        match skipBlanks rest with
        | ',' :: rest => do
          let (fields, rest) ← readFields fuel rest
          some ((name, x) :: fields, rest)
        | '\x7d' :: rest => some ([(name, x)], rest)
        | _ => none
      | _ => none
    | _ => none

end

/-- Reads a value at the front of a text; answers it with what stands behind it.  Every second step
takes a character, so twice the length is enough fuel. -/
def parseFront? (text : String) : Option (Json × List Char) :=
  let cs := text.toList
  readValue (2 * cs.length + 2) cs

/-- Whether there are only blanks. -/
def isEnd (rest : List Char) : Bool := (skipBlanks rest).isEmpty

/-- Reads a whole text. -/
def parse? (text : String) : Option Json := do
  let (x, rest) ← parseFront? text
  if isEnd rest then some x else none

end Json

end Unknowns
