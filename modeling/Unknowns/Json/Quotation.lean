/-!
# Strings of JSON

A string of JSON is kept as it is written between its quotes.  What it says is
asked for only where a text or a number is wanted: as a text its escapes stand
for characters, and as a whole number it has to be digits, none of them escaped.

Escapes of surrogates come in pairs.  A string with half a pair is a string of
JSON all the same, and may stand where nobody asks what it says; it says no
text.

Main statement, `text?_ofText`: a text that is written reads back.
-/

namespace Unknowns

/-- A string of JSON, as it is written between its quotes. -/
structure Quotation where
  inner : List Char
deriving DecidableEq

namespace Quotation

/-- A digit of a hexadecimal number. -/
def hexDigit (n : Nat) : Char :=
  if n < 10 then Char.ofNat (48 + n) else Char.ofNat (87 + n)

/-- The value of a hexadecimal digit. -/
def hexValue? (c : Char) : Option Nat :=
  if '0' ≤ c ∧ c ≤ '9' then some (c.toNat - 48)
  else if 'a' ≤ c ∧ c ≤ 'f' then some (c.toNat - 87)
  else if 'A' ≤ c ∧ c ≤ 'F' then some (c.toNat - 55)
  else none

/-- The number with four hexadecimal digits. -/
def hex4? (a b c d : Char) : Option Nat := do
  let a ← hexValue? a
  let b ← hexValue? b
  let c ← hexValue? c
  let d ← hexValue? d
  some (((a * 16 + b) * 16 + c) * 16 + d)

/-- The character after a backslash, other than `u`. -/
def unescape? (c : Char) : Option Char :=
  match c with
  | '"' | '\\' | '/' => some c
  | 'b' => some '\x08'
  | 'f' => some '\x0c'
  | 'n' => some '\n'
  | 'r' => some '\r'
  | 't' => some '\t'
  | _ => none

/-- The character that two surrogates stand for; none if they are not a pair. -/
def pair? (lead trail : Nat) : Option Char :=
  if lead < 0xDC00 ∧ 0xDC00 ≤ trail ∧ trail < 0xE000 then
    some (Char.ofNat (0x10000 + (lead - 0xD800) * 0x400 + (trail - 0xDC00)))
  else none

/-- What is said by the characters between the quotes. -/
def unescapeAll? : List Char → Option (List Char)
  | [] => some []
  | '\\' :: 'u' :: a :: b :: c :: d :: rest =>
    match hex4? a b c d with
    | none => none
    | some n =>
      if n < 0xD800 ∨ 0xE000 ≤ n then (unescapeAll? rest).map (Char.ofNat n :: ·)
      else
        match rest with
        | '\\' :: 'u' :: e :: f :: g :: h :: rest =>
          match (hex4? e f g h).bind (pair? n) with
          | some x => (unescapeAll? rest).map (x :: ·)
          | none => none
        | _ => none
  | '\\' :: c :: rest =>
    match unescape? c with
    | some x => (unescapeAll? rest).map (x :: ·)
    | none => none
  | c :: rest => (unescapeAll? rest).map (c :: ·)

/-- The text that a string says, if it says one. -/
def text? (q : Quotation) : Option String := (unescapeAll? q.inner).map String.ofList

/-- A character between quotes. -/
def escape (c : Char) : List Char :=
  if c = '"' then ['\\', '"']
  else if c = '\\' then ['\\', '\\']
  else if c.toNat < 32 then ['\\', 'u', '0', '0', hexDigit (c.toNat / 16), hexDigit (c.toNat % 16)]
  else [c]

/-- The string that says a text. -/
def ofText (s : String) : Quotation := ⟨s.toList.flatMap escape⟩

instance : Coe String Quotation := ⟨ofText⟩

/-- The string with its quotes. -/
def render (q : Quotation) : String := "\"" ++ String.ofList q.inner ++ "\""

/-- The characters up to the closing quote, put behind those already read.  Escapes have to be
ones that JSON has, and control characters are to be escaped. -/
def readFrom (before : List Char) : List Char → Option (Quotation × List Char)
  | [] => none
  | '"' :: rest => some (⟨before.reverse⟩, rest)
  | '\\' :: 'u' :: a :: b :: c :: d :: rest =>
    match hex4? a b c d with
    | some _ => readFrom (d :: c :: b :: a :: 'u' :: '\\' :: before) rest
    | none => none
  | '\\' :: c :: rest =>
    match unescape? c with
    | some _ => readFrom (c :: '\\' :: before) rest
    | none => none
  | c :: rest => if c.toNat < 32 then none else readFrom (c :: before) rest

/-- Reads a string behind its opening quote. -/
def read? (cs : List Char) : Option (Quotation × List Char) := readFrom [] cs

theorem hexValue?_hexDigit : ∀ n < 16, hexValue? (hexDigit n) = some n := by decide

/-- A character that is escaped reads back. -/
theorem unescapeAll?_escape_append (c : Char) (rest : List Char) :
    unescapeAll? (escape c ++ rest) = (unescapeAll? rest).map (c :: ·) := by
  unfold escape
  split
  case isTrue h => subst h; rfl
  case isFalse h₁ =>
    split
    case isTrue h => subst h; rfl
    case isFalse h₂ =>
      split
      case isTrue h =>
        have hi := hexValue?_hexDigit (c.toNat / 16) (by omega)
        have lo := hexValue?_hexDigit (c.toNat % 16) (by omega)
        have hn : ((0 * 16 + 0) * 16 + c.toNat / 16) * 16 + c.toNat % 16 = c.toNat := by omega
        have h4 : hex4? '0' '0' (hexDigit (c.toNat / 16)) (hexDigit (c.toNat % 16)) =
            some c.toNat := by
          have h0 : hexValue? '0' = some 0 := by decide
          simp only [hex4?, h0, hi, lo, Option.bind_eq_bind, Option.bind_some, hn]
        have hs : c.toNat < 0xD800 ∨ 0xE000 ≤ c.toNat := Or.inl (by omega)
        simp only [List.cons_append, List.nil_append, unescapeAll?, h4, if_pos hs,
          Char.ofNat_toNat]
      case isFalse h =>
        rw [List.singleton_append, unescapeAll?]
        all_goals simp_all

/-- A text that is written reads back. -/
theorem text?_ofText (s : String) : (ofText s).text? = some s := by
  have h : ∀ cs : List Char, unescapeAll? (cs.flatMap escape) = some cs := by
    intro cs
    induction cs with
    | nil => rfl
    | cons c cs ih => rw [List.flatMap_cons, unescapeAll?_escape_append, ih]; rfl
  simp [text?, ofText, h]

end Quotation

end Unknowns
