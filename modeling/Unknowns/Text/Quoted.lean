import Unknowns.Text.Hidden

/-!
# Quoted text

A text in double quotes as descriptions show it: every character that could be
mistaken, or that does not show on its own, is written as an escape.

| character | written |
| --- | --- |
| NUL, tab, line feed, carriage return | `\0`, `\t`, `\n`, `\r` |
| double quote, backslash | behind a backslash |
| a hidden character | `\u` and its number in braces, hexadecimal |
| any other | itself |
-/

namespace Unknowns

/-- A character inside double quotes. -/
def quotedChar (c : Char) : String :=
  match c with
  | '\x00' => "\\0"
  | '\t' => "\\t"
  | '\n' => "\\n"
  | '\r' => "\\r"
  | '"' => "\\\""
  | '\\' => "\\\\"
  | c =>
    if isHidden c then "\\u\x7b" ++ String.ofList (Nat.toDigits 16 c.toNat) ++ "\x7d"
    else String.singleton c

/-- A text in double quotes. -/
def quoted (s : String) : String := "\"" ++ String.join (s.toList.map quotedChar) ++ "\""

end Unknowns
