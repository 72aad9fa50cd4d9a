import GeneralLL.Text.Unprintable

/-!
# Escaped characters

How a character is written where a reader must be able to tell it apart: inside
a character class and inside a quoted string. Four characters have short forms,
quote marks take a backslash where they would end the text, characters that
leave no mark of their own are written by code point, and all others stand for
themselves.
-/

namespace GeneralLL.Text

/-- The digits of a number in base sixteen, in lower case and without padding. -/
def hexadecimal (n : Nat) : String := String.ofList (Nat.toDigits 16 n)

/-- The escaped form of `c` in a text in which `quotes` take a backslash. -/
def escape (quotes : List Char) (c : Char) : String :=
  if c = '\x00' then "\\0"
  else if c = '\t' then "\\t"
  else if c = '\r' then "\\r"
  else if c = '\n' then "\\n"
  else if c = '\\' ∨ c ∈ quotes then String.ofList ['\\', c]
  else if isUnprintable c then "\\u\x7b" ++ hexadecimal c.toNat ++ "\x7d"
  else c.toString

/-- A string between double quotes, escaped so that only the last quote can end it. -/
def quoted (s : String) : String :=
  "\"" ++ String.join (s.toList.map (escape ['"'])) ++ "\""

end GeneralLL.Text
