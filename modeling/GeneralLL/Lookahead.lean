import GeneralLL.CharClass

/-!
# Lookahead sets

What may come next at a place in a text: certain characters, the end of the text,
or anything at all. The last is for terminals that do not tell what they start
with.
-/

namespace GeneralLL

/-- What is admitted next. -/
structure Lookahead where
  /-- The characters that are admitted. -/
  chars : CharClass := .empty
  /-- Is the end of the text admitted? -/
  eof : Bool := false
  /-- Is everything admitted? -/
  any : Bool := false
  deriving DecidableEq, Repr

namespace Lookahead

/-- Admits nothing. -/
def empty : Lookahead := {}

instance : Inhabited Lookahead := ⟨empty⟩

/-- Admits everything. -/
def anything : Lookahead := { any := true }

/-- Admits the end of the text. -/
def endOfText : Lookahead := { eof := true }

/-- Admits the characters of a class. -/
def ofClass (chars : CharClass) : Lookahead := { chars }

/-- Admits what one of two sets admits. -/
def union (s t : Lookahead) : Lookahead :=
  ⟨s.chars.union t.chars, s.eof || t.eof, s.any || t.any⟩

/-- The union of two sets, and whether it differs from the first. -/
def extend (s t : Lookahead) : Bool × Lookahead :=
  let u := s.union t
  (u ≠ s, u)

/-- Is the next character admitted, or the end of the text if there is none? -/
def admits (s : Lookahead) (next : Option Char) : Bool :=
  s.any || next.elim s.eof s.chars.contains

/-- Is nothing admitted at all? -/
def isEmpty (s : Lookahead) : Bool := s.chars.isEmpty && !s.eof && !s.any

/-- A set in braces, in which a dollar sign stands for the end of the text. -/
def toText (s : Lookahead) : String :=
  if s.any then "\x7bany\x7d"
  else "\x7b" ++ s.chars.toText ++ (if s.eof then ", $" else "") ++ "\x7d"

end Lookahead

end GeneralLL
