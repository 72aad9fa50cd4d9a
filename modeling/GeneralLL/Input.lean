import GeneralLL.Search

/-!
# Input texts

A text is an array of characters. Positions count characters from 0, and the
length is the position at the end. Lines and columns count from 1: a line starts
at position 0 and after every newline, and the line of a position is found by
bisection in the table of line starts. Every question has an answer at every
position, past the end as well.
-/

namespace GeneralLL

/-- A text, character by character. -/
structure Input where
  /-- The characters, each at its position. -/
  chars : Array Char
  deriving DecidableEq, Repr

namespace Input

/-- The characters of a string. -/
def ofString (text : String) : Input := ⟨text.toList.toArray⟩

/-- The position at the end. -/
def length (t : Input) : Nat := t.chars.size

/-- Is this the empty text? -/
def isEmpty (t : Input) : Bool := t.chars.isEmpty

/-- The character that starts at `i`, if the text goes that far. -/
def symbolAt? (t : Input) (i : Nat) : Option Char := t.chars[i]?

/-- The characters from `left` up to but not including `right`, cut off at the end of the text;
empty if the bounds cross. -/
def substring (t : Input) (left right : Nat) : String :=
  String.ofList (t.chars.extract left right).toList

/-- The positions at which a line starts, in increasing order. -/
def lineStarts (t : Input) : Array Nat :=
  (0 :: (List.range t.length).filterMap fun i =>
    if t.symbolAt? i = some '\n' then some (i + 1) else none).toArray

/-- How many lines there are; the empty text has one. -/
def lineCount (t : Input) : Nat := t.lineStarts.size

/-- The line of position `i` is the number of lines that start at or before it. -/
def lineNumber (t : Input) (i : Nat) : Nat :=
  Search.partitionPoint (· ≤ i) t.lineStarts

/-- The column of position `i` counts from the start of its line. Positions have no bound here;
in machine words the column of the greatest of them overflows if it is on the first line. -/
def columnNumber (t : Input) (i : Nat) : Nat :=
  i - t.lineStarts[t.lineNumber i - 1]?.getD 0 + 1

/-- The line and the column of a position. -/
def lineColumn (t : Input) (i : Nat) : Nat × Nat := (t.lineNumber i, t.columnNumber i)

/-- Does a line start at a position? -/
def isStartOfLine (t : Input) (i : Nat) : Bool := t.lineStarts.contains i

/-- A line ends at a newline and at the end of the text. -/
def isEndOfLine (t : Input) (i : Nat) : Bool :=
  match t.symbolAt? i with
  | none => true
  | some c => c = '\n'

/-- Is a position at the end of the text or past it? -/
def isEndOfFile (t : Input) (i : Nat) : Bool := t.length ≤ i

end Input

end GeneralLL
