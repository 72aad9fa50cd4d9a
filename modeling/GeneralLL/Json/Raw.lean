/-!
# JSON as it is written

The tree of a JSON text before anything is made of its numbers and strings. A
number keeps its digits, and a string its escapes by code unit, since whether a
number is too large or a surrogate has lost its partner matters only where the
value is used. The reader is strict: no comments, no trailing commas, no leading
zeros, no raw control characters in strings, and blanks are space, tab, carriage
return and newline only.
-/

namespace GeneralLL.Json

/-- A number, digit by digit. -/
structure Number where
  /-- Is there a minus in front? -/
  negative : Bool
  /-- The digits before the point. -/
  whole : List Nat
  /-- The digits after the point; none without a point. -/
  fraction : List Nat
  /-- Whether the exponent is negative, and its digits. -/
  exponent : Option (Bool × List Nat)
  deriving DecidableEq, Repr

/-- A piece of a string: a character, or a code unit of 16 bits written in hexadecimal. -/
inductive Piece where
  | char (c : Char)
  | unit (n : Nat)
  deriving DecidableEq, Repr

/-- The tree of a JSON text, as it was written. -/
inductive Raw where
  | null
  | bool (b : Bool)
  | number (n : Number)
  | string (s : List Piece)
  | array (items : List Raw)
  | object (members : List (List Piece × Raw))

namespace Raw

/-- Takes something from the front of a text and answers it with the rest, or refuses. -/
abbrev Reader (α : Type) := List Char → Option (α × List Char)

/-- Can a character stand between tokens? -/
def isBlank (c : Char) : Bool := c = ' ' || c = '\t' || c = '\n' || c = '\r'

/-- Drops the blanks in front. -/
def skipBlanks (cs : List Char) : List Char := cs.dropWhile isBlank

/-- Takes exactly the characters of `word`. -/
def word {α : Type} (word : List Char) (answer : α) : Reader α := fun cs =>
  if word.isPrefixOf cs then some (answer, cs.drop word.length) else none

/-! ## Numbers -/

/-- Takes all digits in front; at least one. -/
def readDigits : Reader (List Nat) := fun cs =>
  match cs.takeWhile Char.isDigit with
  | [] => none
  | ds => some (ds.map (·.toNat - '0'.toNat), cs.dropWhile Char.isDigit)

/-- A zero stands alone in front of the point. -/
def readWhole : Reader (List Nat)
  | '0' :: rest => some ([0], rest)
  | cs => readDigits cs

/-- Takes a point with the digits behind it, if there is one. -/
def readFraction : Reader (List Nat)
  | '.' :: rest => readDigits rest
  | cs => some ([], cs)

/-- Takes what stands behind the letter of an exponent. -/
def readExponentDigits : Reader (Bool × List Nat) := fun cs =>
  let (negative, rest) := match cs with
    | '-' :: rest => (true, rest)
    | '+' :: rest => (false, rest)
    | _ => (false, cs)
  (readDigits rest).map fun (ds, rest) => ((negative, ds), rest)

/-- Takes an exponent, if there is one. -/
def readExponent : Reader (Option (Bool × List Nat)) := fun cs =>
  match cs with
  | 'e' :: rest | 'E' :: rest => (readExponentDigits rest).map fun (e, rest) => (some e, rest)
  | _ => some (none, cs)

/-- Takes a number. -/
def readNumber : Reader Number := fun cs => do
  let (negative, cs) := match cs with
    | '-' :: rest => (true, rest)
    | _ => (false, cs)
  let (whole, cs) ← readWhole cs
  let (fraction, cs) ← readFraction cs
  let (exponent, cs) ← readExponent cs
  return ({ negative, whole, fraction, exponent }, cs)

/-! ## Strings -/

/-- What a hexadecimal digit counts. -/
def hexDigit? (c : Char) : Option Nat :=
  if c.isDigit then some (c.toNat - '0'.toNat)
  else if 'a' ≤ c ∧ c ≤ 'f' then some (c.toNat - 'a'.toNat + 10)
  else if 'A' ≤ c ∧ c ≤ 'F' then some (c.toNat - 'A'.toNat + 10)
  else none

/-- The character that a backslash in front of `c` stands for. -/
def shortEscape? : Char → Option Char
  | '"' => some '"'
  | '\\' => some '\\'
  | '/' => some '/'
  | 'b' => some '\x08'
  | 'f' => some '\x0c'
  | 'n' => some '\n'
  | 'r' => some '\r'
  | 't' => some '\t'
  | _ => none

/-- Takes the rest of a string after its opening quote, the closing quote included. -/
def readPieces : Reader (List Piece)
  | [] => none
  | '"' :: rest => some ([], rest)
  | '\\' :: 'u' :: a :: b :: c :: d :: rest => do
    let unit := [← hexDigit? a, ← hexDigit? b, ← hexDigit? c, ← hexDigit? d].foldl
      (fun n digit => n * 16 + digit) 0
    let (s, rest) ← readPieces rest
    return (.unit unit :: s, rest)
  | '\\' :: c :: rest => do
    let c ← shortEscape? c
    let (s, rest) ← readPieces rest
    return (.char c :: s, rest)
  | c :: rest => do
    guard (0x20 ≤ c.toNat)
    let (s, rest) ← readPieces rest
    return (.char c :: s, rest)

/-! ## Values -/

mutual

/-- Takes one value; `fuel` bounds the nesting of calls. -/
def readValue (fuel : Nat) : Reader Raw := fun cs =>
  match fuel with
  | 0 => none
  | fuel + 1 =>
    match skipBlanks cs with
    | '"' :: rest => (readPieces rest).map fun (s, rest) => (string s, rest)
    | '[' :: rest =>
      match skipBlanks rest with
      | ']' :: rest => some (array [], rest)
      | rest => (readElements fuel rest).map fun (items, rest) => (array items, rest)
    | '\x7b' :: rest =>
      match skipBlanks rest with
      | '\x7d' :: rest => some (object [], rest)
      | rest => (readMembers fuel rest).map fun (members, rest) => (object members, rest)
    | 'n' :: rest => word ['u', 'l', 'l'] null rest
    | 't' :: rest => word ['r', 'u', 'e'] (bool true) rest
    | 'f' :: rest => word ['a', 'l', 's', 'e'] (bool false) rest
    | cs => (readNumber cs).map fun (n, rest) => (number n, rest)

/-- Takes the elements of an array and its closing bracket. -/
def readElements (fuel : Nat) : Reader (List Raw) := fun cs =>
  match fuel with
  | 0 => none
  | fuel + 1 => do
    let (item, cs) ← readValue fuel cs
    match skipBlanks cs with
    | ']' :: rest => return ([item], rest)
    | ',' :: rest =>
      let (items, rest) ← readElements fuel rest
      return (item :: items, rest)
    | _ => none

/-- Takes the members of an object and its closing brace. -/
def readMembers (fuel : Nat) : Reader (List (List Piece × Raw)) := fun cs =>
  match fuel with
  | 0 => none
  | fuel + 1 =>
    match skipBlanks cs with
    | '"' :: rest => do
      let (key, cs) ← readPieces rest
      match skipBlanks cs with
      | ':' :: cs =>
        let (item, cs) ← readValue fuel cs
        match skipBlanks cs with
        | '\x7d' :: rest => return ([(key, item)], rest)
        | ',' :: rest =>
          let (items, rest) ← readMembers fuel rest
          return ((key, item) :: items, rest)
        | _ => none
      | _ => none
    | _ => none

end

/-- The tree of a whole text, if it is JSON. Two calls in a row take at least one character, so
the fuel does not run out. -/
def read? (text : String) : Option Raw :=
  let cs := text.toList
  match readValue (2 * cs.length + 2) cs with
  | some (v, rest) => if (skipBlanks rest).isEmpty then some v else none
  | none => none

end Raw

end GeneralLL.Json
