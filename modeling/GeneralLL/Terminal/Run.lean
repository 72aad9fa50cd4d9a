import GeneralLL.Terminal

/-!
# Runs of characters

The matcher for the longest run of characters of a class, such as a number or an
identifier. A run shorter than the least length is no match. The matcher may keep
its first characters to itself; then nothing is said about it in advance.
-/

namespace GeneralLL

/-- Matches the longest run of characters of a class. -/
structure RunMatcher where
  /-- Tells matchers apart that are otherwise alike. -/
  id : Nat
  /-- What the matcher is called in reports. -/
  name : String
  /-- The characters that a run is made of. -/
  chars : CharClass
  /-- How long a run has to be. -/
  least : Nat
  /-- Are the first characters, and whether a run may be empty, made known? -/
  announced : Bool
  /-- What is made known about whether a run may be empty. -/
  nullable : Bool
  deriving DecidableEq, Repr

namespace RunMatcher

/-- The length of the longest run of characters of the class. -/
def runLength (s : CharClass) : List Char → Nat
  | [] => 0
  | c :: cs => if s.contains c then runLength s cs + 1 else 0

/-- Where the longest run from a position on ends, if it is long enough. -/
def matchAt (m : RunMatcher) (t : Input) (i : Nat) : Option Nat :=
  let n := runLength m.chars (t.chars.toList.drop i)
  if m.least ≤ n then some (i + n) else none

instance : Matcher RunMatcher where
  name := RunMatcher.name
  matchAt := RunMatcher.matchAt
  first m := if m.announced then some m.chars else none
  nullable m := m.announced && m.nullable

end RunMatcher

end GeneralLL
