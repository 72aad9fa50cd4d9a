import GeneralLL.Forest.Tree
import GeneralLL.Parser

/-!
# Reports

What a parse answers. A text that is in the language has a forest, whose root covers
the whole text; for any other text the report names the furthest place that was
reached. Both come with counts of what was built. A parse may also end with an error
of the grammar, or not end within the steps it was given.
-/

namespace GeneralLL

/-- Counts of what a parse has built. -/
structure Statistics where
  /-- Descriptors that were accepted. -/
  descriptors : Nat
  /-- Calls that were made. -/
  stackNodes : Nat
  /-- Ways back from a call to a caller. -/
  stackEdges : Nat
  /-- Nodes of nonterminals. -/
  nonterminalNodes : Nat
  /-- Nodes of terminals. -/
  terminalNodes : Nat
  /-- Nodes of front parts of rules. -/
  intermediateNodes : Nat
  /-- Derivations of all nodes together. -/
  packedNodes : Nat
  /-- Nodes with more than one derivation. -/
  ambiguousNodes : Nat
  deriving DecidableEq, Repr

namespace Statistics

/-- Counts what a state holds. -/
def ofState (s : Parser.State) : Statistics :=
  { descriptors := s.agenda.seenCount
    stackNodes := s.stack.size
    stackEdges := s.stack.edgeCount
    nonterminalNodes := s.forest.count Forest.Label.isNonterminal
    terminalNodes := s.forest.count Forest.Label.isTerminal
    intermediateNodes := s.forest.count Forest.Label.isIntermediate
    packedNodes := s.forest.packedCount
    ambiguousNodes := s.forest.ambiguousNodes.length }

/-- All counts with their names, in one line. -/
def toText (s : Statistics) : String :=
  ", ".intercalate
    ["descriptors: " ++ toString s.descriptors,
      "GSS nodes: " ++ toString s.stackNodes,
      "GSS edges: " ++ toString s.stackEdges,
      "nonterminal nodes: " ++ toString s.nonterminalNodes,
      "terminal nodes: " ++ toString s.terminalNodes,
      "intermediate nodes: " ++ toString s.intermediateNodes,
      "packed nodes: " ++ toString s.packedNodes,
      "ambiguous nodes: " ++ toString s.ambiguousNodes]

end Statistics

/-- The furthest place that a parse reached. -/
structure Failure where
  /-- The slot; none if not even the start symbol could begin. -/
  slot : Option Nat
  /-- The slot, or the start symbol if it could not begin. -/
  label : String
  /-- The position of the place, counted from 0. -/
  position : Nat
  /-- The line of the position, counted from 1. -/
  line : Nat
  /-- The column of the position, counted from 1. -/
  column : Nat
  /-- The call that was under way. -/
  stackNode : String
  deriving DecidableEq, Repr

/-- The wording of the failure. -/
def Failure.toText (f : Failure) : String :=
  "Parse error at line " ++ toString f.line ++ ", column " ++ toString f.column ++ " (position "
    ++ toString f.position ++ "): in " ++ f.label ++ " while parsing " ++ f.stackNode

/-- How a parse ended. -/
inductive Verdict where
  | success (root : Nat) (forest : Forest)
  | failure (f : Failure)
  | unfinished

/-- What is left after a parse. -/
structure Report where
  /-- The calls that were made. -/
  stack : Stack
  /-- The counts of what was built. -/
  statistics : Statistics
  /-- How the parse ended, or the error that it ended with. -/
  verdict : Except ConditionError Verdict

/-- Has any node that was built several derivations? -/
def Report.isAmbiguous (r : Report) : Bool := 0 < r.statistics.ambiguousNodes

namespace Parser

variable {μ : Type} [DecidableEq μ] [Matcher μ]

/-- The node of the start symbol for the whole text. -/
def rootSpan (p : Parser μ) : Forest.Span :=
  ⟨.nonterminal p.graph.start none, 0, p.input.length⟩

/-- The furthest place that was recorded in a state. -/
def failure (p : Parser μ) (s : State) : Failure :=
  let reach := s.furthest.getD ⟨none, 0, none⟩
  let (line, column) := p.input.lineColumn reach.position
  let start := p.graph.nonterminalName p.graph.start
  { slot := reach.slot
    label := reach.slot.elim start fun slot => (p.graph.slot slot).text
    position := reach.position
    line, column
    stackNode := reach.stackNode.elim (start ++ "@0") (s.stack.describe p.graph) }

/-- How a parse that came to rest in state `s` has ended. -/
def verdict (p : Parser μ) (s : State) : Verdict :=
  match s.forest.lookup p.rootSpan with
  | some root => .success root s.forest
  | none => .failure (p.failure s)

/-- Parses the text in at most `fuel` steps. -/
def parse (p : Parser μ) (fuel : Nat) : Report :=
  let report (s : State) (verdict : Except ConditionError Verdict) : Report :=
    ⟨s.stack, .ofState s, verdict⟩
  match (do p.begin; p.run fuel : Move Bool).run p.initial with
  | .ok true s => report s (.ok (p.verdict s))
  | .ok false s => report s (.ok .unfinished)
  | .error e s => report s (.error e)

end Parser

end GeneralLL
