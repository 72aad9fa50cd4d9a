import GeneralLL.SlotGraph
import GeneralLL.Environment

/-!
# The stack of calls

All calls that a parse makes, in one graph. A node stands for a nonterminal called
at a position with certain arguments, however many callers there are. An edge leads
from a node to the node of a caller and remembers where the caller goes on. Results
that a node has produced are kept with it, so that callers that come late are served
as well.

A **loop** is an edge from a node to itself that carries no forest node: a call at
the very place where its caller was called. The loops of a node come before its
other edges, and the first loop sends the oldest of the other edges to the end.

No index is kept beside the nodes. The node of a call is searched for among all nodes,
an edge among the edges of its node, and a result among the results of its node. Nothing
is there twice, so the answers are those of a hash table of calls, a set of edges and a
map of results; only the order of the results is one that a map would not fix
(`Node.insertPopped`).
-/

namespace GeneralLL

namespace Stack

/-- What a call is identified by. -/
structure Key where
  /-- The nonterminal that is called. -/
  nonterminal : Nat
  /-- The position at which it is called. -/
  position : Nat
  /-- What it is called with; none if it has no parameters. -/
  arguments : Option (List Value)
  deriving DecidableEq, Repr

/-- The way back to a caller. -/
structure Edge where
  /-- The node of the caller. -/
  dest : Nat
  /-- The slot of the call; the slot it leads to is where the caller goes on. -/
  call : Nat
  /-- The forest node of what the caller had recognised before the call. -/
  node : Option Nat
  /-- The environment of the caller. -/
  env : Environment
  deriving DecidableEq, Repr

/-- A result of a call: how far it goes and what it returns. -/
structure Popped where
  /-- The forest node of the result. -/
  node : Nat
  /-- The position behind what was recognised. -/
  right : Nat
  /-- The value that is returned; none if the rule returns nothing. -/
  value : Option Value
  deriving DecidableEq, Repr

/-- A call with its callers and the results it has produced. -/
structure Node where
  /-- The call, by which the node is told apart from all others. -/
  key : Key
  /-- The edges to the node itself that carry no forest node, oldest first. -/
  loops : List Edge := []
  /-- The other edges, oldest first until the first loop comes. -/
  others : List Edge := []
  /-- The first result, then the later ones by right end and forest node. Those that agree in
  both come in the order in which they were found, which is a choice (`insertPopped`). -/
  popped : List Popped := []
  deriving DecidableEq, Repr

namespace Node

instance : Inhabited Node := ⟨{ key := ⟨0, 0, none⟩ }⟩

/-- All edges, loops first. -/
def edges (n : Node) : List Edge := n.loops ++ n.others

/-- Has the node a loop? -/
def isCyclic (n : Node) : Bool := !n.loops.isEmpty

/-- Moves the first element of a list to its end. -/
def rotate {α : Type} : List α → List α
  | [] => []
  | a :: rest => rest ++ [a]

/-- Adds an edge to the node with the number `id`. -/
def addEdge (id : Nat) (e : Edge) (n : Node) : Node :=
  if e.dest = id ∧ e.node = none then
    { n with loops := n.loops ++ [e], others := if n.loops.isEmpty then rotate n.others else n.others }
  else
    { n with others := n.others ++ [e] }

/-- Does `p` come strictly before `q`, by right end and then by forest node? -/
def before (p q : Popped) : Bool :=
  p.right < q.right || (p.right = q.right && p.node < q.node)

/-- Puts a result behind all results that do not come after it. So results that agree in right
end and forest node, and differ in their values, stay in the order in which they were found. This
order is a choice of this library: out of a hash map they would come in the order of the map.
Nothing that is proved of all parses depends on it. -/
def insertPopped (p : Popped) : List Popped → List Popped
  | [] => [p]
  | q :: rest => if before p q then p :: q :: rest else q :: insertPopped p rest

/-- Is there a result with the same right end and value? -/
def hasResult (n : Node) (p : Popped) : Bool :=
  n.popped.any fun q => q.right = p.right && q.value = p.value

/-- Adds a result; the first one stays in front. -/
def addPopped (p : Popped) (n : Node) : Node :=
  { n with popped := match n.popped with
      | [] => [p]
      | first :: rest => first :: insertPopped p rest }

end Node

end Stack

/-- The nodes of a stack, each numbered by its position. -/
structure Stack where
  /-- The nodes, oldest first. -/
  nodes : Array Stack.Node

namespace Stack

/-- The stack without calls. -/
def empty : Stack := ⟨#[]⟩

instance : Inhabited Stack := ⟨empty⟩

/-- How many calls were made. -/
def size (s : Stack) : Nat := s.nodes.size

/-- Was no call made? -/
def isEmpty (s : Stack) : Bool := s.nodes.isEmpty

/-- The node with a number; a number that no node has stands for a call without callers. -/
def get (s : Stack) (id : Nat) : Node := s.nodes[id]?.getD default

/-- The node of a call, if there is one. -/
def find? (s : Stack) (key : Key) : Option Nat := s.nodes.findIdx? (·.key = key)

/-- Answers the node of a call and whether it is new. -/
def getOrCreate (s : Stack) (key : Key) : (Nat × Bool) × Stack :=
  match s.find? key with
  | some id => ((id, false), s)
  | none => ((s.size, true), ⟨s.nodes.push { key }⟩)

/-- Adds an edge to a node unless it has it; answers whether the edge is new. -/
def addEdge (s : Stack) (source : Nat) (e : Edge) : Bool × Stack :=
  if e ∈ (s.get source).edges then (false, s)
  else (true, ⟨s.nodes.modify source (·.addEdge source e)⟩)

/-- Adds a result to a node unless it has one with the same right end and value; answers
whether the result is new. -/
def addPopped (s : Stack) (id : Nat) (p : Popped) : Bool × Stack :=
  if (s.get id).hasResult p then (false, s)
  else (true, ⟨s.nodes.modify id (·.addPopped p)⟩)

/-- How many edges there are. No node has an edge twice, so this is the size of the set of all edges
with their sources. -/
def edgeCount (s : Stack) : Nat := (s.nodes.toList.flatMap Node.edges).length

/-- A call by its numbers alone. -/
def Key.toText (k : Key) : String := "N" ++ toString k.nonterminal ++ "@" ++ toString k.position

/-- The call that a node stands for. -/
def describe {μ : Type} (s : Stack) (g : SlotGraph μ) (id : Nat) : String :=
  let key := (s.get id).key
  g.nonterminalName key.nonterminal ++ key.arguments.elim "" Value.tupleText ++ "@"
    ++ toString key.position

end Stack

end GeneralLL
