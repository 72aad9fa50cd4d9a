import GeneralLL.SlotGraph

/-!
# Forests

All derivations of a text, sharing what they have in common. A node stands for what
was recognised between two positions: a terminal, a nonterminal, or the front part
of a rule. The derivations of a node are its packed nodes, which say how it was put
together: by which slot, and out of which left and right part. The pivot is where
the two parts meet.

Nodes are the same if they agree in label and extents, and packed nodes if they
agree in parent, slot and pivot. Nothing is ever removed, so numbers stay valid.

No index is kept beside the lists. Whether a node, a packed node or a list of arguments
is there already is found out by searching the nodes, the packed nodes or the numbered
arguments themselves. No key is there twice, so the search finds what hash tables from
keys to numbers would.
-/

namespace GeneralLL

namespace Forest

/-- What a node stands for. The arguments are those of the call it was derived in. -/
inductive Label where
  | terminal (id : Nat)
  | nonterminal (id : Nat) (arguments : Option Nat)
  /-- The part of a rule up to a slot. -/
  | intermediate (slot : Nat) (arguments : Option Nat)
  deriving DecidableEq, Repr

/-- Does the label stand for a terminal? -/
def Label.isTerminal : Label → Bool
  | terminal _ => true
  | _ => false

/-- Does the label stand for a nonterminal? -/
def Label.isNonterminal : Label → Bool
  | nonterminal .. => true
  | _ => false

/-- Does the label stand for the front part of a rule? -/
def Label.isIntermediate : Label → Bool
  | intermediate .. => true
  | _ => false

/-- A node without its derivations. -/
structure Span where
  /-- What was recognised. -/
  label : Label
  /-- The position where it starts. -/
  left : Nat
  /-- The position behind its end. -/
  right : Nat
  deriving DecidableEq, Repr

/-- A node with its derivations. -/
structure Node where
  /-- What the node stands for, by which it is told apart from all others. -/
  span : Span
  /-- The packed nodes, oldest first. -/
  packed : List Nat := []
  deriving DecidableEq, Repr

instance : Inhabited Node := ⟨{ span := ⟨.terminal 0, 0, 0⟩ }⟩

/-- Has the node more than one derivation? -/
def Node.isAmbiguous (n : Node) : Bool := 1 < n.packed.length

/-- One derivation of a node. -/
structure Packed where
  /-- The node that is derived. -/
  parent : Nat
  /-- The slot behind the two parts. -/
  slot : Nat
  /-- The position where the two parts meet. -/
  pivot : Nat
  /-- The node of the left part; none if the right one is at the front of its rule. -/
  left : Option Nat
  /-- The node of the right part. -/
  right : Nat
  deriving DecidableEq, Repr

instance : Inhabited Packed := ⟨⟨0, 0, 0, none, 0⟩⟩

end Forest

/-- Nodes and packed nodes, each numbered by its position. -/
structure Forest where
  /-- The nodes, oldest first. -/
  nodes : Array Forest.Node
  /-- The packed nodes of all nodes, oldest first. -/
  packed : Array Forest.Packed
  /-- The argument lists of calls. -/
  arguments : Numbering (List Value)

namespace Forest

/-- The forest without nodes. -/
def empty : Forest := ⟨#[], #[], .empty⟩

instance : Inhabited Forest := ⟨empty⟩

/-- How many nodes there are. -/
def size (f : Forest) : Nat := f.nodes.size

/-- Are there no nodes? -/
def isEmpty (f : Forest) : Bool := f.nodes.isEmpty

/-- The node with a number; a number that no node has stands for an empty terminal. -/
def get (f : Forest) (id : Nat) : Node := f.nodes[id]?.getD default

/-- The packed node with a number; a number that none has stands for one of node 0. -/
def getPacked (f : Forest) (id : Nat) : Packed := f.packed[id]?.getD default

/-- Numbers a list of arguments. -/
def internArguments (f : Forest) (values : List Value) : Nat × Forest :=
  let (id, arguments) := f.arguments.insert values
  (id, { f with arguments })

/-- The arguments with a number; a number that none have stands for no arguments. -/
def argumentsOf (f : Forest) (id : Nat) : List Value := (f.arguments.get? id).getD []

/-- The node with a label and extents, if there is one. -/
def lookup (f : Forest) (span : Span) : Option Nat := f.nodes.findIdx? (·.span = span)

/-- The node with a label and extents, made if there is none. -/
def find (f : Forest) (span : Span) : Nat × Forest :=
  match f.lookup span with
  | some id => (id, f)
  | none => (f.size, { f with nodes := f.nodes.push { span } })

/-- The node of a terminal between two positions, made if there is none. -/
def terminal (f : Forest) (id left right : Nat) : Nat × Forest :=
  f.find ⟨.terminal id, left, right⟩

/-- The node of a nonterminal between two positions, made if there is none. -/
def nonterminal (f : Forest) (id : Nat) (arguments : Option Nat) (left right : Nat) :
    Nat × Forest :=
  f.find ⟨.nonterminal id arguments, left, right⟩

/-- The node of the part of a rule up to a slot, made if there is none. -/
def intermediate (f : Forest) (slot : Nat) (arguments : Option Nat) (left right : Nat) :
    Nat × Forest :=
  f.find ⟨.intermediate slot arguments, left, right⟩

/-- Where two parts meet: at the end of the left one, or at the start of the right one if there
is no other. -/
def pivot (f : Forest) (left : Option Nat) (right : Nat) : Nat :=
  match left with
  | some id => (f.get id).span.right
  | none => (f.get right).span.left

/-- Adds a derivation to a node unless it has one by the same slot with the same pivot; answers
the packed node and whether it is new. -/
def addPacked (f : Forest) (parent slot : Nat) (left : Option Nat) (right : Nat) :
    (Nat × Bool) × Forest :=
  let pivot := f.pivot left right
  match f.packed.findIdx? (fun p => p.parent = parent ∧ p.slot = slot ∧ p.pivot = pivot) with
  | some id => ((id, false), f)
  | none =>
    let id := f.packed.size
    ((id, true),
      { f with
        packed := f.packed.push { parent, slot, pivot, left, right }
        nodes := f.nodes.modify parent fun n => { n with packed := n.packed ++ [id] } })

/-- The node for a rule in which `right` was recognised after `left`: `right` itself at the
front of the rule, otherwise the part of the rule up to `slot`. -/
def getNode (f : Forest) (slot : Nat) (arguments : Option Nat) (left : Option Nat) (right : Nat) :
    Nat × Forest :=
  match left with
  | none => (right, f)
  | some l =>
    let (node, f) := f.intermediate slot arguments (f.get l).span.left (f.get right).span.right
    (node, (f.addPacked node slot left right).2)

/-- How many packed nodes there are. -/
def packedCount (f : Forest) : Nat := f.packed.size

/-- The number of nodes with a label of a certain sort. -/
def count (f : Forest) (test : Label → Bool) : Nat :=
  f.nodes.toList.countP fun n => test n.span.label

/-- The numbers of the nodes with more than one derivation, in increasing order. -/
def ambiguousNodes (f : Forest) : List Nat :=
  (List.range f.size).filter fun id => (f.get id).isAmbiguous

/-! ## Text -/

section

variable {μ : Type} [DecidableEq μ] [Matcher μ]

/-- The name of a label, without arguments. -/
def Label.name (g : SlotGraph μ) : Label → String
  | terminal id => (g.terminal id).toText
  | nonterminal id _ => g.nonterminalName id
  | intermediate slot _ => (g.slot slot).text

/-- A node with its extents; a nonterminal also with its arguments. -/
def describe (f : Forest) (g : SlotGraph μ) (id : Nat) : String :=
  let span := (f.get id).span
  let arguments := match span.label with
    | .nonterminal _ (some arguments) => Value.tupleText (f.argumentsOf arguments)
    | _ => ""
  span.label.name g ++ arguments ++ " [" ++ toString span.left ++ ", " ++ toString span.right ++ ")"

end

end Forest

end GeneralLL
