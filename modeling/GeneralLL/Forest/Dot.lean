import GeneralLL.Forest

/-!
# Drawing forests

A forest in the language of graph drawing tools. Every node is a shape with its
description as a label, boxes for parts of rules and ellipses for the others; every
packed node is a point labelled with its pivot, between its parent and its parts.
-/

namespace GeneralLL.Forest

/-- A label between quotes, in which quotes take a backslash. -/
def dotLabel (text : String) : String :=
  "\"" ++ String.ofList (text.toList.flatMap fun c => if c = '"' then ['\\', '"'] else [c]) ++ "\""

/-- One statement on a line of its own. -/
def dotLine (statement : String) : String := "  " ++ statement ++ ";\n"

/-- An arrow from one shape to another. -/
def dotEdge (source target : String) : String := dotLine (source ++ " -> " ++ target)

/-- What the shape of a node is called. -/
def nodeName (id : Nat) : String := "n" ++ toString id

/-- What the shape of a packed node is called. -/
def packedName (id : Nat) : String := "p" ++ toString id

/-- A packed node with the edges to and from it. -/
def packedDot (f : Forest) (node id : Nat) : String :=
  let p := f.getPacked id
  dotLine (packedName id ++ " [label=" ++ dotLabel (toString p.pivot) ++ ", shape=point]")
    ++ dotEdge (nodeName node) (packedName id)
    ++ p.left.elim "" (fun left => dotEdge (packedName id) (nodeName left))
    ++ dotEdge (packedName id) (nodeName p.right)

variable {μ : Type} [DecidableEq μ] [Matcher μ]

/-- A node with its packed nodes. -/
def nodeDot (f : Forest) (g : SlotGraph μ) (id : Nat) : String :=
  let n := f.get id
  let shape := if n.span.label.isIntermediate then "box" else "ellipse"
  dotLine (nodeName id ++ " [label=" ++ dotLabel (f.describe g id) ++ ", shape=" ++ shape ++ "]")
    ++ String.join (n.packed.map (f.packedDot id))

/-- The whole forest, node by node. -/
def toDot (f : Forest) (g : SlotGraph μ) : String :=
  "digraph sppf \x7b\n" ++ String.join ((List.range f.size).map (f.nodeDot g)) ++ "\x7d\n"

end GeneralLL.Forest
