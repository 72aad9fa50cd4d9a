/-!
# Parse trees

A single derivation: nonterminals with their children, and at the leaves the texts
that terminals matched. An empty derivation has a leaf of its own, which adds nothing
to the text of the tree. Trees can be shown as a drawing, indented, or in one line.
-/

namespace GeneralLL

/-- What a node of a tree is called. -/
inductive ParseSymbol where
  | nonterminal (name : String)
  | terminal (text : String)
  deriving DecidableEq, Repr

/-- Texts are written between quotes. -/
def ParseSymbol.toText : ParseSymbol → String
  | nonterminal name => name
  | terminal text => "'" ++ text ++ "'"

/-- A node with its subtrees from left to right. -/
inductive ParseTree where
  | node (name : ParseSymbol) (children : List ParseTree)

namespace ParseTree

/-- The text of the leaf of an empty derivation. -/
def epsilonLeaf : String := "ε"

/-- The leaf for a text that a terminal matched. -/
def leaf (text : String) : ParseTree := node (.terminal text) []

/-- The node of a nonterminal. -/
def ofName (name : String) (children : List ParseTree) : ParseTree :=
  node (.nonterminal name) children

/-- What the root is called. -/
def name : ParseTree → ParseSymbol
  | node name _ => name

/-- The subtrees below the root. -/
def children : ParseTree → List ParseTree
  | node _ children => children

/-- Has the root nothing below it? -/
def isLeaf (t : ParseTree) : Bool := t.children.isEmpty

mutual

/-- The number of nodes. -/
def size : ParseTree → Nat
  | node _ children => 1 + sizes children

/-- The number of nodes of several trees. -/
def sizes : List ParseTree → Nat
  | [] => 0
  | t :: rest => t.size + sizes rest

end

mutual

/-- The texts of the leaves that are terminals, one after the other; the leaves of empty
derivations are left out. -/
def yield : ParseTree → String
  | node (.terminal text) [] => if text = epsilonLeaf then "" else text
  | node _ children => yields children

/-- The texts of several trees, one after the other. -/
def yields : List ParseTree → String
  | [] => ""
  | t :: rest => t.yield ++ yields rest

end

mutual

/-- Every node in parentheses with its children. -/
def tupleText : ParseTree → String
  | node name children =>
    "('" ++ name.toText ++ "', [" ++ ", ".intercalate (tupleTexts children) ++ "])"

/-- Several trees, each in parentheses. -/
def tupleTexts : List ParseTree → List String
  | [] => []
  | t :: rest => t.tupleText :: tupleTexts rest

end

mutual

/-- Every node on a line of its own, indented by its depth; nodes with children in
parentheses. -/
def indented (depth : Nat) : ParseTree → String
  | node name children =>
    let margin := String.join (List.replicate depth "  ")
    match children with
    | [] => margin ++ name.toText
    | children =>
      margin ++ "(" ++ name.toText ++ "\n"
        ++ "\n".intercalate (indenteds (depth + 1) children) ++ ")"

/-- Several trees of the same depth, indented. -/
def indenteds (depth : Nat) : List ParseTree → List String
  | [] => []
  | t :: rest => t.indented depth :: indenteds depth rest

end

/-- The whole tree, indented from the margin. -/
def prettyPrint (t : ParseTree) : String := t.indented 0

mutual

/-- The lines of a drawing below a node. -/
def branchLines (margin : String) : ParseTree → List String
  | node _ children => drawing margin children

/-- The lines of a drawing of subtrees next to each other, the last of which has nothing
below it. -/
def drawing (margin : String) : List ParseTree → List String
  | [] => []
  | [t] => (margin ++ "└─ " ++ t.name.toText) :: t.branchLines (margin ++ "    ")
  | t :: rest =>
    (margin ++ "├─ " ++ t.name.toText) :: t.branchLines (margin ++ "│   ")
      ++ drawing margin rest

end

/-- The tree as a drawing with lines. -/
def display (t : ParseTree) : String :=
  "\n".intercalate (t.name.toText :: t.branchLines "")

end ParseTree

end GeneralLL
