import GeneralLL.Error
import GeneralLL.Forest
import GeneralLL.Input
import GeneralLL.ParseTree

/-!
# Trees from forests

The one derivation of a forest node as a tree. Parts of rules are replaced by what
they are made of, terminals by the text they matched. A node with several
derivations has no single tree, and neither has a node that is part of itself;
the first such node that is met is reported. A node that has no derivation has no
children.

The search follows a path from the root and stops when it meets a node of the path
again, so it ends.
-/

namespace GeneralLL.Forest

variable {μ : Type} [DecidableEq μ] [Matcher μ]

/-- The nodes of a forest that are not on a path. -/
def offPath (f : Forest) (path : List Nat) : List Nat :=
  (List.range f.nodes.size).filter (· ∉ path)

theorem length_offPath_lt {f : Forest} {path : List Nat} {id : Nat} {node : Node}
    (hnode : f.nodes[id]? = some node) (hpath : id ∉ path) :
    (f.offPath (id :: path)).length < (f.offPath path).length := by
  obtain ⟨hid, -⟩ := Array.getElem?_eq_some_iff.mp hnode
  have hsub : f.offPath (id :: path) = (f.offPath path).filter (· ≠ id) := by
    unfold offPath
    rw [List.filter_filter]
    apply List.filter_congr
    intro x _
    simp [List.mem_cons, not_or]
  rw [hsub]
  apply Nat.lt_of_le_of_ne (List.length_filter_le ..)
  intro heq
  have hall := List.length_filter_eq_length_iff.mp heq
  have hmem : id ∈ f.offPath path := by
    simp [offPath, hid, hpath]
  simpa using hall id hmem

/-- The leaf of a terminal. -/
def leafTree (g : SlotGraph μ) (input : Input) (terminal left right : Nat) : ParseTree :=
  if (g.terminal terminal).isEpsilon then .leaf ParseTree.epsilonLeaf
  else .leaf (input.substring left right)

/-- What a node puts into the tree above it, given its children: parts of rules are replaced by
them. -/
def splice (f : Forest) (g : SlotGraph μ) (input : Input) (id : Nat)
    (children : Except TreeError (List ParseTree)) : Except TreeError (List ParseTree) :=
  let span := (f.get id).span
  match span.label with
  | .terminal t => .ok [leafTree g input t span.left span.right]
  | .nonterminal .. => children.map fun trees => [.ofName (span.label.name g) trees]
  | .intermediate .. => children

/-- The children of the only derivation of a node. -/
def childTrees (f : Forest) (g : SlotGraph μ) (input : Input) (path : List Nat) (id : Nat) :
    Except TreeError (List ParseTree) :=
  match _ : f.nodes[id]? with
  | none => .ok []
  | some node =>
    let span := node.span
    if _ : id ∈ path then .error (.cyclic (span.label.name g) span.left span.right)
    else match node.packed with
      | [] => .ok []
      -- the path grows by this node before its parts are looked at
      | [k] => do
        let p := f.getPacked k
        let left ← match p.left with
          | none => .ok []
          | some l => f.splice g input l (f.childTrees g input (id :: path) l)
        let right ← f.splice g input p.right (f.childTrees g input (id :: path) p.right)
        return left ++ right
      | _ => .error (.ambiguous (span.label.name g) span.left span.right)
termination_by (f.offPath path).length
decreasing_by
  all_goals exact length_offPath_lt ‹_› ‹_›

/-- The only tree of a node, if it has one. -/
def tree (f : Forest) (g : SlotGraph μ) (input : Input) (root : Nat) :
    Except TreeError ParseTree :=
  let span := (f.get root).span
  match span.label with
  | .terminal t => .ok (leafTree g input t span.left span.right)
  | _ => (f.childTrees g input [] root).map (.ofName (span.label.name g))

end GeneralLL.Forest
