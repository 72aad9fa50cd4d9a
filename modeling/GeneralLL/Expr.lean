import GeneralLL.Value

/-!
# Expressions

The expressions that conditions, arguments and return values are made of. Besides
variables they can name the extents of a labelled symbol, which are stored under
names of their own made from the label.
-/

namespace GeneralLL

/-- The binary operators. -/
inductive Operator where
  | add | sub | mul | div | mod
  | bitAnd | bitOr | bitXor | shiftLeft | shiftRight
  | eq | ne | lt | le | gt | ge
  | and | or
  deriving DecidableEq, Repr

/-- How an operator is written. -/
def Operator.symbol : Operator → String
  | add => "+"
  | sub => "-"
  | mul => "*"
  | div => "/"
  | mod => "%"
  | bitAnd => "&"
  | bitOr => "|"
  | bitXor => "^"
  | shiftLeft => "<<"
  | shiftRight => ">>"
  | eq => "=="
  | ne => "!="
  | lt => "<"
  | le => "<="
  | gt => ">"
  | ge => ">="
  | and => "&&"
  | or => "||"

/-- Constants, variables, extents of labelled symbols, and what operators make of them. -/
inductive Expr where
  | const (v : Value)
  | var (name : String)
  | leftExtent (label : String)
  | rightExtent (label : String)
  | not (e : Expr)
  | binary (op : Operator) (left right : Expr)
  deriving DecidableEq, Repr

namespace Expr

instance : Inhabited Expr := ⟨const .unit⟩

/-- The name under which the left extent of a label is stored. -/
def leftExtentName (label : String) : String := label ++ ".lExt"

/-- The name under which the right extent of a label is stored. -/
def rightExtentName (label : String) : String := label ++ ".rExt"

/-- The names an expression reads, from left to right. -/
def names : Expr → List String
  | const _ => []
  | var name => [name]
  | leftExtent label => [leftExtentName label]
  | rightExtent label => [rightExtentName label]
  | not e => e.names
  | binary _ left right => left.names ++ right.names

/-- An expression as it is written, with parentheses around every binary operation. -/
def toText : Expr → String
  | const v => v.toText
  | var name => name
  | leftExtent label => leftExtentName label
  | rightExtent label => rightExtentName label
  | not e => "!(" ++ e.toText ++ ")"
  | binary op left right => "(" ++ left.toText ++ " " ++ op.symbol ++ " " ++ right.toText ++ ")"

end Expr

end GeneralLL
