import GeneralLL.Condition

/-!
# Symbols

What the body of a rule is made of: a terminal, a call of a nonterminal, or one of
these chosen by an expression. Every symbol can carry a label, under which its
extent and its value are stored, and conditions on the region it covers.
-/

namespace GeneralLL

/-- What a symbol carries besides its kind. -/
structure Annotations (μ : Type) where
  /-- The name under which the extent and the value of the symbol are stored. -/
  label : Option String := none
  /-- Conditions on the place where the symbol starts. -/
  pre : List (Condition μ) := []
  /-- Conditions on the region that the symbol covers. -/
  post : List (Condition μ) := []
  deriving DecidableEq, Repr

/-- A terminal, a call, or a choice by an expression. -/
inductive Symbol (μ : Type) where
  | terminal (t : Terminal μ) (notes : Annotations μ)
  | call (name : String) (arguments : List Expr) (notes : Annotations μ)
  | ifThen (condition : Expr) (body : Symbol μ) (notes : Annotations μ)
  | ifThenElse (condition : Expr) (body otherwise : Symbol μ) (notes : Annotations μ)
  deriving DecidableEq, Repr

namespace Symbol

variable {μ : Type}

instance : Inhabited (Symbol μ) := ⟨terminal .epsilon {}⟩

/-- What the symbol carries, whatever its kind. -/
def notes : Symbol μ → Annotations μ
  | terminal _ notes | call _ _ notes | ifThen _ _ notes | ifThenElse _ _ _ notes => notes

/-- Is the symbol a terminal? -/
def isTerminal : Symbol μ → Bool
  | terminal .. => true
  | _ => false

/-- The name of the nonterminal, if the symbol is a call. -/
def callee? : Symbol μ → Option String
  | call name .. => some name
  | _ => none

/-- All calls inside a symbol, from left to right. -/
def calls : Symbol μ → List (String × List Expr)
  | terminal .. => []
  | call name arguments _ => [(name, arguments)]
  | ifThen _ body _ => body.calls
  | ifThenElse _ body otherwise _ => body.calls ++ otherwise.calls

/-- The nonterminals named inside a symbol, from left to right. -/
def references (s : Symbol μ) : List String := s.calls.map Prod.fst

/-- All terminals inside a symbol, from left to right. -/
def terminals : Symbol μ → List (Terminal μ)
  | terminal t _ => [t]
  | call .. => []
  | ifThen _ body _ => body.terminals
  | ifThenElse _ body otherwise _ => body.terminals ++ otherwise.terminals

section

variable [Matcher μ]

/-- Conditions in brackets, those on the start in front and those on the region behind, and
the label before the symbol itself. -/
def annotated (text : String) (notes : Annotations μ) : String :=
  String.join (notes.pre.map fun c => "[" ++ c.toText ++ "] ")
    ++ notes.label.elim "" (· ++ ":")
    ++ text
    ++ String.join (notes.post.map fun c => " [" ++ c.toText ++ "]")

/-- A symbol as it is written in a grammar. -/
def toText : Symbol μ → String
  | terminal t notes => annotated t.toText notes
  | call name arguments notes =>
    let list := if arguments.isEmpty then ""
      else "(" ++ ", ".intercalate (arguments.map Expr.toText) ++ ")"
    annotated (name ++ list) notes
  | ifThen condition body notes =>
    annotated ("if " ++ condition.toText ++ " " ++ body.toText) notes
  | ifThenElse condition body otherwise notes =>
    annotated ("if " ++ condition.toText ++ " " ++ body.toText ++ " else " ++ otherwise.toText)
      notes

end

end Symbol

end GeneralLL
