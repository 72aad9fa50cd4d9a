import GeneralLL.Expr.Eval
import GeneralLL.Terminal

/-!
# Conditions

A guard on a symbol, asked about the region from `left` to `right` that the
symbol covers. It is either an expression, which must have a truth value, or it
compares the text around or inside the region with a terminal. Each comparison
also exists in the negative, and the two are exact opposites.
-/

namespace GeneralLL

/-- Where a terminal is compared with the text. -/
inductive Context where
  /-- A match starts at the right end of the region. -/
  | follow
  /-- A match ends at the left end of the region. -/
  | precede
  /-- A match covers the region exactly. -/
  | cover
  deriving DecidableEq, Repr

/-- An expression, or a terminal compared with the text. What is `expected` of a comparison is a
match, or in the negative the lack of one. -/
inductive Condition (μ : Type) where
  | expr (e : Expr)
  | context (side : Context) (expected : Bool) (terminal : Terminal μ)
  deriving DecidableEq, Repr

namespace Context

variable {μ : Type} [Matcher μ]

/-- Does the terminal match on this side of the region? -/
def test (input : Input) (left right : Nat) (terminal : Terminal μ) : Context → Bool
  | follow => (terminal.matchAt input right).isSome
  | precede => terminal.matchesBefore input left
  | cover => terminal.matchAt input left = some right

end Context

/-- The truth value of an expression. -/
def Evaluator.truth (evaluate : Evaluator) (e : Expr) (env : Environment) :
    Except ConditionError Bool :=
  match evaluate e env with
  | .ok (.bool b) => .ok b
  | .ok v => .error (.notBoolean e.toText v.toText)
  | .error error => .error (.eval error)

namespace Condition

variable {μ : Type} [Matcher μ]

/-- Does the condition hold of the region? -/
def holds (evaluate : Evaluator) (input : Input) (left right : Nat) (env : Environment) :
    Condition μ → Except ConditionError Bool
  | expr e => evaluate.truth e env
  | context side expected terminal =>
    .ok (side.test input left right terminal == expected)

/-- A condition as it is written in a grammar; the negative of a comparison has a sign of its own.
-/
def toText : Condition μ → String
  | expr e => e.toText
  | context .follow expected t => (if expected then ">> " else "!>> ") ++ t.toText
  | context .precede expected t => t.toText ++ (if expected then " <<" else " !<<")
  | context .cover expected t => (if expected then "& " else "\\ ") ++ t.toText

/-- Do all conditions hold? They are asked in order, up to the first that does not. -/
def allHold (evaluate : Evaluator) (input : Input) (left right : Nat) (env : Environment) :
    List (Condition μ) → Except ConditionError Bool
  | [] => .ok true
  | c :: rest => do
    if ← c.holds evaluate input left right env then
      allHold evaluate input left right env rest
    else
      .ok false

end Condition

end GeneralLL
