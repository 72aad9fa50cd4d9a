import GeneralLL.Environment
import GeneralLL.Error
import GeneralLL.Expr

/-!
# Evaluation

The value of an expression in an environment. Integers wrap around, division and
remainder go toward zero, and a shift is defined for the amounts 0 to 63. The
operands of `&&` and `||` are taken from left to right, and the right one only if
the left one leaves the answer open.

An `Evaluator` is any way of giving values to expressions. A parser takes one as a
parameter, so the language of expressions can be replaced.
-/

namespace GeneralLL

/-- A way of giving values to expressions. -/
abbrev Evaluator := Expr → Environment → Except EvalError Value

/-- What an operator without a rule for these operands reports. -/
def Operator.mismatch (op : Operator) (left right : Value) : Except EvalError Value :=
  .error (.typeMismatch op.symbol left.kind right.kind)

/-- Applies an operator to two integers. -/
def Operator.applyInt (op : Operator) (a b : Int64) : Except EvalError Value :=
  match op with
  | add => .ok (.int (a + b))
  | sub => .ok (.int (a - b))
  | mul => .ok (.int (a * b))
  | div => if b = 0 then .error .divisionByZero else .ok (.int (a / b))
  | mod => if b = 0 then .error .divisionByZero else .ok (.int (a % b))
  | bitAnd => .ok (.int (a &&& b))
  | bitOr => .ok (.int (a ||| b))
  | bitXor => .ok (.int (a ^^^ b))
  | shiftLeft => if 0 ≤ b ∧ b < 64 then .ok (.int (a <<< b)) else op.mismatch (.int a) (.int b)
  | shiftRight => if 0 ≤ b ∧ b < 64 then .ok (.int (a >>> b)) else op.mismatch (.int a) (.int b)
  | eq => .ok (.bool (a = b))
  | ne => .ok (.bool (a ≠ b))
  | lt => .ok (.bool (a < b))
  | le => .ok (.bool (a ≤ b))
  | gt => .ok (.bool (b < a))
  | ge => .ok (.bool (b ≤ a))
  | and | or => op.mismatch (.int a) (.int b)

/-- Applies an operator to two truth values. -/
def Operator.applyBool (op : Operator) (a b : Bool) : Except EvalError Value :=
  match op with
  | bitAnd => .ok (.bool (a && b))
  | bitOr => .ok (.bool (a || b))
  | bitXor => .ok (.bool (a ^^ b))
  | eq => .ok (.bool (a = b))
  | ne => .ok (.bool (a ≠ b))
  | _ => op.mismatch (.bool a) (.bool b)

/-- Applies an operator to two texts, which are ordered character by character. -/
def Operator.applyStr (op : Operator) (a b : String) : Except EvalError Value :=
  match op with
  | add => .ok (.str (a ++ b))
  | eq => .ok (.bool (a = b))
  | ne => .ok (.bool (a ≠ b))
  | lt => .ok (.bool (a < b))
  | le => .ok (.bool (a ≤ b))
  | gt => .ok (.bool (b < a))
  | ge => .ok (.bool (b ≤ a))
  | _ => op.mismatch (.str a) (.str b)

/-- Applies an operator to two values. Any two values can be compared for equality; all else
asks for operands of one kind. -/
def Operator.apply (op : Operator) (left right : Value) : Except EvalError Value :=
  match left, right with
  | .int a, .int b => op.applyInt a b
  | .bool a, .bool b => op.applyBool a b
  | .str a, .str b => op.applyStr a b
  | _, _ =>
    match op with
    | eq => .ok (.bool (left = right))
    | ne => .ok (.bool (left ≠ right))
    | _ => op.mismatch left right

namespace Expr

/-- The value of a variable. -/
def read (name : String) (env : Environment) : Except EvalError Value :=
  match env.lookup name with
  | some v => .ok v
  | none => .error (.undefinedVariable name)

/-- The right operand of `&&` and `||`, which decides the answer. -/
def deciding (op : Operator) : Value → Except EvalError Value
  | .bool b => .ok (.bool b)
  | v => op.mismatch (.bool true) v

/-- The value of an expression in the built-in language. -/
def eval : Evaluator
  | const v, _ => .ok v
  | var name, env => read name env
  | leftExtent label, env => read (leftExtentName label) env
  | rightExtent label, env => read (rightExtentName label) env
  | not e, env => do
    match ← eval e env with
    | .bool b => .ok (.bool !b)
    | v => .error (.typeMismatch "!" v.kind .unit)
  | binary .and left right, env => do
    match ← eval left env with
    | .bool false => .ok (.bool false)
    | .bool true => deciding .and (← eval right env)
    | v => Operator.and.mismatch v .unit
  | binary .or left right, env => do
    match ← eval left env with
    | .bool true => .ok (.bool true)
    | .bool false => deciding .or (← eval right env)
    | v => Operator.or.mismatch v .unit
  | binary op left right, env => do
    op.apply (← eval left env) (← eval right env)

end Expr

/-- Fixes the values of some variables: an expression that is itself such a variable has the
fixed value, and all other expressions are left to `base`. -/
def Evaluator.overriding (fixed : List Binding) (base : Evaluator) : Evaluator
  | .var name, env =>
    match fixed.find? (·.1 = name) with
    | some b => .ok b.2
    | none => base (.var name) env
  | e, env => base e env

end GeneralLL
