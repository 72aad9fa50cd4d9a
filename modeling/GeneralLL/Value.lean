import GeneralLL.Text.Escape

/-!
# Values

What expressions compute: nothing, a truth value, a machine integer of 64 bits
that wraps around, or a text.
-/

namespace GeneralLL

/-- What an expression can compute. -/
inductive Value where
  | unit
  | bool (b : Bool)
  | int (n : Int64)
  | str (s : String)
  deriving DecidableEq, Repr

namespace Value

instance : Inhabited Value := ⟨unit⟩

/-- The four kinds of values. -/
inductive Kind where
  | unit
  | bool
  | int
  | string
  deriving DecidableEq, Repr

/-- What a kind is called in errors. -/
def Kind.name : Kind → String
  | unit => "unit"
  | bool => "bool"
  | int => "int"
  | string => "string"

/-- Which of the four kinds a value is of. -/
def kind : Value → Kind
  | unit => .unit
  | bool _ => .bool
  | int _ => .int
  | str _ => .string

/-- The truth value, if it is one. -/
def asBool : Value → Option Bool
  | bool b => some b
  | _ => none

/-- The integer, if it is one. -/
def asInt : Value → Option Int64
  | int n => some n
  | _ => none

/-- A position or a count as a value. -/
def ofNat (n : Nat) : Value := int (Int64.ofNat n)

/-- A value as it is written, texts between quotes. -/
def toText : Value → String
  | unit => "()"
  | bool b => if b then "true" else "false"
  | int n => toString n.toInt
  | str s => Text.quoted s

/-- Values in parentheses, as the arguments of a call are written. -/
def tupleText (values : List Value) : String :=
  "(" ++ ", ".intercalate (values.map toText) ++ ")"

end Value

end GeneralLL
