import GeneralLL.Value

/-!
# What can go wrong

Causes, each with the facts a reader needs to find the fault, and one wording for
each. A text that is not in the language is not an error: it is an answer of the
parser.
-/

namespace GeneralLL

/-- Why an expression has no value. -/
inductive EvalError where
  | undefinedVariable (name : String)
  | typeMismatch (operator : String) (left right : Value.Kind)
  | divisionByZero
  deriving DecidableEq, Repr

/-- The wording of the error. -/
def EvalError.message : EvalError → String
  | undefinedVariable name => "Undefined variable '" ++ name ++ "'"
  | typeMismatch operator left right =>
    "Cannot apply '" ++ operator ++ "' to " ++ left.name ++ " and " ++ right.name
  | divisionByZero => "Division by zero"

/-- What is wrong with the rules of a grammar document that is otherwise in order. -/
inductive DocumentFault where
  | rulesShape
  | productionShape
  | symbolShape
  | rangeShape
  | rangeBounds
  | noCharacters
  deriving DecidableEq, Repr

/-- The fault in a few words. -/
def DocumentFault.reason : DocumentFault → String
  | rulesShape => "Rules must be an array or object"
  | productionShape => "Production must be an array"
  | symbolShape => "Symbol must be a string"
  | rangeShape => "char_range must be an array"
  | rangeBounds => "char_range bounds must be numbers"
  | noCharacters => "Unknown rule object"

/-- The wording of the fault. -/
def DocumentFault.message (fault : DocumentFault) : String :=
  "Invalid grammar JSON: " ++ fault.reason

/-- Why a grammar cannot be compiled. -/
inductive GrammarError where
  | unknownStartSymbol (name : String)
  | startSymbolHasParameters (name : String)
  | undefinedNonterminal (name : String) (rule : String)
  | argumentCountMismatch (name : String) (expected found : Nat)
  deriving DecidableEq, Repr

/-- The wording of the error. -/
def GrammarError.message : GrammarError → String
  | unknownStartSymbol name => "No nonterminal named '" ++ name ++ "' found"
  | startSymbolHasParameters name => "Start symbol '" ++ name ++ "' is parameterised"
  | undefinedNonterminal name rule =>
    "Nonterminal '" ++ name ++ "' used in rule '" ++ rule ++ "' has no alternatives"
  | argumentCountMismatch name expected found =>
    "Nonterminal '" ++ name ++ "' expects " ++ toString expected ++ " argument(s), found "
      ++ toString found

/-- Why a document could not be loaded. -/
inductive LoadError where
  /-- The file cannot be read. -/
  | unreadable
  /-- The text is not the JSON that was asked for. -/
  | malformed
  | invalid (fault : DocumentFault)
  deriving DecidableEq, Repr

/-- Why a condition has no answer. A condition that is not a truth value is a fault of the
grammar and not a rejection of the text. -/
inductive ConditionError where
  | eval (e : EvalError)
  | notBoolean (expression value : String)
  deriving DecidableEq, Repr

/-- The wording of the error. -/
def ConditionError.message : ConditionError → String
  | eval e => e.message
  | notBoolean expression value =>
    "Condition '" ++ expression ++ "' evaluated to non-boolean value " ++ value

/-- Why a forest has no single tree at a node. -/
inductive TreeError where
  | ambiguous (label : String) (left right : Nat)
  | cyclic (label : String) (left right : Nat)
  deriving DecidableEq, Repr

/-- The wording of the error, which names the node by its label and extents. -/
def TreeError.message : TreeError → String
  | ambiguous label left right => node label left right ++ " is ambiguous"
  | cyclic label left right => node label left right ++ " is part of a cycle"
where
  node (label : String) (left right : Nat) : String :=
    "Node " ++ label ++ " [" ++ toString left ++ ", " ++ toString right ++ ")"

end GeneralLL
