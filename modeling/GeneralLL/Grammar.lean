import GeneralLL.Explore
import GeneralLL.Numbering
import GeneralLL.Symbol

/-!
# Grammars

A grammar is a list of rules and a start symbol. Nonterminals are names; a name
is a nonterminal of the grammar if some rule has it as its head. A grammar may
name nonterminals without rules: whether it is closed is found out when it is
compiled.
-/

namespace GeneralLL

/-- One alternative of a nonterminal. -/
structure Rule (μ : Type) where
  /-- The nonterminal that the alternative belongs to. -/
  head : String
  /-- What the alternative is made of, from left to right. -/
  body : List (Symbol μ)
  /-- The value given to the caller when the alternative is complete. -/
  returns : Option Expr := none
  deriving DecidableEq, Repr

namespace Rule

variable {μ : Type}

/-- Is the body empty? -/
def isEpsilon (r : Rule μ) : Bool := r.body.isEmpty

/-- The nonterminals named in the body, from left to right. -/
def references (r : Rule μ) : List String := r.body.flatMap Symbol.references

variable [Matcher μ]

/-- The rule with a dot before the symbol at `position`, or at the end. -/
def dotted (r : Rule μ) (position : Nat) : String :=
  let parts := r.body.map Symbol.toText
  r.head ++ " ::= " ++ " ".intercalate (parts.take position ++ "." :: parts.drop position)

/-- A rule as it is written, with the value it returns in braces. -/
def toText (r : Rule μ) : String :=
  let body := if r.isEpsilon then "ε" else " ".intercalate (r.body.map Symbol.toText)
  r.head ++ " ::= " ++ body ++ r.returns.elim "" fun e => " \x7b" ++ e.toText ++ "\x7d"

end Rule

/-- A list of rules with a start symbol, which need not have rules. -/
structure Grammar (μ : Type) where
  /-- What the grammar is called in reports. -/
  name : String
  /-- The nonterminal that stands for whole texts. -/
  start : String
  /-- The rules, in the order in which they were given. -/
  rules : List (Rule μ)
  /-- The parameters of the nonterminals that have any. -/
  parameters : List (String × List String) := []
  /-- Sample texts. -/
  tests : List String := []
  deriving DecidableEq, Repr

namespace Grammar

variable {μ : Type}

/-- Without a start symbol of its own a grammar starts with its first rule. -/
def ofRules (name : String) (start : Option String) (rules : List (Rule μ))
    (parameters : List (String × List String)) (tests : List String) : Grammar μ :=
  { name, rules, parameters, tests
    start := start.getD (rules.head?.elim "" Rule.head) }

/-- The same rules with another start symbol. -/
def withStart (g : Grammar μ) (start : String) : Grammar μ := { g with start }

/-- The nonterminals in the order of their first rules. -/
def nonterminals (g : Grammar μ) : List String := (Numbering.ofList (g.rules.map Rule.head)).toList

/-- Has a name rules? -/
def hasNonterminal (g : Grammar μ) (name : String) : Bool := g.rules.any (·.head = name)

/-- The rules of one nonterminal, in order. -/
def alternatives (g : Grammar μ) (name : String) : List (Rule μ) := g.rules.filter (·.head = name)

/-- The parameters of a nonterminal; a name for which none are given has none. -/
def parametersOf (g : Grammar μ) (name : String) : List String :=
  ((g.parameters.find? (·.1 = name)).map Prod.snd).getD []

/-- How many rules there are. -/
def productionCount (g : Grammar μ) : Nat := g.rules.length

/-- The names that occur in the rules of a nonterminal. -/
def references (g : Grammar μ) (name : String) : List String :=
  (g.alternatives name).flatMap Rule.references

/-- The nonterminals that can be reached from `name`, itself first, breadth first. -/
def reachable (g : Grammar μ) (name : String) : List String :=
  Explore.reachable g.references (g.rules.map Rule.head) name

/-- A heading with the start symbol, then every rule on a line of its own. -/
def toText [Matcher μ] (g : Grammar μ) : String :=
  "=== Grammar: " ++ g.name ++ " (start " ++ g.start ++ ") ===\n"
    ++ String.join (g.rules.map fun r => "  " ++ r.toText ++ "\n")

end Grammar

end GeneralLL
