import GeneralLL.FirstFollow

/-!
# Slot graphs

The compiled form of a grammar. A slot is a place in a rule, written as the rule
with a dot, and its action says what has to happen there for the dot to move on:
match a terminal, call a nonterminal, or choose between two other slots. Behind the
last symbol the rule is complete; for an empty rule this is its only slot.

Nonterminals, terminals and slots are numbered from 0. The start symbol is
nonterminal 0 and the empty terminal is terminal 0. A number that the graph does
not have stands for an empty rule, the empty terminal or a nameless nonterminal, so
that every question has an answer.
-/

namespace GeneralLL

/-- What has to happen at a slot. -/
inductive Action (μ : Type) where
  /-- Match a terminal and go on at `dest`. -/
  | scan (terminal : Nat) (notes : Annotations μ) (dest : Nat)
  /-- Call a nonterminal; with its result, go on at `dest`. -/
  | call (callee : Nat) (arguments : List Expr) (notes : Annotations μ) (dest : Nat)
  /-- Go on at one of two slots. -/
  | branch (condition : Expr) (ifTrue ifFalse : Nat)
  /-- The rule is complete. -/
  | complete (returns : Option Expr)
  deriving DecidableEq, Repr

/-- A place in a rule. -/
structure Slot (μ : Type) where
  /-- The nonterminal that the rule belongs to. -/
  head : Nat
  /-- The number of the rule. -/
  rule : Nat
  /-- How many symbols of the rule stand before the dot. -/
  position : Nat
  /-- The rule with its dot, and in a branch also the way into it. -/
  text : String
  /-- What may come next when the rule is entered or taken up again here. -/
  lookahead : Lookahead
  /-- What has to happen here. -/
  action : Action μ
  deriving DecidableEq, Repr

/-- A nonterminal with the first slots of its alternatives. -/
structure Nonterminal where
  /-- What the nonterminal is called in the grammar. -/
  name : String
  /-- The names that arguments are bound to, in order. -/
  parameters : List String
  /-- The slot at the front of each alternative, in order. -/
  firstSlots : List Nat
  deriving DecidableEq, Repr

/-- A compiled grammar, in which everything is numbered by its position. -/
structure SlotGraph (μ : Type) where
  /-- What the grammar is called in reports. -/
  name : String
  /-- The nonterminals, the start symbol first. -/
  nonterminals : Array Nonterminal
  /-- The terminals of all rules, the empty one first. -/
  terminals : Numbering (Terminal μ)
  /-- The slots, rule by rule. -/
  slots : Array (Slot μ)
  /-- The rules, in the order of the grammar. -/
  rules : Array (Rule μ)

namespace Slot

variable {μ : Type}

instance : Inhabited (Slot μ) := ⟨⟨0, 0, 0, "", .empty, .complete none⟩⟩

/-- Is the rule complete here? -/
def isEnd (s : Slot μ) : Bool :=
  match s.action with
  | .complete _ => true
  | _ => false

/-- The value given to the caller, where the rule is complete. -/
def returns (s : Slot μ) : Option Expr :=
  match s.action with
  | .complete returns => returns
  | _ => none

end Slot

namespace SlotGraph

variable {μ : Type}

/-- The start symbol. -/
def start (_ : SlotGraph μ) : Nat := 0

/-- The empty terminal. -/
def epsilon (_ : SlotGraph μ) : Nat := 0

/-- The slot with a number. -/
def slot (g : SlotGraph μ) (id : Nat) : Slot μ := g.slots[id]?.getD default

/-- The nonterminal with a number. -/
def nonterminal (g : SlotGraph μ) (id : Nat) : Nonterminal := g.nonterminals[id]?.getD ⟨"", [], []⟩

/-- What the nonterminal with a number is called. -/
def nonterminalName (g : SlotGraph μ) (id : Nat) : String := (g.nonterminal id).name

/-- The number of the nonterminal with a name. -/
def nonterminalId? (g : SlotGraph μ) (name : String) : Option Nat :=
  g.nonterminals.findIdx? (·.name = name)

/-- The rule with a number. -/
def rule (g : SlotGraph μ) (index : Nat) : Rule μ := g.rules[index]?.getD { head := "", body := [] }

/-- Is this the only slot of an empty rule? -/
def isEmptyRule (g : SlotGraph μ) (id : Nat) : Bool :=
  (g.slot id).isEnd && (g.rule (g.slot id).rule).body.isEmpty

variable [DecidableEq μ]

/-- The terminal with a number. -/
def terminal (g : SlotGraph μ) (id : Nat) : Terminal μ := (g.terminals.get? id).getD .epsilon

/-- The number of a terminal, if the graph has it. -/
def terminalId? (g : SlotGraph μ) (t : Terminal μ) : Option Nat := g.terminals.find? t

end SlotGraph

end GeneralLL
