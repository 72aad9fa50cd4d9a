import GeneralLL.Error
import GeneralLL.SlotGraph

/-!
# Compiling grammars

A grammar can be compiled if it is closed: the start symbol has rules and no
parameters, and every call names a nonterminal with rules and passes as many
arguments as it has parameters. The first call that does not is reported, in the
order in which the grammar is read.

Slots are laid out rule by rule. A rule takes one slot for each place of the dot,
and behind these the slots of its branches: the first slot of a branch, then the
slots inside it, then the next branch. A branch that is taken leads to the slot
behind its conditional symbol, and so does a missing one.
-/

namespace GeneralLL

namespace Grammar

variable {μ : Type} [Matcher μ]

/-- Checks one call in a rule. -/
def checkCall (g : Grammar μ) (r : Rule μ) (call : String × List Expr) :
    Except GrammarError Unit :=
  let (name, arguments) := call
  let expected := (g.parametersOf name).length
  if !g.hasNonterminal name then .error (.undefinedNonterminal name r.toText)
  else if expected ≠ arguments.length then
    .error (.argumentCountMismatch name expected arguments.length)
  else .ok ()

/-- Checks that a grammar is closed. -/
def check (g : Grammar μ) : Except GrammarError Unit := do
  if !g.hasNonterminal g.start then .error (.unknownStartSymbol g.start)
  else if !(g.parametersOf g.start).isEmpty then .error (.startSymbolHasParameters g.start)
  else g.rules.forM fun r => (r.body.flatMap Symbol.calls).forM (g.checkCall r)

end Grammar

namespace SlotGraph

variable {μ : Type}

/-- The numbers that compiled symbols refer to. -/
structure Names (μ : Type) where
  /-- The numbers of the nonterminals, 0 for the start symbol. -/
  nonterminals : Numbering String
  /-- The numbers of the terminals, 0 for the empty one. -/
  terminals : Numbering (Terminal μ)

/-- The place that a symbol is compiled for: the slots of its branches belong to it. -/
structure Place where
  /-- The nonterminal that the rule belongs to. -/
  head : Nat
  /-- The number of the rule. -/
  rule : Nat
  /-- How many symbols of the rule stand before the dot. -/
  position : Nat
  /-- The rule with its dot, and in a branch also the way into it. -/
  text : String

/-- The same place inside a branch. -/
def Place.branch (p : Place) (name : String) : Place :=
  { p with text := p.text ++ " [" ++ name ++ "]" }

/-- A slot at a place. -/
def Place.slot (p : Place) (lookahead : Lookahead) (action : Action μ) : Slot μ :=
  ⟨p.head, p.rule, p.position, p.text, lookahead, action⟩

section

variable [DecidableEq μ]

/-- The action that moves the dot over a symbol to `dest`, and the slots of its branches, the
first of which has the number `next`. Only the symbols inside a conditional are annotated. -/
def compileSymbol (names : Names μ) (dest : Nat) (place : Place) (next : Nat) :
    Symbol μ → Action μ × List (Slot μ)
  | .terminal t notes => (.scan ((names.terminals.find? t).getD 0) notes dest, [])
  | .call name arguments notes =>
    (.call ((names.nonterminals.find? name).getD 0) arguments notes dest, [])
  | .ifThen condition body _ =>
    let thenPlace := place.branch "then"
    let (action, inner) := compileSymbol names dest thenPlace (next + 1) body
    (.branch condition next dest, thenPlace.slot .empty action :: inner)
  | .ifThenElse condition body otherwise _ =>
    let thenPlace := place.branch "then"
    let (thenAction, thenInner) := compileSymbol names dest thenPlace (next + 1) body
    let elseSlot := next + 1 + thenInner.length
    let elsePlace := place.branch "else"
    let (elseAction, elseInner) := compileSymbol names dest elsePlace (elseSlot + 1) otherwise
    (.branch condition next elseSlot,
      thenPlace.slot .empty thenAction :: thenInner
        ++ elsePlace.slot .empty elseAction :: elseInner)

/-- The actions of the symbols of a body, for which `place` gives the places, and the slots of
their branches from the number `next` on. `base` is the slot at the front of the rule. -/
def compileBody (names : Names μ) (place : Nat → Place) (base : Nat) :
    (position next : Nat) → List (Symbol μ) → List (Action μ) × List (Slot μ)
  | _, _, [] => ([], [])
  | position, next, s :: rest =>
    let (action, inner) := compileSymbol names (base + position + 1) (place position) next s
    let (actions, inners) :=
      compileBody names place base (position + 1) (next + inner.length) rest
    (action :: actions, inner ++ inners)

variable [Matcher μ]

/-- The slots of one rule, the first of which has the number `base`. -/
def compileRule (names : Names μ) (sets : FirstFollow) (index base : Nat) (r : Rule μ) :
    List (Slot μ) :=
  let head := (names.nonterminals.find? r.head).getD 0
  let place (position : Nat) : Place := ⟨head, index, position, r.dotted position⟩
  -- the slots of the branches follow behind those of the body
  let (actions, branches) := compileBody names place base 0 (base + r.body.length + 1) r.body
  (actions ++ [Action.complete r.returns]).mapIdx
      (fun k action => (place k).slot (sets.lookahead r.head (r.body.drop k)) action)
    ++ branches

/-- The slots of the rules from a number on, each rule with the number of its first slot. -/
def compileRules (names : Names μ) (sets : FirstFollow) :
    (index base : Nat) → List (Rule μ) → List (Nat × List (Slot μ))
  | _, _, [] => []
  | index, base, r :: rest =>
    let slots := compileRule names sets index base r
    (base, slots) :: compileRules names sets (index + 1) (base + slots.length) rest

/-- The slot graph of a grammar that is known to be closed. -/
def compile (g : Grammar μ) : SlotGraph μ :=
  let names : Names μ :=
    { nonterminals := .ofList (g.start :: g.rules.map Rule.head)
      terminals := .ofList (.epsilon :: g.rules.flatMap fun r => r.body.flatMap Symbol.terminals) }
  let compiled := compileRules names (.ofGrammar g) 0 0 g.rules
  let firstSlots (name : String) : List Nat :=
    (g.rules.zip compiled).filterMap fun (r, base, _) => if r.head = name then some base else none
  { name := g.name
    nonterminals := names.nonterminals.items.map fun name =>
      { name, parameters := g.parametersOf name, firstSlots := firstSlots name }
    terminals := names.terminals
    slots := (compiled.flatMap Prod.snd).toArray
    rules := g.rules.toArray }

/-- The slot graph of a grammar, if it is closed. -/
def ofGrammar (g : Grammar μ) : Except GrammarError (SlotGraph μ) := do
  g.check
  return compile g

end

end SlotGraph

end GeneralLL
