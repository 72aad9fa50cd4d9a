import GeneralLL.Agenda
import GeneralLL.Condition
import GeneralLL.Forest
import GeneralLL.Stack

/-!
# The parser

Recognises a text by all rules at once. A **thread** is at a slot of a rule, at a
position of the text, inside a call. It moves through the rule until it calls a
nonterminal, completes its rule or is rejected:

* at a **terminal** it goes on behind the match, if there is one;
* at a **conditional** it goes on in one of the branches;
* at a **call** it ends. If the callee is new, its alternatives are put on the
  agenda; an edge to the caller is added to the callee, and every result that the
  callee has produced already is handed to the caller;
* at the **end of a rule** it ends. The call it belongs to has a result, which is
  handed to all callers.

To hand a result to a caller means to put a descriptor for the place behind the call
on the agenda. Calls, edges, results and descriptors are all accepted only once, so
recursion of any kind leads to finitely many of them, as long as arguments and values
do.

`step` does one move of the running thread, or takes the next thread from the agenda.
An expression without a truth value where one is needed is an error, and ends the
parse; the state shows how far it had come.
-/

namespace GeneralLL

/-- What stays the same during a parse. -/
structure Parser (μ : Type) where
  /-- The grammar in its compiled form. -/
  graph : SlotGraph μ
  /-- How the parser works, as far as it can be chosen. -/
  config : Configuration := {}
  /-- What gives expressions their values. -/
  evaluate : Evaluator := Expr.eval
  /-- The text to be recognised. -/
  input : Input

namespace Parser

/-- The furthest place that was reached, for reports. -/
structure Reach where
  /-- The slot; none if not even the start symbol could begin. -/
  slot : Option Nat
  /-- How far into the text it was. -/
  position : Nat
  /-- The call under way; none if not even the start symbol could begin. -/
  stackNode : Option Nat
  deriving DecidableEq, Repr

/-- What changes during a parse. -/
structure State where
  /-- The work that is left to do. -/
  agenda : Agenda
  /-- The calls made so far, with their callers and results. -/
  stack : Stack := .empty
  /-- What was recognised so far. -/
  forest : Forest := .empty
  /-- The thread in progress. -/
  running : Option Descriptor := none
  /-- The furthest place so far; none at the very start. -/
  furthest : Option Reach := none

/-- Moves change the state, and may find that an expression has no answer. -/
abbrev Move := EStateM ConditionError State

/-! ## Access to the state -/

/-- Changes the stack and answers what the change answers. -/
def onStack {α : Type} (f : Stack → α × Stack) : Move α :=
  modifyGet fun s => let (a, stack) := f s.stack; (a, { s with stack })

/-- Changes the forest and answers what the change answers. -/
def onForest {α : Type} (f : Forest → α × Forest) : Move α :=
  modifyGet fun s => let (a, forest) := f s.forest; (a, { s with forest })

/-- Changes the agenda. -/
def onAgenda (f : Agenda → Bool × Agenda) : Move Unit :=
  modify fun s => { s with agenda := (f s.agenda).2 }

/-- The running thread goes on as `d`, or ends. -/
def goOn (d : Option Descriptor) : Move Unit :=
  modify fun s => { s with running := d }

/-- The answer to a condition, or its error. -/
def ask {α : Type} : Except ConditionError α → Move α
  | .ok a => pure a
  | .error e => throw e

/-- The value of an expression, or its error. -/
def askValue {α : Type} : Except EvalError α → Move α
  | .ok a => pure a
  | .error e => throw (.eval e)

/-- Remembers the place of a thread if it is further than all before. -/
def record (d : Descriptor) : Move Unit :=
  modify fun s =>
    if s.furthest.all (·.position < d.position) then
      { s with furthest := some ⟨some d.slot, d.position, some d.stackNode⟩ }
    else s

/-- The number of the arguments of a call. -/
def callArguments (stackNode : Nat) : Move (Option Nat) := do
  match ((← get).stack.get stackNode).key.arguments with
  | none => return none
  | some values => some <$> onForest (·.internArguments values)

variable {μ : Type} [DecidableEq μ] [Matcher μ]

/-- Do all conditions hold of a region? -/
def check (p : Parser μ) (conditions : List (Condition μ)) (left right : Nat)
    (env : Environment) : Move Bool :=
  ask (Condition.allHold p.evaluate p.input left right env conditions)

/-- The environment of a new call. -/
def calleeEnvironment (p : Parser μ) (callee : Nat) (arguments : Option (List Value)) :
    Environment :=
  (Environment.empty p.config.environment).declare
    (((p.graph.nonterminal callee).parameters).zip (arguments.getD []))

/-! ## Moves -/

/-- The stack node of a call at a position. A new one is made only if an alternative admits the
next character, and these alternatives are put on the agenda; otherwise there is none. -/
def create (p : Parser μ) (callee : Nat) (arguments : Option (List Value)) (position : Nat) :
    Move (Option Nat) := do
  let key : Stack.Key := ⟨callee, position, arguments⟩
  match (← get).stack.find? key with
  | some id => return some id
  | none =>
    let next := p.input.symbolAt? position
    let slots := (p.graph.nonterminal callee).firstSlots.filter
      fun s => (p.graph.slot s).lookahead.admits next
    -- a dead call: nothing is kept of it
    if slots.isEmpty then return none
    let (id, _) ← onStack (·.getOrCreate key)
    let env := p.calleeEnvironment callee arguments
    slots.forM fun slot => onAgenda (·.offer ⟨slot, position, id, none, env⟩)
    return some id

/-- Hands a result of a call, which started at `left`, to the caller behind an edge. The caller
may reject it by the conditions on the call or by what comes next. -/
def propagate (p : Parser μ) (edge : Stack.Edge) (left : Nat) (immediate : Bool)
    (result : Stack.Popped) : Move Unit := do
  match (p.graph.slot edge.call).action with
  | .call _ _ notes dest =>
    let right := result.right
    let env := match notes.label with
      | none => edge.env
      | some x => edge.env.declare
          [(x, result.value.getD .unit), (Expr.rightExtentName x, .ofNat right)]
    if ← p.check notes.post left right env then
      if (p.graph.slot dest).lookahead.admits (p.input.symbolAt? right) then
        let arguments ← callArguments edge.dest
        let node ← onForest (·.getNode dest arguments edge.node result.node)
        let d : Descriptor := ⟨dest, right, edge.dest, some node, env⟩
        onAgenda fun a => if immediate then a.offerNext d else a.offer d
  | _ => return

/-- Matches a terminal and goes on behind the match. -/
def scan (p : Parser μ) (d : Descriptor) (terminal : Nat) (notes : Annotations μ) (dest : Nat) :
    Move Unit := do
  goOn none
  let left := d.position
  if ← p.check notes.pre left left d.env then
    match (p.graph.terminal terminal).matchAt p.input left with
    | none => record d
    | some right =>
      let env := match notes.label with
        | none => d.env
        | some x => d.env.declare
            [(Expr.leftExtentName x, .ofNat left), (Expr.rightExtentName x, .ofNat right),
              (x, .str (p.input.substring left right))]
      if ← p.check notes.post left right env then
        let leaf ← onForest (·.terminal terminal left right)
        let arguments ← callArguments d.stackNode
        let node ← onForest (·.getNode dest arguments d.forestNode leaf)
        goOn (some ⟨dest, right, d.stackNode, some node, env⟩)

/-- Calls a nonterminal. A single result that the callee has already is taken up at once. -/
def call (p : Parser μ) (d : Descriptor) (callee : Nat) (arguments : List Expr)
    (notes : Annotations μ) : Move Unit := do
  goOn none
  let left := d.position
  if ← p.check notes.pre left left d.env then
    let env := match notes.label with
      | none => d.env
      | some x => d.env.declare [(Expr.leftExtentName x, .ofNat left)]
    let values ←
      if (p.graph.nonterminal callee).parameters.isEmpty then pure none
      else some <$> arguments.mapM fun e => askValue (p.evaluate e env)
    match ← p.create callee values left with
    | none => record d
    | some node =>
      let edge : Stack.Edge := ⟨d.stackNode, d.slot, d.forestNode, env⟩
      if ← onStack (·.addEdge node edge) then
        -- what the callee has produced before this caller came
        let results := ((← get).stack.get node).popped
        results.forM (p.propagate edge left (results.length = 1))

/-- Completes a rule: its call has a result, which is handed to the callers. If there is only
one caller, it takes the result up at once. -/
def complete (p : Parser μ) (d : Descriptor) (returns : Option Expr) : Move Unit := do
  goOn none
  let right := d.position
  let child ← match d.forestNode with
    | some child => pure child
    -- nothing was recognised: the rule is empty, or its branches were not taken
    | none => onForest (·.terminal p.graph.epsilon right right)
  let left := ((← get).stack.get d.stackNode).key.position
  let arguments ← callArguments d.stackNode
  let node ← onForest (·.nonterminal (p.graph.slot d.slot).head arguments left right)
  let _ ← onForest (·.addPacked node d.slot none child)
  let value ← match returns with
    | none => pure none
    | some e => some <$> askValue (p.evaluate e d.env)
  let result : Stack.Popped := ⟨node, right, value⟩
  -- a result that is not new was handed to all callers when it was
  if ← onStack (·.addPopped d.stackNode result) then
    let edges := ((← get).stack.get d.stackNode).edges
    edges.forM fun edge => p.propagate edge left (edges.length = 1) result

/-- One move of a thread. -/
def advance (p : Parser μ) (d : Descriptor) : Move Unit :=
  match (p.graph.slot d.slot).action with
  | .scan terminal notes dest => p.scan d terminal notes dest
  | .call callee arguments notes _ => p.call d callee arguments notes
  | .branch condition ifTrue ifFalse => do
    let b ← ask (p.evaluate.truth condition d.env)
    goOn (some { d with slot := if b then ifTrue else ifFalse })
  | .complete returns => p.complete d returns

/-- One move of the running thread, or the start of the next one; answers whether there was
anything to do. -/
def step (p : Parser μ) : Move Bool := do
  let s ← get
  match s.running with
  | some d =>
    p.advance d
    return true
  | none =>
    match s.agenda.take with
    | none => return false
    | some (d, agenda) =>
      set { s with agenda, running := some d }
      record d
      return true

/-- Steps until there is nothing to do, for `fuel` steps at most; answers whether the end was
reached. -/
def run (p : Parser μ) : (fuel : Nat) → Move Bool
  | 0 => return false
  | fuel + 1 => do
    if ← p.step then p.run fuel else return true

/-- Calls the start symbol at the start of the text. -/
def begin (p : Parser μ) : Move Unit := do
  if (← p.create p.graph.start none 0).isNone then
    modify fun s => { s with furthest := some ⟨none, 0, none⟩ }

/-- The state before a parse. -/
def initial (p : Parser μ) : State := { agenda := .new p.config.scheduling p.config.shortcut }

end Parser

end GeneralLL
