import GeneralLL.Parser.Report
import GeneralLL.Proofs.Moves

/-!
# The careful parser

A parser takes things by their numbers: slots, nonterminals and terminals of its graph, and nodes
of its stack and its forest. Where there is no such thing it is answered a nameless one, and so a
wrong number would go unnoticed.

The **careful** parser does what the parser does, but ends with a fault as soon as it is to take a
thing that is not there (`demand`). In a state in which all that a move takes is there, the careful
move does what the move does (`Sees`). The lemmas of the second part say this of what the moves are
made of.
-/

namespace GeneralLL

namespace Parser

/-- What a parser takes by a number. -/
inductive Thing where
  | slot | nonterminal | terminal | stackNode | forestNode
  deriving DecidableEq, Repr

/-- What ends a careful parse before it is done. -/
inductive Fault where
  | condition (e : ConditionError)
  /-- There is no thing with this number. -/
  | missing (thing : Thing) (id : Nat)

/-- Moves that may also come to a number without a thing. -/
abbrev CarefulMove := EStateM Fault State

namespace Careful

/-! ## Access to things -/

/-- A move that takes nothing by its number. -/
def plain {α : Type} (m : Move α) : CarefulMove α := fun s =>
  match m s with
  | .ok a s' => .ok a s'
  | .error e s' => .error (.condition e) s'

/-- The thing with a number, which has to be there. -/
def demand {α : Type} (thing : Thing) (id : Nat) : Option α → CarefulMove α
  | some a => pure a
  | none => throw (.missing thing id)

/-- The stack node with a number, which must be there. -/
def stackNode (id : Nat) : CarefulMove Stack.Node := do
  demand .stackNode id (← get).stack.nodes[id]?

/-- The forest node with a number, which must be there. -/
def forestNode (id : Nat) : CarefulMove Forest.Node := do
  demand .forestNode id (← get).forest.nodes[id]?

section

variable {μ : Type}

/-- The slot with a number, which must be there. -/
def slot (p : Parser μ) (id : Nat) : CarefulMove (Slot μ) := demand .slot id p.graph.slots[id]?

/-- The nonterminal with a number, which must be there. -/
def nonterminal (p : Parser μ) (id : Nat) : CarefulMove Nonterminal :=
  demand .nonterminal id p.graph.nonterminals[id]?

variable [DecidableEq μ]

/-- The terminal with a number, which must be there. -/
def terminal (p : Parser μ) (id : Nat) : CarefulMove (Terminal μ) :=
  demand .terminal id (p.graph.terminals.get? id)

end

/-! ## Careful moves -/

/-- The number of the arguments of a call, whose stack node must be there. -/
def callArguments (id : Nat) : CarefulMove (Option Nat) := do
  match (← stackNode id).key.arguments with
  | none => return none
  | some values => some <$> plain (onForest (·.internArguments values))

/-- Adds a derivation. The pivot is read from a part, and the derivation is put to its parent. -/
def addPacked (parent slot : Nat) (left : Option Nat) (right : Nat) :
    CarefulMove (Nat × Bool) := do
  let _ ← forestNode (left.getD right)
  let _ ← forestNode parent
  plain (onForest (·.addPacked parent slot left right))

/-- The node for a rule in which two parts were recognised, both of which must be there. -/
def getNode (slot : Nat) (arguments left : Option Nat) (right : Nat) : CarefulMove Nat := do
  match left with
  | none => return right
  | some l =>
    let l := (← forestNode l).span.left
    let r := (← forestNode right).span.right
    let node ← plain (onForest (·.intermediate slot arguments l r))
    let _ ← addPacked node slot left right
    return node

section

variable {μ : Type} [DecidableEq μ] [Matcher μ]

/-- The slots that admit what comes next. -/
def admitted (p : Parser μ) (next : Option Char) : List Nat → CarefulMove (List Nat)
  | [] => return []
  | id :: rest => do
    let admits := (← slot p id).lookahead.admits next
    let rest ← admitted p next rest
    return if admits then id :: rest else rest

/-- The stack node of a call. The nonterminal and the first slots of its alternatives must be there.
-/
def create (p : Parser μ) (callee : Nat) (arguments : Option (List Value)) (position : Nat) :
    CarefulMove (Option Nat) := do
  let key : Stack.Key := ⟨callee, position, arguments⟩
  match (← get).stack.find? key with
  | some id => return some id
  | none =>
    let slots ← admitted p (p.input.symbolAt? position) (← nonterminal p callee).firstSlots
    if slots.isEmpty then return none
    let (id, _) ← plain (onStack (·.getOrCreate key))
    let env := p.calleeEnvironment callee arguments
    slots.forM fun slot => plain (onAgenda (·.offer ⟨slot, position, id, none, env⟩))
    return some id

/-- Hands a result to a caller. The slot of the call and the one behind it must be there. -/
def propagate (p : Parser μ) (edge : Stack.Edge) (left : Nat) (immediate : Bool)
    (result : Stack.Popped) : CarefulMove Unit := do
  match (← slot p edge.call).action with
  | .call _ _ notes dest =>
    let right := result.right
    let env := match notes.label with
      | none => edge.env
      | some x => edge.env.declare
          [(x, result.value.getD .unit), (Expr.rightExtentName x, .ofNat right)]
    if ← plain (p.check notes.post left right env) then
      if (← slot p dest).lookahead.admits (p.input.symbolAt? right) then
        let arguments ← callArguments edge.dest
        let node ← getNode dest arguments edge.node result.node
        let d : Descriptor := ⟨dest, right, edge.dest, some node, env⟩
        plain (onAgenda fun a => if immediate then a.offerNext d else a.offer d)
  | _ => return

/-- Matches a terminal, which must be there. -/
def scan (p : Parser μ) (d : Descriptor) (terminal : Nat) (notes : Annotations μ) (dest : Nat) :
    CarefulMove Unit := do
  plain (goOn none)
  let left := d.position
  if ← plain (p.check notes.pre left left d.env) then
    match (← Careful.terminal p terminal).matchAt p.input left with
    | none => plain (record d)
    | some right =>
      let env := match notes.label with
        | none => d.env
        | some x => d.env.declare
            [(Expr.leftExtentName x, .ofNat left), (Expr.rightExtentName x, .ofNat right),
              (x, .str (p.input.substring left right))]
      if ← plain (p.check notes.post left right env) then
        let leaf ← plain (onForest (·.terminal terminal left right))
        let arguments ← callArguments d.stackNode
        let node ← getNode dest arguments d.forestNode leaf
        plain (goOn (some ⟨dest, right, d.stackNode, some node, env⟩))

/-- Calls a nonterminal, which must be there. -/
def call (p : Parser μ) (d : Descriptor) (callee : Nat) (arguments : List Expr)
    (notes : Annotations μ) : CarefulMove Unit := do
  plain (goOn none)
  let left := d.position
  if ← plain (p.check notes.pre left left d.env) then
    let env := match notes.label with
      | none => d.env
      | some x => d.env.declare [(Expr.leftExtentName x, .ofNat left)]
    let values ←
      if (← nonterminal p callee).parameters.isEmpty then pure none
      else some <$> plain (arguments.mapM fun e => askValue (p.evaluate e env))
    match ← create p callee values left with
    | none => plain (record d)
    | some node =>
      let edge : Stack.Edge := ⟨d.stackNode, d.slot, d.forestNode, env⟩
      let _ ← stackNode node
      if ← plain (onStack (·.addEdge node edge)) then
        let results := (← stackNode node).popped
        results.forM (propagate p edge left (results.length = 1))

/-- Completes a rule. Its slot and the stack node of its call must be there. -/
def complete (p : Parser μ) (d : Descriptor) (returns : Option Expr) : CarefulMove Unit := do
  plain (goOn none)
  let right := d.position
  let child ← match d.forestNode with
    | some child => pure child
    | none => plain (onForest (·.terminal p.graph.epsilon right right))
  let left := (← stackNode d.stackNode).key.position
  let arguments ← callArguments d.stackNode
  let head := (← slot p d.slot).head
  let node ← plain (onForest (·.nonterminal head arguments left right))
  let _ ← addPacked node d.slot none child
  let value ← match returns with
    | none => pure none
    | some e => some <$> plain (askValue (p.evaluate e d.env))
  let result : Stack.Popped := ⟨node, right, value⟩
  let _ ← stackNode d.stackNode
  if ← plain (onStack (·.addPopped d.stackNode result)) then
    let edges := (← stackNode d.stackNode).edges
    edges.forM fun edge => propagate p edge left (edges.length = 1) result

/-- One move of a thread, whose slot must be there. -/
def advance (p : Parser μ) (d : Descriptor) : CarefulMove Unit := do
  match (← slot p d.slot).action with
  | .scan terminal notes dest => scan p d terminal notes dest
  | .call callee arguments notes _ => call p d callee arguments notes
  | .branch condition ifTrue ifFalse =>
    let b ← plain (ask (p.evaluate.truth condition d.env))
    plain (goOn (some { d with slot := if b then ifTrue else ifFalse }))
  | .complete returns => complete p d returns

/-- One move of the running thread, or the start of the next one. -/
def step (p : Parser μ) : CarefulMove Bool := do
  let s ← get
  match s.running with
  | some d =>
    advance p d
    return true
  | none =>
    match s.agenda.take with
    | none => return false
    | some (d, agenda) =>
      plain (set { s with agenda, running := some d })
      plain (record d)
      return true

/-- Steps until there is nothing to do, for `fuel` steps at most. -/
def run (p : Parser μ) : (fuel : Nat) → CarefulMove Bool
  | 0 => return false
  | fuel + 1 => do
    if ← step p then run p fuel else return true

/-- Calls the start symbol at the start of the text. -/
def begin (p : Parser μ) : CarefulMove Unit := do
  if (← create p p.graph.start none 0).isNone then
    plain (modify fun s => { s with furthest := some ⟨none, 0, none⟩ })

/-! ## Careful reports -/

/-- The call that a stack node stands for. The node and the nonterminal must be there. -/
def describe (p : Parser μ) (id : Nat) : CarefulMove String := do
  let key := (← stackNode id).key
  let name := (← nonterminal p key.nonterminal).name
  return name ++ key.arguments.elim "" Value.tupleText ++ "@" ++ toString key.position

/-- The furthest place. Its slot and its call must be there. -/
def failure (p : Parser μ) : CarefulMove Failure := do
  let reach := (← get).furthest.getD ⟨none, 0, none⟩
  let (line, column) := p.input.lineColumn reach.position
  let start := (← nonterminal p p.graph.start).name
  let label ← match reach.slot with
    | none => pure start
    | some id => Slot.text <$> slot p id
  let stackNode ← match reach.stackNode with
    | none => pure (start ++ "@0")
    | some id => describe p id
  return { slot := reach.slot, label, position := reach.position, line, column, stackNode }

/-- How a parse that came to rest has ended. -/
def verdict (p : Parser μ) : CarefulMove Verdict := do
  let s ← get
  match s.forest.lookup p.rootSpan with
  | some root => return .success root s.forest
  | none => .failure <$> failure p

/-- Parses the text in at most `fuel` steps. The answer is the report, or the number of a thing
that was missing. -/
def parse (p : Parser μ) (fuel : Nat) : Except (Thing × Nat) Report :=
  let moves : CarefulMove Verdict := do
    begin p
    if ← run p fuel then verdict p else return .unfinished
  match moves.run p.initial with
  | .ok verdict s => .ok ⟨s.stack, .ofState s, .ok verdict⟩
  | .error (.condition e) s => .ok ⟨s.stack, .ofState s, .error e⟩
  | .error (.missing thing id) _ => .error (thing, id)

end

end Careful

/-! ## Seeing the same -/

/-- In this state the careful move does what the move does. -/
def Sees {α : Type} (c : CarefulMove α) (m : Move α) (s : State) : Prop := c s = Careful.plain m s

section

variable {α β : Type} {s : State}

theorem sees_plain (m : Move α) : Sees (Careful.plain m) m s := rfl

theorem sees_pure (a : α) : Sees (pure a) (pure a) s := rfl

theorem sees_bind {c : CarefulMove α} {m : Move α} {c' : α → CarefulMove β} {m' : α → Move β}
    (h : Sees c m s) (hnext : Ends m s (fun a s' => Sees (c' a) (m' a) s') fun _ => True) :
    Sees (c >>= c') (m >>= m') s := by
  unfold Sees Careful.plain at h
  unfold Ends at hnext
  show EStateM.bind c c' s = Careful.plain (m >>= m') s
  unfold EStateM.bind Careful.plain
  rw [h]
  simp only [bind, EStateM.bind]
  cases hm : m s with
  | error e s' => rfl
  | ok a s' =>
    rw [hm] at hnext
    exact hnext

theorem ends_of_forall {m : Move α} {Q : α → State → Prop} {E : ConditionError → Prop}
    (hQ : ∀ a s', Q a s') (hE : ∀ e, E e) : Ends m s Q E := by
  unfold Ends
  cases m s with
  | ok a s' => exact hQ a s'
  | error e s' => exact hE e

/-- Moves that see the same in every state see the same one after the other. -/
theorem sees_forM {l : List α} {c : α → CarefulMove Unit} {m : α → Move Unit}
    (h : ∀ a s, Sees (c a) (m a) s) : Sees (l.forM c) (l.forM m) s := by
  induction l generalizing s with
  | nil => exact sees_pure ()
  | cons a rest ih => exact sees_bind (h a s) (ends_of_forall (fun _ _ => ih) fun _ => trivial)

/-- A thing that is there is taken. -/
theorem sees_demand {thing : Thing} {id : Nat} {o : Option α} {a : α} {c : α → CarefulMove β}
    {m : Move β} (ho : o = some a) (h : Sees (c a) m s) :
    Sees (Careful.demand thing id o >>= c) m s := by
  subst ho
  exact h

theorem sees_stackNode {id : Nat} {key : Stack.Key} {c : Stack.Node → CarefulMove β} {m : Move β}
    (hid : s.stack.call? id = some key) (h : Sees (c (s.stack.get id)) m s) :
    Sees (Careful.stackNode id >>= c) m s := by
  obtain ⟨n, hn, -⟩ := Stack.call?_eq_some_iff.mp hid
  rw [Stack.get_eq hn] at h
  show Sees (Careful.demand .stackNode id s.stack.nodes[id]? >>= c) m s
  exact sees_demand hn h

theorem sees_forestNode {id : Nat} {w : Piece} {c : Forest.Node → CarefulMove β} {m : Move β}
    (hid : s.forest.piece? id = some w) (h : Sees (c (s.forest.get id)) m s) :
    Sees (Careful.forestNode id >>= c) m s := by
  obtain ⟨n, hn, -⟩ := Forest.piece?_eq_some_iff.mp hid
  rw [Forest.get, hn, Option.getD_some] at h
  show Sees (Careful.demand .forestNode id s.forest.nodes[id]? >>= c) m s
  exact sees_demand hn h

/-- What has an answer at once is asked for in passing. -/
theorem sees_answer {c : CarefulMove α} {a : α} {c' : α → CarefulMove β} {m : Move β}
    (h : Sees c (pure a) s) (h' : Sees (c' a) m s) : Sees (c >>= c') m s := by
  have hnext : Ends (pure a) s (fun b s' => Sees (c' b) m s') fun _ => True := ends_pure h'
  exact sees_bind h hnext

theorem sees_getLeft {c : State → CarefulMove α} {m : Move α} (h : Sees (c s) m s) :
    Sees (get >>= c) m s := h

theorem sees_getRight {c : CarefulMove α} {m : State → Move α} (h : Sees c (m s) s) :
    Sees c (get >>= m) s := h

/-- A condition has the same answer for both. -/
theorem sees_ask {x : Except ConditionError α} {c : α → CarefulMove β} {m : α → Move β}
    (h : ∀ a, x = .ok a → Sees (c a) (m a) s) :
    Sees (Careful.plain (ask x) >>= c) (ask x >>= m) s :=
  sees_bind (sees_plain _) (ends_ask h fun _ _ => trivial)

end

/-! ## Parts of the state -/

section

variable {s : State}

theorem sees_callArguments {α : Type} {id : Nat} {key : Stack.Key}
    {c : Option Nat → CarefulMove α} {m : Option Nat → Move α} (hs : s.Wf)
    (hid : s.stack.call? id = some key)
    (h : ∀ a f, s.forest.Adds f [] → f.argumentsAt? a = some key.arguments →
      Sees (c a) (m a) { s with forest := f }) :
    Sees (Careful.callArguments id >>= c) (callArguments id >>= m) s := by
  have hsees : Sees (Careful.callArguments id) (callArguments id) s := by
    unfold Careful.callArguments callArguments
    refine sees_stackNode hid (sees_getRight ?_)
    cases (s.stack.get id).key.arguments with
    | none => exact sees_pure _
    | some values => rfl
  refine sees_bind hsees ((ends_callArguments hs hid (E := fun _ => True)).imp ?_ fun _ _ => trivial)
  intro a _ hnumbers
  obtain ⟨f, rfl, hf, harguments⟩ := hnumbers
  exact h a f hf harguments

theorem sees_addPacked (slot : Nat) {parent right : Nat} {left : Option Nat} {w r : Piece}
    {l : Option Piece} (hparent : s.forest.piece? parent = some w)
    (hleft : s.forest.part? left = some l) (hright : s.forest.piece? right = some r) :
    Sees (Careful.addPacked parent slot left right)
      (onForest (·.addPacked parent slot left right)) s := by
  have hpivot : ∃ v, s.forest.piece? (left.getD right) = some v := by
    rcases Forest.part?_eq_some_iff.mp hleft with ⟨rfl, -⟩ | ⟨id, v, rfl, -, hid⟩
    · exact ⟨r, hright⟩
    · exact ⟨v, hid⟩
  obtain ⟨v, hv⟩ := hpivot
  exact sees_forestNode hv (sees_forestNode hparent (sees_plain _))

theorem sees_getNode (hs : s.Wf) (slot : Nat) {arguments left : Option Nat} {right : Nat}
    {values : Option (List Value)} {l : Option Piece} {r : Piece}
    (harguments : s.forest.argumentsAt? arguments = some values)
    (hleft : s.forest.part? left = some l) (hright : s.forest.piece? right = some r) :
    Sees (Careful.getNode slot arguments left right)
      (onForest (·.getNode slot arguments left right)) s := by
  rcases Forest.part?_eq_some_iff.mp hleft with ⟨rfl, rfl⟩ | ⟨id, w, rfl, rfl, hid⟩
  · rfl
  · have hspan : s.forest.pieceOf? ⟨.intermediate slot arguments, (s.forest.get id).span.left,
        (s.forest.get right).span.right⟩ = some (.join slot values (some w) r) := by
      refine Forest.pieceOf?_eq_some_iff.mpr ⟨arguments, harguments, ?_⟩
      rw [(Forest.extents_of_piece? hid).1, (Forest.extents_of_piece? hright).2]
    obtain ⟨hfind, hnode⟩ := hs.forest.adds_find hspan
    refine sees_forestNode hid (sees_forestNode hright ?_)
    -- the node is found first, and then gets its derivation
    show Sees _ (do
      let node ← onForest (·.intermediate slot arguments (s.forest.get id).span.left
        (s.forest.get right).span.right)
      let _ ← onForest (·.addPacked node slot (some id) right)
      return node) s
    refine sees_bind (sees_plain _) (ends_onForest ?_)
    exact sees_bind (sees_addPacked slot hnode (hfind.extend.part? hleft)
      (hfind.extend.piece? hright)) (ends_onForest (sees_pure _))

end

end Parser

end GeneralLL
