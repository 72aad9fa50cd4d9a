import GeneralLL.Proofs.Derivation
import GeneralLL.Proofs.Results

/-!
# What a parse finds out

A parse is a way of collecting facts: which calls are made, which threads run, who is
waiting for which call, what the calls produce and what the forest is made of. Here a
fact names the things themselves, calls by their keys and forest nodes by what they
stand for, so it does not depend on the order in which things were numbered.

`move` says what follows from a thread's being at a slot, and `resume` what follows from
a result meeting a caller; both may find that an expression has no answer. The facts
that a parse is entitled to are the least set closed under these two (`Entails`).
-/

namespace GeneralLL

/-! ## Things without numbers -/

/-- What a forest node stands for, with the arguments of its call in place of their number. -/
inductive Piece where
  | terminal (id left right : Nat)
  | nonterminal (id : Nat) (arguments : Option (List Value)) (left right : Nat)
  /-- The part of a rule up to a slot. -/
  | intermediate (slot : Nat) (arguments : Option (List Value)) (left right : Nat)
  deriving DecidableEq

namespace Piece

/-- The position where a piece starts. -/
def left : Piece → Nat
  | terminal _ l _ | nonterminal _ _ l _ | intermediate _ _ l _ => l

/-- The position behind the end of a piece. -/
def right : Piece → Nat
  | terminal _ _ r | nonterminal _ _ _ r | intermediate _ _ _ r => r

/-- What stands for a rule in which `right` was recognised after `left`. -/
def join (slot : Nat) (arguments : Option (List Value)) : Option Piece → Piece → Piece
  | none, right => right
  | some l, right => intermediate slot arguments l.left right.right

end Piece

/-- One derivation of a piece. -/
structure Packing where
  /-- What is derived. -/
  parent : Piece
  /-- The slot behind the two parts. -/
  slot : Nat
  /-- The position where the two parts meet. -/
  pivot : Nat
  /-- The left part; none if the right one is at the front of its rule. -/
  left : Option Piece
  /-- The right part. -/
  right : Piece
  deriving DecidableEq

/-- A descriptor without numbers. -/
structure Thread where
  /-- The slot that the thread is at. -/
  slot : Nat
  /-- The position of the text that it has come to. -/
  position : Nat
  /-- The call that the thread belongs to. -/
  call : Stack.Key
  /-- What was recognised of the rule so far. -/
  part : Option Piece
  /-- What its rule has bound so far. -/
  env : Environment
  deriving DecidableEq

/-- An edge without numbers: where a caller goes on. -/
structure Caller where
  /-- The call that the caller belongs to. -/
  call : Stack.Key
  /-- The slot of the call. -/
  slot : Nat
  /-- What the caller had recognised before the call. -/
  part : Option Piece
  /-- The environment in which the call was made. -/
  env : Environment
  deriving DecidableEq

/-- What a parse can find out, told without the numbers of stack and forest nodes. -/
inductive Fact where
  /-- The call has a stack node. -/
  | called (key : Stack.Key)
  /-- The thread was put on the agenda. -/
  | posted (t : Thread)
  /-- The thread ran. -/
  | passed (t : Thread)
  /-- The caller waits for results of the call. -/
  | awaited (key : Stack.Key) (c : Caller)
  /-- The call has a result. -/
  | result (key : Stack.Key) (right : Nat) (value : Option Value)
  /-- The piece has a forest node. -/
  | piece (w : Piece)
  /-- The derivation was found. -/
  | packing (k : Packing)
  deriving DecidableEq

/-- Facts about the forest are no calls, edges, results or threads. -/
def Fact.OfForest : Fact → Prop
  | .piece _ | .packing _ => True
  | _ => False

/-- What joining two parts of a rule adds to the forest. -/
def Piece.joinFacts (slot : Nat) (arguments : Option (List Value)) (left : Option Piece)
    (right : Piece) : List Fact :=
  match left with
  | none => []
  | some l =>
    [.piece (join slot arguments left right),
      .packing ⟨join slot arguments left right, slot, l.right, some l, right⟩]

theorem Piece.ofForest_joinFacts {slot : Nat} {arguments : Option (List Value)}
    {left : Option Piece} {right : Piece} {f : Fact}
    (h : f ∈ Piece.joinFacts slot arguments left right) : f.OfForest := by
  cases left with
  | none => exact absurd h List.not_mem_nil
  | some l =>
    simp only [joinFacts, List.mem_cons, List.not_mem_nil, or_false] at h
    rcases h with rfl | rfl <;> exact trivial

/-! ## What follows from what -/

namespace Parser

variable {μ : Type} [Matcher μ]

/-- The alternatives of a call that the next character admits. -/
def openings (p : Parser μ) (key : Stack.Key) : List Nat :=
  (p.graph.nonterminal key.nonterminal).firstSlots.filter fun s =>
    (p.graph.slot s).lookahead.admits (p.input.symbolAt? key.position)

/-- The thread at the front of an alternative of a call. -/
def opening (p : Parser μ) (key : Stack.Key) (slot : Nat) : Thread :=
  ⟨slot, key.position, key, none, p.calleeEnvironment key.nonterminal key.arguments⟩

/-- The environment and the position behind a terminal, unless it is rejected. -/
def scanned (p : Parser μ) (terminal : Nat) (notes : Annotations μ) (left : Nat)
    (env : Environment) : Except ConditionError (Option (Nat × Environment)) := do
  if ← Condition.allHold p.evaluate p.input left left env notes.pre then
    match (p.graph.terminal terminal).matchAt p.input left with
    | none => return none
    | some right =>
      let env := notes.bindScan p.input left right env
      if ← Condition.allHold p.evaluate p.input left right env notes.post then
        return some (right, env)
      else return none
  else return none

/-- The arguments of a call; none if the callee has no parameters. -/
def argumentsFor (p : Parser μ) (callee : Nat) (arguments : List Expr) (env : Environment) :
    Except ConditionError (Option (List Value)) :=
  if (p.graph.nonterminal callee).parameters.isEmpty then .ok none
  else some <$> (arguments.mapM (p.evaluate · env)).mapError .eval

/-- The key of a call and the environment of the caller, unless the call is rejected. -/
def calling (p : Parser μ) (callee : Nat) (arguments : List Expr) (notes : Annotations μ)
    (left : Nat) (env : Environment) : Except ConditionError (Option (Stack.Key × Environment)) := do
  if ← Condition.allHold p.evaluate p.input left left env notes.pre then
    let env := notes.bindCall left env
    let values ← p.argumentsFor callee arguments env
    return some (⟨callee, left, values⟩, env)
  else return none

/-- The value of a complete rule. -/
def returned (p : Parser μ) (returns : Option Expr) (env : Environment) :
    Except ConditionError (Option Value) :=
  match returns with
  | none => .ok none
  | some e => some <$> (p.evaluate e env).mapError .eval

/-- The environment of a caller behind a result, unless the result is rejected. -/
def resumed (p : Parser μ) (notes : Annotations μ) (dest left right : Nat) (value : Option Value)
    (env : Environment) : Except ConditionError (Option Environment) := do
  let env := notes.bindReturn value right env
  if ← Condition.allHold p.evaluate p.input left right env notes.post then
    return if (p.graph.slot dest).lookahead.admits (p.input.symbolAt? right) then some env else none
  else return none

/-- What a match of a terminal leads to: a position and an environment. -/
def scanFacts (t : Thread) (terminal dest : Nat) (found : Nat × Environment) : List Fact :=
  let leaf := Piece.terminal terminal t.position found.1
  .passed ⟨dest, found.1, t.call, some (.join dest t.call.arguments t.part leaf), found.2⟩
    :: .piece leaf :: Piece.joinFacts dest t.call.arguments t.part leaf

/-- What a call leads to. A dead call leaves nothing behind. -/
def callFacts (p : Parser μ) (t : Thread) (found : Stack.Key × Environment) : List Fact :=
  if p.openings found.1 = [] then []
  else [.called found.1, .awaited found.1 ⟨t.call, t.slot, t.part, found.2⟩]

/-- The piece that a complete rule has recognised. An empty rule, or one whose branches were not
taken, has recognised the empty terminal. -/
def child (p : Parser μ) (t : Thread) : Piece :=
  t.part.getD (.terminal p.graph.epsilon t.position t.position)

/-- The piece of the call of a complete rule. -/
def whole (p : Parser μ) (t : Thread) : Piece :=
  .nonterminal (p.graph.slot t.slot).head t.call.arguments t.call.position t.position

/-- What the end of a rule leads to. -/
def completeFacts (p : Parser μ) (t : Thread) (value : Option Value) : List Fact :=
  [.result t.call t.position value, .piece (p.child t), .piece (p.whole t),
    .packing ⟨p.whole t, t.slot, (p.child t).left, none, p.child t⟩]

/-- What follows from a thread's being at its slot. -/
def move (p : Parser μ) (t : Thread) : Except ConditionError (List Fact) :=
  match (p.graph.slot t.slot).action with
  | .scan terminal notes dest =>
    (Option.elim · [] (scanFacts t terminal dest)) <$> p.scanned terminal notes t.position t.env
  | .call callee arguments notes _ =>
    (Option.elim · [] (p.callFacts t)) <$> p.calling callee arguments notes t.position t.env
  | .branch condition ifTrue ifFalse =>
    (fun b => [.passed { t with slot := if b then ifTrue else ifFalse }])
      <$> p.evaluate.truth condition t.env
  | .complete returns => p.completeFacts t <$> p.returned returns t.env

/-- The piece of a result. -/
def resultPiece (key : Stack.Key) (right : Nat) : Piece :=
  .nonterminal key.nonterminal key.arguments key.position right

/-- What a caller's going on leads to. -/
def resumeFacts (key : Stack.Key) (c : Caller) (right dest : Nat) (env : Environment) :
    List Fact :=
  .posted ⟨dest, right, c.call, some (.join dest c.call.arguments c.part (resultPiece key right)),
      env⟩
    :: Piece.joinFacts dest c.call.arguments c.part (resultPiece key right)

/-- What follows from a result that meets a caller. -/
def resume (p : Parser μ) (key : Stack.Key) (c : Caller) (right : Nat) (value : Option Value) :
    Except ConditionError (List Fact) :=
  match (p.graph.slot c.slot).action with
  | .call _ _ notes dest =>
    (Option.elim · [] (resumeFacts key c right dest))
      <$> p.resumed notes dest key.position right value c.env
  | _ => .ok []

/-- The call that a parse starts with. -/
def startKey (p : Parser μ) : Stack.Key := ⟨p.graph.start, 0, none⟩

/-- **The facts that a parse is entitled to.** -/
inductive Entails (p : Parser μ) : Fact → Prop where
  | start : p.openings p.startKey ≠ [] → Entails p (.called p.startKey)
  | opening {key : Stack.Key} {slot : Nat} :
      Entails p (.called key) → slot ∈ p.openings key → Entails p (.posted (p.opening key slot))
  | delivered {t : Thread} : Entails p (.posted t) → Entails p (.passed t)
  | move {t : Thread} {facts : List Fact} {f : Fact} :
      Entails p (.passed t) → p.move t = .ok facts → f ∈ facts → Entails p f
  | resume {key : Stack.Key} {c : Caller} {right : Nat} {value : Option Value}
      {facts : List Fact} {f : Fact} :
      Entails p (.awaited key c) → Entails p (.result key right value) →
      p.resume key c right value = .ok facts → f ∈ facts → Entails p f

/-- Some fact leads to an expression without an answer. -/
inductive Faulty (p : Parser μ) : Prop where
  | move {t : Thread} {e : ConditionError} :
      p.Entails (.passed t) → p.move t = .error e → Faulty p
  | resume {key : Stack.Key} {c : Caller} {right : Nat} {value : Option Value}
      {e : ConditionError} :
      p.Entails (.awaited key c) → p.Entails (.result key right value) →
      p.resume key c right value = .error e → Faulty p

/-! ## When a move goes on -/

theorem allHold_eq_ok_true_iff {p : Parser μ} {conditions : List (Condition μ)} {left right : Nat}
    {env : Environment} :
    Condition.allHold p.evaluate p.input left right env conditions = .ok true ↔
      p.AllHold conditions left right env := by
  unfold AllHold
  induction conditions with
  | nil => simp [Condition.allHold]
  | cons c rest ih =>
    rw [Condition.allHold, List.forall_mem_cons, ← ih]
    cases c.holds p.evaluate p.input left right env with
    | error e => simp [bind, Except.bind]
    | ok b => cases b <;> simp [bind, Except.bind]

theorem guard_of_ok {α ε : Type} {c : Except ε Bool} {k : Except ε (Option α)} {b : Bool}
    (h : c = .ok b) : (c >>= fun b => if b then k else pure none) = if b then k else .ok none := by
  rw [h]
  rfl

/-- A guarded move goes on if the guard holds and the move does. -/
theorem guard_eq_some_iff {α ε : Type} {c : Except ε Bool} {k : Except ε (Option α)} {a : α} :
    (c >>= fun b => if b then k else pure none) = .ok (some a) ↔
      c = .ok true ∧ k = .ok (some a) := by
  cases c with
  | error e => simp [bind, Except.bind]
  | ok b => cases b <;> simp [bind, Except.bind, pure, Except.pure]

theorem scanned_eq_some_iff {p : Parser μ} {terminal left right : Nat} {notes : Annotations μ}
    {env env' : Environment} :
    p.scanned terminal notes left env = .ok (some (right, env')) ↔
      p.AllHold notes.pre left left env ∧
        (p.graph.terminal terminal).matchAt p.input left = some right ∧
        env' = notes.bindScan p.input left right env ∧ p.AllHold notes.post left right env' := by
  rw [scanned, guard_eq_some_iff, allHold_eq_ok_true_iff, and_congr_right_iff]
  intro _
  cases (p.graph.terminal terminal).matchAt p.input left with
  | none => simp [pure, Except.pure]
  | some r =>
    dsimp only
    rw [guard_eq_some_iff, allHold_eq_ok_true_iff]
    simp only [pure, Except.pure, Except.ok.injEq, Option.some.injEq, Prod.mk.injEq]
    constructor
    · intro h
      obtain ⟨hpost, rfl, rfl⟩ := h
      exact ⟨rfl, rfl, hpost⟩
    · intro h
      obtain ⟨rfl, rfl, hpost⟩ := h
      exact ⟨hpost, rfl, rfl⟩

theorem resumed_eq_some_iff {p : Parser μ} {notes : Annotations μ} {dest left right : Nat}
    {value : Option Value} {env env' : Environment} :
    p.resumed notes dest left right value env = .ok (some env') ↔
      env' = notes.bindReturn value right env ∧ p.AllHold notes.post left right env' ∧
        (p.graph.slot dest).lookahead.admits (p.input.symbolAt? right) := by
  rw [resumed, guard_eq_some_iff, allHold_eq_ok_true_iff]
  by_cases hadmits : (p.graph.slot dest).lookahead.admits (p.input.symbolAt? right)
  · simp only [hadmits, if_true, pure, Except.pure, Except.ok.injEq, Option.some.injEq, and_true]
    constructor
    · intro h
      obtain ⟨hpost, rfl⟩ := h
      exact ⟨rfl, hpost⟩
    · intro h
      obtain ⟨rfl, hpost⟩ := h
      exact ⟨hpost, rfl⟩
  · simp [hadmits, pure, Except.pure]

omit [Matcher μ] in
theorem mapError_map_some_eq_ok_iff {α : Type} {x : Except EvalError α} {v : Option α} :
    (some <$> x.mapError .eval : Except ConditionError (Option α)) = .ok v ↔
      ∃ a, x = .ok a ∧ v = some a := by
  cases x with
  | error e => simp [Except.mapError, Functor.map, Except.map]
  | ok a => simp [Except.mapError, Functor.map, Except.map, eq_comm]

omit [Matcher μ] in
theorem argumentsFor_eq_ok_iff {p : Parser μ} {callee : Nat} {arguments : List Expr}
    {env : Environment} {values : Option (List Value)} :
    p.argumentsFor callee arguments env = .ok values ↔
      if (p.graph.nonterminal callee).parameters.isEmpty then values = none
      else ∃ vs, arguments.mapM (p.evaluate · env) = .ok vs ∧ values = some vs := by
  unfold argumentsFor
  split
  · rw [Except.ok.injEq, eq_comm]
  · exact mapError_map_some_eq_ok_iff

theorem calling_eq_some_iff {p : Parser μ} {callee left : Nat} {arguments : List Expr}
    {notes : Annotations μ} {env env' : Environment} {key : Stack.Key} :
    p.calling callee arguments notes left env = .ok (some (key, env')) ↔
      p.AllHold notes.pre left left env ∧ env' = notes.bindCall left env ∧
        key.nonterminal = callee ∧ key.position = left ∧
        p.argumentsFor callee arguments env' = .ok key.arguments := by
  rw [calling, guard_eq_some_iff, allHold_eq_ok_true_iff, and_congr_right_iff]
  intro _
  obtain ⟨nonterminal, position, values⟩ := key
  rw [Except.bind_eq_ok_iff]
  simp only [pure, Except.pure, Except.ok.injEq, Option.some.injEq, Prod.mk.injEq,
    Stack.Key.mk.injEq]
  constructor
  · intro h
    obtain ⟨vs, harguments, ⟨rfl, rfl, rfl⟩, rfl⟩ := h
    exact ⟨rfl, rfl, rfl, harguments⟩
  · intro h
    obtain ⟨rfl, rfl, rfl, harguments⟩ := h
    exact ⟨_, harguments, ⟨rfl, rfl, rfl⟩, rfl⟩

omit [Matcher μ] in
theorem returned_eq_ok_iff {p : Parser μ} {r : Rule μ} {env : Environment}
    {value : Option Value} :
    p.returned r.returns env = .ok value ↔ p.Returning r env value := by
  unfold returned Returning
  cases r.returns with
  | none => simp [eq_comm]
  | some e => exact mapError_map_some_eq_ok_iff

/-! ## What a move finds out -/

/-- The fact follows from the thread's being at its slot. -/
def LeadsTo (p : Parser μ) (t : Thread) (f : Fact) : Prop :=
  ∃ facts, p.move t = .ok facts ∧ f ∈ facts

/-- The fact follows from the result's meeting the caller. -/
def ResumesTo (p : Parser μ) (key : Stack.Key) (c : Caller) (right : Nat) (value : Option Value)
    (f : Fact) : Prop :=
  ∃ facts, p.resume key c right value = .ok facts ∧ f ∈ facts

theorem mem_map_iff {α ε : Type} {x : Except ε α} {k : α → List Fact} {f : Fact} :
    (∃ facts, k <$> x = .ok facts ∧ f ∈ facts) ↔ ∃ a, x = .ok a ∧ f ∈ k a := by
  simp only [Except.map_eq_ok_iff]
  constructor
  · intro h
    obtain ⟨_, ⟨a, hx, rfl⟩, hf⟩ := h
    exact ⟨a, hx, hf⟩
  · intro h
    obtain ⟨a, hx, hf⟩ := h
    exact ⟨_, ⟨a, hx, rfl⟩, hf⟩

/-- Facts that are found only if something goes on. -/
theorem mem_elim_iff {α ε : Type} {x : Except ε (Option α)} {k : α → List Fact} {f : Fact} :
    (∃ facts, (Option.elim · [] k) <$> x = .ok facts ∧ f ∈ facts) ↔
      ∃ a, x = .ok (some a) ∧ f ∈ k a := by
  rw [mem_map_iff]
  constructor
  · intro h
    obtain ⟨o, hx, hf⟩ := h
    cases o with
    | none => exact absurd hf List.not_mem_nil
    | some a => exact ⟨a, hx, hf⟩
  · intro h
    obtain ⟨a, hx, hf⟩ := h
    exact ⟨some a, hx, hf⟩

section

variable {p : Parser μ} {t : Thread} {f : Fact}

theorem leadsTo_scan_iff {terminal dest : Nat} {notes : Annotations μ}
    (haction : (p.graph.slot t.slot).action = .scan terminal notes dest) :
    p.LeadsTo t f ↔ ∃ found, p.scanned terminal notes t.position t.env = .ok (some found) ∧
      f ∈ scanFacts t terminal dest found := by
  unfold LeadsTo move
  rw [haction]
  exact mem_elim_iff

theorem leadsTo_call_iff {callee dest : Nat} {arguments : List Expr} {notes : Annotations μ}
    (haction : (p.graph.slot t.slot).action = .call callee arguments notes dest) :
    p.LeadsTo t f ↔ ∃ found,
      p.calling callee arguments notes t.position t.env = .ok (some found) ∧
        f ∈ p.callFacts t found := by
  unfold LeadsTo move
  rw [haction]
  exact mem_elim_iff

theorem leadsTo_branch_iff {condition : Expr} {ifTrue ifFalse : Nat}
    (haction : (p.graph.slot t.slot).action = .branch condition ifTrue ifFalse) :
    p.LeadsTo t f ↔ ∃ b, p.evaluate.truth condition t.env = .ok b ∧
      f = .passed { t with slot := if b then ifTrue else ifFalse } := by
  unfold LeadsTo move
  rw [haction]
  simp only [mem_map_iff, List.mem_singleton]

theorem leadsTo_complete_iff {returns : Option Expr}
    (haction : (p.graph.slot t.slot).action = .complete returns) :
    p.LeadsTo t f ↔ ∃ value, p.returned returns t.env = .ok value ∧
      f ∈ p.completeFacts t value := by
  unfold LeadsTo move
  rw [haction]
  exact mem_map_iff

theorem resumesTo_iff {key : Stack.Key} {c : Caller} {right callee dest : Nat}
    {value : Option Value} {arguments : List Expr} {notes : Annotations μ}
    (haction : (p.graph.slot c.slot).action = .call callee arguments notes dest) :
    p.ResumesTo key c right value f ↔ ∃ env,
      p.resumed notes dest key.position right value c.env = .ok (some env) ∧
        f ∈ resumeFacts key c right dest env := by
  unfold ResumesTo resume
  rw [haction]
  exact mem_elim_iff

end

theorem Entails.of_leadsTo {p : Parser μ} {t : Thread} {f : Fact} (ht : p.Entails (.passed t))
    (h : p.LeadsTo t f) : p.Entails f := by
  obtain ⟨facts, hmove, hf⟩ := h
  exact .move ht hmove hf

theorem Entails.of_resumesTo {p : Parser μ} {key : Stack.Key} {c : Caller} {right : Nat}
    {value : Option Value} {f : Fact} (hc : p.Entails (.awaited key c))
    (hr : p.Entails (.result key right value)) (h : p.ResumesTo key c right value f) :
    p.Entails f := by
  obtain ⟨facts, hresume, hf⟩ := h
  exact .resume hc hr hresume hf

/-- A result that meets a caller leads to a thread and to pieces. -/
theorem ResumesTo.posted_or_ofForest {p : Parser μ} {key : Stack.Key} {c : Caller} {right : Nat}
    {value : Option Value} {f : Fact} (h : p.ResumesTo key c right value f) :
    (∃ t, f = .posted t) ∨ f.OfForest := by
  cases haction : (p.graph.slot c.slot).action with
  | call callee arguments notes dest =>
    obtain ⟨env, -, hf⟩ := (resumesTo_iff haction).mp h
    rcases List.mem_cons.mp hf with rfl | hf
    · exact Or.inl ⟨_, rfl⟩
    · exact Or.inr (Piece.ofForest_joinFacts hf)
  | scan | branch | complete =>
    obtain ⟨facts, hresume, hf⟩ := h
    rw [Parser.resume, haction] at hresume
    obtain rfl := Except.ok.inj hresume
    exact absurd hf List.not_mem_nil

/-- Only calls that can be opened are made. -/
theorem openings_ne_nil {p : Parser μ} {key : Stack.Key} (h : p.Entails (.called key)) :
    p.openings key ≠ [] := by
  have hjoin {slot : Nat} {arguments : Option (List Value)} {left : Option Piece} {right : Piece} :
      Fact.called key ∉ Piece.joinFacts slot arguments left right :=
    fun h => Piece.ofForest_joinFacts h
  cases h with
  | start h => exact h
  | @move t facts _ ht hmove hf =>
    have hleads : p.LeadsTo t (.called key) := ⟨facts, hmove, hf⟩
    cases haction : (p.graph.slot t.slot).action with
    | scan terminal notes dest =>
      obtain ⟨found, -, hf⟩ := (leadsTo_scan_iff haction).mp hleads
      simp [scanFacts, hjoin] at hf
    | call callee arguments notes dest =>
      obtain ⟨found, -, hf⟩ := (leadsTo_call_iff haction).mp hleads
      unfold callFacts at hf
      split at hf
      · exact absurd hf List.not_mem_nil
      · rename_i hne
        obtain rfl : key = found.1 := by simpa using hf
        exact hne
    | branch condition ifTrue ifFalse =>
      obtain ⟨b, -, hf⟩ := (leadsTo_branch_iff haction).mp hleads
      exact absurd hf (by simp)
    | complete returns =>
      obtain ⟨value, -, hf⟩ := (leadsTo_complete_iff haction).mp hleads
      simp [completeFacts] at hf
  | @resume key' c right value facts _ _ _ hresume hf =>
    have hresumes : p.ResumesTo key' c right value (.called key) := ⟨facts, hresume, hf⟩
    rcases hresumes.posted_or_ofForest with ⟨t, h⟩ | h
    · exact absurd h (by simp)
    · exact h.elim

end Parser

end GeneralLL
