import GeneralLL.Proofs.Conditionals
import GeneralLL.Proofs.InRange

/-!
# Which grammars are compiled

A grammar is compiled exactly if it is closed, and otherwise **the first fault is reported**
(`ofGrammar_eq_error_iff`): that of the start symbol, or else that of the first faulty call in the
order in which a grammar is read.

Names are looked up again when a grammar is compiled, and what is compiled is taken by numbers when
it parses. Nothing says there and then that a name or a number is that of nothing. `carefulGraph`
is the compilation that stops at a name without a number, as the careful parser stops at a number
without a thing. **Neither ever does** (`checked_ofGrammar`): a closed grammar has a number for
every name in it, and what is compiled from it leads nowhere else.
-/

namespace GeneralLL

/-! ## Faults -/

namespace Grammar

variable {μ : Type} [Matcher μ] {g : Grammar μ}

/-- All calls of a grammar with their rules, in the order in which it is read: rule by rule, from
left to right, and through every branch. -/
def occurrences (g : Grammar μ) : List (Rule μ × String × List Expr) :=
  g.rules.flatMap fun r => (r.body.flatMap Symbol.calls).map fun call => (r, call)

/-- The call names a nonterminal with rules, and passes as many arguments as it has parameters. -/
def Sound (g : Grammar μ) (call : String × List Expr) : Prop :=
  g.hasNonterminal call.1 ∧ (g.parametersOf call.1).length = call.2.length

/-- What is wrong with a call in a rule. -/
inductive CallFault (g : Grammar μ) (r : Rule μ) : String × List Expr → GrammarError → Prop where
  | undefined {name : String} {arguments : List Expr} : ¬g.hasNonterminal name →
      CallFault g r (name, arguments) (.undefinedNonterminal name r.toText)
  | arguments {name : String} {arguments : List Expr} : g.hasNonterminal name →
      (g.parametersOf name).length ≠ arguments.length →
      CallFault g r (name, arguments)
        (.argumentCountMismatch name (g.parametersOf name).length arguments.length)

/-- The first thing that is wrong with a grammar. -/
inductive FirstFault (g : Grammar μ) : GrammarError → Prop where
  | unknownStart : ¬g.hasNonterminal g.start → FirstFault g (.unknownStartSymbol g.start)
  | startParameters : g.hasNonterminal g.start → g.parametersOf g.start ≠ [] →
      FirstFault g (.startSymbolHasParameters g.start)
  | call {before after : List (Rule μ × String × List Expr)} {r : Rule μ}
      {call : String × List Expr} {e : GrammarError} :
      g.hasNonterminal g.start → g.parametersOf g.start = [] →
      g.occurrences = before ++ (r, call) :: after → (∀ o ∈ before, g.Sound o.2) →
      g.CallFault r call e → FirstFault g e

theorem checkCall_eq_ok_iff {r : Rule μ} {call : String × List Expr} :
    g.checkCall r call = .ok () ↔ g.Sound call := by
  obtain ⟨name, arguments⟩ := call
  unfold checkCall Sound
  dsimp only
  split
  · simp_all
  · split <;> simp_all

theorem checkCall_eq_error_iff {r : Rule μ} {call : String × List Expr} {e : GrammarError} :
    g.checkCall r call = .error e ↔ g.CallFault r call e := by
  obtain ⟨name, arguments⟩ := call
  unfold checkCall
  dsimp only
  constructor
  · intro h
    split at h
    · rename_i hname
      obtain rfl := Except.error.inj h
      exact .undefined (by simpa using hname)
    · rename_i hname
      split at h
      · rename_i hlength
        obtain rfl := Except.error.inj h
        exact .arguments (by simpa using hname) hlength
      · exact absurd h (by simp)
  · intro h
    cases h with
    | undefined hname => simp [hname]
    | arguments hname hlength => simp [hname, hlength]

/-- The calls are checked in the order in which a grammar is read. -/
theorem checkCalls_eq : (g.rules.forM fun r => (r.body.flatMap Symbol.calls).forM (g.checkCall r))
    = g.occurrences.forM fun o => g.checkCall o.1 o.2 := by
  rw [occurrences, Except.forM_flatMap]
  congr 1
  funext r
  have hmap : ((r.body.flatMap Symbol.calls).map fun call => (r, call)).forM
      (fun o => g.checkCall o.1 o.2) = (r.body.flatMap Symbol.calls).forM (g.checkCall r) :=
    List.forM_map
  exact hmap.symm

/-- **A check finds the first fault.** -/
theorem check_eq_error_iff {e : GrammarError} : g.check = .error e ↔ g.FirstFault e := by
  unfold check
  rw [checkCalls_eq]
  constructor
  · intro h
    split at h
    · rename_i hstart
      obtain rfl := Except.error.inj h
      exact .unknownStart (by simpa using hstart)
    · rename_i hstart
      have hstart : g.hasNonterminal g.start := by simpa using hstart
      split at h
      · rename_i hparameters
        obtain rfl := Except.error.inj h
        exact .startParameters hstart (by simpa using hparameters)
      · rename_i hparameters
        obtain ⟨before, ⟨r, call⟩, after, heq, hok, herror⟩ := Except.forM_eq_error_iff.mp h
        exact .call hstart (by simpa using hparameters) heq
          (fun o ho => checkCall_eq_ok_iff.mp (hok o ho)) (checkCall_eq_error_iff.mp herror)
  · intro h
    cases h with
    | unknownStart hstart => simp [hstart]
    | startParameters hstart hparameters => simp [hstart, hparameters]
    | call hstart hparameters heq hok hfault =>
      simp only [hstart, hparameters, Bool.not_true, List.isEmpty_nil, Bool.false_eq_true, if_false]
      exact Except.forM_eq_error_iff.mpr ⟨_, _, _, heq,
        fun o ho => checkCall_eq_ok_iff.mpr (hok o ho), checkCall_eq_error_iff.mpr hfault⟩

end Grammar

namespace SlotGraph

variable {μ : Type} [DecidableEq μ] [Matcher μ] {g : Grammar μ}

/-- **A grammar is compiled exactly if it is closed.** -/
theorem exists_ofGrammar_iff : (∃ graph, ofGrammar g = .ok graph) ↔ g.Closed := by
  simp only [ofGrammar_eq_ok_iff, exists_and_left, exists_eq', and_true, Grammar.check_eq_ok_iff]

/-- **A grammar that is not closed is rejected with its first fault.** -/
theorem ofGrammar_eq_error_iff {e : GrammarError} : ofGrammar g = .error e ↔ g.FirstFault e := by
  rw [← Grammar.check_eq_error_iff]
  unfold ofGrammar
  cases g.check with
  | error e' => simp [bind, Except.bind]
  | ok u => simp [bind, Except.bind, pure, Except.pure]

end SlotGraph

/-! ## Careful compilation -/

/-- What ends a careful compilation. -/
inductive BuildError where
  | grammar (e : GrammarError)
  /-- A rule is invalid, for this name has no number. -/
  | invalidRule (name : String)
  deriving DecidableEq, Repr

namespace SlotGraph

section

variable {μ : Type}

/-- The number of a nonterminal, which has to have one. -/
def lookUp (names : Names μ) (name : String) : Except BuildError Nat :=
  match names.nonterminals.find? name with
  | some id => .ok id
  | none => .error (.invalidRule name)

variable [DecidableEq μ]

/-- Like `compileSymbol`, but every name must have a number. -/
def carefulSymbol (names : Names μ) (dest : Nat) (place : Place) (next : Nat) :
    Symbol μ → Except BuildError (Action μ × List (Slot μ))
  | .terminal t notes => return (.scan ((names.terminals.find? t).getD 0) notes dest, [])
  | .call name arguments notes => return (.call (← lookUp names name) arguments notes dest, [])
  | .ifThen condition body _ => do
    let thenPlace := place.branch "then"
    let (action, inner) ← carefulSymbol names dest thenPlace (next + 1) body
    return (.branch condition next dest, thenPlace.slot .empty action :: inner)
  | .ifThenElse condition body otherwise _ => do
    let thenPlace := place.branch "then"
    let (thenAction, thenInner) ← carefulSymbol names dest thenPlace (next + 1) body
    let elseSlot := next + 1 + thenInner.length
    let elsePlace := place.branch "else"
    let (elseAction, elseInner) ← carefulSymbol names dest elsePlace (elseSlot + 1) otherwise
    return (.branch condition next elseSlot,
      thenPlace.slot .empty thenAction :: thenInner
        ++ elsePlace.slot .empty elseAction :: elseInner)

/-- Like `compileBody`, but every name must have a number. -/
def carefulBody (names : Names μ) (place : Nat → Place) (base : Nat) : (position next : Nat) →
    List (Symbol μ) → Except BuildError (List (Action μ) × List (Slot μ))
  | _, _, [] => return ([], [])
  | position, next, s :: rest => do
    let (action, inner) ← carefulSymbol names (base + position + 1) (place position) next s
    let (actions, inners) ←
      carefulBody names place base (position + 1) (next + inner.length) rest
    return (action :: actions, inner ++ inners)

variable [Matcher μ]

/-- Like `compileRule`, but every name must have a number. -/
def carefulRule (names : Names μ) (sets : FirstFollow) (index base : Nat) (r : Rule μ) :
    Except BuildError (List (Slot μ)) := do
  let head ← lookUp names r.head
  let place (position : Nat) : Place := ⟨head, index, position, r.dotted position⟩
  let (actions, branches) ← carefulBody names place base 0 (base + r.body.length + 1) r.body
  return (actions ++ [Action.complete r.returns]).mapIdx
      (fun k action => (place k).slot (sets.lookahead r.head (r.body.drop k)) action)
    ++ branches

/-- Like `compileRules`, but every name must have a number. -/
def carefulRules (names : Names μ) (sets : FirstFollow) :
    (index base : Nat) → List (Rule μ) → Except BuildError (List (Nat × List (Slot μ)))
  | _, _, [] => return []
  | index, base, r :: rest => do
    let slots ← carefulRule names sets index base r
    let others ← carefulRules names sets (index + 1) (base + slots.length) rest
    return (base, slots) :: others

/-- The slot graph that is made of compiled rules. -/
def assemble (g : Grammar μ) (compiled : List (Nat × List (Slot μ))) : SlotGraph μ :=
  let firstSlots (name : String) : List Nat :=
    (g.rules.zip compiled).filterMap fun (r, base, _) => if r.head = name then some base else none
  { name := g.name
    nonterminals := (namesOf g).nonterminals.items.map fun name =>
      { name, parameters := g.parametersOf name, firstSlots := firstSlots name }
    terminals := (namesOf g).terminals
    slots := (compiled.flatMap Prod.snd).toArray
    rules := g.rules.toArray }

theorem assemble_compiledRules (g : Grammar μ) : assemble g (compiledRules g) = compile g := rfl

/-- Compiles a grammar, if it is closed and all names that are looked up have numbers. -/
def carefulGraph (g : Grammar μ) : Except BuildError (SlotGraph μ) := do
  g.check.mapError .grammar
  let compiled ← carefulRules (namesOf g) (.ofGrammar g) 0 0 g.rules
  return assemble g compiled

end

/-! ## Names have numbers -/

section

variable {μ : Type} {names : Names μ}

theorem lookUp_eq {name : String} (h : name ∈ names.nonterminals.toList) :
    lookUp names name = .ok ((names.nonterminals.find? name).getD 0) := by
  obtain ⟨id, hid⟩ := Option.isSome_iff_exists.mp (Numbering.find?_isSome_iff.mpr h)
  rw [lookUp, hid]
  rfl

variable [DecidableEq μ] {dest : Nat}

theorem carefulSymbol_eq : ∀ {s : Symbol μ} {place : Place} {next : Nat},
    (∀ call ∈ s.calls, call.1 ∈ names.nonterminals.toList) →
      carefulSymbol names dest place next s = .ok (compileSymbol names dest place next s)
  | .terminal .., _, _, _ => rfl
  | .call name arguments notes, _, _, h => by
    rw [carefulSymbol, lookUp_eq (h _ (List.mem_singleton_self _))]
    rfl
  | .ifThen condition body _, _, _, h => by
    rw [carefulSymbol, carefulSymbol_eq (s := body) h]
    rfl
  | .ifThenElse condition body otherwise _, _, _, h => by
    obtain ⟨hbody, hotherwise⟩ := List.forall_mem_append.mp h
    rw [carefulSymbol, carefulSymbol_eq hbody]
    show (carefulSymbol .. >>= _) = _
    rw [carefulSymbol_eq hotherwise]
    rfl

theorem carefulBody_eq {place : Nat → Place} {base : Nat} {body : List (Symbol μ)}
    (h : ∀ s ∈ body, ∀ call ∈ s.calls, call.1 ∈ names.nonterminals.toList) :
    ∀ {position next : Nat}, carefulBody names place base position next body
      = .ok (compileBody names place base position next body) := by
  induction body with
  | nil => exact rfl
  | cons s rest ih =>
    intro position next
    obtain ⟨hs, hrest⟩ := List.forall_mem_cons.mp h
    rw [carefulBody, carefulSymbol_eq hs]
    show (carefulBody .. >>= _) = _
    rw [ih hrest]
    rfl

variable [Matcher μ] {sets : FirstFollow}

theorem carefulRule_eq {index base : Nat} {r : Rule μ} (hhead : r.head ∈ names.nonterminals.toList)
    (hbody : ∀ s ∈ r.body, ∀ call ∈ s.calls, call.1 ∈ names.nonterminals.toList) :
    carefulRule names sets index base r = .ok (compileRule names sets index base r) := by
  rw [carefulRule, lookUp_eq hhead]
  show (carefulBody .. >>= _) = _
  rw [carefulBody_eq hbody]
  rfl

theorem carefulRules_eq {rules : List (Rule μ)}
    (h : ∀ r ∈ rules, r.head ∈ names.nonterminals.toList ∧
      ∀ s ∈ r.body, ∀ call ∈ s.calls, call.1 ∈ names.nonterminals.toList) :
    ∀ {index base : Nat},
      carefulRules names sets index base rules = .ok (compileRules names sets index base rules) := by
  induction rules with
  | nil => exact rfl
  | cons r rest ih =>
    intro index base
    obtain ⟨⟨hhead, hbody⟩, hrest⟩ := List.forall_mem_cons.mp h
    rw [carefulRules, carefulRule_eq hhead hbody]
    show (carefulRules .. >>= _) = _
    rw [ih hrest]
    rfl

/-- **All names of a closed grammar have numbers.** -/
theorem carefulGraph_eq (g : Grammar μ) : carefulGraph g = (ofGrammar g).mapError .grammar := by
  unfold carefulGraph ofGrammar
  cases hcheck : g.check with
  | error e => rfl
  | ok u =>
    have hclosed := Grammar.closed_of_check hcheck
    have hnames : ∀ r ∈ g.rules, r.head ∈ (namesOf g).nonterminals.toList ∧
        ∀ s ∈ r.body, ∀ call ∈ s.calls, call.1 ∈ (namesOf g).nonterminals.toList := by
      refine fun r hr => ⟨Numbering.mem_ofList.mpr ?_, fun s hs => (cover_of_mem hclosed hr hs).2⟩
      exact List.mem_cons_of_mem _ (List.mem_map_of_mem hr)
    show (carefulRules .. >>= _) = _
    rw [carefulRules_eq hnames]
    exact congrArg Except.ok (assemble_compiledRules g)

/-! ## Checked grammars -/

/-- What a grammar goes through before it parses, and what this is worth. -/
structure Checked (g : Grammar μ) : Prop where
  /-- What is accepted is what is closed. -/
  accepted : (∃ graph, ofGrammar g = .ok graph) ↔ g.Closed
  /-- What is reported is the first fault, in the order in which a grammar is read. -/
  rejected : ∀ e, ofGrammar g = .error e ↔ g.FirstFault e
  /-- Compilation never comes to a name without a number. -/
  names : carefulGraph g = (ofGrammar g).mapError .grammar
  /-- No parse, however long, comes to a number without a thing. What else ends a parse before it
  is done is the error of a condition. -/
  numbers : ∀ (p : Parser μ) (fuel : Nat), ofGrammar g = .ok p.graph →
    Parser.Careful.parse p fuel = .ok (p.parse fuel)

/-- **Exactly the closed grammars are compiled, and nothing is missing from what they become.** -/
theorem checked_ofGrammar (g : Grammar μ) : Checked g where
  accepted := exists_ofGrammar_iff
  rejected _ := ofGrammar_eq_error_iff
  names := carefulGraph_eq g
  numbers _ fuel hg := Parser.careful_parse hg fuel

end

end SlotGraph

end GeneralLL
