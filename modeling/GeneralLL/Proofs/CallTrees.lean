import GeneralLL.Proofs.Licences
import GeneralLL.Proofs.Trees

/-!
# Conditions in the trees of a forest

A tree that is read off a forest by choosing one packed node wherever a node has any tells of
every call its arguments, its rule and its extents (`Forest.Unfolds`). The values that the
calls return are not part of the forest: a call has one node for all of them.

* A tree **fulfils** the conditions if they hold in the environments that are made of the
  values it returns itself (`Builds`). Not every tree does (`not_fulfils_leaks`): a caller may
  have gone on with the value of one derivation and share its node with another.
* **Every step of every tree is licensed** (`licensed_of_unfolds_root`): over the same stretch
  of the text and in a call with the same arguments there are derivations whose values let
  the parse take the step, with the arguments that the tree tells.
* Where a stretch of the text determines environments and values (`Determined`), these can only
  be the tree's own, so there every tree fulfils the conditions.
-/

namespace GeneralLL

open SlotGraph

/-! ## Trees of calls -/

/-- A derivation of a text with the arguments of its calls. -/
inductive CallTree (μ : Type) where
  /-- A terminal with the positions between which it was matched. -/
  | leaf (t : Terminal μ) (left right : Nat)
  /-- A call with these arguments, between two positions, derived by the rule with this number. -/
  | node (rule : Nat) (arguments : Option (List Value)) (left right : Nat)
      (children : List (CallTree μ))

/-- What stands below a call: the trees of the symbols, or for an empty rule the leaf of the empty
terminal. -/
def CallTree.orEmpty {μ : Type} (position : Nat) (trees : List (CallTree μ)) :
    List (CallTree μ) :=
  if trees.isEmpty then [.leaf .epsilon position position] else trees

theorem CallTree.orEmpty_of_ne_nil {μ : Type} {position : Nat} {trees : List (CallTree μ)}
    (h : trees ≠ []) : orEmpty position trees = trees := by
  rw [orEmpty, if_neg (by simpa using h)]

section

variable {μ : Type}

/-- The trees that can be unfolded from a node, if there is one, by choosing one of its packed
nodes. -/
inductive Forest.Unfolds [DecidableEq μ] (graph : SlotGraph μ) (f : Forest) :
    Option Nat → List (CallTree μ) → Prop where
  | nothing : Unfolds graph f none []
  | terminal {id t : Nat} {n : Forest.Node} :
      f.nodes[id]? = some n → n.span.label = .terminal t →
      Unfolds graph f (some id) [.leaf (graph.terminal t) n.span.left n.span.right]
  | nonterminal {id i a : Nat} {arguments : Option Nat} {n : Forest.Node} {k : Forest.Packed}
      {lefts rights : List (CallTree μ)} :
      f.nodes[id]? = some n → n.span.label = .nonterminal a arguments → i ∈ n.packed →
      f.packed[i]? = some k → Unfolds graph f k.left lefts →
      Unfolds graph f (some k.right) rights →
      Unfolds graph f (some id) [.node (graph.slot k.slot).rule (arguments.map f.argumentsOf)
        n.span.left n.span.right (lefts ++ rights)]
  | intermediate {id i slot : Nat} {arguments : Option Nat} {n : Forest.Node} {k : Forest.Packed}
      {lefts rights : List (CallTree μ)} :
      f.nodes[id]? = some n → n.span.label = .intermediate slot arguments → i ∈ n.packed →
      f.packed[i]? = some k → Unfolds graph f k.left lefts →
      Unfolds graph f (some k.right) rights → Unfolds graph f (some id) (lefts ++ rights)

variable [DecidableEq μ]

theorem Forest.Unfolds.ne_nil {graph : SlotGraph μ} {f : Forest} {o : Option Nat}
    {trees : List (CallTree μ)} (h : f.Unfolds graph o trees) (ho : o ≠ none) : trees ≠ [] := by
  induction h with
  | nothing => exact absurd rfl ho
  | terminal | nonterminal => simp
  | intermediate _ _ _ _ _ _ _ ih =>
    exact List.append_ne_nil_of_right_ne_nil _ (ih (by simp))

theorem Forest.Unfolds.eq_nil {graph : SlotGraph μ} {f : Forest} {trees : List (CallTree μ)}
    (h : f.Unfolds graph none trees) : trees = [] := by
  cases h with
  | nothing => rfl

end

namespace Parser

variable {μ : Type} [Matcher μ] {p : Parser μ} {g : Grammar μ}

/-! ## Trees with their own values -/

/-- Symbols lead from an environment and a position to others, and the trees tell by which
terminals and calls. The values that calls return are those of their trees. -/
inductive Builds (p : Parser μ) (g : Grammar μ) :
    List (Symbol μ) → Environment → Nat → List (CallTree μ) → Environment → Nat → Prop where
  | nil {env : Environment} {i : Nat} : Builds p g [] env i [] env i
  | terminal {t : Terminal μ} {notes : Annotations μ} {rest : List (Symbol μ)}
      {env env' : Environment} {i j k : Nat} {trees : List (CallTree μ)} :
      p.AllHold notes.pre i i env → t.matchAt p.input i = some j →
      p.AllHold notes.post i j (notes.bindScan p.input i j env) →
      Builds p g rest (notes.bindScan p.input i j env) j trees env' k →
      Builds p g (.terminal t notes :: rest) env i (.leaf t i j :: trees) env' k
  | call {name : String} {arguments : List Expr} {notes : Annotations μ}
      {rest : List (Symbol μ)} {env inner env' : Environment} {i j k rule : Nat}
      {values : Option (List Value)} {r : Rule μ} {value : Option Value}
      {children trees : List (CallTree μ)} :
      p.AllHold notes.pre i i env →
      p.Passing g name arguments (notes.bindCall i env) values →
      g.rules[rule]? = some r → r.head = name →
      Builds p g r.body (p.entry g r.head values) i children inner j →
      p.Returning r inner value →
      p.AllHold notes.post i j (notes.bindReturn value j (notes.bindCall i env)) →
      Builds p g rest (notes.bindReturn value j (notes.bindCall i env)) j trees env' k →
      Builds p g (.call name arguments notes :: rest) env i
        (.node rule values i j (CallTree.orEmpty i children) :: trees) env' k
  | taken {condition : Expr} {body : Symbol μ} {notes : Annotations μ} {rest : List (Symbol μ)}
      {env env' : Environment} {i k : Nat} {trees : List (CallTree μ)} :
      p.evaluate.truth condition env = .ok true → Builds p g (body :: rest) env i trees env' k →
      Builds p g (.ifThen condition body notes :: rest) env i trees env' k
  | skipped {condition : Expr} {body : Symbol μ} {notes : Annotations μ} {rest : List (Symbol μ)}
      {env env' : Environment} {i k : Nat} {trees : List (CallTree μ)} :
      p.evaluate.truth condition env = .ok false → Builds p g rest env i trees env' k →
      Builds p g (.ifThen condition body notes :: rest) env i trees env' k
  | thenTaken {condition : Expr} {body otherwise : Symbol μ} {notes : Annotations μ}
      {rest : List (Symbol μ)} {env env' : Environment} {i k : Nat} {trees : List (CallTree μ)} :
      p.evaluate.truth condition env = .ok true → Builds p g (body :: rest) env i trees env' k →
      Builds p g (.ifThenElse condition body otherwise notes :: rest) env i trees env' k
  | elseTaken {condition : Expr} {body otherwise : Symbol μ} {notes : Annotations μ}
      {rest : List (Symbol μ)} {env env' : Environment} {i k : Nat} {trees : List (CallTree μ)} :
      p.evaluate.truth condition env = .ok false →
      Builds p g (otherwise :: rest) env i trees env' k →
      Builds p g (.ifThenElse condition body otherwise notes :: rest) env i trees env' k

/-- The tree derives a call and returns a value; all conditions hold, all branches are taken and all
arguments are passed in the environments made of the values that the tree itself returns. -/
def Fulfils (p : Parser μ) (g : Grammar μ) (name : String) (values : Option (List Value))
    (left right : Nat) (tree : CallTree μ) (value : Option Value) : Prop :=
  ∃ k r children env, tree = .node k values left right (CallTree.orEmpty left children) ∧
    g.rules[k]? = some r ∧ r.head = name ∧
    p.Builds g r.body (p.entry g r.head values) left children env right ∧ p.Returning r env value

theorem Builds.passes {symbols : List (Symbol μ)} {env env' : Environment} {i j : Nat}
    {trees : List (CallTree μ)} (h : p.Builds g symbols env i trees env' j) :
    p.Passes g symbols env i env' j := by
  induction h with
  | nil => exact .nil
  | terminal hpre hmatch hpost _ ih => exact .terminal hpre hmatch hpost ih
  | call hpre hvalues hr hname _ hreturning hpost _ ihbody ih =>
    exact .call hpre hvalues (List.mem_of_getElem? hr) hname (hname ▸ ihbody) hreturning hpost ih
  | taken htruth _ ih => exact .taken htruth ih
  | skipped htruth _ ih => exact .skipped htruth ih
  | thenTaken htruth _ ih => exact .thenTaken htruth ih
  | elseTaken htruth _ ih => exact .elseTaken htruth ih

theorem Builds.append {symbols rest : List (Symbol μ)} {env env' env'' : Environment}
    {i j k : Nat} {trees trees' : List (CallTree μ)} (h : p.Builds g symbols env i trees env' j)
    (h' : p.Builds g rest env' j trees' env'' k) :
    p.Builds g (symbols ++ rest) env i (trees ++ trees') env'' k := by
  induction h with
  | nil => exact h'
  | terminal hpre hmatch hpost _ ih => exact .terminal hpre hmatch hpost (ih h')
  | call hpre hvalues hr hname hbody hreturning hpost _ _ ih =>
    exact .call hpre hvalues hr hname hbody hreturning hpost (ih h')
  | taken htruth _ ih => exact .taken htruth (ih h')
  | skipped htruth _ ih => exact .skipped htruth (ih h')
  | thenTaken htruth _ ih => exact .thenTaken htruth (ih h')
  | elseTaken htruth _ ih => exact .elseTaken htruth (ih h')

theorem Fulfils.derives {name : String} {values : Option (List Value)} {left right : Nat}
    {tree : CallTree μ} {value : Option Value}
    (h : p.Fulfils g name values left right tree value) :
    p.Derives g name values left right value := by
  obtain ⟨k, r, children, env, -, hr, hname, hbuilds, hreturning⟩ := h
  exact ⟨r, List.mem_of_getElem? hr, hname, env, hname ▸ hbuilds.passes, hreturning⟩

/-! ## Trees whose steps are licensed -/

/-- The trees tell of the symbols before symbol `i` of a rule, from the start of a call with these
arguments to a position. Each step is licensed on its own. -/
inductive Licensed (p : Parser μ) (g : Grammar μ) :
    Rule μ → Option (List Value) → Nat → Nat → List (CallTree μ) → Nat → Prop where
  | front {r : Rule μ} {values : Option (List Value)} {left : Nat} :
      Licensed p g r values left 0 [] left
  | idle {r : Rule μ} {values : Option (List Value)} {left i pos : Nat}
      {trees : List (CallTree μ)} :
      Licensed p g r values left i trees pos → p.Licenses g r values left i pos none pos →
      Licensed p g r values left (i + 1) trees pos
  | leaf {r : Rule μ} {values : Option (List Value)} {left i pos j : Nat}
      {trees : List (CallTree μ)} {t : Terminal μ} :
      Licensed p g r values left i trees pos →
      p.Licenses g r values left i pos (some (.terminal t)) j →
      Licensed p g r values left (i + 1) (trees ++ [.leaf t pos j]) j
  | node {r r' : Rule μ} {values values' : Option (List Value)} {left i pos j k' : Nat}
      {trees children : List (CallTree μ)} :
      Licensed p g r values left i trees pos →
      p.Licenses g r values left i pos (some (.call r'.head values')) j →
      g.rules[k']? = some r' → Licensed p g r' values' pos r'.body.length children j →
      p.Concludes g r' values' pos j →
      Licensed p g r values left (i + 1)
        (trees ++ [.node k' values' pos j (CallTree.orEmpty pos children)]) j

/-- The trees tell of one occurrence. -/
inductive Tells (p : Parser μ) (g : Grammar μ) :
    Occurrence μ → Nat → Nat → List (CallTree μ) → Prop where
  | terminal {t : Terminal μ} {left right : Nat} :
      Tells p g (.terminal t) left right [.leaf t left right]
  | call {k left right : Nat} {r : Rule μ} {values : Option (List Value)}
      {children : List (CallTree μ)} :
      g.rules[k]? = some r → p.Licensed g r values left r.body.length children right →
      p.Concludes g r values left right →
      Tells p g (.call r.head values) left right
        [.node k values left right (CallTree.orEmpty left children)]

/-- One more occurrence. -/
theorem Licensed.step {r : Rule μ} {values : Option (List Value)} {left i pos j : Nat}
    {trees trees' : List (CallTree μ)} {x : Occurrence μ}
    (h : p.Licensed g r values left i trees pos)
    (hlicenses : p.Licenses g r values left i pos (some x) j) (htells : p.Tells g x pos j trees') :
    p.Licensed g r values left (i + 1) (trees ++ trees') j := by
  cases htells with
  | terminal => exact .leaf h hlicenses
  | call hr hchildren hconcludes => exact .node h hlicenses hr hchildren hconcludes

/-! ## Where values are determined -/

/-- A stretch of the text determines what is known behind it: the symbols before a place lead to one
environment, and the derivations of a call return one value. -/
structure Determined (p : Parser μ) (g : Grammar μ) : Prop where
  /-- The first symbols of a rule lead over a stretch to one environment. -/
  environment : ∀ r ∈ g.rules, ∀ i values left right env env',
    p.Passes g (r.body.take i) (p.entry g r.head values) left env right →
    p.Passes g (r.body.take i) (p.entry g r.head values) left env' right → env = env'
  /-- The derivations of a call over a stretch return one value. -/
  value : ∀ name values left right value value', p.Derives g name values left right value →
    p.Derives g name values left right value' → value = value'

/-- Plain symbols leave the environment as it is. -/
theorem Passes.env_eq {symbols : List (Symbol μ)} {env env' : Environment} {i j : Nat}
    (h : p.Passes g symbols env i env' j) : (∀ s ∈ symbols, s.IsPlain) → env' = env := by
  induction h with
  | nil => exact fun _ => rfl
  | terminal _ _ _ _ ih | call _ _ _ _ _ _ _ _ _ ih =>
    intro hplain
    obtain ⟨rfl, hrest⟩ := List.forall_mem_cons.mp hplain
    exact ih hrest
  | taken | skipped | thenTaken | elseTaken =>
    exact fun hplain => (List.forall_mem_cons.mp hplain).1.elim

/-- In a context-free grammar there is nothing to determine. -/
theorem determined_of_isContextFree (hcf : g.IsContextFree) : p.Determined g where
  environment r hr i values left right env env' h h' := by
    have hplain : ∀ s ∈ r.body.take i, s.IsPlain :=
      fun s hs => hcf.symbols r hr s (List.mem_of_mem_take hs)
    rw [h.env_eq hplain, h'.env_eq hplain]
  value name values left right value value' h h' := by
    have hnone {value : Option Value} (h : p.Derives g name values left right value) :
        value = none := by
      obtain ⟨r, hr, -, env, -, hreturning⟩ := h
      rwa [Returning, hcf.returns r hr] at hreturning
    rw [hnone h, hnone h']

/-- The trees tell of what a symbol stands for, and fulfil the conditions. -/
inductive Accounts (p : Parser μ) (g : Grammar μ) :
    Option (Occurrence μ) → Nat → Nat → List (CallTree μ) → Prop where
  | nothing {i j : Nat} : Accounts p g none i j []
  | terminal {t : Terminal μ} {i j : Nat} :
      Accounts p g (some (.terminal t)) i j [.leaf t i j]
  | call {name : String} {values : Option (List Value)} {i j : Nat} {tree : CallTree μ}
      {value : Option Value} :
      p.Fulfils g name values i j tree value → Accounts p g (some (.call name values)) i j [tree]

section

variable (hdet : p.Determined g)

include hdet

/-- What a symbol can do with some values of a call, it does with those of the tree. -/
theorem Takes.builds {s : Symbol μ} {env env' : Environment} {i j : Nat}
    {x : Option (Occurrence μ)} {trees : List (CallTree μ)} (h : p.Takes g s env i x env' j)
    (haccounts : p.Accounts g x i j trees) : p.Builds g [s] env i trees env' j := by
  induction h with
  | terminal hpre hmatch hpost =>
    cases haccounts with
    | terminal => exact .terminal hpre hmatch hpost .nil
  | call hpre hvalues hderives hpost =>
    cases haccounts with
    | call hfulfils =>
      obtain rfl := hdet.value _ _ _ _ _ _ hderives hfulfils.derives
      obtain ⟨k, r, children, inner, rfl, hr, hname, hbuilds, hreturning⟩ := hfulfils
      exact .call hpre hvalues hr hname hbuilds hreturning hpost .nil
  | taken htruth _ ih => exact .taken htruth (ih haccounts)
  | skipped htruth =>
    cases haccounts with
    | nothing => exact .skipped htruth .nil
  | thenTaken htruth _ ih => exact .thenTaken htruth (ih haccounts)
  | elseTaken htruth _ ih => exact .elseTaken htruth (ih haccounts)

/-- A licensed symbol is crossed in the environment that the trees before it build. -/
theorem Licenses.builds {r : Rule μ} {values : Option (List Value)} {left i pos j : Nat}
    {x : Option (Occurrence μ)} {env : Environment} {trees trees' : List (CallTree μ)}
    (hr : r ∈ g.rules) (h : p.Licenses g r values left i pos x j)
    (hbuilds : p.Builds g (r.body.take i) (p.entry g r.head values) left trees env pos)
    (haccounts : p.Accounts g x pos j trees') :
    ∃ env', p.Builds g (r.body.take (i + 1)) (p.entry g r.head values) left (trees ++ trees') env'
      j := by
  obtain ⟨s, env₁, env', hs, hpasses, htakes⟩ := h
  obtain rfl := hdet.environment r hr i values left pos _ _ hpasses hbuilds.passes
  rw [List.take_add_one, hs]
  exact ⟨env', hbuilds.append (htakes.builds hdet haccounts)⟩

/-- A call whose trees build its body fulfils the conditions, for it returns what its rule does. -/
theorem Concludes.fulfils {k left right : Nat} {r : Rule μ} {values : Option (List Value)}
    {env : Environment} {children : List (CallTree μ)} (hr : g.rules[k]? = some r)
    (h : p.Concludes g r values left right)
    (hbuilds : p.Builds g (r.body.take r.body.length) (p.entry g r.head values) left children env
      right) :
    ∃ value, p.Fulfils g r.head values left right
      (.node k values left right (CallTree.orEmpty left children)) value := by
  obtain ⟨env', value, hpasses, hreturning⟩ := h
  rw [← List.take_length (l := r.body)] at hpasses
  obtain rfl := hdet.environment r (List.mem_of_getElem? hr) _ values left right _ _ hpasses
    hbuilds.passes
  rw [List.take_length] at hbuilds
  exact ⟨value, k, r, children, env', rfl, hr, rfl, hbuilds, hreturning⟩

/-- **Where values are determined, trees whose steps are licensed build what they tell.** -/
theorem Licensed.builds {r : Rule μ} {values : Option (List Value)} {left i pos : Nat}
    {trees : List (CallTree μ)} (h : p.Licensed g r values left i trees pos) : r ∈ g.rules →
    ∃ env, p.Builds g (r.body.take i) (p.entry g r.head values) left trees env pos := by
  induction h with
  | front => exact fun _ => ⟨_, .nil⟩
  | @idle r values left i pos trees _ hlicenses ih =>
    intro hr
    obtain ⟨env, hbuilds⟩ := ih hr
    have hnext := hlicenses.builds hdet hr hbuilds .nothing
    rwa [List.append_nil] at hnext
  | leaf _ hlicenses ih =>
    intro hr
    obtain ⟨env, hbuilds⟩ := ih hr
    exact hlicenses.builds hdet hr hbuilds .terminal
  | node _ hlicenses hr' _ hconcludes ih ihchildren =>
    intro hr
    obtain ⟨env, hbuilds⟩ := ih hr
    obtain ⟨inner, hchildren⟩ := ihchildren (List.mem_of_getElem? hr')
    obtain ⟨value, hfulfils⟩ := hconcludes.fulfils hdet hr' hchildren
    exact hlicenses.builds hdet hr hbuilds (.call hfulfils)

/-- The tree of a call fulfils the conditions. -/
theorem Tells.fulfils {name : String} {values : Option (List Value)} {left right : Nat}
    {trees : List (CallTree μ)} (h : p.Tells g (.call name values) left right trees) :
    ∃ tree value, trees = [tree] ∧ p.Fulfils g name values left right tree value := by
  cases h with
  | call hr hchildren hconcludes =>
    obtain ⟨env, hbuilds⟩ := hchildren.builds hdet (List.mem_of_getElem? hr)
    obtain ⟨value, hfulfils⟩ := hconcludes.fulfils hdet hr hbuilds
    exact ⟨_, value, rfl, hfulfils⟩

end

/-! ## Every step of every tree is licensed -/

variable [DecidableEq μ]

/-- The trees tell what the part has recognised, wherever it is met: the occurrence for which it
stands, and the symbols of a rule up to a place. -/
structure Certified (p : Parser μ) (g : Grammar μ) (part : Option Piece)
    (trees : List (CallTree μ)) : Prop where
  /-- Where the part stands for an occurrence, the trees tell of this occurrence. -/
  occurrence : ∀ {x : Occurrence μ} {left right : Nat} {w : Piece}, part = some w →
    p.PieceOf x left right w → p.Tells g x left right trees
  /-- Where the part is what a rule has recognised, the trees are licensed by the rule. -/
  front : ∀ {k i left right : Nat} {r : Rule μ} {values : Option (List Value)},
    g.rules[k]? = some r → p.Gathered g k r values left i right part →
    p.Licensed g r values left i trees right

/-- Without a part nothing was crossed. -/
theorem Gathered.licensed_nil {k i left pos : Nat} {r : Rule μ} {values : Option (List Value)}
    {part : Option Piece} (h : p.Gathered g k r values left i pos part) :
    part = none → p.Licensed g r values left i [] pos := by
  induction h with
  | front => exact fun _ => .front
  | idle _ hlicenses ih => exact fun hnone => .idle (ih hnone) hlicenses
  | first | part => exact fun hnone => absurd hnone (by simp)

/-- What was gathered is the piece of one occurrence, or a part of the rule up to an earlier place;
what comes behind it stands for nothing. -/
theorem Gathered.licensed {k i left pos : Nat} {r : Rule μ} {values : Option (List Value)}
    {part : Option Piece} {w : Piece} {trees : List (CallTree μ)}
    (hoccurrence : ∀ {x : Occurrence μ} {l j : Nat}, p.PieceOf x l j w → p.Tells g x l j trees)
    (hpart : ∀ {i j : Nat}, w = .intermediate (base g k + (i + 1)) values left j →
      i < r.body.length → p.Licensed g r values left (i + 1) trees j)
    (h : p.Gathered g k r values left i pos part) :
    part = some w → p.Licensed g r values left i trees pos := by
  induction h with
  | front => exact fun hsome => absurd hsome (by simp)
  | idle _ hlicenses ih => exact fun hsome => .idle (ih hsome) hlicenses
  | first hgathered hlicenses hw =>
    intro hsome
    obtain rfl := Option.some.inj hsome
    have hfront := (hgathered.licensed_nil rfl).step hlicenses (hoccurrence hw)
    exact hfront
  | part hi => exact fun hsome => hpart (Option.some.inj hsome).symm hi

theorem Certified.nothing : p.Certified g none [] where
  occurrence h := absurd h (by simp)
  front _ hgathered := hgathered.licensed_nil rfl

theorem Certified.terminal (id left right : Nat) :
    p.Certified g (some (.terminal id left right)) [.leaf (p.graph.terminal id) left right] := by
  have htells {x : Occurrence μ} {l j : Nat} (hx : p.PieceOf x l j (.terminal id left right)) :
      p.Tells g x l j [.leaf (p.graph.terminal id) left right] := by
    cases hx with
    | terminal hid =>
      rw [SlotGraph.terminal, hid]
      exact .terminal
  refine ⟨fun heq hx => ?_, fun _ hgathered => ?_⟩
  · obtain rfl := Option.some.inj heq
    exact htells hx
  · exact hgathered.licensed htells (fun h _ => absurd h (by simp)) rfl

section

variable (hg : SlotGraph.ofGrammar g = .ok p.graph)

include hg

/-- A part that goes on behind the first occurrence is met at its own place only. -/
theorem Certified.join {k i left pivot right : Nat} {r : Rule μ} {values : Option (List Value)}
    {x : Occurrence μ} {l w : Piece} {lefts rights : List (CallTree μ)}
    (hr : g.rules[k]? = some r) (hpart : p.Gathered g k r values left i pivot (some l))
    (hlicenses : p.Licenses g r values left i pivot (some x) right)
    (hw : p.PieceOf x pivot right w) (hlefts : p.Certified g (some l) lefts)
    (hrights : p.Certified g (some w) rights) :
    p.Certified g (some (.intermediate (base g k + (i + 1)) values left right))
      (lefts ++ rights) := by
  have hi : i < r.body.length := by
    obtain ⟨s, _, _, hs, -⟩ := hlicenses
    exact (List.getElem?_eq_some_iff.mp hs).1
  have hlicensed := (hlefts.front hr hpart).step hlicenses (hrights.occurrence rfl hw)
  refine ⟨fun heq hx => ?_, fun {k' i' left' right' r' values'} hr' hgathered => ?_⟩
  · obtain rfl := Option.some.inj heq
    cases hx
  · refine hgathered.licensed (fun hx => by cases hx) (fun heq hi' => ?_) rfl
    simp only [Piece.intermediate.injEq] at heq
    obtain ⟨hslot, rfl, rfl, rfl⟩ := heq
    obtain ⟨rfl, rfl, hsame⟩ := place_inj hg hr hr' hi hi' hslot
    obtain rfl := Nat.succ.inj hsame
    exact hlicensed

/-- Below the node of a rule are the trees of its body, or the leaf of the empty terminal. -/
theorem Certified.exists_children {k left right : Nat} {r : Rule μ}
    {values : Option (List Value)} {part : Option Piece} {trees : List (CallTree μ)}
    (hr : g.rules[k]? = some r) (hpart : p.Gathered g k r values left r.body.length right part)
    (h : p.Certified g (some (part.getD (.terminal p.graph.epsilon right right))) trees)
    (hne : trees ≠ []) :
    ∃ children, p.Licensed g r values left r.body.length children right ∧
      trees = CallTree.orEmpty left children := by
  cases part with
  | none =>
    refine ⟨[], hpart.licensed_nil rfl, ?_⟩
    obtain rfl := hpart.extents.1 rfl
    have hepsilon : p.PieceOf (.terminal .epsilon) right right
        (.terminal p.graph.epsilon right right) := .terminal (get?_epsilon hg)
    cases h.occurrence rfl hepsilon with
    | terminal => rfl
  | some w => exact ⟨trees, h.front hr hpart, (CallTree.orEmpty_of_ne_nil hne).symm⟩

/-- A whole rule is a tree of its call. -/
theorem Certified.whole {k left right : Nat} {r : Rule μ} {values : Option (List Value)}
    {children : List (CallTree μ)} (hr : g.rules[k]? = some r)
    (hlicensed : p.Licensed g r values left r.body.length children right)
    (hconcludes : p.Concludes g r values left right) :
    p.Certified g (some (.nonterminal (ownerOf g k r).head values left right))
      [.node k values left right (CallTree.orEmpty left children)] := by
  have htells {x : Occurrence μ} {l j : Nat}
      (hx : p.PieceOf x l j (.nonterminal (ownerOf g k r).head values left right)) :
      p.Tells g x l j [.node k values left right (CallTree.orEmpty left children)] := by
    cases hx with
    | call _ hname =>
      rw [← hname, (nonterminalName_head hg hr).2]
      exact .call hr hlicensed hconcludes
  refine ⟨fun heq hx => ?_, fun _ hgathered => ?_⟩
  · obtain rfl := Option.some.inj heq
    exact htells hx
  · exact hgathered.licensed htells (fun h _ => absurd h (by simp)) rfl

/-- **The trees that are unfolded from a node tell what the node stands for.** -/
theorem certified_of_unfolds {s : State} (h : s.Settled p.Entails) {o : Option Nat}
    {trees : List (CallTree μ)} (hunfolds : s.forest.Unfolds p.graph o trees) :
    ∀ {part : Option Piece}, s.forest.part? o = some part → p.Certified g part trees := by
  induction hunfolds with
  | nothing =>
    intro part hpart
    obtain rfl := Option.some.inj hpart
    exact .nothing
  | @terminal id t n hn hlabel =>
    intro part hpart
    have hpiece : s.forest.piece? id = some (.terminal t n.span.left n.span.right) :=
      Forest.piece?_eq_some_iff.mpr ⟨n, hn, by rw [Forest.pieceOf?, hlabel]⟩
    rw [Forest.part?, hpiece] at hpart
    obtain rfl := Option.some.inj hpart
    exact .terminal _ _ _
  | @nonterminal id i a arguments n k lefts rights hn hlabel hi hk hlefts hrights ihl ihr =>
    intro part hpart
    obtain ⟨d, rfl, hd, hslot, hleft, hright, hspan⟩ :=
      h.exists_packing_of_chosen hn hi hk hpart
    rw [Forest.pieceOf?, hlabel] at hspan
    obtain ⟨values, harguments, hparent⟩ := Option.map_eq_some_iff.mp hspan
    have hright' := ihr hright
    have hlicit : p.Licit g d := permitted_of_entails hg hd
    cases hlicit with
    | join => exact absurd hparent (by simp)
    | whole hr hgathered hconcludes =>
      obtain ⟨-, rfl, rfl, rfl⟩ := Piece.nonterminal.inj hparent
      -- a whole rule has no left part
      have hnone : k.left = none := by
        rcases Forest.part?_eq_some_iff.mp hleft with ⟨hnone, -⟩ | ⟨_, _, -, hsome, -⟩
        · exact hnone
        · exact absurd hsome (by simp)
      rw [hnone] at hlefts
      obtain rfl := hlefts.eq_nil
      obtain ⟨children, hlicensed, rfl⟩ :=
        hright'.exists_children hg hr hgathered (hrights.ne_nil (by simp))
      rw [hslot, (slot_at hg hr (Nat.le_refl _)).2.1, Forest.map_argumentsOf harguments]
      exact .whole hg hr hlicensed hconcludes
  | @intermediate id i slot arguments n k lefts rights hn hlabel hi hk _ _ ihl ihr =>
    intro part hpart
    obtain ⟨d, rfl, hd, -, hleft, hright, hspan⟩ := h.exists_packing_of_chosen hn hi hk hpart
    rw [Forest.pieceOf?, hlabel] at hspan
    obtain ⟨values, -, hparent⟩ := Option.map_eq_some_iff.mp hspan
    have hleft' := ihl hleft
    have hright' := ihr hright
    have hlicit : p.Licit g d := permitted_of_entails hg hd
    cases hlicit with
    | join hr hgathered hlicenses hw =>
      exact .join hg hr hgathered hlicenses hw hleft' hright'
    | whole => exact absurd hparent (by simp)

/-- **Every step of every tree is licensed.** A tree that is unfolded from the root derives the text
from the start symbol, by rules of the grammar; where a stretch of the text determines what is known
behind it, the tree fulfils all conditions with its own values. -/
theorem licensed_of_unfolds_root {fuel root : Nat} {f : Forest} {trees : List (CallTree μ)}
    (h : (p.parse fuel).verdict = .ok (.success root f))
    (hunfolds : f.Unfolds p.graph (some root) trees) :
    p.Tells g (.call g.start none) 0 p.input.length trees ∧
      (p.Determined g → ∃ tree value, trees = [tree] ∧
        p.Fulfils g g.start none 0 p.input.length tree value) := by
  obtain ⟨hstart, hname⟩ := nonterminalName_start_eq hg
  obtain ⟨log, s, -, hs, rfl, hpiece⟩ := exists_settled_of_success hg h
  have hroot : s.forest.part? (some root)
      = some (some (.nonterminal p.graph.start none 0 p.input.length)) := by
    rw [Forest.part?, hpiece, Option.map_some]
  have htells := (certified_of_unfolds hg hs hunfolds hroot).occurrence rfl (.call hstart hname)
  exact ⟨htells, fun hdet => htells.fulfils hdet⟩

end

end Parser

/-- A caller that takes one of the two values of its callee. -/
def leaks : Grammar RunMatcher where
  name := "leaks"
  start := "S"
  rules :=
    [⟨"S", [.call "A" [] ⟨some "x", [], [.expr (.binary .eq (.var "x") (.const (.int 1)))]⟩], none⟩,
      ⟨"A", [.terminal (.char 'a') {}], some (.const (.int 1))⟩,
      ⟨"A", [.terminal (.char 'a') {}], some (.const (.int 2))⟩]

/-- The parser for leaks. -/
def leakParser : Parser RunMatcher :=
  { graph := SlotGraph.compile leaks, input := .ofString "a" }

theorem ofGrammar_leaks : SlotGraph.ofGrammar leaks = .ok leakParser.graph :=
  SlotGraph.ofGrammar_eq_ok_iff.mpr ⟨by decide +kernel, rfl⟩

/-- The tree in which the callee returns the value that its caller does not take. -/
def leakedTree : CallTree RunMatcher := .node 0 none 0 1 [.node 2 none 0 1 [.leaf (.char 'a') 0 1]]

theorem exists_unfolds_leakedTree : ∃ root f,
    (leakParser.parse 100).verdict = .ok (.success root f) ∧
      f.Unfolds leakParser.graph (some root) [leakedTree] := by
  have hforest : (leakParser.parse 100).verdict.toOption.any (Verdict.succeedsWith fun root f =>
      root = 2 ∧ f.nodes = #[⟨⟨.terminal 1, 0, 1⟩, []⟩, ⟨⟨.nonterminal 1 none, 0, 1⟩, [0, 2]⟩,
          ⟨⟨.nonterminal 0 none, 0, 1⟩, [1]⟩] ∧
        f.packed = #[⟨1, 3, 0, none, 0⟩, ⟨2, 1, 0, none, 1⟩, ⟨1, 5, 0, none, 0⟩]) := by
    decide +kernel
  obtain ⟨root, f, hv, hq⟩ := Verdict.exists_of_succeedsWith hforest
  obtain ⟨rfl, hnodes, hpacked⟩ := of_decide_eq_true hq
  have hnode (id : Nat) := congrArg (·[id]?) hnodes
  have hchoice (i : Nat) := congrArg (·[i]?) hpacked
  have hletter : f.Unfolds leakParser.graph (some 0) [.leaf (leakParser.graph.terminal 1) 0 1] :=
    .terminal (hnode 0) rfl
  rw [show leakParser.graph.terminal 1 = .char 'a' by decide +kernel] at hletter
  have hcallee : f.Unfolds leakParser.graph (some 1) [.node 2 none 0 1 [.leaf (.char 'a') 0 1]] :=
    .nonterminal (i := 2) (hnode 1) rfl (by decide) (hchoice 2) .nothing hletter
  exact ⟨2, f, hv, .nonterminal (i := 1) (hnode 2) rfl (by decide) (hchoice 1) .nothing hcallee⟩

/-- The caller takes 1 only, and the tree returns 2. -/
theorem not_fulfils_leakedTree {value : Option Value} :
    ¬leakParser.Fulfils leaks "S" none 0 1 leakedTree value := by
  intro h
  obtain ⟨k, r, children, env, htree, hr, -, hbuilds, -⟩ := h
  obtain ⟨rfl, -, -, -, hchildren⟩ := CallTree.node.inj htree
  obtain rfl := Option.some.inj hr
  cases children with
  | nil => exact absurd hchildren (by simp [CallTree.orEmpty])
  | cons tree rest =>
    rw [CallTree.orEmpty_of_ne_nil (List.cons_ne_nil _ _)] at hchildren
    obtain ⟨rfl, rfl⟩ := List.cons.inj hchildren
    -- what stands below the callee is made by a function, which a case split cannot invert
    generalize [CallTree.leaf (Terminal.char 'a') 0 1] = below at hbuilds
    cases hbuilds with
    | call _ _ hr' _ _ hreturning hpost _ =>
      obtain rfl := Option.some.inj hr'
      obtain ⟨v, hv, rfl⟩ := hreturning
      obtain rfl := Except.ok.inj hv
      exact absurd (hpost _ (List.mem_singleton_self _)) (by decide +kernel)

/-- Every step of the tree is licensed. -/
theorem licensed_of_unfolds_root_leaks :
    SlotGraph.ofGrammar leaks = .ok leakParser.graph ∧ ∃ root f,
      (leakParser.parse 100).verdict = .ok (.success root f) ∧
      f.Unfolds leakParser.graph (some root) [leakedTree] ∧
      leakParser.Tells leaks (.call "S" none) 0 1 [leakedTree] := by
  obtain ⟨root, f, hv, hunfolds⟩ := exists_unfolds_leakedTree
  exact ⟨ofGrammar_leaks, root, f, hv, hunfolds,
    (Parser.licensed_of_unfolds_root ofGrammar_leaks hv hunfolds).1⟩

/-- **A tree need not fulfil the conditions with its own values.** -/
theorem not_fulfils_leaks : SlotGraph.ofGrammar leaks = .ok leakParser.graph ∧
    ∃ root f, (leakParser.parse 100).verdict = .ok (.success root f) ∧
      ¬∀ trees, f.Unfolds leakParser.graph (some root) trees → ∃ tree value, trees = [tree] ∧
        leakParser.Fulfils leaks "S" none 0 1 tree value := by
  obtain ⟨root, f, hv, hunfolds⟩ := exists_unfolds_leakedTree
  refine ⟨ofGrammar_leaks, root, f, hv, fun hall => ?_⟩
  obtain ⟨tree, value, htree, hfulfils⟩ := hall _ hunfolds
  obtain ⟨rfl, -⟩ := List.cons.inj htree
  exact not_fulfils_leakedTree hfulfils

end GeneralLL
