import GeneralLL.Proofs.Order

/-!
# The forest holds the derivations of the text

A derivation tree of a context-free grammar tells by which rule each nonterminal is
derived (`Grammar.Derivation`). Trees are read off a forest by choosing one packed node
wherever a node has any, with the parts of rules replaced by what they are made of
(`Forest.Reads`).

**The trees that can be read off the root are exactly the derivation trees of the text**
(`reads_root_iff`). A forest is finite and a text may have infinitely many derivations:
a node can be met any number of times on the way, with another choice each time.

Between the two stands what can be read off the derivations that the parse is entitled
to (`Yields`), which does not mention numbers. It is sound because every derivation has
its place (`spells_of_yields`), and it is complete because a thread collects the trees
of the symbols that it crosses (`Entails.spell`).
-/

namespace GeneralLL

open SlotGraph

/-! ## Derivation trees -/

/-- A derivation of a text by the rules of a grammar. -/
inductive DerivationTree (μ : Type) where
  /-- A terminal with the positions between which it was matched. -/
  | leaf (t : Terminal μ) (left right : Nat)
  /-- A nonterminal, derived by the rule with this number. -/
  | node (rule : Nat) (children : List (DerivationTree μ))

/-- What stands below a node: the trees of the symbols, or for an empty rule the leaf of the empty
terminal. -/
def DerivationTree.orEmpty {μ : Type} (position : Nat) (trees : List (DerivationTree μ)) :
    List (DerivationTree μ) :=
  if trees.isEmpty then [.leaf .epsilon position position] else trees

theorem DerivationTree.orEmpty_of_ne_nil {μ : Type} {position : Nat}
    {trees : List (DerivationTree μ)} (h : trees ≠ []) : orEmpty position trees = trees := by
  rw [orEmpty, if_neg (by simpa using h)]

section

variable {μ : Type} [Matcher μ]

/-- The trees derive the symbols, one each, from one position of a text to another. -/
inductive Spells (g : Grammar μ) (input : Input) :
    List (Symbol μ) → List (DerivationTree μ) → Nat → Nat → Prop where
  | nil {i : Nat} : Spells g input [] [] i i
  | terminal {t : Terminal μ} {notes : Annotations μ} {rest : List (Symbol μ)}
      {trees : List (DerivationTree μ)} {i j k : Nat} :
      t.matchAt input i = some j → Spells g input rest trees j k →
      Spells g input (.terminal t notes :: rest) (.leaf t i j :: trees) i k
  | call {name : String} {arguments : List Expr} {notes : Annotations μ} {rest : List (Symbol μ)}
      {rule : Nat} {r : Rule μ} {children trees : List (DerivationTree μ)} {i j k : Nat} :
      g.rules[rule]? = some r → r.head = name → Spells g input r.body children i j →
      Spells g input rest trees j k →
      Spells g input (.call name arguments notes :: rest)
        (.node rule (DerivationTree.orEmpty i children) :: trees) i k

/-- A derivation tree of the whole text. -/
def Grammar.Derivation (g : Grammar μ) (input : Input) (tree : DerivationTree μ) : Prop :=
  Spells g input [.call g.start [] {}] [tree] 0 input.length

theorem Spells.append {g : Grammar μ} {input : Input} {symbols symbols' : List (Symbol μ)}
    {trees trees' : List (DerivationTree μ)} {i j k : Nat} (h : Spells g input symbols trees i j)
    (h' : Spells g input symbols' trees' j k) :
    Spells g input (symbols ++ symbols') (trees ++ trees') i k := by
  induction h with
  | nil => exact h'
  | terminal hmatch _ ih => exact .terminal hmatch (ih h')
  | call hr hhead hbody _ _ ih => exact .call hr hhead hbody (ih h')

theorem Spells.length_eq {g : Grammar μ} {input : Input} {symbols : List (Symbol μ)}
    {trees : List (DerivationTree μ)} {i j : Nat} (h : Spells g input symbols trees i j) :
    trees.length = symbols.length := by
  induction h with
  | nil => rfl
  | terminal _ _ ih => rw [List.length_cons, List.length_cons, ih]
  | call _ _ _ _ _ ih => rw [List.length_cons, List.length_cons, ih]

/-- Symbols without annotations and conditions. -/
def Symbol.IsPlain : Symbol μ → Prop
  | .terminal _ notes | .call _ _ notes => notes = {}
  | .ifThen .. | .ifThenElse .. => False

/-- A grammar without conditions, labels, parameters, return values and conditional symbols. -/
structure Grammar.IsContextFree (g : Grammar μ) : Prop where
  /-- The symbols are terminals and calls without labels, conditions and arguments. -/
  symbols : ∀ r ∈ g.rules, ∀ s ∈ r.body, s.IsPlain
  /-- The rules return nothing. -/
  returns : ∀ r ∈ g.rules, r.returns = none
  /-- The nonterminals have no parameters. -/
  parameters : g.parameters = []

end

/-! ## Reading a forest -/

section

variable {μ : Type} [DecidableEq μ]

/-- The trees that can be read off a node, if there is one: at a nonterminal and at a part of a
rule one of the packed nodes is chosen. A nonterminal makes a node of them, by the rule of the
packed node. -/
inductive Forest.Reads (graph : SlotGraph μ) (f : Forest) :
    Option Nat → List (DerivationTree μ) → Prop where
  | nothing : Reads graph f none []
  | terminal {id t : Nat} {n : Forest.Node} :
      f.nodes[id]? = some n → n.span.label = .terminal t →
      Reads graph f (some id) [.leaf (graph.terminal t) n.span.left n.span.right]
  | nonterminal {id i a : Nat} {arguments : Option Nat} {n : Forest.Node} {k : Forest.Packed}
      {lefts rights : List (DerivationTree μ)} :
      f.nodes[id]? = some n → n.span.label = .nonterminal a arguments → i ∈ n.packed →
      f.packed[i]? = some k → Reads graph f k.left lefts → Reads graph f (some k.right) rights →
      Reads graph f (some id) [.node (graph.slot k.slot).rule (lefts ++ rights)]
  | intermediate {id i slot : Nat} {arguments : Option Nat} {n : Forest.Node} {k : Forest.Packed}
      {lefts rights : List (DerivationTree μ)} :
      f.nodes[id]? = some n → n.span.label = .intermediate slot arguments → i ∈ n.packed →
      f.packed[i]? = some k → Reads graph f k.left lefts → Reads graph f (some k.right) rights →
      Reads graph f (some id) (lefts ++ rights)

end

namespace Parser

variable {μ : Type} [DecidableEq μ] [Matcher μ] {p : Parser μ} {g : Grammar μ}

/-- A nonterminal makes a node of the trees of its parts, and a part of a rule leaves them. -/
def wrap (p : Parser μ) (d : Packing) (trees : List (DerivationTree μ)) :
    List (DerivationTree μ) :=
  match d.parent with
  | .nonterminal .. => [.node (p.graph.slot d.slot).rule trees]
  | _ => trees

/-- The trees that can be read off a piece by choosing among the derivations of the parse. -/
inductive Yields (p : Parser μ) : Option Piece → List (DerivationTree μ) → Prop where
  | nothing : Yields p none []
  | terminal {id left right : Nat} :
      Yields p (some (.terminal id left right)) [.leaf (p.graph.terminal id) left right]
  | packed {d : Packing} {lefts rights : List (DerivationTree μ)} :
      p.Entails (.packing d) → Yields p d.left lefts → Yields p (some d.right) rights →
      Yields p (some d.parent) (p.wrap d (lefts ++ rights))

omit [DecidableEq μ] [Matcher μ] in
theorem wrap_nonterminal {d : Packing} {id left right : Nat} {arguments : Option (List Value)}
    {trees : List (DerivationTree μ)} (h : d.parent = .nonterminal id arguments left right) :
    p.wrap d trees = [.node (p.graph.slot d.slot).rule trees] := by rw [wrap, h]

omit [DecidableEq μ] [Matcher μ] in
theorem wrap_intermediate {d : Packing} {slot left right : Nat} {arguments : Option (List Value)}
    {trees : List (DerivationTree μ)} (h : d.parent = .intermediate slot arguments left right) :
    p.wrap d trees = trees := by rw [wrap, h]

omit [DecidableEq μ] in
theorem Yields.ne_nil {part : Option Piece} {trees : List (DerivationTree μ)}
    (h : p.Yields part trees) (hpart : part ≠ none) : trees ≠ [] := by
  induction h with
  | nothing => exact absurd rfl hpart
  | terminal => simp
  | packed _ _ _ _ ih =>
    unfold wrap
    split
    · simp
    · exact List.append_ne_nil_of_right_ne_nil _ (ih (by simp))

omit [DecidableEq μ] in
theorem Yields.eq_nil {trees : List (DerivationTree μ)} (h : p.Yields none trees) :
    trees = [] := by
  cases h with
  | nothing => rfl

/-! ## Numbers do not matter -/

section

variable {s : State} (h : s.Settled p.Entails)

include h

omit [DecidableEq μ] in
/-- What is read off a forest, the derivations of the parse yield. -/
theorem yields_of_reads {o : Option Nat} {trees : List (DerivationTree μ)}
    (hreads : s.forest.Reads p.graph o trees) :
    ∀ {part : Option Piece}, s.forest.part? o = some part → p.Yields part trees := by
  induction hreads with
  | nothing =>
    intro part hpart
    obtain rfl := Option.some.inj hpart
    exact .nothing
  | @terminal id t n hn hlabel =>
    intro part hpart
    have hpiece : s.forest.piece? id = some (.terminal t n.span.left n.span.right) :=
      Forest.piece?_eq_some_iff.mpr ⟨n, hn, by rw [Forest.pieceOf?, hlabel]⟩
    rw [Forest.part?, hpiece] at hpart
    obtain rfl := Option.some.inj hpart
    exact .terminal
  | @nonterminal id i a arguments n k lefts rights hn hlabel hi hk _ _ ihl ihr =>
    intro part hpart
    obtain ⟨d, rfl, hd, hslot, hleft, hright, hspan⟩ :=
      h.exists_packing_of_chosen hn hi hk hpart
    rw [Forest.pieceOf?, hlabel] at hspan
    obtain ⟨values, -, hparent⟩ := Option.map_eq_some_iff.mp hspan
    have hyields := Yields.packed hd (ihl hleft) (ihr hright)
    rw [wrap_nonterminal hparent.symm, ← hslot] at hyields
    exact hyields
  | @intermediate id i slot arguments n k lefts rights hn hlabel hi hk _ _ ihl ihr =>
    intro part hpart
    obtain ⟨d, rfl, hd, -, hleft, hright, hspan⟩ := h.exists_packing_of_chosen hn hi hk hpart
    rw [Forest.pieceOf?, hlabel] at hspan
    obtain ⟨values, -, hparent⟩ := Option.map_eq_some_iff.mp hspan
    have hyields := Yields.packed hd (ihl hleft) (ihr hright)
    rw [wrap_intermediate hparent.symm] at hyields
    exact hyields

/-- What the derivations of the parse yield is read off the forest, if none of them is lost. -/
theorem reads_of_yields (hg : SlotGraph.ofGrammar g = .ok p.graph) (hsimple : g.IsSimple)
    {part : Option Piece} {trees : List (DerivationTree μ)} (hyields : p.Yields part trees) :
    ∀ {o : Option Nat}, s.forest.part? o = some part → s.forest.Reads p.graph o trees := by
  have hplaced {d : Packing} (hd : p.Entails (.packing d)) : p.Placed g d :=
    inPlace_of_entails hg hsimple hd
  have hnode {o : Option Nat} {w : Piece} (ho : s.forest.part? o = some (some w)) :
      ∃ id n, o = some id ∧ s.forest.piece? id = some w ∧ s.forest.nodes[id]? = some n ∧
        s.forest.pieceOf? n.span = some w := by
    rcases Forest.part?_eq_some_iff.mp ho with ⟨-, hnone⟩ | ⟨id, w', rfl, heq, hid⟩
    · exact absurd hnone (by simp)
    · obtain rfl := Option.some.inj heq
      obtain ⟨n, hn, hspan⟩ := Forest.piece?_eq_some_iff.mp hid
      exact ⟨id, n, rfl, hid, hn, hspan⟩
  induction hyields with
  | nothing =>
    intro o ho
    rcases Forest.part?_eq_some_iff.mp ho with ⟨rfl, -⟩ | ⟨id, w, -, hsome, -⟩
    · exact .nothing
    · exact absurd hsome (by simp)
  | @terminal id left right =>
    intro o ho
    obtain ⟨id', n, rfl, -, hn, hspan⟩ := hnode ho
    have hspan' : n.span = ⟨.terminal id, left, right⟩ := Forest.pieceOf?_eq_some_iff.mp hspan
    have hlabel : n.span.label = .terminal id := by rw [hspan']
    have hreads : s.forest.Reads p.graph (some id') _ := .terminal hn hlabel
    rw [hspan'] at hreads
    exact hreads
  | @packed d lefts rights hd _ _ ihl ihr =>
    intro o ho
    obtain ⟨id, n, rfl, hid, hn, hspan⟩ := hnode ho
    obtain ⟨i, k, hk, hread⟩ := h.exists_packed_of_key_inj
      (fun hd hd' => (hplaced hd).key_inj hg (hplaced hd')) hd
    obtain ⟨hparent, hslot, -, hleft, hright⟩ := Forest.packing?_eq_some_iff.mp hread
    have hi : i ∈ n.packed :=
      ((h.wf.forest.lists hn).2 i).mpr ⟨k, hk, h.wf.forest.piece?_inj hparent hid⟩
    have hright' : s.forest.part? (some k.right) = some (some d.right) := by
      rw [Forest.part?, hright, Option.map_some]
    have hreadsl := ihl hleft
    have hreadsr := ihr hright'
    cases hplaced hd with
    | join =>
      obtain ⟨a, -, hspan⟩ := Forest.pieceOf?_eq_some_iff.mp hspan
      rw [wrap_intermediate rfl]
      exact .intermediate hn (by rw [hspan]) hi hk hreadsl hreadsr
    | whole =>
      obtain ⟨a, -, hspan⟩ := Forest.pieceOf?_eq_some_iff.mp hspan
      rw [wrap_nonterminal rfl, ← hslot]
      exact .nonterminal hn (by rw [hspan]) hi hk hreadsl hreadsr

end

section

variable (hg : SlotGraph.ofGrammar g = .ok p.graph)

include hg

/-! ## Soundness -/

/-- The trees derive what the part has recognised, wherever it is met: the symbol for which it
stands, and the symbols of a rule up to a place. -/
structure Sound (p : Parser μ) (g : Grammar μ) (part : Option Piece)
    (trees : List (DerivationTree μ)) : Prop where
  /-- Where the part stands for a symbol, the trees derive this symbol. -/
  symbol : ∀ {s : Symbol μ} {left right : Nat} {w : Piece}, part = some w →
    p.Stands s left right w → Spells g p.input [s] trees left right
  /-- Where the part is what a rule has recognised, the trees derive the symbols so far. -/
  front : ∀ {k i left right : Nat} {r : Rule μ}, g.rules[k]? = some r → i ≤ r.body.length →
    p.PartOf g k r left i right part → Spells g p.input (r.body.take i) trees left right

omit hg in
theorem Sound.nothing : p.Sound g none [] where
  symbol h := absurd h (by simp)
  front _ _ hpart := by
    cases hpart with
    | front => exact .nil

omit hg in
/-- The part of a rule up to its first symbol is the piece of the symbol, and the parts behind it
are intermediate pieces. -/
theorem Sound.of_stands {w : Piece} {trees : List (DerivationTree μ)}
    (h : ∀ {s : Symbol μ} {left right : Nat}, p.Stands s left right w →
      Spells g p.input [s] trees left right)
    (hw : ∀ slot left right, w ≠ .intermediate slot none left right) :
    p.Sound g (some w) trees where
  symbol heq hstands := by
    obtain rfl := Option.some.inj heq
    exact h hstands
  front _ _ hpart := by
    cases hpart with
    | first hs hstands =>
      rw [List.take_one, List.head?_eq_getElem?, hs]
      exact h hstands
    | later => exact absurd rfl (hw _ _ _)

omit hg in
theorem Sound.terminal (id left right : Nat) :
    p.Sound g (some (.terminal id left right)) [.leaf (p.graph.terminal id) left right] := by
  refine .of_stands (fun hstands => ?_) (fun _ _ _ => Piece.noConfusion)
  cases hstands with
  | terminal hid hmatch =>
    rw [SlotGraph.terminal, hid, Option.getD_some]
    exact .terminal hmatch .nil

/-- A part that goes on behind the first symbol is met at its own place only. -/
theorem Sound.join {k i left pivot right : Nat} {r : Rule μ} {s : Symbol μ}
    {part : Option Piece} {w : Piece} {lefts rights : List (DerivationTree μ)}
    (hr : g.rules[k]? = some r) (hs : r.body[i]? = some s)
    (hpart : p.PartOf g k r left i pivot part) (hw : p.Stands s pivot right w)
    (hlefts : p.Sound g part lefts) (hrights : p.Sound g (some w) rights) :
    p.Sound g (some (.intermediate (base g k + (i + 1)) none left right)) (lefts ++ rights) := by
  obtain ⟨hlt, -⟩ := List.getElem?_eq_some_iff.mp hs
  have hspells : Spells g p.input (r.body.take (i + 1)) (lefts ++ rights) left right := by
    rw [List.take_add_one, hs]
    exact (hlefts.front hr (Nat.le_of_lt hlt) hpart).append (hrights.symbol rfl hw)
  refine ⟨fun heq hstands => ?_, fun {k' i' left' right' r'} hr' hi' hpart' => ?_⟩
  · obtain rfl := Option.some.inj heq
    cases hstands
  · -- a case split cannot solve an equation of two sums, so the piece is a variable in it
    generalize hw' : some (Piece.intermediate (base g k + (i + 1)) none left right) = o at hpart'
    cases hpart' with
    | front => exact absurd hw' (by simp)
    | first _ hstands =>
      obtain rfl := Option.some.inj hw'
      cases hstands
    | later =>
      simp only [Option.some.injEq, Piece.intermediate.injEq] at hw'
      obtain ⟨hslot, -, rfl, rfl⟩ := hw'
      obtain ⟨rfl, rfl, hsame⟩ := place_inj hg hr hr' hlt hi' hslot
      exact hsame ▸ hspells

/-- Below the node of a rule are the trees of its body, or the leaf of the empty terminal. -/
theorem Sound.spells_body {k left right : Nat} {r : Rule μ} {part : Option Piece}
    {trees : List (DerivationTree μ)} (hr : g.rules[k]? = some r)
    (hpart : p.PartOf g k r left r.body.length right part)
    (h : p.Sound g (some (part.getD (.terminal p.graph.epsilon left left))) trees)
    (hne : trees ≠ []) :
    ∃ children, Spells g p.input r.body children left right ∧
      trees = DerivationTree.orEmpty left children := by
  cases part with
  | none =>
    have hepsilon : p.Stands (.terminal .epsilon {}) left left
        (.terminal p.graph.epsilon left left) := .terminal (get?_epsilon hg) rfl
    have hleaf := h.symbol rfl hepsilon
    generalize hlength : r.body.length = n at hpart
    cases hpart with
    | front =>
      rw [List.length_eq_zero_iff.mp hlength]
      cases hleaf with
      | terminal _ hrest =>
        cases hrest with
        | nil => exact ⟨[], .nil, rfl⟩
  | some w =>
    have hspells := h.front hr (Nat.le_refl _) hpart
    rw [List.take_length] at hspells
    exact ⟨trees, hspells, (DerivationTree.orEmpty_of_ne_nil hne).symm⟩

/-- A whole rule is a tree of any call of its nonterminal. -/
theorem Sound.whole {k left right : Nat} {r : Rule μ} {children : List (DerivationTree μ)}
    (hr : g.rules[k]? = some r) (hbody : Spells g p.input r.body children left right) :
    p.Sound g (some (.nonterminal (ownerOf g k r).head none left right))
      [.node k (DerivationTree.orEmpty left children)] := by
  obtain ⟨-, hname⟩ := nonterminalName_head hg hr
  refine .of_stands (fun {s l j} hstands => ?_) (fun _ _ _ => Piece.noConfusion)
  cases hstands with
  | call _ hcallee => exact .call hr (hname.symm.trans hcallee) hbody .nil

/-- **What the derivations of the parse yield derives the symbols.** A piece that stands for a
symbol yields a tree of it, and a part of a rule yields trees of the symbols of the part. -/
theorem spells_of_yields (hsimple : g.IsSimple) {part : Option Piece}
    {trees : List (DerivationTree μ)} (h : p.Yields part trees) : p.Sound g part trees := by
  induction h with
  | nothing => exact .nothing
  | terminal => exact .terminal _ _ _
  | @packed d lefts rights hd hlefts hrights ihl ihr =>
    have hplaced : p.Placed g d := inPlace_of_entails hg hsimple hd
    cases hplaced with
    | join hr hs _ hpart hw =>
      rw [wrap_intermediate rfl]
      exact .join hg hr hs hpart hw ihl ihr
    | whole hr hpart =>
      obtain ⟨-, hrule, -⟩ := slot_at hg hr (Nat.le_refl _)
      obtain rfl : lefts = [] := hlefts.eq_nil
      obtain ⟨children, hbody, rfl⟩ := ihr.spells_body hg hr hpart (hrights.ne_nil (by simp))
      rw [wrap_nonterminal rfl, hrule]
      exact .whole hg hr hbody

/-! ## Completeness -/

omit hg [DecidableEq μ] in
/-- Parts that are joined yield what they yield together. -/
theorem Yields.join {slot : Nat} {arguments : Option (List Value)} {left : Option Piece}
    {right : Piece} {lefts rights : List (DerivationTree μ)} (hl : p.Yields left lefts)
    (hr : p.Yields (some right) rights)
    (hfacts : ∀ f ∈ Piece.joinFacts slot arguments left right, p.Entails f) :
    p.Yields (some (.join slot arguments left right)) (lefts ++ rights) := by
  cases left with
  | none =>
    rw [hl.eq_nil]
    exact hr
  | some l => exact .packed (hfacts _ (List.mem_cons_of_mem _ (List.mem_singleton_self _))) hl hr

section

variable (hcf : g.IsContextFree)

include hcf

omit hg [DecidableEq μ] [Matcher μ] in
theorem parametersOf_eq_nil (name : String) : g.parametersOf name = [] := by
  rw [Grammar.parametersOf, hcf.parameters]
  rfl

theorem isSimple_of_isContextFree : g.IsSimple := by
  intro r hr s hs
  have hplain := hcf.symbols r hr s hs
  cases s with
  | terminal => exact trivial
  | call => exact arguments_eq_nil hg (parametersOf_eq_nil hcf) hr hs
  | ifThen | ifThenElse => exact hplain.elim

omit hg [DecidableEq μ] [Matcher μ] in
theorem passing_none (name : String) (arguments : List Expr) (env : Environment) :
    p.Passing g name arguments env none := by
  rw [Passing, parametersOf_eq_nil hcf, if_pos List.isEmpty_nil]

omit hg [DecidableEq μ] [Matcher μ] in
theorem returning_none {r : Rule μ} (hr : r ∈ g.rules) (env : Environment) :
    p.Returning r env none := by
  rw [Returning, hcf.returns r hr]

omit hg [DecidableEq μ] in
/-- A tree of plain symbols is a way through them. -/
theorem passes_of_spells {symbols : List (Symbol μ)} {trees : List (DerivationTree μ)} {i j : Nat}
    (h : Spells g p.input symbols trees i j) :
    (∀ s ∈ symbols, s.IsPlain) → ∀ env, p.Passes g symbols env i env j := by
  induction h with
  | nil => exact fun _ env => .nil
  | terminal hmatch _ ih =>
    intro hplain env
    obtain ⟨rfl, hrest⟩ := List.forall_mem_cons.mp hplain
    exact .terminal allHold_nil hmatch allHold_nil (ih hrest env)
  | call hr hhead _ _ ihbody ih =>
    intro hplain env
    obtain ⟨rfl, hrest⟩ := List.forall_mem_cons.mp hplain
    have hrule := List.mem_of_getElem? hr
    exact .call allHold_nil (passing_none hcf _ _ _) hrule hhead
      (ihbody (hcf.symbols _ hrule) _) (returning_none hcf hrule _) allHold_nil (ih hrest env)

/-- **A rule that was completed yields a node of what was collected,** and is a result of its
call. -/
theorem Entails.yields_whole {t : Thread} {k : Nat} {r : Rule μ}
    {children : List (DerivationTree μ)} (ht : p.Entails (.passed t))
    (hleft : p.Left g k r t.slot []) (hyields : p.Yields t.part children)
    (hbody : Spells g p.input r.body children t.call.position t.position) :
    p.Entails (.result t.call t.position none) ∧
      p.Yields (some (resultPiece t.call t.position))
        [.node k (DerivationTree.orEmpty t.call.position children)] := by
  have hfound := ht.finish hleft (returning_none hcf (List.mem_of_getElem? hleft.rule) t.env)
  have hwhole : p.whole t = resultPiece t.call t.position := by
    rw [whole, resultPiece, head_eq_of_entails hg ht]
  have hrule : (p.graph.slot t.slot).rule = k := by
    cases hleft.awaits with
    | complete hslot howns _ => rw [slot_eq hslot, howns.2, ownerOf]
  refine ⟨hfound _ List.mem_cons_self, ?_⟩
  have hchild : p.Yields (some (p.child t))
      (DerivationTree.orEmpty t.call.position children) := by
    unfold child
    cases hpart : t.part with
    | none =>
      rw [hpart] at hyields
      obtain rfl := hyields.eq_nil
      have hempty := hbody.length_eq
      generalize t.position = position at hbody ⊢
      generalize r.body = body at hbody hempty
      generalize t.call.position = left at hbody ⊢
      cases hbody with
      | nil =>
        have hleaf : p.Yields (some (.terminal p.graph.epsilon position position)) _ := .terminal
        rw [SlotGraph.terminal, get?_epsilon hg] at hleaf
        exact hleaf
    | some w =>
      rw [hpart] at hyields
      rw [DerivationTree.orEmpty_of_ne_nil (hyields.ne_nil (by simp))]
      exact hyields
  have hpacking := hfound (.packing ⟨p.whole t, t.slot, (p.child t).left, none, p.child t⟩)
    (by simp [completeFacts])
  have hpacked := Yields.packed hpacking .nothing hchild
  rw [wrap_nonterminal rfl, hrule, List.nil_append, hwhole] at hpacked
  exact hpacked

variable (hhonest : g.Honest p.input)

include hhonest

/-- **A thread collects the trees of the symbols that it crosses.** -/
theorem Entails.spell {symbols : List (Symbol μ)} {trees : List (DerivationTree μ)} {i j : Nat}
    (h : Spells g p.input symbols trees i j) :
    (∀ s ∈ symbols, s.IsPlain) → ∀ {t : Thread} {k : Nat} {r : Rule μ}
      {collected : List (DerivationTree μ)}, p.Entails (.passed t) → t.position = i →
      p.Left g k r t.slot symbols → p.Yields t.part collected →
      (FirstFollow.lookup (FirstFollow.ofGrammar g).follow r.head).admits (p.input.symbolAt? j) →
      ∃ t', p.Entails (.passed t') ∧ t'.call = t.call ∧ t'.position = j ∧ p.Left g k r t'.slot [] ∧
        p.Yields t'.part (collected ++ trees) := by
  induction h with
  | nil =>
    intro _ t k r collected ht hpos hleft hyields _
    exact ⟨t, ht, rfl, hpos, hleft, (List.append_nil collected).symm ▸ hyields⟩
  | @terminal terminal notes rest trees i j l hmatch _ ih =>
    intro hplain t k r collected ht hpos hleft hyields hfollow
    subst hpos
    obtain ⟨rfl, hrest⟩ := List.forall_mem_cons.mp hplain
    obtain ⟨id, dest, hid, hleft', hfound⟩ := ht.scan hleft allHold_nil hmatch allHold_nil
    have hleaf : p.Yields (some (.terminal id t.position j)) [.leaf terminal t.position j] := by
      have hleaf : p.Yields (some (.terminal id t.position j)) _ := .terminal
      rw [SlotGraph.terminal, hid] at hleaf
      exact hleaf
    have hjoin := hyields.join hleaf fun f hf =>
      hfound f (List.mem_cons_of_mem _ (List.mem_cons_of_mem _ hf))
    have hspell := ih hrest (hfound _ List.mem_cons_self) rfl hleft' hjoin hfollow
    rw [List.append_assoc] at hspell
    exact hspell
  | @call name arguments notes rest k' r' children trees i j l hr' hhead hbody hspells ihbody ih =>
    intro hplain t k r collected ht hpos hleft hyields hfollow
    subst hpos
    obtain ⟨rfl, hrest⟩ := List.forall_mem_cons.mp hplain
    have hrule := List.mem_of_getElem? hr'
    have hbodyPlain := hcf.symbols r' hrule
    obtain ⟨callee, dest, hcallee, hcalleeName, hleft', hcalled, hresumes⟩ :=
      ht.call hg hleft allHold_nil (passing_none hcf name arguments _)
    have hbehind : ((FirstFollow.ofGrammar g).lookahead r.head rest).admits
        (p.input.symbolAt? j) :=
      hleft'.lookahead_admits hhonest (passes_of_spells hcf hspells hrest t.env) hfollow
    have hfollow' := follow_admits hleft hrule hhead hbehind
    have hopening : SlotGraph.base g k' ∈ p.openings ⟨callee, t.position, none⟩ :=
      base_mem_openings hg hhonest hcallee hr' (hhead.trans hcalleeName.symm)
        (passes_of_spells hcf hbody hbodyPlain t.env) hfollow'
    have hne := List.ne_nil_of_mem hopening
    -- the callee collects the trees of its body
    obtain ⟨t', ht', hcall', rfl, hleft'', hchildren⟩ :=
      ihbody hbodyPlain (.delivered (.opening (hcalled hne) hopening)) rfl (left_base hg hr')
        .nothing hfollow'
    have hcall' : t'.call = ⟨callee, t.position, none⟩ := hcall'
    have hspelled : Spells g p.input r'.body ([] ++ children) t'.call.position t'.position := by
      rw [hcall']
      exact hbody
    obtain ⟨hresult, hnode⟩ := ht'.yields_whole hg hcf hleft'' hchildren hspelled
    rw [hcall'] at hresult hnode
    -- which become one node for the caller
    have hfound := hresumes _ _ hresult allHold_nil hbehind hne
    have hjoin := hyields.join hnode fun f hf => hfound f (List.mem_cons_of_mem _ hf)
    have hspell := ih hrest (.delivered (hfound _ List.mem_cons_self)) rfl hleft' hjoin hfollow
    rw [List.append_assoc] at hspell
    exact hspell

/-- Every derivation tree of the text is yielded by the piece of the start symbol. -/
theorem yields_root {tree : DerivationTree μ} (h : g.Derivation p.input tree) :
    p.Yields (some (.nonterminal p.graph.start none 0 p.input.length)) [tree] := by
  obtain ⟨hstart, hname⟩ := nonterminalName_start_eq hg
  have hfollow := follow_start_admits hg
  unfold Grammar.Derivation at h
  cases h with
  | @call _ _ _ _ k r children _ _ j _ hr hhead hbody hrest =>
    cases hrest with
    | nil =>
      have hplain := hcf.symbols r (List.mem_of_getElem? hr)
      rw [← hhead] at hfollow
      have hopening : SlotGraph.base g k ∈ p.openings p.startKey :=
        base_mem_openings hg hhonest hstart hr (hhead.trans hname.symm)
          (passes_of_spells hcf hbody hplain (.empty p.config.environment)) hfollow
      have hcalled := Entails.start (List.ne_nil_of_mem hopening)
      obtain ⟨t, ht, hcall, hpos, hleft, hyields⟩ := Entails.spell hg hcf hhonest hbody hplain
        (.delivered (.opening hcalled hopening)) rfl (left_base hg hr) .nothing hfollow
      have hcall : t.call = p.startKey := hcall
      have hspelled : Spells g p.input r.body ([] ++ children) t.call.position t.position := by
        rw [hcall, hpos]
        exact hbody
      have hnode := (ht.yields_whole hg hcf hleft hyields hspelled).2
      rw [hcall, hpos] at hnode
      exact hnode

end

end

/-- **The trees that can be read off the root are exactly the derivation trees of the text.** -/
theorem reads_root_iff (hg : SlotGraph.ofGrammar g = .ok p.graph) (hhonest : g.Honest p.input)
    (hcf : g.IsContextFree) {fuel root : Nat} {f : Forest}
    (h : (p.parse fuel).verdict = .ok (.success root f)) (trees : List (DerivationTree μ)) :
    f.Reads p.graph (some root) trees ↔ ∃ tree, trees = [tree] ∧ g.Derivation p.input tree := by
  have hsimple := isSimple_of_isContextFree hg hcf
  obtain ⟨hstart, hname⟩ := nonterminalName_start_eq hg
  obtain ⟨log, s, -, hs, rfl, hpiece⟩ := exists_settled_of_success hg h
  have hroot : s.forest.part? (some root)
      = some (some (.nonterminal p.graph.start none 0 p.input.length)) := by
    rw [Forest.part?, hpiece, Option.map_some]
  constructor
  · intro hreads
    have hstands : p.Stands (.call g.start [] {}) 0 p.input.length
        (.nonterminal p.graph.start none 0 p.input.length) := .call hstart hname
    have hspells := (spells_of_yields hg hsimple (yields_of_reads hs hreads hroot)).symbol rfl
      hstands
    obtain ⟨tree, rfl⟩ := List.length_eq_one_iff.mp hspells.length_eq
    exact ⟨tree, rfl, hspells⟩
  · intro htree
    obtain ⟨tree, rfl, hderivation⟩ := htree
    exact reads_of_yields hs hg hsimple (yields_root hg hcf hhonest hderivation) hroot

end Parser

/-- Of two letters, the derivation tree that joins them can be read off the forest. -/
theorem reads_root_iff_chains :
    SlotGraph.ofGrammar chains = .ok (chainParser "aa" {}).graph ∧
      chains.Honest (chainParser "aa" {}).input ∧ chains.IsContextFree ∧
      ∃ root f, ((chainParser "aa" {}).parse 100).verdict = .ok (.success root f) ∧
        f.Reads (chainParser "aa" {}).graph (some root) [.node 0
          [.node 1 [.leaf (.char 'a') 0 1], .node 1 [.leaf (.char 'a') 1 2]]] := by
  have hg := ofGrammar_chains "aa" {}
  have hhonest : chains.Honest (chainParser "aa" {}).input := by
    simp [Grammar.Honest, chains, Symbol.terminals]
  have hcf : chains.IsContextFree := by
    refine ⟨?_, ?_, rfl⟩ <;> simp [chains, Symbol.IsPlain]
  obtain ⟨root, f, hv⟩ : ∃ root f,
      ((chainParser "aa" {}).parse 100).verdict = .ok (.success root f) :=
    Verdict.exists_success (by decide +kernel)
  have hletter {i : Nat} (h : (chainParser "aa" {}).input.symbolAt? i = some 'a') :
      Spells chains (chainParser "aa" {}).input [.terminal (.char 'a') {}]
        [.leaf (.char 'a') i (i + 1)] i (i + 1) :=
    .terminal (by rw [Terminal.matchAt, h, if_pos rfl]) .nil
  refine ⟨hg, hhonest, hcf, root, f, hv,
    (Parser.reads_root_iff hg hhonest hcf hv _).mpr ⟨_, rfl, ?_⟩⟩
  -- the rule for two chains, and twice the rule for a letter
  have hpair : Spells chains (chainParser "aa" {}).input [.call "S" [] {}, .call "S" [] {}]
      [.node 1 [.leaf (.char 'a') 0 1], .node 1 [.leaf (.char 'a') 1 2]] 0 2 :=
    .call (r := ⟨"S", [.terminal (.char 'a') {}], none⟩) rfl rfl (hletter (by decide +kernel))
      (.call (r := ⟨"S", [.terminal (.char 'a') {}], none⟩) rfl rfl
        (hletter (by decide +kernel)) .nil)
  exact .call (r := ⟨"S", [.call "S" [] {}, .call "S" [] {}], none⟩) rfl rfl hpair .nil

end GeneralLL
