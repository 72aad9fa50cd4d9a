import GeneralLL.Proofs.Building
import GeneralLL.Proofs.Trees

/-!
# Extraction decides whether a text has one derivation

From the forest of a text of a context-free grammar either the only derivation tree is
extracted, or the text has several and a node is reported as ambiguous (`tree_eq_ok_iff`).
That a node is part of itself is never reported.

* **Every node has a reading** (`exists_reads`), for its first derivation is made of nodes
  with smaller numbers (`Forest.Founded`).
* **Different derivations of a node have different readings** (`gather_ne`): whole rules
  are rules of their own, and parts of a rule that are cut at different places differ in
  where the last symbol starts (`Spells.start_eq`).
* So extraction goes down from node to node with a single derivation, along smaller and
  smaller numbers, and if it stops at a node with several, all nodes above have several
  readings as well (`extracts_partTrees`).
-/

namespace GeneralLL

open SlotGraph

/-! ## Derivation trees with texts -/

namespace DerivationTree

variable {μ : Type}

/-- The name of the nonterminal that a rule derives. -/
def nameOf (g : Grammar μ) (rule : Nat) : String := g.rules[rule]?.elim "" Rule.head

mutual

/-- The tree with the texts that its terminals matched, and with names of nonterminals. -/
def render (g : Grammar μ) (input : Input) : DerivationTree μ → ParseTree
  | leaf t left right =>
    if t.isEpsilon then .leaf ParseTree.epsilonLeaf else .leaf (input.substring left right)
  | node rule children => .ofName (nameOf g rule) (renders g input children)

/-- The parse trees of several derivation trees. -/
def renders (g : Grammar μ) (input : Input) : List (DerivationTree μ) → List ParseTree
  | [] => []
  | t :: rest => t.render g input :: renders g input rest

end

theorem renders_append (g : Grammar μ) (input : Input) (trees trees' : List (DerivationTree μ)) :
    renders g input (trees ++ trees') = renders g input trees ++ renders g input trees' := by
  induction trees with
  | nil => rw [renders, List.nil_append, List.nil_append]
  | cons t rest ih => rw [List.cons_append, renders, renders, ih, List.cons_append]

end DerivationTree

open DerivationTree

/-- **Where a tree starts is known from the tree,** whatever it derives. -/
theorem Spells.start_eq {μ : Type} [Matcher μ] {g : Grammar μ} {input : Input}
    {symbols : List (Symbol μ)} {trees : List (DerivationTree μ)} {i j : Nat}
    (h : Spells g input symbols trees i j) :
    ∀ {symbols' : List (Symbol μ)} {t : DerivationTree μ} {rest rest' : List (DerivationTree μ)}
      {i' j' : Nat}, trees = t :: rest → Spells g input symbols' (t :: rest') i' j' → i = i' := by
  induction h with
  | nil =>
    intro _ t rest _ _ _ htrees
    exact absurd htrees (List.cons_ne_nil t rest).symm
  | terminal _ _ =>
    intro _ t rest _ _ _ htrees h'
    obtain ⟨rfl, -⟩ := List.cons.inj htrees
    cases h' with
    | terminal => rfl
  | @call name _ _ _ rule r children _ i j _ hr _ hbody _ ih _ =>
    intro _ t rest _ i' _ htrees h'
    obtain ⟨rfl, -⟩ := List.cons.inj htrees
    generalize hnode : DerivationTree.node rule (orEmpty i children) = t at h'
    cases h' with
    | terminal => exact absurd hnode (by simp)
    | @call _ _ _ _ _ r' children' _ _ _ _ hr' _ hbody' _ =>
      obtain ⟨rfl, hchildren⟩ := DerivationTree.node.inj hnode
      obtain rfl := Option.some.inj (hr.symm.trans hr')
      -- both derive the body of the same rule, so they are both empty or none is
      have hlength := hbody.length_eq.trans hbody'.length_eq.symm
      cases children with
      | nil =>
        obtain rfl := List.length_eq_zero_iff.mp hlength.symm
        simp [orEmpty] at hchildren
        exact hchildren
      | cons c cs =>
        cases children' with
        | nil => exact absurd hlength (by simp)
        | cons c' cs' =>
          rw [orEmpty_of_ne_nil (List.cons_ne_nil c cs),
            orEmpty_of_ne_nil (List.cons_ne_nil c' cs')] at hchildren
          obtain ⟨rfl, -⟩ := List.cons.inj hchildren
          exact ih rfl hbody'

/-! ## Readings of a node -/

section

variable {μ : Type}

/-- What a node makes of the trees of its parts. -/
def SlotGraph.gather (graph : SlotGraph μ) (label : Forest.Label) (slot : Nat)
    (trees : List (DerivationTree μ)) : List (DerivationTree μ) :=
  match label with
  | .nonterminal .. => [.node (graph.slot slot).rule trees]
  | _ => trees

theorem SlotGraph.gather_inj {graph : SlotGraph μ} {label : Forest.Label} {slot : Nat}
    {trees trees' : List (DerivationTree μ)}
    (h : graph.gather label slot trees = graph.gather label slot trees') : trees = trees' := by
  cases label with
  | nonterminal => exact (DerivationTree.node.inj (List.cons.inj h).1).2
  | terminal | intermediate => exact h

namespace Forest

variable {graph : SlotGraph μ} {f : Forest}

theorem reads_none_iff {trees : List (DerivationTree μ)} :
    f.Reads graph none trees ↔ trees = [] := by
  constructor
  · intro h
    cases h with
    | nothing => rfl
  · rintro rfl
    exact .nothing

theorem reads_leaf_iff {id t : Nat} {n : Node} {trees : List (DerivationTree μ)}
    (hn : f.nodes[id]? = some n) (hlabel : n.span.label = .terminal t) :
    f.Reads graph (some id) trees ↔
      trees = [.leaf (graph.terminal t) n.span.left n.span.right] := by
  constructor
  · intro h
    cases h with
    | terminal hn' hlabel' =>
      obtain rfl := Option.some.inj (hn.symm.trans hn')
      obtain rfl := Label.terminal.inj (hlabel.symm.trans hlabel')
      rfl
    | nonterminal hn' hlabel' | intermediate hn' hlabel' =>
      obtain rfl := Option.some.inj (hn.symm.trans hn')
      exact absurd (hlabel.symm.trans hlabel') (by simp)
  · rintro rfl
    exact .terminal hn hlabel

/-- **A node is read by choosing one of its derivations** and reading its parts. -/
theorem reads_inner_iff {id : Nat} {n : Node} {trees : List (DerivationTree μ)}
    (hn : f.nodes[id]? = some n) (hinner : n.span.label.isTerminal = false) :
    f.Reads graph (some id) trees ↔
      ∃ i k lefts rights, i ∈ n.packed ∧ f.packed[i]? = some k ∧ f.Reads graph k.left lefts ∧
        f.Reads graph (some k.right) rights ∧
        trees = graph.gather n.span.label k.slot (lefts ++ rights) := by
  constructor
  · intro h
    cases h with
    | terminal hn' hlabel =>
      obtain rfl := Option.some.inj (hn.symm.trans hn')
      rw [hlabel] at hinner
      exact absurd hinner (by simp [Label.isTerminal])
    | nonterminal hn' hlabel hi hk hl hr | intermediate hn' hlabel hi hk hl hr =>
      obtain rfl := Option.some.inj (hn.symm.trans hn')
      exact ⟨_, _, _, _, hi, hk, hl, hr, by rw [hlabel]; rfl⟩
  · intro h
    obtain ⟨i, k, lefts, rights, hi, hk, hl, hr, rfl⟩ := h
    cases hlabel : n.span.label with
    | terminal => exact absurd hinner (by simp [hlabel, Label.isTerminal])
    | nonterminal => exact .nonterminal hn hlabel hi hk hl hr
    | intermediate => exact .intermediate hn hlabel hi hk hl hr

/-- **Every node has a reading.** -/
theorem Founded.exists_reads (hf : f.Founded) {id : Nat} (hid : id < f.size) :
    ∃ trees, f.Reads graph (some id) trees := by
  induction id using Nat.strongRecOn with
  | ind id ih =>
    have hn := Array.getElem?_eq_getElem hid
    cases hlabel : f.nodes[id].span.label with
    | terminal t => exact ⟨_, (reads_leaf_iff hn hlabel).mpr rfl⟩
    | nonterminal | intermediate =>
      have hinner : f.nodes[id].span.label.isTerminal = false := by rw [hlabel]; rfl
      obtain ⟨i, rest, k, hpacked, hk, hright, hleft⟩ := hf.first hn hinner
      obtain ⟨rights, hrights⟩ := ih k.right hright (Nat.lt_trans hright hid)
      have hi : i ∈ f.nodes[id].packed := by
        rw [hpacked]
        exact List.mem_cons_self
      obtain ⟨lefts, hlefts⟩ : ∃ lefts, f.Reads graph k.left lefts := by
        cases hl : k.left with
        | none => exact ⟨[], .nothing⟩
        | some l =>
          have hlt := hleft l (Option.mem_def.mpr hl)
          exact ih l hlt (Nat.lt_trans hlt hid)
      exact ⟨_, (reads_inner_iff hn hinner).mpr ⟨i, k, lefts, rights, hi, hk, hlefts, hrights, rfl⟩⟩

/-! ## Extraction at a node -/

variable [Matcher μ] {input : Input} {path : List Nat} {id : Nat} {n : Node}

/-- What a part of a derivation puts into the tree above it. -/
def partTrees (f : Forest) (graph : SlotGraph μ) (input : Input) (path : List Nat) :
    Option Nat → Except TreeError (List ParseTree)
  | none => .ok []
  | some id => f.splice graph input id (f.childTrees graph input path id)

/-- A node off the path extracts what the parts of its only derivation do. -/
theorem childTrees_eq (hn : f.nodes[id]? = some n) (hpath : id ∉ path) :
    f.childTrees graph input path id = match n.packed with
      | [] => .ok []
      | [i] => do
        let lefts ← f.partTrees graph input (id :: path) (f.getPacked i).left
        let rights ← f.partTrees graph input (id :: path) (some (f.getPacked i).right)
        return lefts ++ rights
      | _ => .error (.ambiguous (n.span.label.name graph) n.span.left n.span.right) := by
  rw [childTrees]
  split
  · rename_i hnone
    exact absurd (hn.symm.trans hnone) (by simp)
  · rename_i n' hn'
    obtain rfl := Option.some.inj (hn.symm.trans hn')
    rw [dif_neg hpath]
    rcases n.packed with _ | ⟨i, _ | ⟨j, rest⟩⟩
    · rfl
    · dsimp only
      cases (f.getPacked i).left <;> rfl
    · rfl

omit [Matcher μ] in
theorem getPacked_eq {i : Nat} {k : Packed} (hk : f.packed[i]? = some k) : f.getPacked i = k := by
  rw [getPacked, hk, Option.getD_some]

omit [Matcher μ] in
/-- A path that goes down to smaller and smaller numbers may go on with a smaller one. -/
theorem below_cons {id' : Nat} (hlt : id' < id) (hbelow : ∀ id'' ∈ path, id < id'') :
    ∀ id'' ∈ id :: path, id' < id'' := by
  intro id'' hid''
  rcases List.mem_cons.mp hid'' with rfl | hid''
  · exact hlt
  · exact Nat.lt_trans hlt (hbelow id'' hid'')

theorem splice_leaf {t : Nat} {children : Except TreeError (List ParseTree)}
    (hn : f.nodes[id]? = some n) (hlabel : n.span.label = .terminal t) :
    f.splice graph input id children
      = .ok [leafTree graph input t n.span.left n.span.right] := by
  rw [splice, get, hn, Option.getD_some, hlabel]

theorem splice_error {e : TreeError} (hn : f.nodes[id]? = some n)
    (hinner : n.span.label.isTerminal = false) :
    f.splice graph input id (.error e) = .error e := by
  rw [splice, get, hn, Option.getD_some]
  cases hlabel : n.span.label with
  | terminal => exact absurd hinner (by simp [hlabel, Label.isTerminal])
  | nonterminal | intermediate => rfl

/-- **A node renders what it makes of the trees of its parts,** if its name is that of the rule. -/
theorem splice_renders {g : Grammar μ} {slot : Nat} {trees : List (DerivationTree μ)}
    (hn : f.nodes[id]? = some n) (hinner : n.span.label.isTerminal = false)
    (hname : ∀ a arguments, n.span.label = .nonterminal a arguments →
      graph.nonterminalName a = nameOf g (graph.slot slot).rule) :
    f.splice graph input id (.ok (renders g input trees))
      = .ok (renders g input (graph.gather n.span.label slot trees)) := by
  rw [splice, get, hn, Option.getD_some]
  cases hlabel : n.span.label with
  | terminal => exact absurd hinner (by simp [hlabel, Label.isTerminal])
  | nonterminal a arguments =>
    show Except.ok [ParseTree.ofName (graph.nonterminalName a) _] = _
    rw [hname a arguments hlabel]
    rfl
  | intermediate => rfl

/-- What a node of a nonterminal puts into the tree above it is its own tree. -/
theorem partTrees_eq_tree {a : Nat} {arguments : Option Nat} (hn : f.nodes[id]? = some n)
    (hlabel : n.span.label = .nonterminal a arguments) :
    f.partTrees graph input [] (some id) = (f.tree graph input id).map ([·]) := by
  rw [partTrees, splice, tree, get, hn, Option.getD_some, hlabel]
  cases f.childTrees graph input [] id <;> rfl

end Forest

/-! ## Extraction and readings -/

/-- What extraction has to do with readings: the only reading is extracted, and if there are
several then some node is reported as ambiguous. -/
inductive Extracts (g : Grammar μ) (input : Input) (reading : List (DerivationTree μ) → Prop) :
    Except TreeError (List ParseTree) → Prop where
  | only {trees : List (DerivationTree μ)} :
      (∀ trees', reading trees' ↔ trees' = trees) →
      Extracts g input reading (.ok (renders g input trees))
  | several {trees trees' : List (DerivationTree μ)} {label : String} {left right : Nat} :
      reading trees → reading trees' → trees ≠ trees' →
      Extracts g input reading (.error (.ambiguous label left right))

variable {g : Grammar μ} {input : Input} {reading reading' : List (DerivationTree μ) → Prop}

/-- Two parts are read one behind the other. -/
theorem Extracts.append {lefts rights : Except TreeError (List ParseTree)}
    (hleft : Extracts g input reading lefts) (hright : Extracts g input reading' rights)
    (hexists : ∃ trees, reading' trees) :
    Extracts g input (fun trees => ∃ l r, reading l ∧ reading' r ∧ trees = l ++ r)
      (do
        let lefts ← lefts
        let rights ← rights
        return lefts ++ rights) := by
  cases hleft with
  | several hl hl' hne =>
    obtain ⟨r, hr⟩ := hexists
    refine .several ⟨_, r, hl, hr, rfl⟩ ⟨_, r, hl', hr, rfl⟩ fun heq => ?_
    exact hne (List.append_cancel_right heq)
  | @only l hl =>
    have hself := (hl l).mpr rfl
    cases hright with
    | several hr hr' hne =>
      refine .several ⟨l, _, hself, hr, rfl⟩ ⟨l, _, hself, hr', rfl⟩ fun heq => ?_
      exact hne (List.append_cancel_left heq)
    | @only r hr =>
      show Extracts g input _ (.ok (renders g input l ++ renders g input r))
      rw [← renders_append]
      refine .only fun trees => ?_
      constructor
      · intro h
        obtain ⟨l', r', hl', hr', rfl⟩ := h
        rw [(hl l').mp hl', (hr r').mp hr']
      · intro h
        exact ⟨l, r, hself, (hr r).mpr rfl, h⟩

/-- A node gathers what its parts read. -/
theorem Extracts.gather [Matcher μ] {graph : SlotGraph μ} {f : Forest} {id slot : Nat}
    {n : Forest.Node} {children : Except TreeError (List ParseTree)}
    (hn : f.nodes[id]? = some n) (hinner : n.span.label.isTerminal = false)
    (hname : ∀ a arguments, n.span.label = .nonterminal a arguments →
      graph.nonterminalName a = nameOf g (graph.slot slot).rule)
    (h : Extracts g input reading children) :
    Extracts g input (fun trees => ∃ inner, reading inner ∧
      trees = graph.gather n.span.label slot inner) (f.splice graph input id children) := by
  cases h with
  | several htrees htrees' hne =>
    rw [Forest.splice_error hn hinner]
    exact .several ⟨_, htrees, rfl⟩ ⟨_, htrees', rfl⟩ fun heq => hne (gather_inj heq)
  | @only inner hinner' =>
    rw [Forest.splice_renders hn hinner hname]
    refine .only fun trees => ?_
    constructor
    · intro h
      obtain ⟨inner', hreading, rfl⟩ := h
      rw [(hinner' inner').mp hreading]
    · intro h
      exact ⟨inner, (hinner' inner).mpr rfl, h⟩

end

namespace Parser

variable {μ : Type} [DecidableEq μ] [Matcher μ] {p : Parser μ} {g : Grammar μ}

section

variable (hg : SlotGraph.ofGrammar g = .ok p.graph) (hsimple : g.IsSimple) {s : State}
  (hs : s.Settled p.Entails)

include hg hsimple hs

/-- What the right part of a part of a rule reads starts at the pivot. -/
theorem spells_right {id : Nat} {symbol : Symbol μ} {pivot right : Nat} {w : Piece}
    {trees : List (DerivationTree μ)} (hw : p.Stands symbol pivot right w)
    (hid : s.forest.piece? id = some w) (h : s.forest.Reads p.graph (some id) trees) :
    ∃ t, trees = [t] ∧ Spells g p.input [symbol] [t] pivot right := by
  have hyields := yields_of_reads hs h (show _ = some (some w) by
    rw [Forest.part?, hid, Option.map_some])
  have hspells := (spells_of_yields hg hsimple hyields).symbol rfl hw
  obtain ⟨t, rfl⟩ := List.length_eq_one_iff.mp hspells.length_eq
  exact ⟨t, rfl, hspells⟩

/-- **Different derivations of a node have different readings.** -/
theorem gather_ne {id i j : Nat} {n : Forest.Node} {k k' : Forest.Packed}
    {lefts rights lefts' rights' : List (DerivationTree μ)} (hn : s.forest.nodes[id]? = some n)
    (hi : i ∈ n.packed) (hj : j ∈ n.packed) (hij : i ≠ j) (hk : s.forest.packed[i]? = some k)
    (hk' : s.forest.packed[j]? = some k') (hrights : s.forest.Reads p.graph (some k.right) rights)
    (hrights' : s.forest.Reads p.graph (some k'.right) rights') :
    p.graph.gather n.span.label k.slot (lefts ++ rights)
      ≠ p.graph.gather n.span.label k'.slot (lefts' ++ rights') := by
  obtain ⟨w, hw⟩ := hs.wf.forest.pieces hn
  obtain ⟨l, d, hl, hread, hd, hparent⟩ := hs.exists_packing_of_listed hn hw hi
  obtain ⟨l', d', hl', hread', hd', hparent'⟩ := hs.exists_packing_of_listed hn hw hj
  obtain rfl := Option.some.inj (hk.symm.trans hl)
  obtain rfl := Option.some.inj (hk'.symm.trans hl')
  have hkeys : d.key ≠ d'.key := fun heq => hij (hs.packed_inj hk hk' hread hread' heq)
  obtain ⟨-, hslot, -, -, hright⟩ := Forest.packing?_eq_some_iff.mp hread
  obtain ⟨-, hslot', -, -, hright'⟩ := Forest.packing?_eq_some_iff.mp hread'
  have hplaced : p.Placed g d := inPlace_of_entails hg hsimple hd
  have hplaced' : p.Placed g d' := inPlace_of_entails hg hsimple hd'
  subst hparent
  intro hgather
  cases hplaced with
  | @whole m left right r part hr hpart =>
    obtain ⟨_, -, hspan⟩ := Forest.pieceOf?_eq_some_iff.mp hw
    cases hplaced' with
    | join => exact absurd hparent' (by simp)
    | @whole m' left' right' r' part' hr' hpart' =>
      -- rules are numbered, so two derivations by one rule are one
      rw [hspan] at hgather
      have hrules := (DerivationTree.node.inj (List.cons.inj hgather).1).1
      rw [hslot, hslot', (slot_at hg hr (Nat.le_refl _)).2.1,
        (slot_at hg hr' (Nat.le_refl _)).2.1] at hrules
      subst hrules
      obtain rfl := Option.some.inj (hr.symm.trans hr')
      obtain ⟨-, -, rfl, rfl⟩ := Piece.nonterminal.inj hparent'
      exact hkeys rfl
  | @join m c left pivot right r symbol part v hr hsymbol _ hpart hv =>
    obtain ⟨_, -, hspan⟩ := Forest.pieceOf?_eq_some_iff.mp hw
    cases hplaced' with
    | whole => exact absurd hparent' (by simp)
    | @join m' c' left' pivot' right' r' symbol' part' v' hr' hsymbol' _ hpart' hv' =>
      -- the last trees are the same, so they start at the same place
      rw [hspan] at hgather
      obtain ⟨t, rfl, ht⟩ := spells_right hg hsimple hs hv hright hrights
      obtain ⟨t', rfl, ht'⟩ := spells_right hg hsimple hs hv' hright' hrights'
      obtain ⟨-, hlast⟩ := List.append_inj' (gather_inj hgather) rfl
      obtain ⟨hslots, -, rfl, rfl⟩ := Piece.intermediate.inj hparent'
      rw [← hlast] at ht'
      obtain rfl := ht.start_eq rfl ht'
      exact hkeys (by rw [Packing.key, Packing.key, hslots])

/-- A whole rule has the name of its nonterminal. -/
theorem nonterminalName_eq_nameOf {id i a : Nat} {arguments : Option Nat} {n : Forest.Node}
    {k : Forest.Packed} (hn : s.forest.nodes[id]? = some n) (hi : i ∈ n.packed)
    (hk : s.forest.packed[i]? = some k) (hlabel : n.span.label = .nonterminal a arguments) :
    p.graph.nonterminalName a = nameOf g (p.graph.slot k.slot).rule := by
  obtain ⟨w, hw⟩ := hs.wf.forest.pieces hn
  obtain ⟨l, d, hl, hread, hd, rfl⟩ := hs.exists_packing_of_listed hn hw hi
  obtain rfl := Option.some.inj (hk.symm.trans hl)
  obtain ⟨-, hslot, -⟩ := Forest.packing?_eq_some_iff.mp hread
  have hplaced : p.Placed g d := inPlace_of_entails hg hsimple hd
  cases hplaced with
  | join =>
    obtain ⟨_, -, hspan⟩ := Forest.pieceOf?_eq_some_iff.mp hw
    rw [hspan] at hlabel
    exact absurd hlabel (by simp)
  | whole hr =>
    obtain ⟨_, -, hspan⟩ := Forest.pieceOf?_eq_some_iff.mp hw
    rw [hspan] at hlabel
    obtain ⟨rfl, -⟩ := Forest.Label.nonterminal.inj hlabel
    rw [hslot, (slot_at hg hr (Nat.le_refl _)).2.1, (nonterminalName_head hg hr).2, nameOf, hr]
    rfl

/-- The readings of a node with one derivation are those of its parts. -/
theorem extracts_one {id i : Nat} {n : Forest.Node} {k : Forest.Packed}
    {lefts rights : Except TreeError (List ParseTree)} (hn : s.forest.nodes[id]? = some n)
    (hinner : n.span.label.isTerminal = false) (hpacked : n.packed = [i])
    (hk : s.forest.packed[i]? = some k)
    (hleft : Extracts g p.input (s.forest.Reads p.graph k.left) lefts)
    (hright : Extracts g p.input (s.forest.Reads p.graph (some k.right)) rights)
    (hexists : ∃ trees, s.forest.Reads p.graph (some k.right) trees) :
    Extracts g p.input (s.forest.Reads p.graph (some id))
      (s.forest.splice p.graph p.input id do
        let lefts ← lefts
        let rights ← rights
        return lefts ++ rights) := by
  have hi : i ∈ n.packed := by
    rw [hpacked]
    exact List.mem_singleton_self i
  have hreads : s.forest.Reads p.graph (some id) = fun trees => ∃ inner,
      (∃ l r, s.forest.Reads p.graph k.left l ∧ s.forest.Reads p.graph (some k.right) r ∧
        inner = l ++ r) ∧ trees = p.graph.gather n.span.label k.slot inner := by
    funext trees
    rw [Forest.reads_inner_iff hn hinner, hpacked]
    refine propext ⟨fun h => ?_, fun h => ?_⟩
    · obtain ⟨j, k', l, r, hj, hk', hl, hr, htrees⟩ := h
      obtain rfl := List.mem_singleton.mp hj
      obtain rfl := Option.some.inj (hk.symm.trans hk')
      exact ⟨_, ⟨l, r, hl, hr, rfl⟩, htrees⟩
    · obtain ⟨_, ⟨l, r, hl, hr, rfl⟩, htrees⟩ := h
      exact ⟨i, k, l, r, List.mem_singleton_self i, hk, hl, hr, htrees⟩
  rw [hreads]
  exact (hleft.append hright hexists).gather hn hinner fun a arguments hlabel =>
    nonterminalName_eq_nameOf hg hsimple hs hn hi hk hlabel

omit [DecidableEq μ] hg hsimple in
/-- The parts of a derivation have readings. -/
theorem exists_readings (hf : s.forest.Founded) {i : Nat} {k : Forest.Packed}
    (hk : s.forest.packed[i]? = some k) :
    (∃ trees, s.forest.Reads p.graph k.left trees) ∧
      ∃ trees, s.forest.Reads p.graph (some k.right) trees := by
  obtain ⟨d, hread⟩ := hs.wf.forest.packings hk
  obtain ⟨-, -, -, hleft, hright⟩ := Forest.packing?_eq_some_iff.mp hread
  refine ⟨?_, hf.exists_reads (Forest.lt_size_of_piece? hright)⟩
  rcases Forest.part?_eq_some_iff.mp hleft with ⟨hl, -⟩ | ⟨l, w, hl, -, hw⟩
  · rw [hl]
    exact ⟨[], .nothing⟩
  · rw [hl]
    exact hf.exists_reads (Forest.lt_size_of_piece? hw)

/-- A node with several derivations has several readings. -/
theorem extracts_several (hf : s.forest.Founded) {id i j : Nat} {rest : List Nat}
    {n : Forest.Node} {label : String} {left right : Nat} (hn : s.forest.nodes[id]? = some n)
    (hinner : n.span.label.isTerminal = false) (hpacked : n.packed = i :: j :: rest) :
    Extracts g p.input (s.forest.Reads p.graph (some id))
      (.error (.ambiguous label left right)) := by
  have hi : i ∈ n.packed := by
    rw [hpacked]
    exact List.mem_cons_self
  have hj : j ∈ n.packed := by
    rw [hpacked]
    exact List.mem_cons_of_mem _ List.mem_cons_self
  have hij : i ≠ j := by
    have hnodup := (hs.wf.forest.lists hn).1
    rw [hpacked] at hnodup
    intro heq
    rw [heq] at hnodup
    exact (List.nodup_cons.mp hnodup).1 List.mem_cons_self
  obtain ⟨k, hk, -⟩ := ((hs.wf.forest.lists hn).2 i).mp hi
  obtain ⟨k', hk', -⟩ := ((hs.wf.forest.lists hn).2 j).mp hj
  obtain ⟨⟨lefts, hl⟩, rights, hr⟩ := exists_readings hs hf hk
  obtain ⟨⟨lefts', hl'⟩, rights', hr'⟩ := exists_readings hs hf hk'
  exact .several ((Forest.reads_inner_iff hn hinner).mpr ⟨i, k, lefts, rights, hi, hk, hl, hr, rfl⟩)
    ((Forest.reads_inner_iff hn hinner).mpr ⟨j, k', lefts', rights', hj, hk', hl', hr', rfl⟩)
    (gather_ne hg hsimple hs hn hi hj hij hk hk' hr hr')

/-- **What is extracted at a node has to do with its readings.** A path leads down to the node along
smaller and smaller numbers, so the node is not on it. -/
theorem extracts_partTrees (hf : s.forest.Founded) {id : Nat} (hid : id < s.forest.size) :
    ∀ {path : List Nat}, (∀ id' ∈ path, id < id') →
      Extracts g p.input (s.forest.Reads p.graph (some id))
        (s.forest.partTrees p.graph p.input path (some id)) := by
  induction id using Nat.strongRecOn with
  | ind id ih =>
    intro path hbelow
    have hpath : id ∉ path := fun h => Nat.lt_irrefl id (hbelow id h)
    have hn := Array.getElem?_eq_getElem hid
    generalize s.forest.nodes[id] = n at hn
    show Extracts g p.input _ (s.forest.splice p.graph p.input id _)
    cases hlabel : n.span.label with
    | terminal t =>
      have hleaf : Extracts g p.input (s.forest.Reads p.graph (some id)) (.ok (renders g p.input
          [.leaf (p.graph.terminal t) n.span.left n.span.right])) :=
        .only fun trees => Forest.reads_leaf_iff hn hlabel
      rw [Forest.splice_leaf hn hlabel]
      exact hleaf
    | nonterminal | intermediate =>
      have hinner : n.span.label.isTerminal = false := by
        rw [hlabel]
        rfl
      obtain ⟨i, rest, k, hpacked, hk, hright, hleft⟩ := hf.first hn hinner
      cases rest with
      | nil =>
        -- both parts have smaller numbers than the node, which is the last of the path now
        have hpart {id' : Nat} (hlt : id' < id) :
            Extracts g p.input (s.forest.Reads p.graph (some id'))
              (s.forest.partTrees p.graph p.input (id :: path) (some id')) :=
          ih id' hlt (Nat.lt_trans hlt hid) (Forest.below_cons hlt hbelow)
        have hlefts : Extracts g p.input (s.forest.Reads p.graph k.left)
            (s.forest.partTrees p.graph p.input (id :: path) k.left) := by
          cases hl : k.left with
          | none =>
            have hnothing : Extracts g p.input (s.forest.Reads p.graph none)
                (.ok (renders g p.input [])) := .only fun _ => Forest.reads_none_iff
            exact hnothing
          | some l => exact hpart (hleft l (Option.mem_def.mpr hl))
        rw [Forest.childTrees_eq hn hpath, hpacked]
        dsimp only
        rw [Forest.getPacked_eq hk]
        exact extracts_one hg hsimple hs hn hinner hpacked hk hlefts (hpart hright)
          (exists_readings hs hf hk).2
      | cons j rest =>
        rw [Forest.childTrees_eq hn hpath, hpacked, Forest.splice_error hn hinner]
        exact extracts_several hg hsimple hs hf hn hinner hpacked

end

section

variable (hg : SlotGraph.ofGrammar g = .ok p.graph) (hhonest : g.Honest p.input)
  (hcf : g.IsContextFree)

include hg hhonest hcf

/-- What can be read off the root of a parse at rest are the derivation trees of the text. -/
theorem reads_rootSpan_iff {s : State} (hs : s.Settled p.Entails) {root : Nat}
    (hroot : s.forest.part? (some root)
      = some (some (.nonterminal p.graph.start none 0 p.input.length)))
    {trees : List (DerivationTree μ)} :
    s.forest.Reads p.graph (some root) trees ↔
      ∃ d, trees = [d] ∧ g.Derivation p.input d := by
  have hsimple := isSimple_of_isContextFree hg hcf
  obtain ⟨hstart, hname⟩ := nonterminalName_start_eq hg
  constructor
  · intro hreads
    have hstands : p.Stands (.call g.start [] {}) 0 p.input.length
        (.nonterminal p.graph.start none 0 p.input.length) := .call hstart hname
    have hsound := spells_of_yields hg hsimple (yields_of_reads hs hreads hroot)
    have hspells := hsound.symbol rfl hstands
    obtain ⟨d, rfl⟩ := List.length_eq_one_iff.mp hspells.length_eq
    exact ⟨d, rfl, hspells⟩
  · intro h
    obtain ⟨d, rfl, hd⟩ := h
    exact reads_of_yields hs hg hsimple (yields_root hg hcf hhonest hd) hroot

/-- **Either the only derivation tree is extracted, or there are several** and a node is reported
as ambiguous. -/
theorem tree_cases {fuel root : Nat} {f : Forest}
    (h : (p.parse fuel).verdict = .ok (.success root f)) :
    (∃ d, (∀ d', g.Derivation p.input d' ↔ d' = d) ∧
        f.tree p.graph p.input root = .ok (d.render g p.input)) ∨
      ∃ d d' label left right, g.Derivation p.input d ∧ g.Derivation p.input d' ∧ d ≠ d' ∧
        f.tree p.graph p.input root = .error (.ambiguous label left right) := by
  have hsimple := isSimple_of_isContextFree hg hcf
  obtain ⟨log, s, hends, hs, rfl, hpiece⟩ := exists_settled_of_success hg h
  have hf := (hends.reaches.grounded hg).built.founded
  have hroot : s.forest.part? (some root)
      = some (some (.nonterminal p.graph.start none 0 p.input.length)) := by
    rw [Forest.part?, hpiece, Option.map_some]
  obtain ⟨n, hn, hpieceOf⟩ := Forest.piece?_eq_some_iff.mp hpiece
  obtain ⟨a, -, hnode⟩ := Forest.pieceOf?_eq_some_iff.mp hpieceOf
  have hextracts := extracts_partTrees hg hsimple hs hf (Forest.lt_size_of_piece? hpiece)
    fun id' hid' => absurd hid' List.not_mem_nil
  rw [Forest.partTrees_eq_tree hn (by rw [hnode])] at hextracts
  have hreads {trees : List (DerivationTree μ)} : s.forest.Reads p.graph (some root) trees ↔
      ∃ d, trees = [d] ∧ g.Derivation p.input d := reads_rootSpan_iff hg hhonest hcf hs hroot
  generalize hanswer : (s.forest.tree p.graph p.input root).map ([·]) = answer at hextracts
  cases hextracts with
  | @only trees honly =>
    obtain ⟨d, rfl, hd⟩ := hreads.mp ((honly trees).mpr rfl)
    refine Or.inl ⟨d, fun d' => ⟨fun hd' => ?_, fun heq => heq ▸ hd⟩, ?_⟩
    · have hsame := (honly [d']).mp (hreads.mpr ⟨d', rfl, hd'⟩)
      exact (List.cons.inj hsame).1
    · cases htree : s.forest.tree p.graph p.input root with
      | error => exact absurd (htree ▸ hanswer) (by simp [Except.map])
      | ok tree =>
        rw [htree] at hanswer
        obtain ⟨rfl, -⟩ := List.cons.inj (Except.ok.inj hanswer)
        rfl
  | @several trees trees' label left right htrees htrees' hne =>
    obtain ⟨d, rfl, hd⟩ := hreads.mp htrees
    obtain ⟨d', rfl, hd'⟩ := hreads.mp htrees'
    refine Or.inr ⟨d, d', label, left, right, hd, hd', fun heq => hne (by rw [heq]), ?_⟩
    cases htree : s.forest.tree p.graph p.input root with
    | error =>
      rw [htree] at hanswer
      rw [Except.error.inj hanswer]
    | ok => exact absurd (htree ▸ hanswer) (by simp [Except.map])

/-- **Extraction decides whether a text has one derivation.** A tree is extracted exactly if it is
that of the only derivation of the text; and if the text has several derivations, extraction reports
a node as ambiguous. -/
theorem tree_eq_ok_iff {fuel root : Nat} {f : Forest}
    (h : (p.parse fuel).verdict = .ok (.success root f)) :
    (∀ tree, f.tree p.graph p.input root = .ok tree ↔
        ∃ d, (∀ d', g.Derivation p.input d' ↔ d' = d) ∧ tree = d.render g p.input) ∧
      ((¬∃! d, g.Derivation p.input d) → ∃ label left right,
        f.tree p.graph p.input root = .error (.ambiguous label left right)) := by
  rcases tree_cases hg hhonest hcf h with ⟨d, honly, htree⟩ |
    ⟨d, d', label, left, right, hd, hd', hne, htree⟩
  · refine ⟨fun tree => ?_, fun hseveral => ?_⟩
    · rw [htree]
      constructor
      · intro heq
        obtain rfl := Except.ok.inj heq
        exact ⟨d, honly, rfl⟩
      · intro hother
        obtain ⟨d', honly', rfl⟩ := hother
        rw [(honly' d).mp ((honly d).mpr rfl)]
    · exact absurd ⟨d, (honly d).mpr rfl, fun d' hd' => (honly d').mp hd'⟩ hseveral
  · refine ⟨fun tree => ?_, fun _ => ⟨label, left, right, htree⟩⟩
    rw [htree]
    constructor
    · intro heq
      exact absurd heq (by simp)
    · intro honly
      obtain ⟨d'', honly, -⟩ := honly
      exact absurd (((honly d).mp hd).trans ((honly d').mp hd').symm) hne

end

end Parser

/-- The empty text is one empty chain and two of them, so no tree is extracted for it. -/
theorem tree_eq_ok_iff_chains :
    SlotGraph.ofGrammar chains = .ok (chainParser "" {}).graph ∧
      chains.Honest (chainParser "" {}).input ∧ chains.IsContextFree ∧
      ∃ root f, ((chainParser "" {}).parse 100).verdict = .ok (.success root f) ∧
        ∃ label left right, f.tree (chainParser "" {}).graph (chainParser "" {}).input root
          = .error (.ambiguous label left right) := by
  have hg := ofGrammar_chains "" {}
  have hhonest : chains.Honest (chainParser "" {}).input := by
    simp [Grammar.Honest, chains, Symbol.terminals]
  have hcf : chains.IsContextFree := by
    refine ⟨?_, ?_, rfl⟩ <;> simp [chains, Symbol.IsPlain]
  obtain ⟨root, f, hv⟩ : ∃ root f,
      ((chainParser "" {}).parse 100).verdict = .ok (.success root f) :=
    Verdict.exists_success (by decide +kernel)
  refine ⟨hg, hhonest, hcf, root, f, hv, (Parser.tree_eq_ok_iff hg hhonest hcf hv).2 ?_⟩
  have hempty : chains.Derivation (chainParser "" {}).input (.node 2 [.leaf .epsilon 0 0]) :=
    .call (r := ⟨"S", [], none⟩) rfl rfl .nil .nil
  have hpair : chains.Derivation (chainParser "" {}).input
      (.node 0 [.node 2 [.leaf .epsilon 0 0], .node 2 [.leaf .epsilon 0 0]]) :=
    .call (r := ⟨"S", [.call "S" [] {}, .call "S" [] {}], none⟩) rfl rfl
      (.call (r := ⟨"S", [], none⟩) rfl rfl .nil (.call (r := ⟨"S", [], none⟩) rfl rfl .nil .nil))
      .nil
  intro honly
  exact absurd (honly.unique hempty hpair) (by simp)

end GeneralLL
