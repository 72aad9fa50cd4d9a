import GeneralLL.Proofs.Extraction

/-!
# Extraction never goes around in circles

A cyclic grammar derives a text from itself, and its forest has nodes that are parts of
themselves. Yet the first derivation of a node is made of nodes with smaller numbers
(`Forest.Founded`), and a node is gone into only if it has no other derivation. **So
extraction goes down along smaller and smaller numbers**; it ends with a tree, or at a node
with several derivations (`forest_acyclic`), for every grammar and from every node.
-/

namespace GeneralLL

open SlotGraph

namespace Forest

variable {μ : Type} [Matcher μ] {graph : SlotGraph μ} {input : Input} {f : Forest}

/-- An answer that is no error, or an error that names a node with several derivations. -/
inductive Answers {α : Type} (graph : SlotGraph μ) (f : Forest) : Except TreeError α → Prop where
  | ok (a : α) : Answers graph f (.ok a)
  | ambiguous {n : Node} : n ∈ f.nodes → n.isAmbiguous →
      Answers graph f (.error (.ambiguous (n.span.label.name graph) n.span.left n.span.right))

section

variable {α β : Type} {x : Except TreeError α}

theorem Answers.bind {next : α → Except TreeError β} (h : Answers graph f x)
    (hnext : ∀ a, Answers graph f (next a)) : Answers graph f (x >>= next) := by
  cases h with
  | ok a => exact hnext a
  | ambiguous hn hambiguous => exact .ambiguous hn hambiguous

theorem Answers.map (h : Answers graph f x) (next : α → β) : Answers graph f (x.map next) := by
  cases h with
  | ok a => exact .ok (next a)
  | ambiguous hn hambiguous => exact .ambiguous hn hambiguous

end

theorem Answers.splice {children : Except TreeError (List ParseTree)}
    (h : Answers graph f children) (id : Nat) :
    Answers graph f (f.splice graph input id children) := by
  unfold Forest.splice
  dsimp only
  split
  · exact .ok _
  · exact h.map _
  · exact h

/-- **The children of a node are found, or several derivations are.** A path leads down to the node
along smaller and smaller numbers, so the node is not on it. -/
theorem Founded.answers_childTrees (hf : f.Founded) {id : Nat} (hid : id < f.size) :
    ∀ {path : List Nat}, (∀ id' ∈ path, id < id') →
      Answers graph f (f.childTrees graph input path id) := by
  induction id using Nat.strongRecOn with
  | ind id ih =>
    intro path hbelow
    have hpath : id ∉ path := fun h => Nat.lt_irrefl id (hbelow id h)
    have hn := Array.getElem?_eq_getElem hid
    generalize f.nodes[id] = n at hn
    rw [childTrees_eq hn hpath]
    cases hleaf : n.span.label.isTerminal with
    | true =>
      rw [hf.leaves hn hleaf]
      exact .ok []
    | false =>
      obtain ⟨i, rest, k, hpacked, hk, hright, hleft⟩ := hf.first hn hleaf
      cases rest with
      | cons j rest =>
        have hambiguous : n.isAmbiguous = true := by simp [Node.isAmbiguous, hpacked]
        rw [hpacked]
        exact .ambiguous (Array.mem_of_getElem? hn) hambiguous
      | nil =>
        -- the only derivation is the first, so both parts are below this node and the path
        have hpart {id' : Nat} (hlt : id' < id) :
            Answers graph f (f.partTrees graph input (id :: path) (some id')) :=
          (ih id' hlt (Nat.lt_trans hlt hid) (below_cons hlt hbelow)).splice id'
        have hlefts : Answers graph f (f.partTrees graph input (id :: path) k.left) := by
          cases hl : k.left with
          | none => exact .ok []
          | some l => exact hpart (hleft l (Option.mem_def.mpr hl))
        rw [hpacked]
        dsimp only
        rw [getPacked_eq hk]
        exact hlefts.bind fun lefts => (hpart hright).bind fun rights => .ok (lefts ++ rights)

/-- **A tree is extracted from a node, or several derivations are found.** -/
theorem Founded.answers_tree (hf : f.Founded) {id : Nat} (hid : id < f.size) :
    Answers graph f (f.tree graph input id) := by
  have hchildren : Answers graph f (f.childTrees graph input [] id) :=
    hf.answers_childTrees hid fun _ h => absurd h List.not_mem_nil
  unfold tree
  dsimp only
  split
  · exact .ok _
  · exact hchildren.map _

/-- **A forest in which nothing goes around in circles:** the first derivation of a node is made of
nodes with smaller numbers, every node has a finite reading, and extraction from any node, for any
graph and text, ends with a tree or at a node with several derivations. -/
structure Acyclic (μ : Type) [Matcher μ] (f : Forest) : Prop where
  /-- A first derivation leads to smaller numbers only, so to follow first derivations comes to an
  end. -/
  first : ∀ {id : Nat} {n : Node}, f.nodes[id]? = some n → n.span.label.isTerminal = false →
    ∃ i rest k, n.packed = i :: rest ∧ f.packed[i]? = some k ∧ k.right < id ∧
      ∀ l ∈ k.left, l < id
  /-- Every node stands for something. -/
  reads : ∀ (graph : SlotGraph μ) {id : Nat}, id < f.size → ∃ trees, f.Reads graph (some id) trees
  /-- Extraction never runs into a cycle: where it fails, a node has several derivations. -/
  extracts : ∀ (graph : SlotGraph μ) (input : Input) {id : Nat}, id < f.size →
    (∃ tree, f.tree graph input id = .ok tree) ∨
      ∃ n, n ∈ f.nodes ∧ n.isAmbiguous ∧ f.tree graph input id
        = .error (.ambiguous (n.span.label.name graph) n.span.left n.span.right)

theorem Founded.acyclic (hf : f.Founded) : Acyclic μ f := by
  refine ⟨hf.first, fun graph _ hid => hf.exists_reads hid, fun graph input id hid => ?_⟩
  have hanswers : Answers graph f (f.tree graph input id) := hf.answers_tree hid
  generalize f.tree graph input id = answer at hanswers
  cases hanswers with
  | ok tree => exact Or.inl ⟨tree, rfl⟩
  | @ambiguous n hn hambiguous => exact Or.inr ⟨n, hn, hambiguous, rfl⟩

end Forest

namespace Parser

variable {μ : Type} [DecidableEq μ] [Matcher μ] {p : Parser μ} {g : Grammar μ}

/-- **No forest of a parse makes extraction go around in circles,** in any state of the parse and in
its answer. -/
theorem forest_acyclic (hg : SlotGraph.ofGrammar g = .ok p.graph) :
    (∀ log s, p.Reaches log s → s.forest.Acyclic μ) ∧
      ∀ fuel root f, (p.parse fuel).verdict = .ok (.success root f) → f.Acyclic μ := by
  have hreaches {log : List Descriptor} {s : State} (h : p.Reaches log s) :
      s.forest.Acyclic μ := (h.grounded hg).built.founded.acyclic
  refine ⟨fun log s h => hreaches h, fun fuel root f h => ?_⟩
  obtain ⟨log, s, hends, -, rfl⟩ := endsIn_of_success hg h
  exact hreaches hends.reaches

end Parser

/-- The empty text is a chain of chains that are the same chain again, and still extraction ends:
with the several derivations of a node. -/
theorem forest_acyclic_chains :
    SlotGraph.ofGrammar chains = .ok (chainParser "" {}).graph ∧
      ∃ root f, ((chainParser "" {}).parse 100).verdict = .ok (.success root f) ∧
        Forest.Acyclic RunMatcher f := by
  have hg := ofGrammar_chains "" {}
  obtain ⟨root, f, hv⟩ : ∃ root f,
      ((chainParser "" {}).parse 100).verdict = .ok (.success root f) :=
    Verdict.exists_success (by decide +kernel)
  exact ⟨hg, root, f, hv, (Parser.forest_acyclic hg).2 100 root f hv⟩

end GeneralLL
