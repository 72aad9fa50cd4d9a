import Mathlib.Logic.Relation
import GeneralLL.Proofs.Extraction

/-!
# What the ambiguity of a forest says about the text

A parse is called ambiguous if a node of its forest has several derivations
(`Report.isAmbiguous`). Such a node has several readings, and so has every node above it
(`readsTwice_iff`). **So a text with several derivation trees is called ambiguous,** and
exactly then no tree can be extracted from the root (`ambiguous_iff`).

The converse fails: the forest also keeps the nodes of rules that got stuck later, and
these are parts of no derivation of the text. A text with one derivation tree is called
ambiguous if what was given up is (`ambiguous_dead_end`).
-/

namespace GeneralLL

open SlotGraph Relation

namespace Forest

variable {μ : Type} {graph : SlotGraph μ} {f : Forest}

/-- A node is a part of one of the derivations of another. -/
def HasPart (f : Forest) (id part : Nat) : Prop :=
  ∃ (n : Node) (i : Nat) (k : Packed), f.nodes[id]? = some n ∧ i ∈ n.packed ∧
    f.packed[i]? = some k ∧ (k.left = some part ∨ k.right = part)

/-- The nodes that are met on the way down from a node, the node itself included. -/
def Under (f : Forest) : Nat → Nat → Prop := ReflTransGen f.HasPart

/-- Two different things can be read off a node. -/
def ReadsTwice (f : Forest) (graph : SlotGraph μ) (id : Nat) : Prop :=
  ∃ trees trees', f.Reads graph (some id) trees ∧ f.Reads graph (some id) trees' ∧ trees ≠ trees'

/-- No node that is met on the way down from here has several derivations. -/
def Plain (f : Forest) (id : Nat) : Prop := ∀ id', f.Under id id' → id' ∉ f.ambiguousNodes

theorem Plain.part {id part : Nat} (h : f.Plain id) (hpart : f.HasPart id part) : f.Plain part :=
  fun id' hid' => h id' (.head hpart hid')

/-- A node without several derivations has no other derivation than one that is listed. -/
theorem Plain.packed_eq {id i j : Nat} {n : Node} (h : f.Plain id) (hn : f.nodes[id]? = some n)
    (hi : i ∈ n.packed) (hj : j ∈ n.packed) : j = i := by
  have hone : ¬1 < n.packed.length := fun hlength =>
    h id .refl (mem_ambiguousNodes_iff.mpr ⟨n, hn, hlength⟩)
  obtain ⟨l, hl⟩ := List.length_eq_one_iff.mp
    (Nat.le_antisymm (Nat.le_of_not_lt hone) (List.length_pos_of_mem hi))
  rw [hl, List.mem_singleton] at hi hj
  rw [hi, hj]

/-- **Without several derivations there is one reading.** -/
theorem Plain.reads_unique {o : Option Nat} {trees : List (DerivationTree μ)}
    (h : f.Reads graph o trees) : (∀ id ∈ o, f.Plain id) →
      ∀ {trees' : List (DerivationTree μ)}, f.Reads graph o trees' → trees' = trees := by
  induction h with
  | nothing => exact fun _ _ h' => reads_none_iff.mp h'
  | terminal hn hlabel => exact fun _ _ h' => (reads_leaf_iff hn hlabel).mp h'
  | nonterminal hn hlabel hi hk _ _ ihl ihr | intermediate hn hlabel hi hk _ _ ihl ihr =>
    intro hplain trees' h'
    obtain ⟨j, k', lefts', rights', hj, hk', hl, hr, rfl⟩ :=
      (reads_inner_iff hn (by rw [hlabel]; rfl)).mp h'
    -- there is no other derivation, and what it is made of is plain too
    have hid := hplain _ rfl
    obtain rfl := hid.packed_eq hn hi hj
    obtain rfl := Option.some.inj (hk.symm.trans hk')
    have hlefts := ihl (fun l hl' => hid.part ⟨_, _, _, hn, hi, hk, Or.inl hl'⟩) hl
    have hrights := ihr (fun r hr' => hid.part ⟨_, _, _, hn, hi, hk, Or.inr (Option.some.inj hr')⟩)
      hr
    rw [hlefts, hrights, hlabel]
    rfl

end Forest

namespace Parser

variable {μ : Type} [DecidableEq μ] [Matcher μ] {p : Parser μ} {g : Grammar μ}

section

variable (hg : SlotGraph.ofGrammar g = .ok p.graph) (hsimple : g.IsSimple) {s : State}
  (hs : s.Settled p.Entails) (hf : s.forest.Founded)

include hs hf

omit [DecidableEq μ] in
/-- What can be read in two ways can be, also as a part. -/
theorem readsTwice_of_part {id part : Nat} (hpart : s.forest.HasPart id part)
    (h : s.forest.ReadsTwice p.graph part) : s.forest.ReadsTwice p.graph id := by
  obtain ⟨n, i, k, hn, hi, hk, hside⟩ := hpart
  obtain ⟨trees, trees', htrees, htrees', hne⟩ := h
  have hinner : n.span.label.isTerminal = false := by
    by_contra hleaf
    rw [hf.leaves hn (Bool.eq_true_of_not_eq_false hleaf)] at hi
    exact absurd hi List.not_mem_nil
  have hread {lefts rights : List (DerivationTree μ)} (hl : s.forest.Reads p.graph k.left lefts)
      (hr : s.forest.Reads p.graph (some k.right) rights) :
      s.forest.Reads p.graph (some id) (p.graph.gather n.span.label k.slot (lefts ++ rights)) :=
    (Forest.reads_inner_iff hn hinner).mpr ⟨i, k, lefts, rights, hi, hk, hl, hr, rfl⟩
  obtain ⟨⟨lefts, hl⟩, rights, hr⟩ := exists_readings hs hf hk
  rcases hside with hleft | rfl
  · rw [← hleft] at htrees htrees'
    exact ⟨_, _, hread htrees hr, hread htrees' hr, fun heq =>
      hne (List.append_cancel_right (gather_inj heq))⟩
  · exact ⟨_, _, hread hl htrees, hread hl htrees', fun heq =>
      hne (List.append_cancel_left (gather_inj heq))⟩

include hg hsimple

/-- **A node with several derivations can be read in several ways.** -/
theorem readsTwice_of_ambiguous {id : Nat} (hid : id ∈ s.forest.ambiguousNodes) :
    s.forest.ReadsTwice p.graph id := by
  obtain ⟨n, hn, hlength⟩ := Forest.mem_ambiguousNodes_iff.mp hid
  have hinner : n.span.label.isTerminal = false := by
    by_contra hleaf
    rw [hf.leaves hn (Bool.eq_true_of_not_eq_false hleaf)] at hlength
    exact absurd hlength (Nat.not_lt_zero 1)
  obtain ⟨i, rest, hpacked⟩ := List.exists_cons_of_length_pos (Nat.lt_trans Nat.zero_lt_one hlength)
  rw [hpacked] at hlength
  obtain ⟨j, rest', rfl⟩ := List.exists_cons_of_length_pos (Nat.lt_of_succ_lt_succ hlength)
  have hextracts : Extracts g p.input (s.forest.Reads p.graph (some id))
      (.error (.ambiguous "" 0 0)) := extracts_several hg hsimple hs hf hn hinner hpacked
  cases hextracts with
  | several htrees htrees' hne => exact ⟨_, _, htrees, htrees', hne⟩

/-- **A node can be read in two ways exactly if one with several derivations is met below it.** -/
theorem readsTwice_iff {id : Nat} : s.forest.ReadsTwice p.graph id ↔
    ∃ id' ∈ s.forest.ambiguousNodes, s.forest.Under id id' := by
  constructor
  · intro h
    obtain ⟨trees, trees', htrees, htrees', hne⟩ := h
    by_contra hnone
    have hplain : s.forest.Plain id := fun id' hunder hid' => hnone ⟨id', hid', hunder⟩
    refine hne (Forest.Plain.reads_unique htrees' (fun id' hid' => ?_) htrees)
    rwa [← Option.some.inj hid']
  · intro h
    obtain ⟨id', hid', hunder⟩ := h
    induction hunder using ReflTransGen.head_induction_on with
    | refl => exact readsTwice_of_ambiguous hg hsimple hs hf hid'
    | head hpart _ ih => exact readsTwice_of_part hs hf hpart ih

end

/-- A parse at rest is called ambiguous if its forest has a node with several derivations. -/
theorem EndsIn.isAmbiguous_iff {fuel : Nat} {log : List Descriptor} {s : State}
    (h : p.EndsIn fuel log s) : (p.parse fuel).isAmbiguous ↔ ∃ id, id ∈ s.forest.ambiguousNodes := by
  rw [h.report]
  show decide (0 < s.forest.ambiguousNodes.length) = true ↔ _
  rw [decide_eq_true_iff, List.length_pos_iff_exists_mem]

section

variable (hg : SlotGraph.ofGrammar g = .ok p.graph) (hhonest : g.Honest p.input)
  (hcf : g.IsContextFree)

include hg hhonest hcf

/-- The root can be read in two ways exactly if the text has two derivation trees. -/
theorem readsTwice_root_iff {s : State} (hs : s.Settled p.Entails) {root : Nat}
    (hroot : s.forest.part? (some root)
      = some (some (.nonterminal p.graph.start none 0 p.input.length))) :
    s.forest.ReadsTwice p.graph root ↔
      ∃ d d', g.Derivation p.input d ∧ g.Derivation p.input d' ∧ d ≠ d' := by
  have hreads {trees : List (DerivationTree μ)} : s.forest.Reads p.graph (some root) trees ↔
      ∃ d, trees = [d] ∧ g.Derivation p.input d := reads_rootSpan_iff hg hhonest hcf hs hroot
  constructor
  · intro h
    obtain ⟨trees, trees', htrees, htrees', hne⟩ := h
    obtain ⟨d, rfl, hd⟩ := hreads.mp htrees
    obtain ⟨d', rfl, hd'⟩ := hreads.mp htrees'
    exact ⟨d, d', hd, hd', fun heq => hne (by rw [heq])⟩
  · intro h
    obtain ⟨d, d', hd, hd', hne⟩ := h
    exact ⟨[d], [d'], hreads.mpr ⟨d, rfl, hd⟩, hreads.mpr ⟨d', rfl, hd'⟩, fun heq =>
      hne (List.cons.inj heq).1⟩

/-- **What the ambiguity of a forest says about the text.** The text has several derivation trees
exactly if a node with several derivations is met below the root, and exactly if no tree is
extracted. The parse is called ambiguous then, and also if such a node is met elsewhere only; every
such node can be read in two ways. -/
theorem ambiguous_iff {fuel root : Nat} {f : Forest}
    (h : (p.parse fuel).verdict = .ok (.success root f)) :
    ((p.parse fuel).isAmbiguous ↔
        (∃ d d', g.Derivation p.input d ∧ g.Derivation p.input d' ∧ d ≠ d') ∨
          ∃ id ∈ f.ambiguousNodes, ¬f.Under root id) ∧
      ((∃ d d', g.Derivation p.input d ∧ g.Derivation p.input d' ∧ d ≠ d') ↔
        ∃ id ∈ f.ambiguousNodes, f.Under root id) ∧
      ((∃ d d', g.Derivation p.input d ∧ g.Derivation p.input d' ∧ d ≠ d') ↔
        ∀ tree, f.tree p.graph p.input root ≠ .ok tree) ∧
      ∀ id ∈ f.ambiguousNodes, f.ReadsTwice p.graph id := by
  have hsimple := isSimple_of_isContextFree hg hcf
  obtain ⟨log, s, hends, hs, rfl, hpiece⟩ := exists_settled_of_success hg h
  have hf := (hends.reaches.grounded hg).built.founded
  have hseveral : (∃ d d', g.Derivation p.input d ∧ g.Derivation p.input d' ∧ d ≠ d') ↔
      ∃ id ∈ s.forest.ambiguousNodes, s.forest.Under root id := by
    rw [← readsTwice_root_iff hg hhonest hcf hs (Forest.part?_of_piece? hpiece)]
    exact readsTwice_iff hg hsimple hs hf
  refine ⟨?_, hseveral, ?_, fun id hid => readsTwice_of_ambiguous hg hsimple hs hf hid⟩
  · rw [hends.isAmbiguous_iff, hseveral, ← exists_or]
    refine exists_congr fun id => ?_
    rw [← and_or_left, and_iff_left (Classical.em _)]
  · rcases tree_cases hg hhonest hcf h with ⟨d, honly, htree⟩ |
      ⟨d, d', label, left, right, hd, hd', hne, htree⟩
    · refine iff_of_false (fun h => ?_) fun h => h _ htree
      obtain ⟨d', d'', hd', hd'', hne⟩ := h
      exact hne (((honly d').mp hd').trans ((honly d'').mp hd'').symm)
    · refine iff_of_true ⟨d, d', hd, hd', hne⟩ fun tree heq => ?_
      rw [htree] at heq
      exact absurd heq (by simp)

end

end Parser

/-! ## Examples -/

/-- Two rules, the first of which starts with a letter that is derived in two ways. -/
def deadEnd : Grammar RunMatcher where
  name := "deadEnd"
  start := "S"
  rules := [
    ⟨"S", [.call "A" [] {}, .terminal (.char 'b') {}, .terminal (.char 'c') {}], none⟩,
    ⟨"S", [.terminal (.char 'a') {}, .terminal (.char 'b') {}, .terminal (.char 'd') {}], none⟩,
    ⟨"A", [.terminal (.char 'a') {}], none⟩,
    ⟨"A", [.call "B" [] {}], none⟩,
    ⟨"B", [.terminal (.char 'a') {}], none⟩]

/-- The parser for a text of the second rule. -/
def deadEndParser : Parser RunMatcher :=
  { graph := SlotGraph.compile deadEnd, input := .ofString "abd" }

theorem ofGrammar_deadEnd : SlotGraph.ofGrammar deadEnd = .ok deadEndParser.graph :=
  SlotGraph.ofGrammar_eq_ok_iff.mpr ⟨by decide +kernel, rfl⟩

theorem honest_deadEnd (input : Input) : deadEnd.Honest input := by
  simp [Grammar.Honest, deadEnd, Symbol.terminals]

theorem isContextFree_deadEnd : deadEnd.IsContextFree := by
  refine ⟨?_, ?_, rfl⟩ <;> simp [deadEnd, Symbol.IsPlain]

/-- The parse is called ambiguous, and a tree is extracted. -/
theorem exists_tree_deadEnd : ∃ root f tree,
    (deadEndParser.parse 100).verdict = .ok (.success root f) ∧
      (deadEndParser.parse 100).isAmbiguous ∧
      f.tree deadEndParser.graph deadEndParser.input root = .ok tree := by
  obtain ⟨root, f, tree, hv, htree, -⟩ :=
    deadEndParser.exists_tree 100 (q := fun _ => true) (by decide +kernel)
  have hflag : (deadEndParser.parse 100).isAmbiguous := by decide +kernel
  exact ⟨root, f, tree, hv, hflag, htree⟩

/-- The node with several derivations is not met below the root. -/
theorem ambiguous_iff_deadEnd :
    SlotGraph.ofGrammar deadEnd = .ok deadEndParser.graph ∧
      deadEnd.Honest deadEndParser.input ∧ deadEnd.IsContextFree ∧
      ∃ root f, (deadEndParser.parse 100).verdict = .ok (.success root f) ∧
        ∃ id ∈ f.ambiguousNodes, ¬f.Under root id := by
  obtain ⟨root, f, tree, hv, hflag, htree⟩ := exists_tree_deadEnd
  have hhonest := honest_deadEnd deadEndParser.input
  obtain ⟨hambiguous, -, hseveral, -⟩ :=
    Parser.ambiguous_iff ofGrammar_deadEnd hhonest isContextFree_deadEnd hv
  refine ⟨ofGrammar_deadEnd, hhonest, isContextFree_deadEnd, root, f, hv, ?_⟩
  exact (hambiguous.mp hflag).resolve_left fun h => hseveral.mp h tree htree

/-- A run that may be empty, and does not say so. -/
def silentRun : RunMatcher :=
  { id := 0, name := "run", chars := .single 'x', least := 0, announced := true, nullable := false }

/-- A letter, or a letter behind a run. -/
def silentRuns : Grammar RunMatcher where
  name := "silentRuns"
  start := "S"
  rules := [⟨"S", [.terminal (.custom silentRun) {}, .terminal (.char 'a') {}], none⟩,
    ⟨"S", [.terminal (.char 'a') {}], none⟩]

/-- The parser for the letter alone. -/
def silentRunsParser : Parser RunMatcher :=
  { graph := SlotGraph.compile silentRuns, input := .ofString "a" }

/-- **A text with one derivation tree may be called ambiguous,** and if a matcher is not honest, a
text with two may not be. -/
theorem ambiguous_dead_end :
    (SlotGraph.ofGrammar deadEnd = .ok deadEndParser.graph ∧
      deadEnd.Honest deadEndParser.input ∧ deadEnd.IsContextFree ∧
      ∃ root f tree, (deadEndParser.parse 100).verdict = .ok (.success root f) ∧
        (deadEndParser.parse 100).isAmbiguous ∧
        (∃! d, deadEnd.Derivation deadEndParser.input d) ∧
        f.tree deadEndParser.graph deadEndParser.input root = .ok tree) ∧
    SlotGraph.ofGrammar silentRuns = .ok silentRunsParser.graph ∧ silentRuns.IsContextFree ∧
      (∃ root f, (silentRunsParser.parse 100).verdict = .ok (.success root f)) ∧
      (silentRunsParser.parse 100).isAmbiguous = false ∧
      ∃ d d', silentRuns.Derivation silentRunsParser.input d ∧
        silentRuns.Derivation silentRunsParser.input d' ∧ d ≠ d' := by
  have hhonest := honest_deadEnd deadEndParser.input
  refine ⟨⟨ofGrammar_deadEnd, hhonest, isContextFree_deadEnd, ?_⟩,
    SlotGraph.ofGrammar_eq_ok_iff.mpr ⟨by decide +kernel, rfl⟩, ?_,
    Verdict.exists_success (by decide +kernel), by decide +kernel, ?_⟩
  · obtain ⟨root, f, tree, hv, hflag, htree⟩ := exists_tree_deadEnd
    refine ⟨root, f, tree, hv, hflag, ?_, htree⟩
    rcases Parser.tree_cases ofGrammar_deadEnd hhonest isContextFree_deadEnd hv with
      ⟨d, honly, -⟩ | ⟨_, _, _, _, _, -, -, -, herror⟩
    · exact ⟨d, (honly d).mpr rfl, fun d' hd' => (honly d').mp hd'⟩
    · exact absurd (htree.symm.trans herror) (by simp)
  · refine ⟨?_, ?_, rfl⟩ <;> simp [silentRuns, Symbol.IsPlain]
  · have hletter : Spells silentRuns silentRunsParser.input [.terminal (.char 'a') {}]
        [.leaf (.char 'a') 0 1] 0 1 := .terminal (by decide +kernel) .nil
    have hboth : Spells silentRuns silentRunsParser.input
        [.terminal (.custom silentRun) {}, .terminal (.char 'a') {}]
        [.leaf (.custom silentRun) 0 0, .leaf (.char 'a') 0 1] 0 1 :=
      .terminal (by decide +kernel) hletter
    have hfirst : silentRuns.Derivation silentRunsParser.input
        (.node 0 [.leaf (.custom silentRun) 0 0, .leaf (.char 'a') 0 1]) :=
      .call (r := ⟨"S", [.terminal (.custom silentRun) {}, .terminal (.char 'a') {}], none⟩)
        rfl rfl hboth .nil
    have hsecond : silentRuns.Derivation silentRunsParser.input
        (.node 1 [.leaf (.char 'a') 0 1]) :=
      .call (r := ⟨"S", [.terminal (.char 'a') {}], none⟩) rfl rfl hletter .nil
    exact ⟨_, _, hfirst, hsecond, by simp⟩

end GeneralLL
