import GeneralLL.Proofs.Order
import GeneralLL.Proofs.Shadowing

/-!
# The representation of environments and the counts

A parse with flat environments and a parse with frames both end with an error, or they agree
in success and in everything that they build of stack nodes and of the forest
(`parse_representation`). But descriptors and edges are told apart by their environments, and
frames keep what was shadowed. **So with flat environments there may be fewer descriptors and
edges** (`representations_differ`). Where no rule declares a name twice, there are as many.
-/

namespace GeneralLL

namespace Parser

variable {μ : Type} [DecidableEq μ] [Matcher μ] {p : Parser μ} {g : Grammar μ} {c : Configuration}

section

variable (hreads : p.evaluate.ReadsByName) (hflat : c.environment = .flat)

include hreads hflat

omit [DecidableEq μ] in
/-- Both parses make the same calls. -/
theorem entails_called_iff {key : Stack.Key} :
    p.Entails (.called key) ↔ ({ p with config := c } : Parser μ).Entails (.called key) := by
  refine ⟨fun h => h.flatten hreads hflat, fun h => ?_⟩
  obtain ⟨f, hf, heq⟩ := (entails_flat_iff hreads hflat).mp h
  exact Fact.flatten_eq_called_iff.mp heq ▸ hf

omit [DecidableEq μ] in
/-- Both parses have the same forest. -/
theorem entails_forest_iff {f : Fact} (hforest : f.OfForest) :
    p.Entails f ↔ ({ p with config := c } : Parser μ).Entails f := by
  have hflatten : f.flatten = f := (Fact.flatten_eq_of_forest hforest).mpr rfl
  refine ⟨fun h => hflatten ▸ h.flatten hreads hflat, fun h => ?_⟩
  obtain ⟨f', hf', heq⟩ := (entails_flat_iff hreads hflat).mp h
  exact (Fact.flatten_eq_of_forest hforest).mp heq ▸ hf'

omit [DecidableEq μ] in
/-- The threads of the flat parse are those of the other one, flattened. -/
theorem exists_thread_of_flat {t' : Thread}
    (h : ({ p with config := c } : Parser μ).Entails (.posted t')) :
    ∃ t, p.Entails (.posted t) ∧ t.flatten = t' := by
  obtain ⟨f, hf, heq⟩ := (entails_flat_iff hreads hflat).mp h
  obtain ⟨t, rfl, hflatten⟩ := Fact.flatten_eq_posted_iff.mp heq
  exact ⟨t, hf, hflatten⟩

omit [DecidableEq μ] in
/-- The callers of the flat parse are those of the other one, flattened. -/
theorem exists_caller_of_flat {x' : Stack.Key × Caller}
    (h : ({ p with config := c } : Parser μ).Entails (.awaited x'.1 x'.2)) :
    ∃ x : Stack.Key × Caller, p.Entails (.awaited x.1 x.2) ∧ (x.1, x.2.flatten) = x' := by
  obtain ⟨f, hf, heq⟩ := (entails_flat_iff hreads hflat).mp h
  obtain ⟨caller, rfl, hflatten⟩ := Fact.flatten_eq_awaited_iff.mp heq
  exact ⟨(x'.1, caller), hf, Prod.ext rfl hflatten⟩

omit [DecidableEq μ] in
/-- A flat parse has no more descriptors and no more edges. -/
theorem counts_le {s s' : State} (hs : s.Settled p.Entails)
    (hs' : s'.Settled ({ p with config := c } : Parser μ).Entails) :
    s'.agenda.seenCount ≤ s.agenda.seenCount ∧ s'.stack.edgeCount ≤ s.stack.edgeCount := by
  have hdescriptors := hs.lists_descriptors.length_le_of_image hs'.lists_descriptors
    Thread.flatten fun t' ht' => exists_thread_of_flat hreads hflat ht'
  have hedges := hs.lists_edges.length_le_of_image hs'.lists_edges
    (fun x => (x.1, x.2.flatten)) fun x' hx' => exists_caller_of_flat hreads hflat hx'
  rw [State.Settled.length_edgesOf, State.Settled.length_edgesOf] at hedges
  exact ⟨hdescriptors, hedges⟩

/-- Where no rule declares a name twice, a flat parse has as many descriptors and edges. -/
theorem counts_eq (hg : SlotGraph.ofGrammar g = .ok p.graph)
    (hframes : p.config.environment = .frames) (hunshadowed : g.Unshadowed) {s s' : State}
    (hs : s.Settled p.Entails) (hs' : s'.Settled ({ p with config := c } : Parser μ).Entails) :
    s.agenda.seenCount = s'.agenda.seenCount ∧ s.stack.edgeCount = s'.stack.edgeCount := by
  have hdescriptors := (hs.lists_descriptors.map Thread.flatten
    (fun t ht => ht.flatten hreads hflat)
    (fun t' ht' => exists_thread_of_flat hreads hflat ht')
    fun t t' ht ht' heq => flatten_thread_inj hframes hunshadowed hg ht ht' heq).length_eq
    hs'.lists_descriptors
  have hedges := (hs.lists_edges.map (fun x => (x.1, x.2.flatten))
    (fun x hx => hx.flatten hreads hflat)
    (fun x' hx' => exists_caller_of_flat hreads hflat hx')
    fun x x' hx hx' heq => by
      obtain ⟨key, caller⟩ := x
      obtain ⟨key', caller'⟩ := x'
      obtain ⟨rfl, hflatten⟩ := Prod.mk.inj heq
      have hsame : caller = caller' :=
        flatten_caller_inj hframes hunshadowed hg hx hx' hflatten
      rw [hsame]).length_eq hs'.lists_edges
  rw [State.Settled.length_edgesOf, State.Settled.length_edgesOf] at hedges
  exact ⟨hdescriptors, hedges⟩

/-- **Frames and flat environments lead to the same answer, and flat ones to no more descriptors and
edges.** Two finished parses of one text both end with an error, or they agree in success and in the
counts of stack nodes and of the forest; and in all counts, if no rule declares a name twice. -/
theorem parse_representation (hg : SlotGraph.ofGrammar g = .ok p.graph)
    (hframes : p.config.environment = .frames) {fuel fuel' : Nat}
    (h : (p.parse fuel).verdict ≠ .ok .unfinished)
    (h' : (({ p with config := c } : Parser μ).parse fuel').verdict ≠ .ok .unfinished) :
    ((∃ e, (p.parse fuel).verdict = .error e) ∧
      ∃ e, (({ p with config := c } : Parser μ).parse fuel').verdict = .error e) ∨
    ∃ log log' s s', p.EndsIn fuel log s ∧
      ({ p with config := c } : Parser μ).EndsIn fuel' log' s' ∧
      (p.verdict s).isSuccess = (({ p with config := c } : Parser μ).verdict s').isSuccess ∧
      Statistics.ofState s = { Statistics.ofState s' with
        descriptors := s.agenda.seenCount, stackEdges := s.stack.edgeCount } ∧
      s'.agenda.seenCount ≤ s.agenda.seenCount ∧ s'.stack.edgeCount ≤ s.stack.edgeCount ∧
      (g.Unshadowed → Statistics.ofState s = Statistics.ofState s') := by
  have hg' : SlotGraph.ofGrammar g = .ok ({ p with config := c } : Parser μ).graph := hg
  rcases ends_together hg hg' (faulty_flat_iff hreads hflat) h h' with herror |
    ⟨log, log', s, s', hends, hends', hs, hs'⟩
  · exact Or.inl herror
  · obtain ⟨hdescriptors, hedges⟩ := counts_le hreads hflat hs hs'
    have hshared := hs.statistics_eq_of_forest hs' (fun _ => entails_called_iff hreads hflat)
      fun _ hforest => entails_forest_iff hreads hflat hforest
    refine Or.inr ⟨log, log', s, s', hends, hends',
      isSuccess_eq_of_settled hs hs' (entails_forest_iff hreads hflat trivial), hshared,
      hdescriptors, hedges, fun hunshadowed => ?_⟩
    obtain ⟨hdescriptors, hedges⟩ := counts_eq hreads hflat hg hframes hunshadowed hs hs'
    rw [hshared, hdescriptors, hedges]
    rfl

end

end Parser

/-- Letters that are counted: the text must have two. -/
def counting : Grammar RunMatcher where
  name := "counting"
  start := "S"
  rules :=
    [⟨"S", [.call "Count" [] ⟨some "c", [], [.expr (.binary .eq (.var "c") (.const (.int 2)))]⟩],
        none⟩,
      ⟨"Count", [.terminal (.char 'a') {}, .call "Count" [] { label := some "r" }],
        some (.binary .add (.var "r") (.const (.int 1)))⟩,
      ⟨"Count", [.terminal (.char 'a') {}], some (.const (.int 1))⟩]

/-- The parser that counts two letters. -/
def countingParser (c : Configuration) : Parser RunMatcher :=
  { graph := SlotGraph.compile counting, config := c, input := .ofString "aa" }

/-- No name is declared twice, so the counts are the same. -/
theorem parse_representation_counting :
    Expr.eval.ReadsByName ∧ SlotGraph.ofGrammar counting = .ok (countingParser {}).graph ∧
      counting.Unshadowed ∧ ((countingParser {}).parse 100).verdict ≠ .ok .unfinished ∧
      ((countingParser { environment := .flat }).parse 100).verdict ≠ .ok .unfinished ∧
      ∃ log log' s s', (countingParser {}).EndsIn 100 log s ∧
        (countingParser { environment := .flat }).EndsIn 100 log' s' ∧
        Statistics.ofState s = Statistics.ofState s' := by
  have hg : SlotGraph.ofGrammar counting = .ok (countingParser {}).graph :=
    SlotGraph.ofGrammar_eq_ok_iff.mpr ⟨by decide +kernel, rfl⟩
  have hunshadowed : counting.Unshadowed := by decide +kernel
  obtain ⟨root, f, hv⟩ : ∃ root f,
      ((countingParser {}).parse 100).verdict = .ok (.success root f) :=
    Verdict.exists_success (by decide +kernel)
  obtain ⟨root', f', hv'⟩ : ∃ root f,
      ((countingParser { environment := .flat }).parse 100).verdict = .ok (.success root f) :=
    Verdict.exists_success (by decide +kernel)
  have hfinished : ((countingParser {}).parse 100).verdict ≠ .ok .unfinished := by simp [hv]
  have hfinished' : ((countingParser { environment := .flat }).parse 100).verdict
      ≠ .ok .unfinished := by simp [hv']
  rcases Parser.parse_representation (p := countingParser {}) (c := { environment := .flat })
    Expr.readsByName_eval rfl hg rfl hfinished hfinished' with
    ⟨⟨e, he⟩, -⟩ | ⟨log, log', s, s', hends, hends', -, -, -, -, hcounts⟩
  · exact absurd (hv.symm.trans he) (by simp)
  · exact ⟨Expr.readsByName_eval, hg, hunshadowed, hfinished, hfinished', log, log', s, s', hends,
      hends', hcounts hunshadowed⟩

/-- The second symbol shadows what the first has returned. -/
def shadowing : Grammar RunMatcher where
  name := "shadowing"
  start := "S"
  rules :=
    [⟨"S", [.call "A" [] { label := some "x" }, .call "B" [] { label := some "x" },
        .terminal (.char 'c') {}], none⟩,
      ⟨"A", [.terminal (.char 'a') {}], some (.const (.int 1))⟩,
      ⟨"A", [.terminal (.char 'a') {}], some (.const (.int 2))⟩,
      ⟨"B", [.terminal (.char 'b') {}], none⟩]

/-- The parser for a text with a shadowed label. -/
def shadowingParser (c : Configuration) : Parser RunMatcher :=
  { graph := SlotGraph.compile shadowing, config := c, input := .ofString "abc" }

/-- **With frames there may be more descriptors.** -/
theorem representations_differ :
    SlotGraph.ofGrammar shadowing = .ok (shadowingParser {}).graph ∧
      ((shadowingParser {}).parse 100).verdict.toOption.any Verdict.isSuccess ∧
      ((shadowingParser { environment := .flat }).parse 100).verdict.toOption.any
        Verdict.isSuccess ∧
      ((shadowingParser {}).parse 100).statistics = ⟨8, 3, 3, 3, 3, 2, 6, 1⟩ ∧
      ((shadowingParser { environment := .flat }).parse 100).statistics
        = ⟨7, 3, 3, 3, 3, 2, 6, 1⟩ :=
  ⟨SlotGraph.ofGrammar_eq_ok_iff.mpr ⟨by decide +kernel, rfl⟩, by decide +kernel,
    by decide +kernel, by decide +kernel, by decide +kernel⟩

end GeneralLL
