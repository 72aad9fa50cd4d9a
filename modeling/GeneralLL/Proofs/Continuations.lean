import GeneralLL.Proofs.Run

/-!
# No continuation is lost or duplicated

A caller and a result of its call may come in any order, and either may be the later one.
**Whenever both are there, the caller has its continuation on the agenda,** unless the
conditions on the call or what comes next reject it; and every descriptor that goes on
behind something is the continuation of such a pair (`continuations_exact`). At the end
of a parse every accepted descriptor has been delivered, and none twice.
-/

namespace GeneralLL

namespace Forest

/-- **What is in a forest is found again** and nothing is added. -/
theorem Wf.getNode_eq {f : Forest} (hf : f.Wf) {slot node right : Nat} {a left : Option Nat}
    {values : Option (List Value)} {l : Option Piece} {r : Piece}
    (ha : f.argumentsAt? a = some values) (hleft : f.part? left = some l)
    (hright : f.piece? right = some r) (hnode : f.piece? node = some (.join slot values l r))
    (hcovers : ∀ fact ∈ Piece.joinFacts slot values l r, f.Covers fact) :
    f.getNode slot a left right = (node, f) := by
  rcases part?_eq_some_iff.mp hleft with ⟨rfl, rfl⟩ | ⟨id, w, rfl, rfl, hid⟩
  · rw [hf.piece?_inj hnode hright, getNode]
  · have hspan : f.pieceOf? ⟨.intermediate slot a, (f.get id).span.left, (f.get right).span.right⟩
        = some (.join slot values (some w) r) := by
      refine pieceOf?_eq_some_iff.mpr ⟨a, ha, ?_⟩
      rw [(extents_of_piece? hid).1, (extents_of_piece? hright).2]
    have hlookup := (hf.lookup_of_piece? hspan).mpr hnode
    unfold getNode intermediate find
    dsimp only
    rw [hlookup]
    dsimp only
    -- the derivation is there as well
    have hpacking := hcovers _ (List.mem_cons_of_mem _ (List.mem_singleton_self _))
    obtain ⟨d', ⟨i, k, hk, hd'⟩, hkey⟩ : ∃ d', f.Shows (.packing d') ∧
        d'.key = (Piece.join slot values (some w) r, slot, w.right) := by
      rcases hpacking with hshows | ⟨d, d', hd, hkey, hshows⟩
      · exact ⟨_, hshows, rfl⟩
      · obtain rfl := Fact.packing.inj hd
        exact ⟨d', hshows, hkey⟩
    obtain ⟨hparent, hslot, hpivot, -, -⟩ := packing?_eq_some_iff.mp hd'
    obtain ⟨hkparent, hkslot, hkpivot⟩ : d'.parent = .join slot values (some w) r ∧
        d'.slot = slot ∧ d'.pivot = w.right := by
      simpa [Packing.key] using hkey
    rw [hkparent] at hparent
    have hmeet : f.pivot (some id) right = w.right := pivot_eq hleft hright
    rcases f.addPacked_cases node slot (some id) right with ⟨j, -, -, -, -, -, hadd⟩ | ⟨hnew, -⟩
    · rw [hadd]
    · exact absurd ((hpivot.trans hkpivot).trans hmeet.symm)
        (hnew hk (hf.piece?_inj hparent hnode) (hslot.trans hkslot))

end Forest

namespace Parser

/-- A move that can only end in one way ends in this way. -/
theorem eq_ok_of_ends {α : Type} {m : Move α} {s : State} {a : α}
    (h : Ends m s (fun b s' => b = a ∧ s' = s) fun _ => False) : m s = .ok a s := by
  unfold Ends at h
  cases hm : m s with
  | ok b s' =>
    rw [hm] at h
    obtain ⟨rfl, rfl⟩ := h
    rfl
  | error e s' =>
    rw [hm] at h
    exact h.elim

/-- The number of a call's arguments is found again as well. -/
theorem ends_callArguments_known {s : State} {id : Nat} {key : Stack.Key} {a : Option Nat}
    (hkey : s.stack.call? id = some key) (ha : s.forest.argumentsAt? a = some key.arguments) :
    Ends (callArguments id) s (fun b s' => b = a ∧ s' = s) fun _ => False := by
  obtain ⟨n, hn, rfl⟩ := Stack.call?_eq_some_iff.mp hkey
  unfold callArguments
  refine ends_bind (ends_get ?_)
  rw [Stack.get_eq hn]
  cases hvalues : n.key.arguments with
  | none =>
    rw [hvalues] at ha
    have hnone : s.forest.argumentsAt? none = some none := rfl
    exact ends_pure ⟨(Forest.argumentsAt?_inj ha hnone).symm, rfl⟩
  | some values =>
    rw [hvalues] at ha
    cases a with
    | none => exact absurd ha (by simp [Forest.argumentsAt?])
    | some i =>
      obtain ⟨vs, hvs, heq⟩ := Option.map_eq_some_iff.mp ha
      obtain rfl := Option.some.inj heq
      have hintern : s.forest.internArguments vs = (i, s.forest) := by
        rw [Forest.internArguments, Numbering.insert_of_find? (Numbering.find?_eq_some_iff.mpr hvs)]
      dsimp only
      rw [map_eq_pure_bind]
      refine ends_bind (ends_onForest (ends_pure ?_))
      rw [hintern]
      exact ⟨rfl, rfl⟩

/-- The node of what a caller had recognised, followed by a result. -/
def partNode (dest : Nat) (e : Stack.Edge) (q : Stack.Popped) : Move Nat := do
  let arguments ← callArguments e.dest
  onForest (·.getNode dest arguments e.node q.node)

variable {μ : Type} [Matcher μ] {p : Parser μ} {g : Grammar μ}

/-- The caller behind an edge goes on at `dest` with a result: the conditions on the call hold,
and what comes next is admitted. -/
structure GoesOn (p : Parser μ) (v : Stack.Node) (e : Stack.Edge) (q : Stack.Popped) (dest : Nat)
    (env : Environment) : Prop where
  /-- The caller waits for the call. -/
  edge : e ∈ v.edges
  /-- The call has produced the result. -/
  result : q ∈ v.popped
  /-- The conditions on the call hold in the environment that the result makes. -/
  accepted : ∃ callee arguments notes,
    (p.graph.slot e.call).action = .call callee arguments notes dest ∧
      env = notes.bindReturn q.value q.right e.env ∧ p.AllHold notes.post v.key.position q.right env
  /-- The next character is one that the place behind the call admits. -/
  admitted : (p.graph.slot dest).lookahead.admits (p.input.symbolAt? q.right)

/-- What a caller that goes on leads to. -/
theorem GoesOn.resume_eq {v : Stack.Node} {e : Stack.Edge} {q : Stack.Popped} {dest : Nat}
    {env : Environment} {c : Caller} (h : p.GoesOn v e q dest env) (hslot : e.call = c.slot)
    (henv : e.env = c.env) :
    p.resume v.key c q.right q.value = .ok (resumeFacts v.key c q.right dest env) := by
  obtain ⟨callee, arguments, notes, haction, rfl, hpost⟩ := h.accepted
  rw [resume, ← hslot, haction]
  dsimp only
  rw [← henv, resumed_eq_some_iff.mpr ⟨rfl, hpost, h.admitted⟩]
  rfl

/-- What a coherent state knows of a forest is in its forest. -/
theorem State.Covers.forest {s : State} {f : Fact} (h : s.Covers f) (hf : f.OfForest) :
    s.forest.Covers f := by
  cases f with
  | piece w => exact Or.inl (h.shows (by simp))
  | packing d =>
    rcases h with h | ⟨d₀, d', heq, hkey, h⟩
    · exact Or.inl h
    · exact Or.inr ⟨d₀, d', heq, hkey, h⟩
  | called _ | posted _ | passed _ | awaited _ _ | result _ _ _ => exact False.elim hf

/-- **A caller that goes on has its continuation on the agenda,** and all that this continuation
needs is in the forest. -/
theorem Coherent.continuation {s : State} (hs : p.Coherent s) {id : Nat} {v : Stack.Node}
    {e : Stack.Edge} {q : Stack.Popped} {dest : Nat} {env : Environment} {c : Caller}
    (hv : s.stack.nodes[id]? = some v) (h : p.GoesOn v e q dest env)
    (hc : s.caller? e = some c) :
    ∃ node, partNode dest e q s = .ok node s ∧
      ⟨dest, q.right, e.dest, some node, env⟩ ∈ s.agenda.seen.toList ∧
      s.thread? ⟨dest, q.right, e.dest, some node, env⟩ = some ⟨dest, q.right, c.call,
        some (.join dest c.call.arguments c.part (resultPiece v.key q.right)), env⟩ := by
  obtain ⟨hcall, hslot, hpart, henv⟩ := State.caller?_eq_some_iff.mp hc
  have hedge := (hs.wf.stack.hasEdge_iff hv).mpr h.edge
  have hresult := (hs.wf.stack.hasResult_iff hv).mpr h.result
  obtain ⟨facts, hresume, hfacts⟩ := hs.met ⟨e, hedge, hc⟩ ⟨q, hresult, rfl, rfl⟩
  obtain rfl := Except.ok.inj (hresume.symm.trans (h.resume_eq hslot henv))
  rw [resumeFacts, List.forall_mem_cons] at hfacts
  -- a descriptor that stands for the thread is the continuation
  obtain ⟨⟨slot, position, stackNode, forestNode, env'⟩, hd, ht⟩ := hfacts.1.shows (by simp)
  obtain ⟨hdest, hpos, hstack, hforest, henv'⟩ := State.thread?_eq_some_iff.mp ht
  obtain rfl : slot = dest := hdest
  obtain rfl : position = q.right := hpos
  obtain rfl : env' = env := henv'
  obtain rfl : stackNode = e.dest := hs.wf.stack.keys hstack hcall
  rcases Forest.part?_eq_some_iff.mp hforest with ⟨-, hnone⟩ | ⟨node, w, rfl, hw, hnode⟩
  · exact absurd hnone (by simp)
  obtain rfl := Option.some.inj hw
  -- its arguments have a number, so making the node again finds it
  obtain ⟨t, ht', hnumbered⟩ := hs.wf.seen hd
  obtain rfl := Option.some.inj (ht.symm.trans ht')
  obtain ⟨a, ha⟩ := hnumbered.resolve_left (by simp)
  refine ⟨node, ?_, hd, ht⟩
  have hget := hs.wf.forest.getNode_eq ha hpart (hs.wf.results hresult) hnode
    fun f hf => (hfacts.2 f hf).forest (Piece.ofForest_joinFacts hf)
  refine eq_ok_of_ends (ends_bind ((ends_callArguments_known hcall ha).imp ?_ fun _ h => h))
  intro _ _ hsame
  obtain ⟨rfl, rfl⟩ := hsame
  refine ends_onForest ?_
  rw [hget]
  exact ⟨rfl, rfl⟩

/-- **A descriptor that goes on behind something is a continuation.** -/
theorem Coherent.continuation_of_seen {s : State} (hs : p.Coherent s) {d : Descriptor}
    (hd : d ∈ s.agenda.seen.toList) (hnode : d.forestNode ≠ none) :
    ∃ (id : Nat) (v : Stack.Node) (e : Stack.Edge) (q : Stack.Popped) (node : Nat),
      s.stack.nodes[id]? = some v ∧ p.GoesOn v e q d.slot d.env ∧
      partNode d.slot e q s = .ok node s ∧
      d = ⟨d.slot, q.right, e.dest, some node, d.env⟩ := by
  obtain ⟨t, ht, -⟩ := hs.wf.seen hd
  obtain ⟨hslot, -, -, hpart, henv⟩ := State.thread?_eq_some_iff.mp ht
  rcases hs.origin ⟨d, hd, ht⟩ with ⟨key, slot, -, -, rfl⟩ | ⟨key, c, _, _, hc, hresult, hresumes⟩
  · rcases Forest.part?_eq_some_iff.mp hpart with ⟨hnone, -⟩ | ⟨node, w, -, hw, -⟩
    · exact absurd hnone hnode
    · exact absurd hw (by simp [opening])
  obtain ⟨e, ⟨id, v, hv, rfl, he⟩, hc⟩ := hc
  obtain ⟨q, ⟨id', v', hv', hkey, hq⟩, rfl, rfl⟩ := hresult
  obtain rfl := hs.wf.stack.node_eq hv hv' hkey
  obtain ⟨-, hcslot, -, hcenv⟩ := State.caller?_eq_some_iff.mp hc
  cases haction : (p.graph.slot c.slot).action with
  | call callee arguments notes dest =>
    -- the thread is what the caller leads to with the result
    obtain ⟨env, hresumed, hf⟩ := (resumesTo_iff haction).mp hresumes
    obtain ⟨rfl, hpost, hadmits⟩ := resumed_eq_some_iff.mp hresumed
    rcases List.mem_cons.mp hf with hposted | hf
    · obtain rfl := Fact.posted.inj hposted
      have hgoes : p.GoesOn v' e q d.slot d.env := by
        rw [hslot, henv, ← hcenv]
        rw [← hcenv] at hpost
        exact ⟨he, hq, ⟨callee, arguments, notes, hcslot ▸ haction, rfl, hpost⟩, hadmits⟩
      obtain ⟨node, hpartNode, -, hthread⟩ := hs.continuation hv hgoes hc
      refine ⟨id, v', e, q, node, hv, hgoes, hpartNode, ?_⟩
      rw [hslot, henv] at hthread ⊢
      exact hs.wf.thread?_inj ht hthread
    · exact (Piece.ofForest_joinFacts hf).elim
  | scan | branch | complete =>
    obtain ⟨facts, hresume, hf⟩ := hresumes
    rw [resume, haction] at hresume
    obtain rfl := Except.ok.inj hresume
    exact absurd hf List.not_mem_nil

/-- **No continuation is lost and none is made up;** a parse that comes to an end has delivered
every accepted descriptor exactly once. -/
theorem continuations_exact [DecidableEq μ] (hg : SlotGraph.ofGrammar g = .ok p.graph) :
    (∀ log s, p.Reaches log s →
      (∀ (id : Nat) (v : Stack.Node) (e : Stack.Edge) (q : Stack.Popped) (dest : Nat)
          (env : Environment), s.stack.nodes[id]? = some v → p.GoesOn v e q dest env →
        ∃ node, partNode dest e q s = .ok node s ∧
          ⟨dest, q.right, e.dest, some node, env⟩ ∈ s.agenda.seen.toList) ∧
      ∀ d ∈ s.agenda.seen.toList, d.forestNode ≠ none →
        ∃ (id : Nat) (v : Stack.Node) (e : Stack.Edge) (q : Stack.Popped) (node : Nat),
          s.stack.nodes[id]? = some v ∧ p.GoesOn v e q d.slot d.env ∧
          partNode d.slot e q s = .ok node s ∧
          d = ⟨d.slot, q.right, e.dest, some node, d.env⟩) ∧
    ∀ fuel v, (p.parse fuel).verdict = .ok v → v ≠ .unfinished →
      ∃ log s, p.EndsIn fuel log s ∧ log.Nodup ∧ ∀ d, d ∈ log ↔ d ∈ s.agenda.seen.toList := by
  refine ⟨fun log s hreaches => ?_, fun fuel v hv hfinished => ?_⟩
  · obtain ⟨ran, hreached⟩ := hreaches.reached hg
    have hs := hreached.coherent
    refine ⟨fun id v e q dest env hnode hgoes => ?_, fun d hd => hs.continuation_of_seen hd⟩
    obtain ⟨c, hc⟩ := hs.wf.callers ((hs.wf.stack.hasEdge_iff hnode).mpr hgoes.edge)
    obtain ⟨node, hpartNode, hd, -⟩ := hs.continuation hnode hgoes hc
    exact ⟨node, hpartNode, hd⟩
  · rcases parse_cases hg fuel with ⟨log, s, hends⟩ | h | ⟨e, h, -⟩
    · obtain ⟨ran, hreached⟩ := hends.reaches.reached hg
      have hqueued := hreached.queued
      rw [hends.atRest.2, List.append_nil] at hqueued
      exact ⟨log, s, hends, hqueued.nodup_iff.mp s.agenda.seen.nodup,
        fun d => hqueued.symm.mem_iff⟩
    · exact absurd (Except.ok.inj (hv.symm.trans h)) hfinished
    · exact absurd (hv.symm.trans h) (by simp)

end Parser

/-- Two letters are parsed, and each of the descriptors was delivered once. -/
theorem continuations_exact_chains :
    SlotGraph.ofGrammar chains = .ok (chainParser "aa" {}).graph ∧
      ∃ log s, (chainParser "aa" {}).EndsIn 100 log s ∧ log.Nodup ∧
        ∀ d, d ∈ log ↔ d ∈ s.agenda.seen.toList := by
  have hg := ofGrammar_chains "aa" {}
  obtain ⟨root, forest, hv⟩ : ∃ root forest,
      ((chainParser "aa" {}).parse 100).verdict = .ok (.success root forest) :=
    Verdict.exists_success (by decide +kernel)
  exact ⟨hg, (Parser.continuations_exact hg).2 100 _ hv (by simp)⟩

end GeneralLL
