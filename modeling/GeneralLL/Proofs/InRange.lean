import GeneralLL.Proofs.Careful
import GeneralLL.Proofs.Compilation
import GeneralLL.Proofs.Furthest

/-!
# Numbers always stand for something

No parse of a grammar that was compiled takes a thing that is not there. Numbers in actions are
those of something because of the way in which grammars are compiled (`inRange_action`), numbers of
slots in threads and callers because these are on track (`Entails.slot_lt`), and numbers of nodes
because the states of a parse are well-formed.

So move by move the careful parser sees what the parser sees, and **it gives the same reports**
(`careful_parse`).
-/

namespace GeneralLL

open SlotGraph

namespace SlotGraph

/-- A slot that awaits something is there. -/
theorem Awaits.lt {μ : Type} [Matcher μ] {graph : SlotGraph μ} {sets : FirstFollow} {o : Owner μ}
    {id : Nat} {symbols : List (Symbol μ)} (h : Awaits graph sets o id symbols) :
    id < graph.slots.size := by
  cases h with
  | complete hslot | scan hslot | call hslot | ifThen hslot | ifThenElse hslot =>
    exact (Array.getElem?_eq_some_iff.mp hslot).1

end SlotGraph

namespace Parser

/-! ## Things of the graph -/

section

variable {μ : Type} {p : Parser μ}

theorem getElem?_slots {id : Nat} (h : id < p.graph.slots.size) :
    p.graph.slots[id]? = some (p.graph.slot id) := by
  rw [SlotGraph.slot, Array.getElem?_eq_getElem h, Option.getD_some]

theorem getElem?_nonterminals {id : Nat} (h : id < p.graph.nonterminals.size) :
    p.graph.nonterminals[id]? = some (p.graph.nonterminal id) := by
  rw [SlotGraph.nonterminal, Array.getElem?_eq_getElem h, Option.getD_some]

theorem get?_terminals {id : Nat} (h : id < p.graph.terminals.size) :
    p.graph.terminals.get? id = some (p.graph.terminal id) := by
  rw [SlotGraph.terminal, Numbering.get?, Array.getElem?_eq_getElem h, Option.getD_some]

end

section

variable {μ : Type} [DecidableEq μ] [Matcher μ] {p : Parser μ} {g : Grammar μ}
  (hg : SlotGraph.ofGrammar g = .ok p.graph)

include hg

/-- The graph of a parser keeps to its grammar. -/
theorem preserves_graph : p.graph.Preserves g := by
  rw [← compile_eq hg]
  exact preserves_compile (closed_of_ofGrammar hg)

theorem inRange_action {id : Nat} (h : id < p.graph.slots.size) :
    p.graph.InRange (p.graph.slot id).action := ((preserves_graph hg).inRange id h).1

theorem lt_of_mem_firstSlots {i id : Nat} (hi : i < p.graph.nonterminals.size)
    (h : id ∈ (p.graph.nonterminal i).firstSlots) : id < p.graph.slots.size := by
  have hpreserves := preserves_graph hg
  rw [hpreserves.firstSlots i hi] at h
  obtain ⟨⟨r, k⟩, hmem, rfl⟩ := List.mem_map.mp h
  have hr := List.mk_mem_zipIdx_iff_getElem?.mp (List.mem_filter.mp hmem).1
  exact ((hpreserves.rule k r hr).lies 0 (Nat.zero_le _)).lt

theorem Entails.slot_lt {t : Thread} (h : p.Entails (.passed t)) :
    t.slot < p.graph.slots.size := by
  obtain ⟨-, k, r, symbols, hleft, -⟩ := meant_of_entails hg h
  exact hleft.awaits.lt

theorem Entails.caller_lt {key : Stack.Key} {c : Caller} (h : p.Entails (.awaited key c)) :
    c.slot < p.graph.slots.size := by
  obtain ⟨-, k, r, name, arguments, notes, rest, hleft, -⟩ := meant_of_entails hg h
  exact hleft.awaits.lt

theorem Entails.callee_lt {key : Stack.Key} (h : p.Entails (.called key)) :
    key.nonterminal < p.graph.nonterminals.size := meant_of_entails hg h

omit hg [DecidableEq μ] [Matcher μ] in
theorem admitted_eq (next : Option Char) {slots : List Nat}
    (h : ∀ id ∈ slots, id < p.graph.slots.size) : Careful.admitted p next slots
      = pure (slots.filter fun id => (p.graph.slot id).lookahead.admits next) := by
  induction slots with
  | nil => rfl
  | cons id rest ih =>
    obtain ⟨hid, hrest⟩ := List.forall_mem_cons.mp h
    rw [Careful.admitted, Careful.slot, getElem?_slots hid, ih hrest, List.filter_cons]
    rfl

/-! ## Moves -/

theorem sees_create {s : State} {callee : Nat} {values : Option (List Value)} {position : Nat}
    (hcallee : callee < p.graph.nonterminals.size) :
    Sees (Careful.create p callee values position) (p.create callee values position) s := by
  unfold Careful.create create
  refine sees_getLeft (sees_getRight ?_)
  dsimp only
  cases s.stack.find? ⟨callee, position, values⟩ with
  | some id => exact sees_pure _
  | none =>
    refine sees_demand (getElem?_nonterminals hcallee) ?_
    rw [admitted_eq _ fun id => lt_of_mem_firstSlots hg hcallee, pure_bind]
    dsimp only
    split
    · exact sees_pure _
    · refine sees_bind (sees_plain _) (ends_onStack ?_)
      refine sees_bind (sees_forM fun slot s => sees_plain _) (ends_of_forall
        (fun _ _ => sees_pure _) fun _ => trivial)

/-- A caller is handed a result. -/
theorem sees_propagate {s : State} {key : Stack.Key} {e : Stack.Edge} {c : Caller}
    {q : Stack.Popped} {immediate : Bool} (hs : s.Wf) (hc : s.caller? e = some c)
    (hlt : c.slot < p.graph.slots.size) (hq : s.stack.HasResult key q) :
    Sees (Careful.propagate p e key.position immediate q)
      (p.propagate e key.position immediate q) s := by
  obtain ⟨hdest, hslot, hpart, henv⟩ := State.caller?_eq_some_iff.mp hc
  rw [← hslot] at hlt
  have hrange := inRange_action hg hlt
  unfold Careful.propagate propagate
  refine sees_demand (getElem?_slots hlt) ?_
  cases haction : (p.graph.slot e.call).action with
  | scan | branch | complete => exact sees_pure _
  | call callee arguments notes dest =>
    rw [haction] at hrange
    refine sees_ask fun b _ => ?_
    cases b with
    | false => exact sees_pure _
    | true =>
      rw [if_pos rfl, if_pos rfl]
      refine sees_demand (getElem?_slots hrange.2) ?_
      split
      · refine sees_callArguments hs hdest fun arguments' f hf harguments => ?_
        refine sees_bind (sees_getNode (hs.adds_forest hf).wf dest harguments
          (hf.extend.part? hpart) (hf.extend.piece? (hs.results hq))) (ends_onForest ?_)
        exact sees_plain _
      · exact sees_pure _

/-- All callers are handed all results. -/
theorem sees_propagateAll {α : Type} (edge : α → Stack.Edge) (result : α → Stack.Popped)
    {key : Stack.Key} {immediate : Bool} {l : List α} :
    ∀ {s : State}, s.Wf →
      (∀ x ∈ l, (∃ c, s.caller? (edge x) = some c ∧ c.slot < p.graph.slots.size) ∧
        s.stack.HasResult key (result x)) →
      Sees (l.forM fun x => Careful.propagate p (edge x) key.position immediate (result x))
        (l.forM fun x => p.propagate (edge x) key.position immediate (result x)) s := by
  induction l with
  | nil => exact fun _ _ => sees_pure _
  | cons x rest ih =>
    intro s hs hall
    obtain ⟨⟨c, hc, hlt⟩, hq⟩ := hall x List.mem_cons_self
    have hends : Ends (p.propagate (edge x) key.position immediate (result x)) s _ _ :=
      ends_propagate hs hc hq
    refine sees_bind (sees_propagate hg hs hc hlt hq) (hends.imp ?_ fun _ _ => trivial)
    intro _ s₁ hpropagated
    obtain ⟨found, -, hadds, hkeeps⟩ := hpropagated
    refine ih hadds.wf fun y hy => ?_
    obtain ⟨⟨c', hc', hlt'⟩, hq'⟩ := hall y (List.mem_cons_of_mem _ hy)
    exact ⟨⟨c', hadds.extend.caller? hc', hlt'⟩, hkeeps.stack ▸ hq'⟩

omit [DecidableEq μ] hg in
/-- A thread stops before it moves. -/
theorem sees_stop {s : State} {d : Descriptor} {t : Thread} {c : CarefulMove Unit} {m : Move Unit}
    (hs : p.Coherent s) (ht : s.thread? d = some t)
    (h : ∀ {s₀ : State}, p.Coherent s₀ → s₀.thread? d = some t → Sees c m s₀) :
    Sees (Careful.plain (goOn none) >>= fun _ => c) (goOn none >>= fun _ => m) s := by
  have hrest : s.Adds { s with running := none } [] := hs.wf.adds_rest rfl rfl rfl
  exact sees_bind (sees_plain _)
    (ends_goOn (h (hs.of_eq rfl rfl rfl) (hrest.extend.thread? ht)))

omit [DecidableEq μ] hg in
theorem sees_scan {s : State} {d : Descriptor} {t : Thread} {terminal dest : Nat}
    {notes : Annotations μ} (hs : p.Coherent s) (ht : s.thread? d = some t)
    (hrange : p.graph.InRange (.scan terminal notes dest)) :
    Sees (Careful.scan p d terminal notes dest) (p.scan d terminal notes dest) s := by
  refine sees_stop hs ht fun {s₀} hs ht => ?_
  obtain ⟨-, -, hcall, hpart, -⟩ := State.thread?_eq_some_iff.mp ht
  refine sees_ask fun b _ => ?_
  cases b with
  | false => exact sees_pure _
  | true =>
    rw [if_pos rfl, if_pos rfl]
    refine sees_demand (get?_terminals hrange.1) ?_
    cases (p.graph.terminal terminal).matchAt p.input d.position with
    | none => exact sees_plain _
    | some right =>
      refine sees_ask fun b _ => ?_
      cases b with
      | false => exact sees_pure _
      | true =>
        rw [if_pos rfl, if_pos rfl]
        refine sees_bind (sees_plain _) (ends_onForest ?_)
        have hspan : s₀.forest.pieceOf? ⟨.terminal terminal, d.position, right⟩
            = some (.terminal terminal d.position right) := rfl
        obtain ⟨hleaf, hpiece⟩ := hs.wf.forest.adds_find hspan
        rw [Forest.terminal]
        generalize s₀.forest.find ⟨.terminal terminal, d.position, right⟩ = leaf at hleaf hpiece
        have hwf := (hs.wf.adds_forest hleaf).wf
        refine sees_callArguments hwf hcall fun arguments f hf harguments => ?_
        have hext := hleaf.extend.trans hf.extend
        refine sees_bind (sees_getNode (hwf.adds_forest hf).wf dest harguments
          (hext.part? hpart) (hf.extend.piece? hpiece)) (ends_onForest ?_)
        exact sees_plain _

omit [DecidableEq μ] [Matcher μ] hg in
/-- The arguments of a call are evaluated if the callee has parameters. -/
theorem sees_arguments {α : Type} {s : State} {callee : Nat} {arguments : List Expr}
    {env : Environment} {c : Option (List Value) → CarefulMove α} {m : Option (List Value) → Move α}
    (h : ∀ values, p.argumentsFor callee arguments env = .ok values → Sees (c values) (m values) s) :
    Sees (if (p.graph.nonterminal callee).parameters.isEmpty then pure none >>= c
        else (some <$> Careful.plain (arguments.mapM fun e => askValue (p.evaluate e env))) >>= c)
      (if (p.graph.nonterminal callee).parameters.isEmpty then pure none >>= m
        else (some <$> arguments.mapM fun e => askValue (p.evaluate e env)) >>= m) s := by
  unfold argumentsFor at h
  split
  · rename_i hempty
    exact h none (if_pos hempty)
  · rename_i hempty
    rw [map_eq_pure_bind, bind_assoc, map_eq_pure_bind, bind_assoc]
    refine sees_bind (sees_plain _) (ends_mapM.imp ?_ fun _ _ => trivial)
    intro values _ hvalues
    obtain ⟨rfl, hvalues⟩ := hvalues
    exact h _ (by rw [if_neg hempty, hvalues]; rfl)

/-- A caller waits for a call, and takes up what the call has produced before. -/
theorem sees_await {s : State} {id : Nat} (key : Stack.Key) {e : Stack.Edge} {c : Caller}
    (hs : s.Wf) (hid : s.stack.call? id = some key) (hc : s.caller? e = some c)
    (hlt : c.slot < p.graph.slots.size) :
    Sees (do
        let _ ← Careful.stackNode id
        if ← Careful.plain (onStack (·.addEdge id e)) then
          let results := (← Careful.stackNode id).popped
          results.forM (Careful.propagate p e key.position (results.length = 1)))
      (do
        if ← onStack (·.addEdge id e) then
          let results := ((← get).stack.get id).popped
          results.forM (p.propagate e key.position (results.length = 1))) s := by
  refine sees_stackNode hid (sees_bind (sees_plain _) (ends_onStack ?_))
  obtain ⟨n, hn, rfl⟩ := Stack.call?_eq_some_iff.mp hid
  rcases hs.stack.addEdge_cases hn e with ⟨hadd, -⟩ | ⟨st, hadd, hst⟩
  · rw [hadd]
    exact sees_pure _
  · rw [hadd, if_pos rfl, if_pos rfl]
    have hnew := hs.adds_edge hst hc
    refine sees_stackNode (hst.call? hid) (sees_getRight ?_)
    obtain ⟨n', hn', hkey⟩ := Stack.call?_eq_some_iff.mp (hst.call? hid)
    refine sees_propagateAll hg (fun _ => e) (fun q => q) hnew.wf fun q hq => ?_
    dsimp only at hq
    rw [Stack.get_eq hn'] at hq
    exact ⟨⟨c, hnew.extend.caller? hc, hlt⟩, _, _, hn', hkey, hq⟩

theorem sees_call {s : State} {d : Descriptor} {t : Thread} {callee dest : Nat}
    {arguments : List Expr} {notes : Annotations μ} (hs : p.Coherent s)
    (ht : s.thread? d = some t) (hpassed : p.Entails (.passed t))
    (haction : (p.graph.slot t.slot).action = .call callee arguments notes dest) :
    Sees (Careful.call p d callee arguments notes) (p.call d callee arguments notes) s := by
  have hlt := hpassed.slot_lt hg
  have hcallee : callee < p.graph.nonterminals.size := by
    have hrange := inRange_action hg hlt
    rw [haction] at hrange
    exact hrange.1
  refine sees_stop hs ht fun {s₀} hs ht => ?_
  obtain ⟨hslot, hpos, hcall, hpart, henv⟩ := State.thread?_eq_some_iff.mp ht
  dsimp only
  rw [hpos, henv]
  refine sees_ask fun b hpre => ?_
  cases b with
  | false => exact sees_pure _
  | true =>
    rw [if_pos rfl, if_pos rfl]
    refine sees_demand (getElem?_nonterminals hcallee) (sees_arguments fun values hvalues => ?_)
    have hcalling : p.calling callee arguments notes t.position t.env
        = .ok (some (⟨callee, t.position, values⟩, notes.bindCall t.position t.env)) :=
      calling_eq_some_iff.mpr ⟨allHold_eq_ok_true_iff.mp hpre, rfl, rfl, rfl, hvalues⟩
    refine sees_bind (sees_create hg hcallee) ((ends_create (E := fun _ => True) hs
      (hpassed.called_of_calling haction hcalling)).imp ?_ fun _ _ => trivial)
    intro o s₁ hcreated
    obtain ⟨hs₁, hext, -, -, ho⟩ := hcreated
    cases o with
    | none => exact sees_plain _
    | some id =>
      exact sees_await hg ⟨callee, t.position, values⟩
        (c := ⟨t.call, t.slot, t.part, notes.bindCall t.position t.env⟩) hs₁.wf ho.2
        (State.caller?_eq_some_iff.mpr ⟨hext.call? hcall, hslot, hext.forest.part? hpart, rfl⟩) hlt

omit [DecidableEq μ] [Matcher μ] hg in
/-- The piece of a complete rule is the one that the thread has, or that of the empty terminal. -/
theorem sees_child {α : Type} {s : State} {t : Thread} {o : Option Nat}
    {c : Nat → CarefulMove α} {m : Nat → Move α} (hs : s.Wf) :
    s.forest.part? o = some t.part →
    (∀ id f, s.forest.Adds f [.piece (p.child t)] → f.piece? id = some (p.child t) →
      Sees (c id) (m id) { s with forest := f }) →
    Sees (match o with
        | some child => pure child >>= c
        | none => Careful.plain (onForest (·.terminal p.graph.epsilon t.position t.position)) >>= c)
      (match o with
        | some child => pure child >>= m
        | none => onForest (·.terminal p.graph.epsilon t.position t.position) >>= m) s := by
  intro hpart h
  unfold child at h
  rcases Forest.part?_eq_some_iff.mp hpart with ⟨rfl, hnone⟩ | ⟨id, w, rfl, hsome, hid⟩
  · rw [hnone] at h
    have hspan : s.forest.pieceOf? ⟨.terminal p.graph.epsilon, t.position, t.position⟩
        = some (.terminal p.graph.epsilon t.position t.position) := rfl
    obtain ⟨hadds, hpiece⟩ := hs.forest.adds_find hspan
    exact sees_bind (sees_plain _) (ends_onForest (h _ _ hadds hpiece))
  · rw [hsome] at h
    refine h id s.forest ⟨hs.forest, .refl _, Or.inl, fun hf => ?_⟩ hid
    obtain rfl := List.mem_singleton.mp hf
    exact Or.inl ⟨id, hid⟩

omit [DecidableEq μ] [Matcher μ] hg in
/-- A rule returns the value of its expression, if it has one. -/
theorem sees_returned {α : Type} {s : State} {returns : Option Expr} {env : Environment}
    {c : Option Value → CarefulMove α} {m : Option Value → Move α}
    (h : ∀ value, Sees (c value) (m value) s) :
    Sees (match returns with
        | none => pure none >>= c
        | some e => (some <$> Careful.plain (askValue (p.evaluate e env))) >>= c)
      (match returns with
        | none => pure none >>= m
        | some e => (some <$> askValue (p.evaluate e env)) >>= m) s := by
  cases returns with
  | none => exact h none
  | some e =>
    dsimp only
    rw [map_eq_pure_bind, bind_assoc, map_eq_pure_bind, bind_assoc]
    refine sees_bind (sees_plain _) ?_
    cases p.evaluate e env with
    | error err => exact trivial
    | ok v => exact h (some v)

/-- A call has a result, which is handed to all that wait for it. -/
theorem sees_deliver {s : State} {id : Nat} {key : Stack.Key} {q : Stack.Popped}
    (hs : s.Wf) (hid : s.stack.call? id = some key)
    (hpiece : s.forest.piece? q.node = some (resultPiece key q.right))
    (hcallers : ∀ e, s.stack.HasEdge key e →
      ∃ c, s.caller? e = some c ∧ c.slot < p.graph.slots.size) :
    Sees (do
        let _ ← Careful.stackNode id
        if ← Careful.plain (onStack (·.addPopped id q)) then
          let edges := (← Careful.stackNode id).edges
          edges.forM fun edge => Careful.propagate p edge key.position (edges.length = 1) q)
      (do
        if ← onStack (·.addPopped id q) then
          let edges := ((← get).stack.get id).edges
          edges.forM fun edge => p.propagate edge key.position (edges.length = 1) q) s := by
  refine sees_stackNode hid (sees_bind (sees_plain _) (ends_onStack ?_))
  obtain ⟨n, hn, rfl⟩ := Stack.call?_eq_some_iff.mp hid
  rcases hs.stack.addPopped_cases hn q with ⟨hadd, -⟩ | ⟨st, hadd, hst⟩
  · rw [hadd]
    exact sees_pure _
  · rw [hadd, if_pos rfl, if_pos rfl]
    have hq : st.HasResult n.key q := hst.hasResult.mpr (Or.inr (List.mem_singleton_self _))
    have hnew := hs.adds_result hst hpiece
    refine sees_stackNode (hst.call? hid) (sees_getRight ?_)
    obtain ⟨n', hn', hkey⟩ := Stack.call?_eq_some_iff.mp (hst.call? hid)
    refine sees_propagateAll hg (fun e => e) (fun _ => q) hnew.wf fun e he => ⟨?_, hq⟩
    dsimp only at he
    rw [Stack.get_eq hn'] at he
    -- the caller was there before the result
    have hold : s.stack.HasEdge n.key e :=
      (hst.hasEdge.mp ⟨_, _, hn', hkey, he⟩).resolve_right List.not_mem_nil
    obtain ⟨c, hc, hlt⟩ := hcallers e hold
    exact ⟨c, hnew.extend.caller? hc, hlt⟩

theorem Coherent.exists_caller {s : State} {key : Stack.Key} {e : Stack.Edge} (hs : p.Coherent s)
    (he : s.stack.HasEdge key e) : ∃ c, s.caller? e = some c ∧ c.slot < p.graph.slots.size := by
  obtain ⟨c, hc⟩ := hs.wf.callers he
  have hawaited : p.Entails (.awaited key c) := hs.sound ⟨e, he, hc⟩
  exact ⟨c, hc, hawaited.caller_lt hg⟩

theorem sees_complete {s : State} {d : Descriptor} {t : Thread} {returns : Option Expr}
    (hs : p.Coherent s) (ht : s.thread? d = some t) (hpassed : p.Entails (.passed t)) :
    Sees (Careful.complete p d returns) (p.complete d returns) s := by
  have hlt := hpassed.slot_lt hg
  have hhead := head_eq_of_entails hg hpassed
  refine sees_stop hs ht fun {s₀} hs ht => ?_
  obtain ⟨hslot, hpos, hcall, hpart, henv⟩ := State.thread?_eq_some_iff.mp ht
  dsimp only
  rw [hpos, henv, hslot]
  refine sees_child hs.wf hpart fun child f hchild hpiece => ?_
  refine sees_stackNode hcall (sees_getRight ?_)
  dsimp only
  obtain ⟨n, hn, hkey⟩ := Stack.call?_eq_some_iff.mp hcall
  rw [Stack.get_eq hn, hkey]
  refine sees_callArguments (hs.wf.adds_forest hchild).wf hcall fun arguments f' hf' harguments => ?_
  refine sees_demand (getElem?_slots hlt) (sees_bind (sees_plain _) (ends_onForest ?_))
  rw [Forest.nonterminal]
  have hspan : f'.pieceOf? ⟨.nonterminal (p.graph.slot t.slot).head arguments, t.call.position,
      t.position⟩ = some (resultPiece t.call t.position) := by
    rw [hhead]
    exact Forest.pieceOf?_eq_some_iff.mpr ⟨arguments, harguments, rfl⟩
  obtain ⟨hwhole, hnode⟩ := hf'.wf.adds_find hspan
  generalize f'.find ⟨.nonterminal (p.graph.slot t.slot).head arguments, t.call.position,
    t.position⟩ = found at hwhole hnode
  have hnone : found.2.part? none = some none := rfl
  have hchild' := (hf'.trans hwhole).extend.piece? hpiece
  have hpacked := hwhole.wf.adds_addPacked t.slot hnode hnone hchild'
  refine sees_bind (sees_addPacked t.slot hnode hnone hchild') (ends_onForest ?_)
  generalize found.2.addPacked found.1 t.slot none child = packed at hpacked
  have hall := hs.wf.adds_forest (((hchild.trans hf').trans hwhole).trans hpacked)
  refine sees_returned fun value => ?_
  refine sees_deliver hg (q := ⟨found.1, t.position, value⟩) hall.wf hcall
    (hpacked.extend.piece? hnode) fun e he => ?_
  obtain ⟨c, hc, hclt⟩ := hs.exists_caller hg he
  exact ⟨c, hall.extend.caller? hc, hclt⟩

theorem sees_advance {s : State} {d : Descriptor} {t : Thread} (hs : p.Coherent s)
    (ht : s.thread? d = some t) (hpassed : p.Entails (.passed t)) :
    Sees (Careful.advance p d) (p.advance d) s := by
  have hslot := (State.thread?_eq_some_iff.mp ht).1
  have hlt := hpassed.slot_lt hg
  have hrange := inRange_action hg hlt
  unfold Careful.advance advance
  rw [hslot]
  refine sees_demand (getElem?_slots hlt) ?_
  cases haction : (p.graph.slot t.slot).action with
  | scan terminal notes dest => exact sees_scan hs ht (haction ▸ hrange)
  | call callee arguments notes dest => exact sees_call hg hs ht hpassed haction
  | branch condition ifTrue ifFalse => exact sees_ask fun b _ => sees_plain _
  | complete returns => exact sees_complete hg hs ht hpassed

/-! ## Runs -/

theorem sees_step {log : List Descriptor} {s : State} (h : p.Reaches log s) :
    Sees (Careful.step p) p.step s := by
  obtain ⟨ran, hreached⟩ := h.reached hg
  unfold Careful.step step
  refine sees_getLeft (sees_getRight ?_)
  cases hrunning : s.running with
  | some d =>
    obtain ⟨t, ht, hran⟩ := hreached.running hrunning
    refine sees_bind (sees_advance hg hreached.coherent ht (hreached.entailed hran)) ?_
    exact ends_of_forall (fun _ _ => sees_pure _) fun _ => trivial
  | none =>
    dsimp only
    cases s.agenda.take with
    | none => exact sees_pure _
    | some next => rfl

theorem sees_run (fuel : Nat) : ∀ {log : List Descriptor} {s : State}, p.Reaches log s →
    Sees (Careful.run p fuel) (p.run fuel) s := by
  induction fuel with
  | zero => exact fun _ => sees_pure _
  | succ fuel ih =>
    intro log s h
    rw [Careful.run, run]
    refine sees_bind (sees_step hg h) ?_
    unfold Ends
    cases hs : p.step s with
    | error e s' => exact trivial
    | ok more s' =>
      cases more with
      | true => exact ih (.step h hs)
      | false => exact sees_pure _

/-! ## Reports -/

theorem sees_describe {log : List Descriptor} {s : State} (h : p.Reaches log s) {id : Nat}
    {key : Stack.Key} (hid : s.stack.call? id = some key) :
    Sees (Careful.describe p id) (pure (s.stack.describe p.graph id)) s := by
  obtain ⟨ran, hreached⟩ := h.reached hg
  have hcallee : (s.stack.get id).key.nonterminal < p.graph.nonterminals.size := by
    obtain ⟨n, hn, rfl⟩ := Stack.call?_eq_some_iff.mp hid
    rw [Stack.get_eq hn]
    exact Entails.callee_lt hg (hreached.coherent.sound ⟨id, hid⟩)
  exact sees_stackNode hid (sees_demand (getElem?_nonterminals hcallee) (sees_pure _))

theorem sees_failure {log : List Descriptor} {s : State} (h : p.Reaches log s) :
    Sees (Careful.failure p) (pure (p.failure s)) s := by
  obtain ⟨ran, hreached, htracks⟩ := h.tracks hg
  have hstart := (nonterminalName_start_eq hg).1
  have hreach : s.furthest.getD ⟨none, 0, none⟩ = ⟨none, 0, none⟩ ∨ ∃ d t,
      s.furthest.getD ⟨none, 0, none⟩ = ⟨some d.slot, d.position, some d.stackNode⟩ ∧
        s.thread? d = some t ∧ p.Noted t := by
    cases hfurthest : s.furthest with
    | none => exact Or.inl rfl
    | some r =>
      rcases htracks.origin hfurthest with ⟨-, hr⟩ | hthread
      · exact Or.inl hr
      · exact Or.inr hthread
  unfold Careful.failure failure
  refine sees_getLeft ?_
  dsimp only
  refine sees_demand (getElem?_nonterminals hstart) ?_
  rcases hreach with hnone | ⟨d, t, hsome, ht, hnoted⟩
  · rw [hnone]
    exact sees_pure _
  · obtain ⟨hslot, -, hcall, -, -⟩ := State.thread?_eq_some_iff.mp ht
    have hlt : d.slot < p.graph.slots.size := hslot ▸ hnoted.passed.slot_lt hg
    rw [hsome]
    dsimp only
    rw [map_eq_pure_bind, bind_assoc]
    refine sees_demand (getElem?_slots hlt) (sees_answer (sees_pure _) ?_)
    exact sees_answer (sees_describe hg h hcall) (sees_pure _)

theorem sees_verdict {log : List Descriptor} {s : State} (h : p.Reaches log s) :
    Sees (Careful.verdict p) (pure (p.verdict s)) s := by
  unfold Careful.verdict verdict
  refine sees_getLeft ?_
  cases s.forest.lookup p.rootSpan with
  | some root => exact sees_pure _
  | none =>
    dsimp only
    rw [map_eq_pure_bind]
    exact sees_answer (sees_failure hg h) (sees_pure _)

/-- **A careful parse gives the report of the parse.** So no parse of a grammar that was compiled
takes a slot, a nonterminal, a terminal or a node that is not there. -/
theorem careful_parse (fuel : Nat) : Careful.parse p fuel = .ok (p.parse fuel) := by
  obtain ⟨s, hb, -⟩ := p.exists_begin
  have hstart := (nonterminalName_start_eq hg).1
  have hbegin : Sees (Careful.begin p) p.begin p.initial := by
    refine sees_bind (sees_create hg hstart) (ends_of_forall (fun o _ => ?_) fun _ => trivial)
    cases o with
    | none => rfl
    | some id => rfl
  have hrun : Sees (Careful.run p fuel) (p.run fuel) s := sees_run hg fuel (.begin hb)
  have hends := ends_run hg fuel (.begin hb)
  unfold Sees Careful.plain at hbegin hrun
  rw [hb] at hbegin
  unfold Ends at hends
  unfold Careful.parse EStateM.run
  rw [parse_eq hb]
  simp only [bind, EStateM.bind, hbegin, hrun]
  cases hr : p.run fuel s with
  | error e s' => rfl
  | ok finished s' =>
    rw [hr] at hends
    obtain ⟨⟨log, hreaches⟩, -⟩ := hends
    cases finished with
    | false => rfl
    | true =>
      have hverdict : Sees (Careful.verdict p) (pure (p.verdict s')) s' := sees_verdict hg hreaches
      unfold Sees at hverdict
      simp only [if_true, hverdict]
      rfl

end

end Parser

end GeneralLL
