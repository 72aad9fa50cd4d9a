import GeneralLL.Proofs.ForestShape
import GeneralLL.Proofs.Interruption

/-!
# Consistent stores

Descriptors, edges and results refer to each other and to the forest by number, and no store
checks what it is handed; an edge whose slot is not the slot of a call is passed over when a
result comes. That does not happen: in every state of a parse each of them is what the others
take it for (`Consistent`), also in the state that a parse leaves behind if an expression has
no answer in the middle of a move. And between moves the nodes of nonterminals are exactly
the results of the calls (`State.Answered`).

Both come from what is known of threads and callers without their numbers: a parse is entitled
to them, and everything that it is entitled to has its place in a rule (`located_of_entails`).
-/

namespace GeneralLL

namespace Parser

/-! ## What fits what -/

namespace State

/-- An optional node is for the text between two positions; without one there is no text. -/
def Fills (s : State) (o : Option Nat) (left right : Nat) : Prop :=
  match o with
  | none => left = right
  | some w => s.forest.Spans w left right

/-- The forest node with the number `id` is that of a call up to `right`. -/
def NodeOf (s : State) (key : Stack.Key) (right id : Nat) : Prop :=
  ∃ n a, s.forest.nodes[id]? = some n ∧
    n.span = ⟨.nonterminal key.nonterminal a, key.position, right⟩ ∧
    s.forest.argumentsAt? a = some key.arguments

/-- **The nodes of nonterminals are the results of the calls:** every such node is that of a call,
and a node is that of a call up to a position exactly if the call has results there and they all
refer to the node. -/
structure Answered (s : State) : Prop where
  /-- A node of a nonterminal is that of a call, up to its right end. -/
  read : ∀ {id : Nat} {n : Forest.Node}, s.forest.nodes[id]? = some n →
    n.span.label.isNonterminal → ∃ key, s.NodeOf key n.span.right id
  /-- A node is that of a call up to a position exactly if the call has results there, which all
  refer to it. -/
  results : ∀ {key : Stack.Key} {right id : Nat}, s.NodeOf key right id ↔
    (∃ q, s.stack.HasResult key q ∧ q.right = right) ∧
      ∀ q, s.stack.HasResult key q → q.right = right → q.node = id

theorem nodeOf_iff {s : State} {key : Stack.Key} {right id : Nat} :
    s.NodeOf key right id ↔ s.forest.piece? id = some (resultPiece key right) := by
  rw [Forest.piece?_eq_some_iff]
  constructor
  · intro h
    obtain ⟨n, a, hn, hspan, ha⟩ := h
    exact ⟨n, hn, Forest.pieceOf?_eq_some_iff.mpr ⟨a, ha, hspan⟩⟩
  · intro h
    obtain ⟨n, hn, hpiece⟩ := h
    obtain ⟨a, ha, hspan⟩ := Forest.pieceOf?_eq_some_iff.mp hpiece
    exact ⟨n, a, hn, hspan, ha⟩

end State

variable {μ : Type} [Matcher μ] {p : Parser μ} {g : Grammar μ}

/-- **A descriptor is in its call:** its slot is in a rule of the nonterminal that is called, and
its forest node is for the text from where the call starts to where the descriptor is. -/
def InCall (p : Parser μ) (s : State) (d : Descriptor) : Prop :=
  d.slot < p.graph.slots.size ∧ ∃ v, s.stack.nodes[d.stackNode]? = some v ∧
    (p.graph.slot d.slot).head = v.key.nonterminal ∧
    s.Fills d.forestNode v.key.position d.position

/-- **An edge leads back from a call to its caller:** its slot is one where the nonterminal of the
call is called in a rule of the caller's, and its forest node is for the text from where the caller
starts to where the call does. -/
def LeadsBack (p : Parser μ) (s : State) (v : Stack.Node) (e : Stack.Edge) : Prop :=
  e.call < p.graph.slots.size ∧
    (∃ arguments notes dest,
      (p.graph.slot e.call).action = .call v.key.nonterminal arguments notes dest) ∧
    ∃ u, s.stack.nodes[e.dest]? = some u ∧ (p.graph.slot e.call).head = u.key.nonterminal ∧
      s.Fills e.node u.key.position v.key.position

/-- **Descriptors, edges and results are consistent** with the calls and the forest nodes that they
refer to. -/
structure Consistent (p : Parser μ) (s : State) : Prop where
  /-- The running descriptor and those that wait are in their calls. -/
  descriptors : ∀ {d : Descriptor}, s.running = some d ∨ d ∈ s.agenda.waiting → p.InCall s d
  /-- An edge of a call leads back to a caller. -/
  edges : ∀ {id : Nat} {v : Stack.Node} {e : Stack.Edge}, s.stack.nodes[id]? = some v →
    e ∈ v.edges → p.LeadsBack s v e
  /-- A result refers to the node of its call, up to its right end. -/
  results : ∀ {id : Nat} {v : Stack.Node} {q : Stack.Popped}, s.stack.nodes[id]? = some v →
    q ∈ v.popped → s.NodeOf v.key q.right q.node

/-! ## Consistency -/

omit [Matcher μ] in
/-- Results refer to the nodes of their calls. -/
theorem State.Wf.nodeOf {s : State} (hs : s.Wf) {key : Stack.Key} {q : Stack.Popped}
    (hq : s.stack.HasResult key q) : s.NodeOf key q.right q.node :=
  State.nodeOf_iff.mpr (hs.results hq)

/-- If nothing is owed, then the nodes of nonterminals are the results of the calls. -/
theorem Backed.answered_nodes {s : State} (hs : p.Backed (fun _ => False) s) : s.Answered := by
  refine ⟨fun {id n} hn hlabel => ?_, fun {key right id} => ⟨fun hnode => ?_, fun h => ?_⟩⟩
  · obtain ⟨w, hw⟩ := hs.wf.forest.pieces hn
    have hspan := Forest.pieceOf?_eq_some_iff.mp hw
    cases w with
    | nonterminal a values left right =>
      obtain ⟨number, hnumber, hspan⟩ := hspan
      exact ⟨⟨a, left, values⟩, n, number, hn, by rw [hspan], hnumber⟩
    | terminal a left right =>
      rw [hspan] at hlabel
      exact absurd hlabel (by simp [Forest.Label.isNonterminal])
    | intermediate slot values left right =>
      obtain ⟨number, -, hspan⟩ := hspan
      rw [hspan] at hlabel
      exact absurd hlabel (by simp [Forest.Label.isNonterminal])
  · have hid := State.nodeOf_iff.mp hnode
    obtain ⟨value, q, hq, hright, -⟩ := hs.answered ⟨id, hid⟩ fun h => h
    refine ⟨⟨q, hq, hright⟩, fun q' hq' hright' => ?_⟩
    subst hright'
    exact hs.wf.forest.piece?_inj (hs.wf.results hq') hid
  · obtain ⟨⟨q, hq, rfl⟩, hall⟩ := h
    exact hall q hq rfl ▸ hs.wf.nodeOf hq

section

variable [DecidableEq μ]

/-- What was recognised before a place fills the text from the start of the call. -/
theorem Recognised.fills {s : State} {k i left right : Nat} {r : Rule μ}
    {values : Option (List Value)} {o : Option Nat} {part : Option Piece}
    (h : p.Recognised g k r values left i right part) (ho : s.forest.part? o = some part) :
    s.Fills o left right := by
  rcases Forest.part?_eq_some_iff.mp ho with ⟨rfl, rfl⟩ | ⟨id, w, rfl, rfl, hw⟩
  · cases h with
    | nothing => exact rfl
  · obtain ⟨hleft, hright⟩ := h.extents
    have hspans := Forest.spans_of_piece? hw
    rw [hleft, hright] at hspans
    exact hspans

variable (hg : SlotGraph.ofGrammar g = .ok p.graph) (hbounded : g.Bounded p.input)

include hg hbounded

/-- A thread in its place is in its call. -/
theorem inCall_of_entails {s : State} {d : Descriptor} {t : Thread} (ht : s.thread? d = some t)
    (hpassed : p.Entails (.passed t)) : p.InCall s d := by
  obtain ⟨k, r, i, symbols, hfollows⟩ := located_of_entails hg hbounded hpassed
  obtain ⟨hslot, hpos, hcall, hpart, -⟩ := State.thread?_eq_some_iff.mp ht
  obtain ⟨v, hv, hkey⟩ := Stack.call?_eq_some_iff.mp hcall
  have hlies := hfollows.before.lies
  rw [InCall, hslot, hpos]
  refine ⟨hlies.lt, v, hv, ?_, ?_⟩ <;> rw [hkey]
  · exact hlies.head.trans hfollows.head.symm
  · exact hfollows.part.fills hpart

/-- The edge of a caller in its place leads back to it. -/
theorem leadsBack_of_entails {s : State} {v : Stack.Node} {e : Stack.Edge} {c : Caller}
    (hc : s.caller? e = some c) (hawaited : p.Entails (.awaited v.key c)) :
    p.LeadsBack s v e := by
  obtain ⟨k, r, i, arguments, notes, hawaiting⟩ := located_of_entails hg hbounded hawaited
  obtain ⟨hcall, hslot, hpart, -⟩ := State.caller?_eq_some_iff.mp hc
  obtain ⟨u, hu, hkey⟩ := Stack.call?_eq_some_iff.mp hcall
  have hlies := hawaiting.lies
  rw [LeadsBack, hslot]
  refine ⟨hlies.lt, ⟨arguments, notes, _, hawaiting.action⟩, u, hu, ?_, ?_⟩ <;> rw [hkey]
  · exact hlies.head.trans hawaiting.head.symm
  · exact hawaiting.part.fills hpart

/-- A state whose content has its reasons is consistent, for everything has its place. -/
theorem Backed.consistent {owed : Piece → Prop} {s : State} (hs : p.Backed owed s)
    (hrunning : ∀ d, s.running = some d → ∃ t, s.thread? d = some t ∧ p.Entails (.passed t)) :
    p.Consistent s := by
  refine ⟨fun {d} hd => ?_, fun {id v e} hv he => ?_, fun {id v q} hv hq => ?_⟩
  · rcases hd with hd | hd
    · obtain ⟨t, ht, hpassed⟩ := hrunning d hd
      exact inCall_of_entails hg hbounded ht hpassed
    · have hseen := hs.waiting d hd
      obtain ⟨t, ht, -⟩ := hs.wf.seen hseen
      have hposted : p.Entails (.posted t) := hs.entailed ⟨d, hseen, ht⟩ fun h => h
      exact inCall_of_entails hg hbounded ht (.delivered hposted)
  · have he : s.stack.HasEdge v.key e := ⟨id, v, hv, rfl, he⟩
    obtain ⟨c, hc⟩ := hs.wf.callers he
    exact leadsBack_of_entails hg hbounded hc (hs.entailed ⟨e, he, hc⟩ fun h => h)
  · exact hs.wf.nodeOf ⟨id, v, hv, rfl, hq⟩

/-- **Descriptors, edges and results are consistent in every state of a parse,** and the nodes of
nonterminals are the results of the calls. If a step ends with an error, then descriptors, edges
and results are consistent where it has stopped. -/
theorem stores_consistent :
    (∀ log s, p.Reaches log s → p.Consistent s ∧ s.Answered) ∧
      ∀ log s e s', p.Reaches log s → p.step s = .error e s' → p.Consistent s' := by
  have hthread {log : List Descriptor} {s : State} (h : p.Reaches log s) (d : Descriptor)
      (hd : s.running = some d) : ∃ t, s.thread? d = some t ∧ p.Entails (.passed t) := by
    obtain ⟨ran, hreached⟩ := h.reached hg
    obtain ⟨t, ht, hran⟩ := hreached.running hd
    exact ⟨t, ht, hreached.entailed hran⟩
  refine ⟨fun log s h => ?_, fun log s e s' h hstep => ?_⟩
  · have hs := h.backed hg
    exact ⟨hs.consistent hg hbounded (hthread h), hs.answered_nodes⟩
  · obtain ⟨ran, hreached⟩ := h.reached hg
    have hleaves := hreached.leaves_step hg (h.grounded hg) (h.backed hg)
    unfold Leaves at hleaves
    rw [hstep] at hleaves
    obtain ⟨⟨owed, hs'⟩, hrunning⟩ := hleaves
    refine hs'.consistent hg hbounded fun d hd => ?_
    rcases hrunning with hnone | rfl
    · exact absurd (hnone.symm.trans hd) (by simp)
    · exact hthread h d hd

end

end Parser

/-! ## A result that is never there -/

/-- An `A` is one letter, or two letters whose value has no answer. -/
def unvalued : Grammar RunMatcher where
  name := "unvalued"
  start := "S"
  rules :=
    [⟨"S", [.call "A" [] {}, .terminal (.char 'b') {}], none⟩,
      ⟨"A", [.terminal (.char 'a') {}], none⟩,
      ⟨"A", [.terminal (.char 'a') {}, .terminal (.char 'b') {}],
        some (.binary .div (.const (.int 1)) (.const (.int 0)))⟩]

/-- The parser for one letter or two. -/
def unvaluedParser : Parser RunMatcher :=
  { graph := SlotGraph.compile unvalued, config := { shortcut := false }, input := .ofString "ab" }

/-- The forest has a node up to somewhere where no call has a result. -/
def Parser.State.Unpaid (s : Parser.State) : Bool :=
  s.forest.nodes.any fun n => n.span.label.isNonterminal &&
    s.stack.nodes.all fun v => v.popped.all fun q => q.right ≠ n.span.right

theorem Parser.State.not_answered_of_unpaid (s : Parser.State) (h : s.Unpaid) : ¬s.Answered := by
  intro hs
  obtain ⟨i, hi, hnode⟩ := Array.any_eq_true.mp h
  obtain ⟨hlabel, hnone⟩ := Bool.and_eq_true_iff.mp hnode
  obtain ⟨key, hkey⟩ := hs.read (Array.getElem?_eq_getElem hi) hlabel
  obtain ⟨⟨q, ⟨id, v, hv, -, hq⟩, hright⟩, -⟩ := hs.results.mp hkey
  have hv := Array.all_eq_true_iff_forall_mem.mp hnone v (Array.mem_of_getElem? hv)
  exact absurd hright (of_decide_eq_true (List.all_eq_true.mp hv q hq))

/-- The value of the second `A` ends the parse while the first one waits to be taken up. Its node is
there, its result is not. -/
theorem stores_consistent_unvalued :
    SlotGraph.ofGrammar unvalued = .ok unvaluedParser.graph ∧
      unvalued.Bounded unvaluedParser.input ∧
      ∃ log s e s', unvaluedParser.Reaches log s ∧ unvaluedParser.step s = .error e s' ∧
        s'.agenda.waiting ≠ [] ∧ unvaluedParser.Consistent s ∧ s.Answered ∧
        unvaluedParser.Consistent s' ∧ ¬s'.Answered := by
  have hg : SlotGraph.ofGrammar unvalued = .ok unvaluedParser.graph :=
    SlotGraph.ofGrammar_eq_ok_iff.mpr ⟨by decide +kernel, rfl⟩
  have hbounded : unvalued.Bounded unvaluedParser.input := fun m _ => m.bounded _
  obtain ⟨log, s, hreaches, hs⟩ := Parser.exists_reaches_of_run hg 8
    (q := fun s => match unvaluedParser.step s with
      | .error _ s' => s'.agenda.waiting ≠ [] && s'.Unpaid
      | .ok _ _ => false) (by decide +kernel)
  obtain ⟨hreached, herror⟩ := Parser.stores_consistent hg hbounded
  obtain ⟨hconsistent, hanswered⟩ := hreached log s hreaches
  cases hstep : unvaluedParser.step s with
  | ok more s' =>
    rw [hstep] at hs
    exact absurd hs (by simp)
  | error e s' =>
    rw [hstep] at hs
    obtain ⟨hwaiting, hunpaid⟩ := Bool.and_eq_true_iff.mp hs
    exact ⟨hg, hbounded, log, s, e, s', hreaches, hstep, of_decide_eq_true hwaiting, hconsistent,
      hanswered, herror log s e s' hreaches hstep, s'.not_answered_of_unpaid hunpaid⟩

end GeneralLL
