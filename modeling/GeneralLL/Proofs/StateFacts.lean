import GeneralLL.Parser
import GeneralLL.Proofs.StackFacts

/-!
# The facts in a state

The state of a parse shows the facts of its forest, and also its calls, its edges, its
results and the descriptors that were accepted, once their numbers are read back
(`State.Shows`).

A change of the state **adds** facts if it shows these and no other new ones, and all
that could be read before is read alike (`State.Adds`). There is one lemma for each part
of the state. Changes compose, so a move adds what its changes add.
-/

namespace GeneralLL

/-! ## Agendas -/

namespace Agenda

/-- A descriptor is new and waits, or it was accepted before and nothing happens. -/
inductive Accepts (a : Agenda) (d : Descriptor) : Agenda → Prop where
  | known : d ∈ a.seen.toList → Accepts a d a
  | new {a' : Agenda} : d ∉ a.seen.toList → a'.seen.toList = a.seen.toList ++ [d] →
      a'.waiting.Perm (d :: a.waiting) → Accepts a d a'

theorem perm_enqueue (a : Agenda) (d : Descriptor) :
    (a.enqueue d).waiting.Perm (d :: a.waiting) := by
  obtain ⟨scheduling, shortcut, seen, queue, next⟩ := a
  unfold waiting enqueue
  cases scheduling with
  | fifo =>
    dsimp only
    rw [← List.append_assoc]
    exact List.perm_append_comm
  | lifo => exact List.perm_middle

theorem accepts_offer (a : Agenda) (d : Descriptor) : a.Accepts d (a.offer d).2 := by
  unfold offer
  by_cases hd : (a.seen.find? d).isSome
  · rw [if_pos hd]
    exact .known (Numbering.find?_isSome_iff.mp hd)
  · rw [if_neg hd]
    rw [Numbering.find?_isSome_iff] at hd
    exact .new hd (Numbering.insert_of_notMem hd).2 (perm_enqueue _ d)

theorem accepts_offerNext (a : Agenda) (d : Descriptor) : a.Accepts d (a.offerNext d).2 := by
  unfold offerNext
  by_cases hnext : !a.shortcut || a.next.isSome
  · rw [if_pos hnext]
    exact accepts_offer a d
  · rw [if_neg hnext]
    by_cases hd : (a.seen.find? d).isSome
    · rw [if_pos hd]
      exact .known (Numbering.find?_isSome_iff.mp hd)
    · rw [if_neg hd]
      rw [Numbering.find?_isSome_iff] at hd
      refine .new hd (Numbering.insert_of_notMem hd).2 ?_
      have hfree : a.next = none := by
        cases h : a.next with
        | none => rfl
        | some _ => simp [h] at hnext
      show ((some d).toList ++ a.queue).Perm (d :: (a.next.toList ++ a.queue))
      rw [hfree]
      exact .refl _

theorem Accepts.mem_seen {a a' : Agenda} {d d' : Descriptor} (h : a.Accepts d a') :
    d' ∈ a'.seen.toList ↔ d' ∈ a.seen.toList ∨ d' = d := by
  cases h with
  | known hd => exact ⟨Or.inl, fun h => h.elim id fun h => h ▸ hd⟩
  | new _ hseen _ => rw [hseen, List.mem_append, List.mem_singleton]

end Agenda

namespace Parser

namespace State

/-! ## Reading numbers -/

/-- Where a caller goes on. -/
def caller? (s : State) (e : Stack.Edge) : Option Caller := do
  let call ← s.stack.call? e.dest
  let part ← s.forest.part? e.node
  return ⟨call, e.call, part, e.env⟩

/-- The thread behind a descriptor. -/
def thread? (s : State) (d : Descriptor) : Option Thread := do
  let call ← s.stack.call? d.stackNode
  let part ← s.forest.part? d.forestNode
  return ⟨d.slot, d.position, call, part, d.env⟩

theorem caller?_eq_some_iff {s : State} {e : Stack.Edge} {c : Caller} :
    s.caller? e = some c ↔ s.stack.call? e.dest = some c.call ∧ e.call = c.slot ∧
      s.forest.part? e.node = some c.part ∧ e.env = c.env := by
  obtain ⟨call, slot, part, env⟩ := c
  simp only [caller?, bind, Option.bind_eq_some_iff, pure, Option.some.injEq, Caller.mk.injEq]
  constructor
  · intro h
    obtain ⟨_, hcall, _, hpart, rfl, rfl, rfl, rfl⟩ := h
    exact ⟨hcall, rfl, hpart, rfl⟩
  · intro h
    obtain ⟨hcall, rfl, hpart, rfl⟩ := h
    exact ⟨_, hcall, _, hpart, rfl, rfl, rfl, rfl⟩

theorem thread?_eq_some_iff {s : State} {d : Descriptor} {t : Thread} :
    s.thread? d = some t ↔ d.slot = t.slot ∧ d.position = t.position ∧
      s.stack.call? d.stackNode = some t.call ∧ s.forest.part? d.forestNode = some t.part ∧
      d.env = t.env := by
  obtain ⟨slot, position, call, part, env⟩ := t
  simp only [thread?, bind, Option.bind_eq_some_iff, pure, Option.some.injEq, Thread.mk.injEq]
  constructor
  · intro h
    obtain ⟨_, hcall, _, hpart, rfl, rfl, rfl, rfl, rfl⟩ := h
    exact ⟨rfl, rfl, hcall, hpart, rfl⟩
  · intro h
    obtain ⟨rfl, rfl, hcall, hpart, rfl⟩ := h
    exact ⟨_, hcall, _, hpart, rfl, rfl, rfl, rfl, rfl⟩

/-- A descriptor that goes on behind something is of a call whose arguments are numbered. -/
def Numbered (s : State) (d : Descriptor) (t : Thread) : Prop :=
  d.forestNode = none ∨ ∃ a, s.forest.argumentsAt? a = some t.call.arguments

/-! ## Well-formed states -/

/-- Everything in a state can be read, and calls and forest nodes have one number each. -/
structure Wf (s : State) : Prop where
  /-- Everything in the forest can be read. -/
  forest : s.forest.Wf
  /-- Calls have one node each. -/
  stack : s.stack.Wf
  /-- Every edge refers to a caller. -/
  callers : ∀ {key : Stack.Key} {e : Stack.Edge}, s.stack.HasEdge key e → ∃ c, s.caller? e = some c
  /-- Every result refers to a node of its call that goes as far as it does. -/
  results : ∀ {key : Stack.Key} {q : Stack.Popped}, s.stack.HasResult key q →
    s.forest.piece? q.node = some (resultPiece key q.right)
  /-- Every accepted descriptor stands for a thread; if it goes on behind something, the arguments
  of its call are numbered. -/
  seen : ∀ {d : Descriptor}, d ∈ s.agenda.seen.toList → ∃ t, s.thread? d = some t ∧ s.Numbered d t

/-- What can be read in `s` is read alike in `s'`. -/
structure Extends (s s' : State) : Prop where
  /-- The forest is read alike. -/
  forest : s.forest.Extends s'.forest
  /-- Calls keep their numbers. -/
  call? : ∀ {id : Nat} {key : Stack.Key}, s.stack.call? id = some key →
    s'.stack.call? id = some key
  /-- No caller is lost. -/
  hasEdge : ∀ {key : Stack.Key} {e : Stack.Edge}, s.stack.HasEdge key e → s'.stack.HasEdge key e
  /-- No result is lost. -/
  hasResult : ∀ {key : Stack.Key} {q : Stack.Popped}, s.stack.HasResult key q →
    s'.stack.HasResult key q
  /-- No accepted descriptor is forgotten. -/
  seen : ∀ {d : Descriptor}, d ∈ s.agenda.seen.toList → d ∈ s'.agenda.seen.toList

namespace Extends

variable {s s' s'' : State}

theorem refl (s : State) : s.Extends s := ⟨.refl _, id, id, id, id⟩

theorem trans (h : s.Extends s') (h' : s'.Extends s'') : s.Extends s'' :=
  ⟨h.forest.trans h'.forest, h'.call? ∘ h.call?, h'.hasEdge ∘ h.hasEdge,
    h'.hasResult ∘ h.hasResult, h'.seen ∘ h.seen⟩

theorem caller? (h : s.Extends s') {e : Stack.Edge} {c : Caller} (hc : s.caller? e = some c) :
    s'.caller? e = some c := by
  obtain ⟨hcall, hslot, hpart, henv⟩ := caller?_eq_some_iff.mp hc
  exact caller?_eq_some_iff.mpr ⟨h.call? hcall, hslot, h.forest.part? hpart, henv⟩

theorem numbered (h : s.Extends s') {d : Descriptor} {t : Thread} (ht : s.Numbered d t) :
    s'.Numbered d t := by
  rcases ht with hnone | ⟨a, ha⟩
  · exact Or.inl hnone
  · exact Or.inr ⟨a, h.forest.argumentsAt? ha⟩

theorem thread? (h : s.Extends s') {d : Descriptor} {t : Thread} (ht : s.thread? d = some t) :
    s'.thread? d = some t := by
  obtain ⟨hslot, hpos, hcall, hpart, henv⟩ := thread?_eq_some_iff.mp ht
  exact thread?_eq_some_iff.mpr ⟨hslot, hpos, h.call? hcall, h.forest.part? hpart, henv⟩

end Extends

/-- Threads that are read alike have one descriptor. -/
theorem Wf.thread?_inj {s : State} (hs : s.Wf) {d d' : Descriptor} {t : Thread}
    (h : s.thread? d = some t) (h' : s.thread? d' = some t) : d = d' := by
  obtain ⟨slot, position, stackNode, forestNode, env⟩ := d
  obtain ⟨slot', position', stackNode', forestNode', env'⟩ := d'
  obtain ⟨rfl, rfl, hcall, hpart, rfl⟩ := thread?_eq_some_iff.mp h
  obtain ⟨rfl, rfl, hcall', hpart', rfl⟩ := thread?_eq_some_iff.mp h'
  obtain rfl : stackNode = stackNode' := hs.stack.keys hcall hcall'
  obtain rfl : forestNode = forestNode' := hs.forest.part?_inj hpart hpart'
  rfl

theorem Wf.caller?_inj {s : State} (hs : s.Wf) {e e' : Stack.Edge} {c : Caller}
    (h : s.caller? e = some c) (h' : s.caller? e' = some c) : e = e' := by
  obtain ⟨dest, call, node, env⟩ := e
  obtain ⟨dest', call', node', env'⟩ := e'
  obtain ⟨hcall, rfl, hpart, rfl⟩ := caller?_eq_some_iff.mp h
  obtain ⟨hcall', rfl, hpart', rfl⟩ := caller?_eq_some_iff.mp h'
  obtain rfl : dest = dest' := hs.stack.keys hcall hcall'
  obtain rfl : node = node' := hs.forest.part?_inj hpart hpart'
  rfl

/-! ## The facts that a state shows -/

/-- The state has the thing that the fact is about. That a thread has run leaves no trace. -/
def Shows (s : State) : Fact → Prop
  | .called key => s.stack.HasCall key
  | .posted t => ∃ d ∈ s.agenda.seen.toList, s.thread? d = some t
  | .passed _ => False
  | .awaited key c => ∃ e, s.stack.HasEdge key e ∧ s.caller? e = some c
  | .result key right value => ∃ q, s.stack.HasResult key q ∧ q.right = right ∧ q.value = value
  | .piece w => s.forest.Shows (.piece w)
  | .packing d => s.forest.Shows (.packing d)

/-- The state shows the fact; of a derivation it may store another one with the same key. -/
def Covers (s : State) (fact : Fact) : Prop :=
  s.Shows fact ∨ ∃ d d', fact = .packing d ∧ d'.key = d.key ∧ s.Shows (.packing d')

theorem Covers.shows {s : State} {fact : Fact} (h : s.Covers fact) (hne : ∀ d, fact ≠ .packing d) :
    s.Shows fact := by
  rcases h with hs | ⟨d, -, rfl, -⟩
  · exact hs
  · exact absurd rfl (hne d)

theorem Extends.shows {s s' : State} (h : s.Extends s') {fact : Fact} (hs : s.Shows fact) :
    s'.Shows fact := by
  cases fact with
  | called key =>
    obtain ⟨id, hid⟩ := hs
    exact ⟨id, h.call? hid⟩
  | posted t =>
    obtain ⟨d, hd, ht⟩ := hs
    exact ⟨d, h.seen hd, h.thread? ht⟩
  | passed t => exact False.elim hs
  | awaited key c =>
    obtain ⟨e, he, hc⟩ := hs
    exact ⟨e, h.hasEdge he, h.caller? hc⟩
  | result key right value =>
    obtain ⟨q, hq, hsame⟩ := hs
    exact ⟨q, h.hasResult hq, hsame⟩
  | piece w =>
    obtain ⟨id, hid⟩ := hs
    exact ⟨id, h.forest.piece? hid⟩
  | packing d =>
    obtain ⟨i, k, hk, hd⟩ := hs
    exact ⟨i, k, h.forest.packed hk, h.forest.packing? hd⟩

theorem Extends.covers {s s' : State} (h : s.Extends s') {fact : Fact} (hc : s.Covers fact) :
    s'.Covers fact := by
  rcases hc with hs | ⟨d, d', rfl, hkey, hs⟩
  · exact Or.inl (h.shows hs)
  · exact Or.inr ⟨d, d', rfl, hkey, h.shows hs⟩

/-- **A change that adds facts,** and nothing else. -/
structure Adds (s s' : State) (facts : List Fact) : Prop where
  /-- The state can be read after the change as well. -/
  wf : s'.Wf
  /-- What could be read before is read as it was. -/
  extend : s.Extends s'
  /-- Nothing is known that was not known before or added. -/
  sound : ∀ {fact : Fact}, s'.Shows fact → s.Shows fact ∨ fact ∈ facts
  /-- Whatever was added is known. -/
  complete : ∀ {fact : Fact}, fact ∈ facts → s'.Covers fact

theorem Wf.adds_nil {s : State} (hs : s.Wf) : s.Adds s [] :=
  ⟨hs, .refl s, Or.inl, fun h => absurd h List.not_mem_nil⟩

theorem Adds.trans {s s' s'' : State} {facts facts' : List Fact} (h : s.Adds s' facts)
    (h' : s'.Adds s'' facts') : s.Adds s'' (facts ++ facts') := by
  refine ⟨h'.wf, h.extend.trans h'.extend, fun hs => ?_, fun hmem => ?_⟩
  · rcases h'.sound hs with hs | hmem
    · exact (h.sound hs).imp_right (List.mem_append_left _)
    · exact Or.inr (List.mem_append_right _ hmem)
  · rcases List.mem_append.mp hmem with hmem | hmem
    · exact h'.extend.covers (h.complete hmem)
    · exact h'.complete hmem

theorem Adds.of_mem_iff {s s' : State} {facts facts' : List Fact} (h : s.Adds s' facts)
    (hmem : ∀ f, f ∈ facts ↔ f ∈ facts') : s.Adds s' facts' :=
  ⟨h.wf, h.extend, fun hs => (h.sound hs).imp_right (hmem _).mp, fun hf => h.complete ((hmem _).mpr hf)⟩

/-! ## Changes of one part -/

theorem Extends.caller?_old {s s' : State} (h : s.Extends s') (hs : s.Wf) {key : Stack.Key}
    {e : Stack.Edge} {c : Caller} (he : s.stack.HasEdge key e) (hc : s'.caller? e = some c) :
    s.caller? e = some c := by
  obtain ⟨c', hc'⟩ := hs.callers he
  rw [hc', ← Option.some.inj ((h.caller? hc').symm.trans hc)]

theorem Extends.thread?_old {s s' : State} (h : s.Extends s') (hs : s.Wf) {d : Descriptor}
    {t : Thread} (hd : d ∈ s.agenda.seen.toList) (ht : s'.thread? d = some t) :
    s.thread? d = some t := by
  obtain ⟨t', ht', -⟩ := hs.seen hd
  rw [ht', ← Option.some.inj ((h.thread? ht').symm.trans ht)]

/-- What a state that is extended shows, it showed before, or it is new. -/
theorem Wf.adds_of_extends {s s' : State} (hs : s.Wf) {facts : List Fact} (hext : s.Extends s')
    (hforest : s'.forest.Wf) (hstack : s'.stack.Wf)
    (hcalls : ∀ key, s'.stack.HasCall key → s.stack.HasCall key ∨ .called key ∈ facts)
    (hedges : ∀ key e, s'.stack.HasEdge key e → s.stack.HasEdge key e ∨
      ∃ c, s'.caller? e = some c ∧ .awaited key c ∈ facts)
    (hresults : ∀ key q, s'.stack.HasResult key q → s.stack.HasResult key q ∨
      s'.forest.piece? q.node = some (resultPiece key q.right) ∧
        .result key q.right q.value ∈ facts)
    (hseen : ∀ d, d ∈ s'.agenda.seen.toList → d ∈ s.agenda.seen.toList ∨
      ∃ t, s'.thread? d = some t ∧ s'.Numbered d t ∧ .posted t ∈ facts)
    (hnodes : ∀ fact, s'.forest.Shows fact → s.forest.Shows fact ∨ fact ∈ facts)
    (hcomplete : ∀ fact ∈ facts, s'.Covers fact) : s.Adds s' facts := by
  -- the new state is well-formed, and it shows nothing but old facts and the new ones
  refine ⟨⟨hforest, hstack, fun he => ?_, fun hq => ?_, fun hd => ?_⟩, hext, fun {fact} h => ?_,
    fun h => hcomplete _ h⟩
  · rcases hedges _ _ he with he | ⟨c, hc, -⟩
    · obtain ⟨c, hc⟩ := hs.callers he
      exact ⟨c, hext.caller? hc⟩
    · exact ⟨c, hc⟩
  · rcases hresults _ _ hq with hq | ⟨hpiece, -⟩
    · exact hext.forest.piece? (hs.results hq)
    · exact hpiece
  · rcases hseen _ hd with hd | ⟨t, ht, hnumbered, -⟩
    · obtain ⟨t, ht, hnumbered⟩ := hs.seen hd
      exact ⟨t, hext.thread? ht, hext.numbered hnumbered⟩
    · exact ⟨t, ht, hnumbered⟩
  · cases fact with
    | called key => exact hcalls key h
    | posted t =>
      obtain ⟨d, hd, ht⟩ := h
      rcases hseen d hd with hd | ⟨t', ht', -, hmem⟩
      · exact Or.inl ⟨d, hd, hext.thread?_old hs hd ht⟩
      · exact Or.inr (Option.some.inj (ht'.symm.trans ht) ▸ hmem)
    | passed t => exact False.elim h
    | awaited key c =>
      obtain ⟨e, he, hc⟩ := h
      rcases hedges key e he with he | ⟨c', hc', hmem⟩
      · exact Or.inl ⟨e, he, hext.caller?_old hs he hc⟩
      · exact Or.inr (Option.some.inj (hc'.symm.trans hc) ▸ hmem)
    | result key right value =>
      obtain ⟨q, hq, rfl, rfl⟩ := h
      rcases hresults key q hq with hq | ⟨-, hmem⟩
      · exact Or.inl ⟨q, hq, rfl, rfl⟩
      · exact Or.inr hmem
    | piece w => exact hnodes (.piece w) h
    | packing d => exact hnodes (.packing d) h

/-- A change of the forest. -/
theorem Wf.adds_forest {s : State} (hs : s.Wf) {f : Forest} {facts : List Fact}
    (h : s.forest.Adds f facts) : s.Adds { s with forest := f } facts := by
  have hext : s.Extends { s with forest := f } := ⟨h.extend, id, id, id, id⟩
  refine hs.adds_of_extends hext h.wf hs.stack (fun _ => Or.inl) (fun _ _ => Or.inl)
    (fun _ _ => Or.inl) (fun _ => Or.inl) (fun _ => h.sound) (fun fact hmem => ?_)
  rcases h.complete hmem with hshows | ⟨d, d', rfl, hkey, hshows⟩
  · refine Or.inl ?_
    cases fact with
    | piece w | packing d => exact hshows
    | called _ | posted _ | passed _ | awaited _ _ | result _ _ _ => exact False.elim hshows
  · exact Or.inr ⟨d, d', rfl, hkey, hshows⟩

/-- A change of the stack. -/
theorem Wf.adds_stack {s : State} (hs : s.Wf) {st : Stack} {calls : List Stack.Key}
    {edges : List (Stack.Key × Stack.Edge)} {results : List (Stack.Key × Stack.Popped)}
    {facts : List Fact} (h : s.stack.Adds st calls edges results)
    (hcalls : ∀ key ∈ calls, .called key ∈ facts)
    (hedges : ∀ x ∈ edges, ∃ c, { s with stack := st }.caller? x.2 = some c ∧
      .awaited x.1 c ∈ facts)
    (hresults : ∀ x ∈ results, s.forest.piece? x.2.node = some (resultPiece x.1 x.2.right) ∧
      .result x.1 x.2.right x.2.value ∈ facts)
    (hcomplete : ∀ fact ∈ facts, { s with stack := st }.Covers fact) :
    s.Adds { s with stack := st } facts := by
  have hext : s.Extends { s with stack := st } :=
    ⟨.refl _, h.call?, fun he => h.hasEdge.mpr (Or.inl he),
      fun hq => h.hasResult.mpr (Or.inl hq), id⟩
  exact hs.adds_of_extends hext hs.forest h.wf
    (fun key hkey => (h.hasCall.mp hkey).imp_right (hcalls key))
    (fun key e he => (h.hasEdge.mp he).imp_right (hedges (key, e)))
    (fun key q hq => (h.hasResult.mp hq).imp_right (hresults (key, q)))
    (fun _ => Or.inl) (fun _ => Or.inl) hcomplete

theorem Wf.adds_call {s : State} (hs : s.Wf) {st : Stack} {key : Stack.Key}
    (h : s.stack.Adds st [key] [] []) : s.Adds { s with stack := st } [.called key] := by
  refine hs.adds_stack h (fun key' h => ?_) (fun x h => absurd h List.not_mem_nil)
    (fun x h => absurd h List.not_mem_nil) (fun f hf => ?_)
  · exact List.mem_singleton.mp h ▸ List.mem_singleton_self _
  · obtain rfl := List.mem_singleton.mp hf
    exact Or.inl (h.hasCall.mpr (Or.inr (List.mem_singleton_self _)))

theorem Wf.adds_edge {s : State} (hs : s.Wf) {st : Stack} {key : Stack.Key} {e : Stack.Edge}
    {c : Caller} (h : s.stack.Adds st [] [(key, e)] []) (hc : s.caller? e = some c) :
    s.Adds { s with stack := st } [.awaited key c] := by
  have hc' : { s with stack := st }.caller? e = some c := by
    obtain ⟨hcall, hslot, hpart, henv⟩ := caller?_eq_some_iff.mp hc
    exact caller?_eq_some_iff.mpr ⟨h.call? hcall, hslot, hpart, henv⟩
  refine hs.adds_stack h (fun key h => absurd h List.not_mem_nil) (fun x hx => ?_)
    (fun x h => absurd h List.not_mem_nil) (fun f hf => ?_)
  · obtain rfl := List.mem_singleton.mp hx
    exact ⟨c, hc', List.mem_singleton_self _⟩
  · obtain rfl := List.mem_singleton.mp hf
    exact Or.inl ⟨e, h.hasEdge.mpr (Or.inr (List.mem_singleton_self _)), hc'⟩

theorem Wf.adds_result {s : State} (hs : s.Wf) {st : Stack} {key : Stack.Key} {q : Stack.Popped}
    (h : s.stack.Adds st [] [] [(key, q)])
    (hq : s.forest.piece? q.node = some (resultPiece key q.right)) :
    s.Adds { s with stack := st } [.result key q.right q.value] := by
  refine hs.adds_stack h (fun key h => absurd h List.not_mem_nil)
    (fun x h => absurd h List.not_mem_nil) (fun x hx => ?_) (fun f hf => ?_)
  · obtain rfl := List.mem_singleton.mp hx
    exact ⟨hq, List.mem_singleton_self _⟩
  · obtain rfl := List.mem_singleton.mp hf
    exact Or.inl ⟨q, h.hasResult.mpr (Or.inr (List.mem_singleton_self _)), rfl, rfl⟩

/-- A change of the agenda. -/
theorem Wf.adds_agenda {s : State} (hs : s.Wf) {a : Agenda} {d : Descriptor} {t : Thread}
    (h : s.agenda.Accepts d a) (ht : s.thread? d = some t) (hnumbered : s.Numbered d t) :
    s.Adds { s with agenda := a } [.posted t] := by
  have hext : s.Extends { s with agenda := a } :=
    ⟨.refl _, id, id, id, fun hd => h.mem_seen.mpr (Or.inl hd)⟩
  refine hs.adds_of_extends hext hs.forest hs.stack (fun _ => Or.inl) (fun _ _ => Or.inl)
    (fun _ _ => Or.inl) (fun d' hd' => ?_) (fun _ => Or.inl) (fun fact hmem => ?_)
  · refine (h.mem_seen.mp hd').imp_right ?_
    intro heq
    subst heq
    exact ⟨t, ht, hnumbered, List.mem_singleton_self _⟩
  · obtain rfl := List.mem_singleton.mp hmem
    exact Or.inl ⟨d, h.mem_seen.mpr (Or.inr rfl), ht⟩

/-- A change of what shows no facts. -/
theorem Wf.adds_rest {s s' : State} (hs : s.Wf) (hforest : s'.forest = s.forest)
    (hstack : s'.stack = s.stack) (hseen : s'.agenda.seen = s.agenda.seen) : s.Adds s' [] := by
  have hext : s.Extends s' :=
    ⟨hforest ▸ .refl _, by rw [hstack]; exact id, by rw [hstack]; exact id,
      by rw [hstack]; exact id, by rw [hseen]; exact id⟩
  refine hs.adds_of_extends hext (hforest ▸ hs.forest) (hstack ▸ hs.stack) (fun _ h => Or.inl ?_)
    (fun _ _ h => Or.inl ?_) (fun _ _ h => Or.inl ?_) (fun _ h => Or.inl ?_)
    (fun _ h => Or.inl ?_) (fun _ h => absurd h List.not_mem_nil)
  · exact hstack ▸ h
  · exact hstack ▸ h
  · exact hstack ▸ h
  · exact hseen ▸ h
  · exact hforest ▸ h

end State

end Parser

end GeneralLL
