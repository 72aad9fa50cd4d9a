import GeneralLL.Proofs.Run

/-!
# How forests are built

A parse changes its forest in few ways (`Forest.Built`): it numbers arguments, makes
leaves, and adds derivations. A nonterminal or a part of a rule is made only together with
a derivation, whose parts are there already.

So a forest is **founded** (`Forest.Founded`): leaves have no derivations, every other node
has one, and its first derivation is made of nodes with smaller numbers. Cycles come from
later derivations only.
-/

namespace GeneralLL

namespace Forest

/-! ## Numbers of nodes -/

theorem size_le_find (f : Forest) (span : Span) : f.size ≤ (f.find span).2.size := by
  unfold find
  cases f.lookup span with
  | some id => exact Nat.le_refl _
  | none =>
    show f.nodes.size ≤ (f.nodes.push { span }).size
    rw [Array.size_push]
    omega

/-- The node that is found or made has a number of the forest. -/
theorem find_lt_size (f : Forest) (span : Span) : (f.find span).1 < (f.find span).2.size := by
  unfold find
  cases hlookup : f.lookup span with
  | some id =>
    obtain ⟨n, hn, -⟩ := lookup_eq_some hlookup
    exact (Array.getElem?_eq_some_iff.mp hn).1
  | none =>
    show f.nodes.size < (f.nodes.push { span }).size
    rw [Array.size_push]
    omega

theorem size_addPacked (f : Forest) (parent slot : Nat) (left : Option Nat) (right : Nat) :
    (f.addPacked parent slot left right).2.size = f.size := by
  rcases f.addPacked_cases parent slot left right with ⟨i, -, -, -, -, -, h⟩ | ⟨-, h⟩
  · rw [h]
  · rw [h]
    exact Array.size_modify

/-- A derivation of the node with this span, which is made if there is none. -/
def derive (f : Forest) (span : Span) (slot : Nat) (left : Option Nat) (right : Nat) : Forest :=
  ((f.find span).2.addPacked (f.find span).1 slot left right).2

theorem size_le_derive (f : Forest) (span : Span) (slot : Nat) (left : Option Nat) (right : Nat) :
    f.size ≤ (f.derive span slot left right).size := by
  rw [derive, size_addPacked]
  exact f.size_le_find span

/-- **How a parse builds its forest.** -/
inductive Built : Forest → Prop where
  | empty : Built .empty
  | arguments {f : Forest} (values : List Value) : Built f → Built (f.internArguments values).2
  | leaf {f : Forest} (id left right : Nat) : Built f → Built (f.terminal id left right).2
  | derivation {f : Forest} {span : Span} (slot : Nat) {left : Option Nat} {right : Nat} :
      Built f → span.label.isTerminal = false → (∀ l ∈ left, l < f.size) → right < f.size →
      Built (f.derive span slot left right)

/-- Parts are joined by a derivation, or there is only one of them. -/
theorem Built.getNode {f : Forest} (hf : f.Built) (slot : Nat) (arguments : Option Nat)
    {left : Option Nat} {right : Nat} (hleft : ∀ l ∈ left, l < f.size) (hright : right < f.size) :
    (f.getNode slot arguments left right).2.Built := by
  cases left with
  | none => exact hf
  | some l =>
    have hbuilt : (f.derive ⟨.intermediate slot arguments, (f.get l).span.left,
        (f.get right).span.right⟩ slot (some l) right).Built :=
      hf.derivation slot rfl hleft hright
    exact hbuilt

theorem size_le_getNode (f : Forest) (slot : Nat) (arguments left : Option Nat) (right : Nat) :
    f.size ≤ (f.getNode slot arguments left right).2.size := by
  cases left with
  | none => exact Nat.le_refl _
  | some l => exact f.size_le_derive _ slot (some l) right

/-! ## Founded forests -/

/-- Leaves have no derivations; all other nodes have one, the first of which is made of nodes with
smaller numbers. -/
structure Founded (f : Forest) : Prop where
  /-- Every packed node belongs to a node. -/
  parents : ∀ {i : Nat} {k : Packed}, f.packed[i]? = some k → k.parent < f.size
  /-- Terminals have no derivations. -/
  leaves : ∀ {id : Nat} {n : Node}, f.nodes[id]? = some n → n.span.label.isTerminal →
    n.packed = []
  /-- A first derivation leads to smaller numbers only. -/
  first : ∀ {id : Nat} {n : Node}, f.nodes[id]? = some n → n.span.label.isTerminal = false →
    ∃ i rest k, n.packed = i :: rest ∧ f.packed[i]? = some k ∧ k.right < id ∧
      ∀ l ∈ k.left, l < id

theorem founded_empty : Founded empty := by
  refine ⟨fun h => ?_, fun h => ?_, fun h => ?_⟩ <;> simp [empty] at h

/-- A new derivation goes behind those that a node has. -/
theorem Founded.pushPacked {f : Forest} (hf : f.Founded) {k : Packed} {n : Node}
    (hn : f.nodes[k.parent]? = some n) (hlabel : n.span.label.isTerminal = false) :
    (f.pushPacked k).Founded := by
  refine ⟨fun {i l} hl => ?_, fun {id m} hm hleaf => ?_, fun {id m} hm hinner => ?_⟩
  · have hsize : (f.pushPacked k).size = f.size := Array.size_modify
    rw [hsize]
    rcases getElem?_push_cases hl with hl | ⟨-, rfl⟩
    · exact hf.parents hl
    · exact (Array.getElem?_eq_some_iff.mp hn).1
  · obtain ⟨m', hm', hspan, hpacked⟩ := pushPacked_node hm
    rw [hspan] at hleaf
    have hne : k.parent ≠ id := by
      intro heq
      subst heq
      obtain rfl := Option.some.inj (hn.symm.trans hm')
      rw [hlabel] at hleaf
      exact absurd hleaf (by simp)
    rw [hpacked, if_neg hne]
    exact hf.leaves hm' hleaf
  · obtain ⟨m', hm', hspan, hpacked⟩ := pushPacked_node hm
    rw [hspan] at hinner
    obtain ⟨i, rest, l, hlist, hl, hright, hleft⟩ := hf.first hm' hinner
    by_cases hid : k.parent = id
    · rw [if_pos hid, hlist] at hpacked
      exact ⟨i, _, l, hpacked, getElem?_push_old hl, hright, hleft⟩
    · rw [if_neg hid, hlist] at hpacked
      exact ⟨i, rest, l, hpacked, getElem?_push_old hl, hright, hleft⟩

/-- The forest with one more node. -/
def pushNode (f : Forest) (span : Span) : Forest := { f with nodes := f.nodes.push { span } }

/-- A node that is made with its first derivation is founded on the nodes before it. -/
theorem Founded.push {f : Forest} (hf : f.Founded) {span : Span} {slot pivot right : Nat}
    {left : Option Nat} (hlabel : span.label.isTerminal = false) (hleft : ∀ l ∈ left, l < f.size)
    (hright : right < f.size) :
    ((f.pushNode span).pushPacked ⟨f.size, slot, pivot, left, right⟩).Founded := by
  have hnode {id : Nat} {n : Node}
      (hn : ((f.pushNode span).pushPacked ⟨f.size, slot, pivot, left, right⟩).nodes[id]? = some n) :
      (∃ m, f.nodes[id]? = some m ∧ n.span = m.span ∧ n.packed = m.packed) ∨
        id = f.size ∧ n.span = span ∧ n.packed = [f.packed.size] := by
    obtain ⟨m, hm, hspan, hpacked⟩ := pushPacked_node hn
    rcases getElem?_push_cases hm with hm | ⟨rfl, rfl⟩
    · have hlt := (Array.getElem?_eq_some_iff.mp hm).1
      have hne : f.size ≠ id := by
        intro h
        rw [← h] at hlt
        exact absurd hlt (Nat.lt_irrefl _)
      rw [if_neg hne] at hpacked
      exact Or.inl ⟨m, hm, hspan, hpacked⟩
    · have hparent : f.size = f.nodes.size := rfl
      rw [if_pos hparent] at hpacked
      exact Or.inr ⟨rfl, hspan, hpacked⟩
  refine ⟨fun {i l} hl => ?_, fun {id n} hn hleaf => ?_, fun {id n} hn hinner => ?_⟩
  · show l.parent < ((f.nodes.push { span }).modify _ _).size
    rw [Array.size_modify, Array.size_push]
    rcases getElem?_push_cases hl with hl | ⟨-, rfl⟩
    · exact Nat.lt_succ_of_lt (hf.parents hl)
    · exact Nat.lt_succ_self _
  · rcases hnode hn with ⟨m, hm, hspan, hpacked⟩ | ⟨rfl, hspan, -⟩
    · rw [hpacked]
      exact hf.leaves hm (hspan ▸ hleaf)
    · rw [hspan, hlabel] at hleaf
      exact absurd hleaf (by simp)
  · rcases hnode hn with ⟨m, hm, hspan, hpacked⟩ | ⟨rfl, -, hpacked⟩
    · obtain ⟨i, rest, l, hlist, hl, hsmaller⟩ := hf.first hm (hspan ▸ hinner)
      exact ⟨i, rest, l, hpacked.trans hlist, getElem?_push_old hl, hsmaller⟩
    · exact ⟨_, [], _, hpacked, Array.getElem?_push_size, hright, hleft⟩

/-- **Forests are founded.** -/
theorem Built.founded {f : Forest} (h : f.Built) : f.Founded := by
  induction h with
  | empty => exact founded_empty
  | arguments values _ ih => exact ⟨ih.parents, ih.leaves, ih.first⟩
  | @leaf f id left right _ ih =>
    rw [terminal, find]
    cases f.lookup ⟨.terminal id, left, right⟩ with
    | some id => exact ih
    | none =>
      refine ⟨fun hk => ?_, fun {id n} hn hleaf => ?_, fun {id n} hn hinner => ?_⟩
      · show _ < (f.nodes.push _).size
        rw [Array.size_push]
        exact Nat.lt_succ_of_lt (ih.parents hk)
      · rcases getElem?_push_cases hn with hn | ⟨-, rfl⟩
        · exact ih.leaves hn hleaf
        · rfl
      · rcases getElem?_push_cases hn with hn | ⟨-, rfl⟩
        · exact ih.first hn hinner
        · exact absurd hinner (by simp [Label.isTerminal])
  | @derivation f span slot left right _ hlabel hleft hright ih =>
    unfold derive find
    cases hlookup : f.lookup span with
    | some id =>
      obtain ⟨n, hn, rfl⟩ := lookup_eq_some hlookup
      rcases f.addPacked_cases id slot left right with ⟨i, -, -, -, -, -, h⟩ | ⟨-, h⟩
      · rw [h]
        exact ih
      · rw [h]
        exact ih.pushPacked (k := ⟨id, slot, f.pivot left right, left, right⟩) hn hlabel
    | none =>
      show ((f.pushNode span).addPacked f.size slot left right).2.Founded
      rcases (f.pushNode span).addPacked_cases f.size slot left right with
        ⟨i, k, hk, hparent, -⟩ | ⟨-, h⟩
      · -- the node is new, so nothing is packed into it yet
        have hlt := ih.parents hk
        omega
      · rw [h]
        exact ih.push hlabel hleft hright

end Forest

/-! ## Stacks that refer to a forest -/

namespace Stack

/-- Edges and results refer to forest nodes below a number. -/
def Within (s : Stack) (size : Nat) : Prop :=
  ∀ (id : Nat) (n : Node), s.nodes[id]? = some n →
    (∀ e ∈ n.edges, ∀ w ∈ e.node, w < size) ∧ ∀ q ∈ n.popped, q.node < size

theorem within_empty (size : Nat) : empty.Within size :=
  fun id n h => absurd h (by simp [empty])

theorem Within.mono {s : Stack} {size size' : Nat} (h : s.Within size) (hle : size ≤ size') :
    s.Within size' := by
  intro id n hn
  obtain ⟨hedges, hpopped⟩ := h id n hn
  exact ⟨fun e he w hw => Nat.lt_of_lt_of_le (hedges e he w hw) hle,
    fun q hq => Nat.lt_of_lt_of_le (hpopped q hq) hle⟩

theorem Within.get {s : Stack} {size : Nat} (h : s.Within size) (id : Nat) :
    (∀ e ∈ (s.get id).edges, ∀ w ∈ e.node, w < size) ∧ ∀ q ∈ (s.get id).popped, q.node < size := by
  cases hn : s.nodes[id]? with
  | none =>
    rw [Stack.get, hn]
    exact ⟨fun e he => absurd he List.not_mem_nil, fun q hq => absurd hq List.not_mem_nil⟩
  | some n =>
    rw [get_eq hn]
    exact h id n hn

theorem Within.getOrCreate {s : Stack} {size : Nat} (h : s.Within size) (key : Key) :
    (s.getOrCreate key).2.Within size := by
  unfold Stack.getOrCreate
  cases s.find? key with
  | some id => exact h
  | none =>
    intro id n hn
    rcases getElem?_push_cases hn with hn | ⟨-, rfl⟩
    · exact h id n hn
    · exact ⟨fun e he => absurd he List.not_mem_nil, fun q hq => absurd hq List.not_mem_nil⟩

theorem Within.addEdge {s : Stack} {size : Nat} (h : s.Within size) (source : Nat) {e : Edge}
    (he : ∀ w ∈ e.node, w < size) : (s.addEdge source e).2.Within size := by
  unfold Stack.addEdge
  split
  · exact h
  · intro id n hn
    obtain ⟨m, hm, rfl⟩ := getElem?_modify_cases hn
    obtain ⟨hedges, hpopped⟩ := h id m hm
    split
    · refine ⟨fun e' he' w hw => ?_, fun q hq => hpopped q (by simpa using hq)⟩
      rcases Node.mem_edges_addEdge.mp he' with he' | rfl
      · exact hedges e' he' w hw
      · exact he w hw
    · exact ⟨hedges, hpopped⟩

theorem Within.addPopped {s : Stack} {size : Nat} (h : s.Within size) (id : Nat) {q : Popped}
    (hq : q.node < size) : (s.addPopped id q).2.Within size := by
  unfold Stack.addPopped
  split
  · exact h
  · intro id' n hn
    obtain ⟨m, hm, rfl⟩ := getElem?_modify_cases hn
    obtain ⟨hedges, hpopped⟩ := h id' m hm
    split
    · refine ⟨fun e he => hedges e he, fun q' hq' => ?_⟩
      rcases Node.mem_addPopped.mp hq' with hq' | rfl
      · exact hpopped q' hq'
      · exact hq
    · exact ⟨hedges, hpopped⟩

end Stack

namespace Parser

namespace State

/-- The forest grows as forests are built, and the stack stays. -/
structure Builds (s s' : State) : Prop where
  /-- If the forest was built as forests are, it still is. -/
  built : s.forest.Built → s'.forest.Built
  /-- No number of a node is lost. -/
  size : s.forest.size ≤ s'.forest.size
  /-- The stack is left alone. -/
  stack : s'.stack = s.stack

theorem Builds.of_eq {s s' : State} (hforest : s'.forest = s.forest)
    (hstack : s'.stack = s.stack) : s.Builds s' :=
  ⟨fun h => by rw [hforest]; exact h, Nat.le_of_eq (by rw [hforest]), hstack⟩

theorem Builds.trans {s s' s'' : State} (h : s.Builds s') (h' : s'.Builds s'') : s.Builds s'' :=
  ⟨h'.built ∘ h.built, Nat.le_trans h.size h'.size, h'.stack.trans h.stack⟩

theorem builds_terminal (s : State) (id left right : Nat) :
    s.Builds { s with forest := (s.forest.terminal id left right).2 } :=
  ⟨fun h => h.leaf id left right, s.forest.size_le_find _, rfl⟩

theorem builds_getNode {s : State} (slot : Nat) (arguments : Option Nat) {left : Option Nat}
    {right : Nat} (hleft : ∀ l ∈ left, l < s.forest.size) (hright : right < s.forest.size) :
    s.Builds { s with forest := (s.forest.getNode slot arguments left right).2 } :=
  ⟨fun h => h.getNode slot arguments hleft hright, s.forest.size_le_getNode _ _ _ _, rfl⟩

/-- **The forest was built as forests are,** and the stack refers to nodes of it only. -/
structure Grounded (s : State) : Prop where
  /-- The forest comes from the empty one by changes of forests. -/
  built : s.forest.Built
  /-- Edges and results refer to nodes that the forest has. -/
  stack : s.stack.Within s.forest.size

theorem Grounded.of_builds {s s' : State} (hs : s.Grounded) (h : s.Builds s') : s'.Grounded :=
  ⟨h.built hs.built, by rw [h.stack]; exact hs.stack.mono h.size⟩

end State

/-! ## Moves build the forest -/

section

variable {s : State}

theorem builds_callArguments {E : ConditionError → Prop} (id : Nat) :
    Ends (callArguments id) s (fun _ s' => s.Builds s') E := by
  unfold callArguments
  refine ends_bind (ends_get ?_)
  cases (s.stack.get id).key.arguments with
  | none => exact ends_pure (.of_eq rfl rfl)
  | some values => exact ⟨fun h => h.arguments values, Nat.le_refl _, rfl⟩

variable {μ : Type} [Matcher μ] {p : Parser μ} {g : Grammar μ}

/-- A caller that goes on joins the result to its part. -/
theorem builds_propagate {edge : Stack.Edge} {left : Nat} {immediate : Bool}
    {result : Stack.Popped} (hedge : ∀ w ∈ edge.node, w < s.forest.size)
    (hresult : result.node < s.forest.size) :
    Ends (p.propagate edge left immediate result) s (fun _ s' => s.Builds s') (fun _ => True) := by
  have hnothing : s.Builds s := .of_eq rfl rfl
  unfold propagate
  cases (p.graph.slot edge.call).action with
  | scan | branch | complete => exact ends_pure hnothing
  | call callee arguments notes dest =>
    refine ends_bind (ends_ask (fun b _ => ?_) fun _ _ => trivial)
    cases b with
    | false => exact ends_pure hnothing
    | true =>
      rw [if_pos rfl]
      split
      · refine ends_bind ((builds_callArguments edge.dest).imp ?_ fun _ h => h)
        intro a s₁ hs₁
        have hnode : s₁.Builds
            { s₁ with forest := (s₁.forest.getNode dest a edge.node result.node).2 } :=
          State.builds_getNode dest a (fun w hw => Nat.lt_of_lt_of_le (hedge w hw) hs₁.size)
            (Nat.lt_of_lt_of_le hresult hs₁.size)
        exact ends_bind (ends_onForest (ends_onAgenda ((hs₁.trans hnode).trans (.of_eq rfl rfl))))
      · exact ends_pure hnothing

/-- So does a round of them. -/
theorem builds_propagateAll {α : Type} (edge : α → Stack.Edge) (result : α → Stack.Popped)
    {left : Nat} {immediate : Bool} {l : List α} :
    ∀ {s : State}, (∀ x ∈ l, ∀ w ∈ (edge x).node, w < s.forest.size) →
      (∀ x ∈ l, (result x).node < s.forest.size) →
      Ends (l.forM fun x => p.propagate (edge x) left immediate (result x)) s
        (fun _ s' => s.Builds s') (fun _ => True) := by
  induction l with
  | nil => exact fun _ _ => ends_pure (.of_eq rfl rfl)
  | cons x rest ih =>
    intro s hedges hresults
    refine ends_bind ((builds_propagate (hedges x List.mem_cons_self)
      (hresults x List.mem_cons_self)).imp ?_ fun _ h => h)
    intro _ s₁ hs₁
    refine (ih (fun y hy w hw => ?_) (fun y hy => ?_)).imp (fun _ s₂ hs₂ => hs₁.trans hs₂)
      fun _ h => h
    · exact Nat.lt_of_lt_of_le (hedges y (List.mem_cons_of_mem _ hy) w hw) hs₁.size
    · exact Nat.lt_of_lt_of_le (hresults y (List.mem_cons_of_mem _ hy)) hs₁.size

theorem builds_offerAll {E : ConditionError → Prop} (d : Nat → Descriptor) {slots : List Nat} :
    ∀ {s : State}, Ends (slots.forM fun slot => onAgenda (·.offer (d slot))) s
      (fun _ s' => s'.forest = s.forest ∧ s'.stack = s.stack) E := by
  induction slots with
  | nil => exact ends_pure ⟨rfl, rfl⟩
  | cons slot rest ih => exact ends_bind (ends_onAgenda ih)

omit [Matcher μ] in
/-- A new call leaves the forest as it is. -/
theorem grounded_create {E : ConditionError → Prop} {callee position : Nat}
    {values : Option (List Value)} (hs : s.Grounded) :
    Ends (p.create callee values position) s
      (fun _ s' => s'.Grounded ∧ s'.forest = s.forest) E := by
  unfold create
  dsimp only
  refine ends_bind (ends_get ?_)
  cases s.stack.find? ⟨callee, position, values⟩ with
  | some id => exact ends_pure ⟨hs, rfl⟩
  | none =>
    dsimp only
    split
    · exact ends_pure ⟨hs, rfl⟩
    · refine ends_bind (ends_onStack (ends_bind ((builds_offerAll _).imp ?_ fun _ h => h)))
      intro _ s' hoffered
      obtain ⟨hforest, hstack⟩ := hoffered
      refine ends_pure ⟨⟨?_, ?_⟩, hforest⟩
      · rw [hforest]
        exact hs.built
      · rw [hforest, hstack]
        exact hs.stack.getOrCreate _

theorem grounded_scan {d : Descriptor} {terminal dest : Nat} {notes : Annotations μ}
    (hs : s.Grounded) (hd : ∀ w ∈ d.forestNode, w < s.forest.size) :
    Ends (p.scan d terminal notes dest) s (fun _ s' => s'.Grounded) (fun _ => True) := by
  unfold scan
  refine ends_bind (ends_goOn (ends_bind (ends_ask (fun b _ => ?_) fun _ _ => trivial)))
  have hs : State.Grounded { s with running := none } := hs.of_builds (.of_eq rfl rfl)
  cases b with
  | false => exact ends_pure hs
  | true =>
    rw [if_pos rfl]
    cases (p.graph.terminal terminal).matchAt p.input d.position with
    | none => exact ends_record fun reach => hs.of_builds (.of_eq rfl rfl)
    | some right =>
      refine ends_bind (ends_ask (fun b _ => ?_) fun _ _ => trivial)
      cases b with
      | false => exact ends_pure hs
      | true =>
        rw [if_pos rfl]
        refine ends_bind (ends_onForest ?_)
        have hleaf := State.builds_terminal { s with running := none } terminal d.position right
        have hlt := Forest.find_lt_size s.forest ⟨.terminal terminal, d.position, right⟩
        refine ends_bind ((builds_callArguments d.stackNode).imp ?_ fun _ h => h)
        intro a s₁ hs₁
        have hsize := Nat.le_trans hleaf.size hs₁.size
        let leaf := (s.forest.terminal terminal d.position right).1
        have hnode : s₁.Builds
            { s₁ with forest := (s₁.forest.getNode dest a d.forestNode leaf).2 } :=
          State.builds_getNode dest a (fun w hw => Nat.lt_of_lt_of_le (hd w hw) hsize)
            (Nat.lt_of_lt_of_le hlt hs₁.size)
        refine ends_bind (ends_onForest (ends_goOn (hs.of_builds ?_)))
        exact ((hleaf.trans hs₁).trans hnode).trans (.of_eq rfl rfl)

theorem grounded_call {d : Descriptor} {callee : Nat} {arguments : List Expr}
    {notes : Annotations μ} (hs : s.Grounded) (hd : ∀ w ∈ d.forestNode, w < s.forest.size) :
    Ends (p.call d callee arguments notes) s (fun _ s' => s'.Grounded) (fun _ => True) := by
  unfold call
  refine ends_bind (ends_goOn (ends_bind (ends_ask (fun b _ => ?_) fun _ _ => trivial)))
  have hs : State.Grounded { s with running := none } := hs.of_builds (.of_eq rfl rfl)
  cases b with
  | false => exact ends_pure hs
  | true =>
    rw [if_pos rfl]
    refine ends_arguments (fun values _ => ?_) fun _ _ => trivial
    refine ends_bind ((grounded_create hs).imp ?_ fun _ h => h)
    intro o s₁ hcreated
    obtain ⟨hs₁, hforest⟩ := hcreated
    cases o with
    | none => exact ends_record fun reach => hs₁.of_builds (.of_eq rfl rfl)
    | some node =>
      refine ends_bind (ends_onStack ?_)
      have hd : ∀ w ∈ d.forestNode, w < s₁.forest.size := by
        rw [hforest]
        exact hd
      -- the edge of the caller refers to what the caller had recognised
      let e : Stack.Edge := ⟨d.stackNode, d.slot, d.forestNode, notes.bindCall d.position d.env⟩
      let s₂ : State := { s₁ with stack := (s₁.stack.addEdge node e).2 }
      have hs₂ : s₂.Grounded := ⟨hs₁.built, hs₁.stack.addEdge node hd⟩
      show Ends (ite ((s₁.stack.addEdge node e).1 = true) _ _) s₂ _ _
      split
      · refine ends_bind (ends_get ?_)
        exact (builds_propagateAll (s := s₂) (fun _ => e) (fun q => q) (fun _ _ => hd)
          (hs₂.stack.get node).2).imp (fun _ s' hs' => hs₂.of_builds hs') fun _ h => h
      · exact ends_pure hs₂

omit [Matcher μ] in
/-- The piece that a rule has recognised is there, or the leaf of the empty terminal is made. -/
theorem grounded_child {α : Type} {d : Descriptor} {next : Nat → Move α} {Q : α → State → Prop}
    (hs : s.Grounded) (hd : ∀ w ∈ d.forestNode, w < s.forest.size)
    (h : ∀ (child : Nat) (s₁ : State), s₁.Grounded → child < s₁.forest.size →
      Ends (next child) s₁ Q (fun _ => True)) :
    Ends (match d.forestNode with
      | some child => pure child >>= next
      | none => onForest (·.terminal p.graph.epsilon d.position d.position) >>= next)
      s Q (fun _ => True) := by
  cases hnode : d.forestNode with
  | some child => exact ends_bind (ends_pure (h child _ hs (hd child hnode)))
  | none =>
    have hleaf := State.builds_terminal s p.graph.epsilon d.position d.position
    exact ends_bind (ends_onForest (h _ _ (hs.of_builds hleaf) (Forest.find_lt_size ..)))

/-- The node of a complete rule is made with the derivation by the rule. -/
theorem grounded_complete {d : Descriptor} {returns : Option Expr} (hs : s.Grounded)
    (hd : ∀ w ∈ d.forestNode, w < s.forest.size) :
    Ends (p.complete d returns) s (fun _ s' => s'.Grounded) (fun _ => True) := by
  unfold complete
  have hs : State.Grounded { s with running := none } := hs.of_builds (.of_eq rfl rfl)
  refine ends_bind (ends_goOn (grounded_child hs hd fun child s₁ hs₁ hlt => ?_))
  refine ends_bind (ends_get (ends_bind ((builds_callArguments d.stackNode).imp ?_ fun _ h => h)))
  intro a s₂ hs₂
  have hground₂ := hs₁.of_builds hs₂
  have hlt₂ := Nat.lt_of_lt_of_le hlt hs₂.size
  refine ends_bind (ends_onForest (ends_bind (ends_onForest ?_)))
  let span : Forest.Span := ⟨.nonterminal (p.graph.slot d.slot).head a,
    (s₁.stack.get d.stackNode).key.position, d.position⟩
  let s₃ : State := { s₂ with forest := s₂.forest.derive span d.slot none child }
  have hderived : s₂.Builds s₃ :=
    ⟨fun h => h.derivation d.slot rfl (fun l hl => absurd hl (by simp)) hlt₂,
      s₂.forest.size_le_derive _ _ _ _, rfl⟩
  have hground₃ := hground₂.of_builds hderived
  have hnode : (s₂.forest.find span).1 < s₃.forest.size := by
    show _ < (s₂.forest.derive span d.slot none child).size
    rw [Forest.derive, Forest.size_addPacked]
    exact s₂.forest.find_lt_size span
  refine ends_returned (fun value _ => ?_) fun _ _ => trivial
  let q : Stack.Popped := ⟨(s₂.forest.find span).1, d.position, value⟩
  let s₄ : State := { s₃ with stack := (s₃.stack.addPopped d.stackNode q).2 }
  have hground₄ : s₄.Grounded := ⟨hground₃.built, hground₃.stack.addPopped d.stackNode hnode⟩
  refine ends_bind (ends_onStack ?_)
  show Ends (ite ((s₃.stack.addPopped d.stackNode q).1 = true) _ _) s₄ _ _
  split
  · refine ends_bind (ends_get ?_)
    exact (builds_propagateAll (s := s₄) (fun e => e) (fun _ => q)
      (hground₄.stack.get d.stackNode).1 (fun _ _ => hnode)).imp
        (fun _ s' hs' => hground₄.of_builds hs') fun _ h => h
  · exact ends_pure hground₄

/-- **A move of a thread builds the forest.** -/
theorem grounded_advance {d : Descriptor} (hs : s.Grounded)
    (hd : ∀ w ∈ d.forestNode, w < s.forest.size) :
    Ends (p.advance d) s (fun _ s' => s'.Grounded) (fun _ => True) := by
  unfold advance
  cases (p.graph.slot d.slot).action with
  | scan terminal notes dest => exact grounded_scan hs hd
  | call callee arguments notes dest => exact grounded_call hs hd
  | branch condition ifTrue ifFalse =>
    exact ends_bind (ends_ask (fun b _ => ends_goOn (hs.of_builds (.of_eq rfl rfl)))
      fun _ _ => trivial)
  | complete returns => exact grounded_complete hs hd

end

/-! ## The forests of a parse -/

variable {μ : Type} [Matcher μ] {p : Parser μ} {g : Grammar μ}

omit [Matcher μ] in
theorem grounded_begin {s : State} (h : p.begin p.initial = .ok () s) : s.Grounded := by
  have hinitial : p.initial.Grounded := ⟨.empty, Stack.within_empty _⟩
  have hends : Ends p.begin p.initial (fun _ s => s.Grounded) (fun _ => True) := by
    unfold begin
    refine ends_bind ((grounded_create hinitial).imp ?_ fun _ h => h)
    intro o s hcreated
    cases o with
    | none => exact ends_modify (hcreated.1.of_builds (.of_eq rfl rfl))
    | some id => exact ends_pure hcreated.1
  unfold Ends at hends
  rw [h] at hends
  exact hends

/-- **A step builds the forest.** The thread that moves refers to a node that is there. -/
theorem Reached.grounded_step {ran : Thread → Prop} {log : List Descriptor} {s s' : State}
    (hreached : p.Reached ran log s) (hs : s.Grounded) (h : p.step s = .ok true s') :
    s'.Grounded := by
  have hends : Ends p.step s (fun _ s' => s'.Grounded) (fun _ => True) := by
    unfold step
    refine ends_bind (ends_get ?_)
    cases hrunning : s.running with
    | some d =>
      obtain ⟨t, ht, -⟩ := hreached.running hrunning
      obtain ⟨-, -, -, hpart, -⟩ := State.thread?_eq_some_iff.mp ht
      have hd : ∀ w ∈ d.forestNode, w < s.forest.size := by
        intro w hw
        rw [hw] at hpart
        obtain ⟨piece, hpiece, -⟩ := Option.map_eq_some_iff.mp hpart
        exact Forest.lt_size_of_piece? hpiece
      exact ends_bind ((grounded_advance hs hd).imp (fun _ _ h => ends_pure h) fun _ h => h)
    | none =>
      dsimp only
      cases s.agenda.take with
      | none => exact ends_pure hs
      | some next =>
        exact ends_bind (ends_set (ends_bind
          (ends_record fun reach => ends_pure (hs.of_builds (.of_eq rfl rfl)))))
  unfold Ends at hends
  rw [h] at hends
  exact hends

/-- **The forest of every state of a parse was built as forests are.** -/
theorem Reaches.grounded [DecidableEq μ] (hg : SlotGraph.ofGrammar g = .ok p.graph)
    {log : List Descriptor}
    {s : State} (h : p.Reaches log s) : s.Grounded := by
  induction h with
  | begin hbegin => exact grounded_begin hbegin
  | step hreaches hstep ih =>
    obtain ⟨ran, hreached⟩ := hreaches.reached hg
    exact hreached.grounded_step ih hstep

end Parser

end GeneralLL
