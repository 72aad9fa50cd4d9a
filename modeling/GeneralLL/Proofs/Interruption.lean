import GeneralLL.Proofs.Combinations
import GeneralLL.Proofs.Furthest

/-!
# Moves that are cut short

An expression without an answer ends a parse in the middle of a move. What a move leads to if
it ends well says nothing about the state that is left behind then. `Leaves` says of a move
what is true of its last state in both cases.

What is true in both is that what is in the state has its reasons (`Backed`): it can be read,
and the parse is entitled to it. A move that completes a rule makes the node before the call
has the result, so meanwhile one piece may be **owed**. If the move ends well, the result is
there (`Backed.settle`), so between moves nothing is owed (`Reaches.backed`).
-/

namespace GeneralLL

/-- What waits was accepted, if that was so before. -/
theorem Agenda.Grows.mem_seen {a a' : Agenda} (h : a.Grows a')
    (hold : ∀ d ∈ a.waiting, d ∈ a.seen.toList) {d : Descriptor} (hd : d ∈ a'.waiting) :
    d ∈ a'.seen.toList := by
  obtain ⟨l, hseen, hwaiting⟩ := h
  rw [hseen]
  rcases List.mem_append.mp (hwaiting.mem_iff.mp hd) with hd | hd
  · exact List.mem_append_right _ hd
  · exact List.mem_append_left _ (hold d hd)

namespace Parser

variable {μ : Type} [Matcher μ] {p : Parser μ} {g : Grammar μ}

/-! ## How moves are left -/

/-- The move ends with an answer in a state as `Q` says, or with an error in a state as `K`
says. -/
def Leaves {α : Type} (m : Move α) (s : State) (Q : α → State → Prop) (K : State → Prop) : Prop :=
  match m s with
  | .ok a s' => Q a s'
  | .error _ s' => K s'

section

variable {α β : Type} {s : State} {Q : α → State → Prop} {K : State → Prop}

theorem leaves_bind {x : Move α} {f : α → Move β} {Q : β → State → Prop}
    (h : Leaves x s (fun a s' => Leaves (f a) s' Q K) K) : Leaves (x >>= f) s Q K := by
  unfold Leaves at h ⊢
  simp only [bind, EStateM.bind]
  cases hx : x s with
  | ok a s' =>
    rw [hx] at h
    exact h
  | error e s' =>
    rw [hx] at h
    exact h

theorem Leaves.imp {m : Move α} {Q' : α → State → Prop} {K' : State → Prop}
    (h : Leaves m s Q K) (hQ : ∀ a s', Q a s' → Q' a s') (hK : ∀ s', K s' → K' s') :
    Leaves m s Q' K' := by
  unfold Leaves at h ⊢
  cases hm : m s with
  | ok a s' =>
    rw [hm] at h
    exact hQ a s' h
  | error e s' =>
    rw [hm] at h
    exact hK s' h

theorem leaves_pure {a : α} (h : Q a s) : Leaves (pure a) s Q K := h

/-- A move that cannot fail is not cut short. -/
theorem Ends.leaves {m : Move α} (h : Ends m s Q fun _ => False) : Leaves m s Q K := by
  unfold Ends at h
  unfold Leaves
  cases hm : m s with
  | ok a s' =>
    rw [hm] at h
    exact h
  | error e s' =>
    rw [hm] at h
    exact h.elim

theorem Leaves.and_ends {m : Move α} {Q' : α → State → Prop} {E : ConditionError → Prop}
    (h : Leaves m s Q K) (h' : Ends m s Q' E) : Leaves m s (fun a s' => Q a s' ∧ Q' a s') K := by
  unfold Leaves at h ⊢
  unfold Ends at h'
  cases hm : m s with
  | ok a s' =>
    rw [hm] at h h'
    exact ⟨h, h'⟩
  | error e s' =>
    rw [hm] at h
    exact h

theorem leaves_after {x : Move α} {f : α → Move β} {Q : β → State → Prop}
    (h : Ends x s (fun a s' => Leaves (f a) s' Q K) fun _ => False) : Leaves (x >>= f) s Q K :=
  leaves_bind h.leaves

/-- An answer is asked for before anything is changed. -/
theorem leaves_ask {x : Except ConditionError α} (hok : ∀ a, x = .ok a → Q a s) (herror : K s) :
    Leaves (ask x) s Q K := by
  cases x with
  | ok a => exact hok a rfl
  | error e => exact herror

end

/-! ## What is asked -/

/-- Values that are asked for one after the other are asked for at once. -/
theorem mapM_askValue {α β : Type} (f : α → Except EvalError β) (l : List α) :
    (l.mapM fun a => askValue (f a) : Move (List β)) = ask ((l.mapM f).mapError .eval) := by
  induction l with
  | nil => rfl
  | cons a rest ih =>
    rw [List.mapM_cons, List.mapM_cons, ih]
    cases f a with
    | error e => rfl
    | ok v => cases rest.mapM f <;> rfl

omit [Matcher μ] in
theorem ask_argumentsFor {α : Type} {callee : Nat} {arguments : List Expr} {env : Environment}
    {next : Option (List Value) → Move α} :
    (if (p.graph.nonterminal callee).parameters.isEmpty then pure none >>= next
        else (some <$> arguments.mapM fun e => askValue (p.evaluate e env)) >>= next)
      = ask (p.argumentsFor callee arguments env) >>= next := by
  unfold argumentsFor
  split
  · rfl
  · rw [mapM_askValue]
    cases arguments.mapM (p.evaluate · env) <;> rfl

section

variable {α : Type} {s : State} {Q : α → State → Prop} {K : State → Prop}

omit [Matcher μ] in
theorem leaves_returned {returns : Option Expr} {env : Environment} {next : Option Value → Move α}
    (hok : ∀ value, p.returned returns env = .ok value → Leaves (next value) s Q K)
    (herror : K s) :
    Leaves (match returns with
        | none => pure none >>= next
        | some e => (some <$> askValue (p.evaluate e env)) >>= next) s Q K := by
  unfold returned at hok
  cases returns with
  | none => exact leaves_bind (leaves_pure (hok none rfl))
  | some e =>
    dsimp only at hok ⊢
    cases he : p.evaluate e env with
    | error err => exact herror
    | ok v => exact hok _ (by rw [he]; rfl)

omit [Matcher μ] in
/-- The piece of a complete rule is there, or it is made, which cannot fail. -/
theorem leaves_child {t : Thread} {o : Option Nat} {next : Nat → Move α} (hs : s.Wf)
    (hpart : s.forest.part? o = some t.part)
    (h : ∀ id f, s.forest.Adds f [.piece (p.child t)] → f.piece? id = some (p.child t) →
      Leaves (next id) { s with forest := f } Q K) :
    Leaves (match o with
        | some child => pure child >>= next
        | none => onForest (·.terminal p.graph.epsilon t.position t.position) >>= next) s Q K := by
  have hends : Ends _ s (fun id s' => Leaves (next id) s' Q K) fun _ => False :=
    ends_child hs hpart fun id f hf hid => ends_pure (h id f hf hid)
  cases o with
  | none => exact leaves_after (x := onForest _) hends
  | some child => exact leaves_after (x := pure child) hends

end

/-! ## States whose content has its reasons -/

/-- **What is true of a state in the middle of a move:** it can be read, the parse is entitled to
its descriptors, calls, edges and results, and the pieces of calls are results unless they are
owed. -/
structure Backed (p : Parser μ) (owed : Piece → Prop) (s : State) : Prop where
  /-- Everything in the state can be read. -/
  wf : s.Wf
  /-- What waits was accepted. -/
  waiting : ∀ d ∈ s.agenda.waiting, d ∈ s.agenda.seen.toList
  /-- The parse is entitled to all that is known besides the forest. -/
  entailed : ∀ {f : Fact}, s.Shows f → ¬f.OfForest → p.Entails f
  /-- A piece of a call is one of its results, unless this is owed. -/
  answered : ∀ {key : Stack.Key} {right : Nat}, s.Shows (.piece (resultPiece key right)) →
    ¬owed (resultPiece key right) → ∃ value, s.Shows (.result key right value)

section

variable {owed : Piece → Prop} {s s' : State}

theorem Backed.mono {owed' : Piece → Prop} (hs : p.Backed owed s) (h : ∀ w, owed w → owed' w) :
    p.Backed owed' s :=
  ⟨hs.wf, hs.waiting, hs.entailed, fun hpiece hnot => hs.answered hpiece (hnot ∘ h _)⟩

/-- What a change adds has to have its reasons; pieces of calls that it adds are owed. -/
theorem Backed.adds {facts : List Fact} (hs : p.Backed owed s) (h : s.Adds s' facts)
    (hwaiting : ∀ d ∈ s'.agenda.waiting, d ∈ s'.agenda.seen.toList)
    (hentails : ∀ f ∈ facts, ¬f.OfForest → p.Entails f)
    (howed : ∀ key right, .piece (resultPiece key right) ∈ facts →
      s.Shows (.piece (resultPiece key right)) ∨ owed (resultPiece key right)) :
    p.Backed owed s' := by
  refine ⟨h.wf, hwaiting, fun {f} hf hforest => ?_, fun {key right} hpiece hnot => ?_⟩
  · exact (h.sound hf).elim (hs.entailed · hforest) (hentails f · hforest)
  · have hold : s.Shows (.piece (resultPiece key right)) := by
      rcases h.sound hpiece with hpiece | hpiece
      · exact hpiece
      · exact (howed key right hpiece).resolve_right hnot
    obtain ⟨value, hvalue⟩ := hs.answered hold hnot
    exact ⟨value, h.extend.shows hvalue⟩

/-- A change of the forest adds no descriptors, calls, edges or results. -/
theorem Backed.adds_forest {facts : List Fact} {f : Forest} (hs : p.Backed owed s)
    (h : s.forest.Adds f facts) (hforest : ∀ f ∈ facts, f.OfForest)
    (howed : ∀ key right, .piece (resultPiece key right) ∈ facts →
      s.Shows (.piece (resultPiece key right)) ∨ owed (resultPiece key right)) :
    p.Backed owed { s with forest := f } :=
  hs.adds (hs.wf.adds_forest h) hs.waiting (fun f hf hnot => absurd (hforest f hf) hnot) howed

/-- A change of what shows no facts. -/
theorem Backed.of_eq (hs : p.Backed owed s) (hforest : s'.forest = s.forest)
    (hstack : s'.stack = s.stack) (hseen : s'.agenda.seen = s.agenda.seen)
    (hwaiting : ∀ d ∈ s'.agenda.waiting, d ∈ s.agenda.waiting) : p.Backed owed s' :=
  hs.adds (hs.wf.adds_rest hforest hstack hseen) (fun d hd => hseen ▸ hs.waiting d (hwaiting d hd))
    (fun _ h => absurd h List.not_mem_nil) fun _ _ h => absurd h List.not_mem_nil

/-- Joining two parts of a rule makes no piece of a call. -/
theorem resultPiece_notMem_joinFacts {key : Stack.Key} {slot right : Nat}
    {arguments : Option (List Value)} {left : Option Piece} {w : Piece} :
    Fact.piece (resultPiece key right) ∉ Piece.joinFacts slot arguments left w := by
  cases left <;> simp [Piece.joinFacts, Piece.join, resultPiece]

theorem ResumesTo.ne_resultPiece {key key' : Stack.Key} {c : Caller} {right right' : Nat}
    {value : Option Value} : ¬p.ResumesTo key c right value (.piece (resultPiece key' right')) := by
  intro h
  cases haction : (p.graph.slot c.slot).action with
  | call callee arguments notes dest =>
    obtain ⟨env, -, hf⟩ := (resumesTo_iff haction).mp h
    rcases List.mem_cons.mp hf with hf | hf
    · exact absurd hf (by simp)
    · exact resultPiece_notMem_joinFacts hf
  | scan | branch | complete =>
    obtain ⟨facts, hresume, hf⟩ := h
    rw [Parser.resume, haction] at hresume
    obtain rfl := Except.ok.inj hresume
    exact absurd hf List.not_mem_nil

/-! ## Moves -/

/-- If the conditions behind a call have no answer, nothing was changed yet. -/
theorem leaves_propagate_stays {e : Stack.Edge} {left : Nat} {immediate : Bool} {q : Stack.Popped} :
    Leaves (p.propagate e left immediate q) s (fun _ _ => True) (· = s) := by
  unfold propagate
  cases (p.graph.slot e.call).action with
  | scan | branch | complete => exact leaves_pure trivial
  | call callee arguments notes dest =>
    refine leaves_bind (leaves_ask (fun b _ => ?_) rfl)
    cases b with
    | false => exact leaves_pure trivial
    | true =>
      rw [if_pos rfl]
      split
      · exact leaves_after ((builds_callArguments e.dest).imp
          (fun _ _ _ => leaves_after (ends_onForest (ends_onAgenda trivial).leaves)) fun _ h => h)
      · exact leaves_pure trivial

/-- **Handing a result to a caller** leaves a state whose content has its reasons. -/
theorem leaves_propagate {key : Stack.Key} {e : Stack.Edge} {q : Stack.Popped} {immediate : Bool}
    (hs : p.Backed owed s) (he : s.stack.HasEdge key e) (hq : s.stack.HasResult key q) :
    Leaves (p.propagate e key.position immediate q) s
      (fun _ s' => p.Backed owed s' ∧ s.Keeps s') (fun s' => p.Backed owed s' ∧ s.Keeps s') := by
  obtain ⟨c, hc⟩ := hs.wf.callers he
  have hawaited : p.Entails (.awaited key c) := hs.entailed ⟨e, he, hc⟩ fun h => h
  have hresult : p.Entails (.result key q.right q.value) := hs.entailed ⟨q, hq, rfl, rfl⟩ fun h => h
  have hends : Ends (p.propagate e key.position immediate q) s _ _ :=
    ends_propagate hs.wf hc hq
  have hstays : Leaves (p.propagate e key.position immediate q) s (fun _ _ => True) (· = s) :=
    leaves_propagate_stays
  unfold Ends at hends
  unfold Leaves at hstays ⊢
  cases hm : p.propagate e key.position immediate q s with
  | error err s' =>
    rw [hm] at hstays
    obtain rfl : s' = s := hstays
    exact ⟨hs, .refl _⟩
  | ok u s' =>
    rw [hm] at hends
    obtain ⟨facts, hresume, hadds, hkeeps⟩ := hends
    refine ⟨hs.adds hadds (fun _ => hkeeps.agenda.mem_seen hs.waiting)
      (fun f hf _ => .resume hawaited hresult hresume hf) fun key' right hf => ?_, hkeeps⟩
    exact (ResumesTo.ne_resultPiece ⟨facts, hresume, hf⟩).elim

/-- A round of results is cut short between two of them. -/
theorem leaves_propagateAll {α : Type} (edge : α → Stack.Edge) (result : α → Stack.Popped)
    {key : Stack.Key} {immediate : Bool} {l : List α} :
    ∀ {s : State}, p.Backed owed s →
      (∀ x ∈ l, s.stack.HasEdge key (edge x) ∧ s.stack.HasResult key (result x)) →
      Leaves (l.forM fun x => p.propagate (edge x) key.position immediate (result x)) s
        (fun _ s' => p.Backed owed s' ∧ s.Keeps s') (fun s' => p.Backed owed s' ∧ s.Keeps s') := by
  induction l with
  | nil => exact fun hs _ => leaves_pure ⟨hs, .refl _⟩
  | cons x rest ih =>
    intro s hs hall
    obtain ⟨he, hq⟩ := hall x List.mem_cons_self
    refine leaves_bind ((leaves_propagate hs he hq).imp ?_ fun _ h => h)
    intro _ s₁ h
    obtain ⟨hs₁, hkeeps⟩ := h
    have hrest : ∀ y ∈ rest, s₁.stack.HasEdge key (edge y) ∧ s₁.stack.HasResult key (result y) := by
      rw [hkeeps.stack]
      exact fun y hy => hall y (List.mem_cons_of_mem _ hy)
    exact (ih hs₁ hrest).imp (fun _ _ h => ⟨h.1, hkeeps.trans h.2⟩)
      fun _ h => ⟨h.1, hkeeps.trans h.2⟩

/-- **A scan** makes no piece of a call. -/
theorem leaves_scan {d : Descriptor} {t : Thread} {terminal dest : Nat} {notes : Annotations μ}
    (hs : p.Backed owed s) (ht : s.thread? d = some t) :
    Leaves (p.scan d terminal notes dest) s (fun _ s' => p.Backed owed s')
      (fun s' => p.Backed owed s' ∧ s'.running = none) := by
  obtain ⟨-, -, hcall, hpart, -⟩ := State.thread?_eq_some_iff.mp ht
  have hs : p.Backed owed { s with running := none } := hs.of_eq rfl rfl rfl fun _ => id
  unfold scan
  refine leaves_after (ends_goOn (leaves_bind (leaves_ask (fun b _ => ?_) ⟨hs, rfl⟩)))
  cases b with
  | false => exact leaves_pure hs
  | true =>
    rw [if_pos rfl]
    cases (p.graph.terminal terminal).matchAt p.input d.position with
    | none => exact Ends.leaves (ends_record fun reach => hs.of_eq rfl rfl rfl fun _ => id)
    | some right =>
      refine leaves_bind (leaves_ask (fun b _ => ?_) ⟨hs, rfl⟩)
      cases b with
      | false => exact leaves_pure hs
      | true =>
        rw [if_pos rfl]
        -- from here on nothing can fail
        refine Ends.leaves (ends_bind (ends_onForest ?_))
        have hspan : s.forest.pieceOf? ⟨.terminal terminal, d.position, right⟩
            = some (.terminal terminal d.position right) := rfl
        obtain ⟨hleaf, hpiece⟩ := hs.wf.forest.adds_find hspan
        rw [Forest.terminal]
        generalize s.forest.find ⟨.terminal terminal, d.position, right⟩ = leaf at hleaf hpiece
        refine ends_bind ((ends_callArguments (hs.wf.adds_forest hleaf).wf hcall).imp ?_
          fun _ h => h)
        intro arguments _ hnumbers
        obtain ⟨f, rfl, hf, harguments⟩ := hnumbers
        have hfound : s.forest.Adds f _ := hleaf.trans hf
        refine ends_bind (ends_onForest (ends_goOn ?_))
        obtain ⟨hnode, -⟩ := hfound.wf.adds_getNode dest harguments
          (hfound.extend.part? hpart) (hf.extend.piece? hpiece)
        refine (hs.adds_forest (hfound.trans hnode) (fun f hf => ?_)
          fun key right hf => ?_).of_eq rfl rfl rfl fun _ => id
        · rcases List.mem_cons.mp hf with rfl | hf
          · exact trivial
          · exact Piece.ofForest_joinFacts hf
        · rcases List.mem_cons.mp hf with hf | hf
          · exact absurd hf (by simp [resultPiece])
          · exact absurd hf resultPiece_notMem_joinFacts

/-- A new call has its node and its alternatives, and the forest stays. -/
theorem Backed.create {callee position : Nat} {values : Option (List Value)}
    {E : ConditionError → Prop} (hs : p.Backed owed s) (hcoherent : p.Coherent s)
    (hground : s.Grounded)
    (hcalled : p.openings ⟨callee, position, values⟩ ≠ [] →
      p.Entails (.called ⟨callee, position, values⟩)) :
    Ends (p.create callee values position) s
      (fun o s' => p.Backed owed s' ∧ s'.running = s.running ∧ s.Extends s' ∧
        ∀ id, o = some id → p.openings ⟨callee, position, values⟩ ≠ [] ∧
          s'.stack.call? id = some ⟨callee, position, values⟩) E := by
  have hends := (ends_create (E := E) hcoherent hcalled).and (grounded_create (E := E) hground)
  refine hends.imp ?_ fun _ h => h.1
  intro o s' h
  obtain ⟨⟨hs', hext, hrunning, hagenda, ho⟩, -, hforest⟩ := h
  refine ⟨⟨hs'.wf, fun _ => hagenda.mem_seen hs.waiting, fun hf _ => hs'.sound hf,
    fun {key right} hpiece hnot => ?_⟩, hrunning, hext, fun id hid => ?_⟩
  · have hpiece : s'.forest.Shows (.piece (resultPiece key right)) := hpiece
    rw [hforest] at hpiece
    obtain ⟨value, hvalue⟩ := hs.answered hpiece hnot
    exact ⟨value, hext.shows hvalue⟩
  · subst hid
    exact ho

/-- A change of the stack is followed by a round of results, unless nothing was changed. -/
theorem leaves_round {α : Type} (change : Stack → Bool × Stack) (members : Stack.Node → List α)
    (edge : α → Stack.Edge) (result : α → Stack.Popped) {id : Nat} {key : Stack.Key}
    (hs : p.Backed owed s)
    (hchange : change s.stack = (false, s.stack) ∨ ∃ st n, change s.stack = (true, st) ∧
      p.Backed owed { s with stack := st } ∧ st.nodes[id]? = some n ∧
      ∀ x ∈ members n, st.HasEdge key (edge x) ∧ st.HasResult key (result x)) :
    Leaves (do
        if ← onStack change then
          let l := members ((← get).stack.get id)
          l.forM fun x => p.propagate (edge x) key.position (l.length = 1) (result x)) s
      (fun _ s' => p.Backed owed s' ∧ s'.running = s.running)
      (fun s' => p.Backed owed s' ∧ s'.running = s.running) := by
  refine leaves_after (ends_onStack ?_)
  rcases hchange with hsame | ⟨st, n, hnew, hs', hn, hall⟩
  · rw [hsame]
    exact leaves_pure ⟨hs, rfl⟩
  · rw [hnew, if_pos rfl]
    refine leaves_after (ends_get ?_)
    dsimp only
    rw [Stack.get_eq hn]
    exact (leaves_propagateAll edge result hs' hall).imp (fun _ _ h => ⟨h.1, h.2.running⟩)
      fun _ h => ⟨h.1, h.2.running⟩

/-- A caller begins to wait, and takes up results that are there. -/
theorem leaves_await {id : Nat} {key : Stack.Key} {e : Stack.Edge} {c : Caller}
    (hs : p.Backed owed s) (hid : s.stack.call? id = some key) (hc : s.caller? e = some c)
    (hawaited : p.Entails (.awaited key c)) :
    Leaves (do
        if ← onStack (·.addEdge id e) then
          let results := ((← get).stack.get id).popped
          results.forM (p.propagate e key.position (results.length = 1))) s
      (fun _ s' => p.Backed owed s' ∧ s'.running = s.running)
      (fun s' => p.Backed owed s' ∧ s'.running = s.running) := by
  obtain ⟨n, hn, rfl⟩ := Stack.call?_eq_some_iff.mp hid
  refine leaves_round (·.addEdge id e) Stack.Node.popped (fun _ => e) (fun q => q) hs ?_
  rcases hs.wf.stack.addEdge_cases hn e with ⟨hadd, -⟩ | ⟨st, hadd, hst⟩
  · exact Or.inl hadd
  · obtain ⟨n', hn', hkey⟩ := Stack.call?_eq_some_iff.mp (hst.call? hid)
    refine Or.inr ⟨st, n', hadd, ?_, hn', fun q hq => ⟨?_, id, n', hn', hkey, hq⟩⟩
    · refine hs.adds (hs.wf.adds_edge hst hc) hs.waiting (fun f hf _ => ?_) fun _ _ hf => ?_
      · exact List.mem_singleton.mp hf ▸ hawaited
      · exact absurd hf (by simp)
    · exact hst.hasEdge.mpr (Or.inr (List.mem_singleton_self _))

/-- A result that the parse is entitled to is handed to all that wait for it. -/
theorem leaves_deliver {id : Nat} {key : Stack.Key} {q : Stack.Popped} (hs : p.Backed owed s)
    (hid : s.stack.call? id = some key)
    (hpiece : s.forest.piece? q.node = some (resultPiece key q.right))
    (hresult : p.Entails (.result key q.right q.value)) :
    Leaves (do
        if ← onStack (·.addPopped id q) then
          let edges := ((← get).stack.get id).edges
          edges.forM fun edge => p.propagate edge key.position (edges.length = 1) q) s
      (fun _ s' => p.Backed owed s' ∧ s'.running = s.running)
      (fun s' => p.Backed owed s' ∧ s'.running = s.running) := by
  obtain ⟨n, hn, rfl⟩ := Stack.call?_eq_some_iff.mp hid
  refine leaves_round (·.addPopped id q) Stack.Node.edges (fun e => e) (fun _ => q) hs ?_
  rcases hs.wf.stack.addPopped_cases hn q with ⟨hadd, -⟩ | ⟨st, hadd, hst⟩
  · exact Or.inl hadd
  · obtain ⟨n', hn', hkey⟩ := Stack.call?_eq_some_iff.mp (hst.call? hid)
    refine Or.inr ⟨st, n', hadd, ?_, hn', fun e he => ⟨⟨id, n', hn', hkey, he⟩, ?_⟩⟩
    · refine hs.adds (hs.wf.adds_result hst hpiece) hs.waiting (fun f hf _ => ?_)
        fun _ _ hf => ?_
      · exact List.mem_singleton.mp hf ▸ hresult
      · exact absurd hf (by simp)
    · exact hst.hasResult.mpr (Or.inr (List.mem_singleton_self _))

/-- **A call** makes no piece of a call, whether or not all results that it takes up are handed
over. -/
theorem leaves_call {d : Descriptor} {t : Thread} {callee dest : Nat} {arguments : List Expr}
    {notes : Annotations μ} (hs : p.Backed owed s) (hcoherent : p.Coherent s)
    (hground : s.Grounded) (ht : s.thread? d = some t) (hpassed : p.Entails (.passed t))
    (haction : (p.graph.slot t.slot).action = .call callee arguments notes dest) :
    Leaves (p.call d callee arguments notes) s (fun _ s' => p.Backed owed s')
      (fun s' => p.Backed owed s' ∧ s'.running = none) := by
  obtain ⟨hslot, hpos, hcall, hpart, henv⟩ := State.thread?_eq_some_iff.mp ht
  have hs : p.Backed owed { s with running := none } := hs.of_eq rfl rfl rfl fun _ => id
  have hcoherent : p.Coherent { s with running := none } := hcoherent.of_eq rfl rfl rfl
  have hground : State.Grounded { s with running := none } := hground.of_builds (.of_eq rfl rfl)
  unfold call
  refine leaves_after (ends_goOn ?_)
  dsimp only
  rw [hpos, henv]
  refine leaves_bind (leaves_ask (fun b hpre => ?_) ⟨hs, rfl⟩)
  cases b with
  | false => exact leaves_pure hs
  | true =>
    rw [if_pos rfl, ask_argumentsFor]
    refine leaves_bind (leaves_ask (fun values hvalues => ?_) ⟨hs, rfl⟩)
    have hfacts {f : Fact} (hf : f ∈ p.callFacts t (⟨callee, t.position, values⟩,
        notes.bindCall t.position t.env)) : p.Entails f := by
      refine hpassed.of_leadsTo ((leadsTo_call_iff haction).mpr ⟨_, ?_, hf⟩)
      exact calling_eq_some_iff.mpr ⟨allHold_eq_ok_true_iff.mp hpre, rfl, rfl, rfl, hvalues⟩
    refine leaves_after ((hs.create hcoherent hground fun hne => hfacts ?_).imp ?_ fun _ h => h)
    · rw [callFacts, if_neg hne]
      exact List.mem_cons_self
    intro o s₁ hcreated
    obtain ⟨hs₁, hrunning, hext, ho⟩ := hcreated
    cases o with
    | none => exact Ends.leaves (ends_record fun reach => hs₁.of_eq rfl rfl rfl fun _ => id)
    | some id =>
      obtain ⟨hne, hid⟩ := ho id rfl
      let e : Stack.Edge := ⟨d.stackNode, d.slot, d.forestNode, notes.bindCall t.position t.env⟩
      let c : Caller := ⟨t.call, t.slot, t.part, notes.bindCall t.position t.env⟩
      have hc : s₁.caller? e = some c := State.caller?_eq_some_iff.mpr
        ⟨hext.call? hcall, hslot, hext.forest.part? hpart, rfl⟩
      refine (leaves_await hs₁ hid hc (hfacts ?_)).imp (fun _ _ h => h.1)
        fun _ h => ⟨h.1, h.2.trans hrunning⟩
      rw [callFacts, if_neg hne]
      exact List.mem_cons_of_mem _ List.mem_cons_self

omit [Matcher μ] in
/-- A rule that consists of one call has the piece of that call already. -/
theorem shows_of_child {t : Thread} {o : Option Nat} {key : Stack.Key} {right : Nat}
    (hpart : s.forest.part? o = some t.part) (h : p.child t = resultPiece key right) :
    s.Shows (.piece (resultPiece key right)) := by
  unfold child at h
  rcases Forest.part?_eq_some_iff.mp hpart with ⟨-, hnone⟩ | ⟨id, w, -, hsome, hid⟩
  · rw [hnone] at h
    exact absurd h (by simp [resultPiece])
  · rw [hsome] at h
    exact ⟨id, h ▸ hid⟩

/-- **The end of a rule** makes a piece of its call, and owes the result until the call has it. -/
theorem leaves_complete {d : Descriptor} {t : Thread} {returns : Option Expr}
    (hs : p.Backed owed s) (howed : owed (p.whole t)) (ht : s.thread? d = some t)
    (hpassed : p.Entails (.passed t)) (hhead : (p.graph.slot t.slot).head = t.call.nonterminal)
    (haction : (p.graph.slot t.slot).action = .complete returns) :
    Leaves (p.complete d returns) s (fun _ s' => p.Backed owed s')
      (fun s' => p.Backed owed s' ∧ s'.running = none) := by
  obtain ⟨hslot, hpos, hcall, hpart, henv⟩ := State.thread?_eq_some_iff.mp ht
  have hs : p.Backed owed { s with running := none } := hs.of_eq rfl rfl rfl fun _ => id
  unfold complete
  refine leaves_after (ends_goOn ?_)
  dsimp only
  rw [hpos, henv, hslot]
  refine leaves_child hs.wf hpart fun child f hchild hpiece => ?_
  refine leaves_after (ends_get ?_)
  obtain ⟨n, hn, hkey⟩ := Stack.call?_eq_some_iff.mp hcall
  dsimp only
  rw [Stack.get_eq hn, hkey]
  refine leaves_after ((ends_callArguments (hs.wf.adds_forest hchild).wf hcall).imp ?_ fun _ h => h)
  intro arguments _ hnumbers
  obtain ⟨f', rfl, hf', harguments⟩ := hnumbers
  refine leaves_after (ends_onForest ?_)
  rw [Forest.nonterminal]
  have hspan : f'.pieceOf? ⟨.nonterminal (p.graph.slot t.slot).head arguments, t.call.position,
      t.position⟩ = some (p.whole t) :=
    Forest.pieceOf?_eq_some_iff.mpr ⟨arguments, harguments, rfl⟩
  obtain ⟨hwhole, hnode⟩ := hf'.wf.adds_find hspan
  generalize f'.find ⟨.nonterminal (p.graph.slot t.slot).head arguments, t.call.position,
    t.position⟩ = found at hwhole hnode
  refine leaves_after (ends_onForest ?_)
  have hnone : found.2.part? none = some none := rfl
  have hpacked := hwhole.wf.adds_addPacked t.slot hnode hnone
    ((hf'.trans hwhole).extend.piece? hpiece)
  generalize found.2.addPacked found.1 t.slot none child = packed at hpacked
  -- the node is there, and now the rule may have no value
  have hall := ((hchild.trans hf').trans hwhole).trans hpacked
  have hs' : p.Backed owed { s with running := none, forest := packed.2 } := by
    refine hs.adds_forest hall (fun f hf => ?_) fun key right hf => ?_
    · simp only [List.mem_append, List.mem_cons, List.not_mem_nil, or_false, or_assoc] at hf
      rcases hf with rfl | rfl | rfl <;> exact trivial
    · simp only [List.mem_append, List.mem_cons, List.not_mem_nil, or_false,
        Fact.piece.injEq, reduceCtorEq] at hf
      rcases hf with hchild | hwhole
      · exact Or.inl (shows_of_child hpart hchild.symm)
      · exact Or.inr (hwhole ▸ howed)
  refine leaves_returned (fun value hvalue => ?_) ⟨hs', rfl⟩
  have hresult : p.Entails (.result t.call t.position value) :=
    hpassed.of_leadsTo ((leadsTo_complete_iff haction).mpr ⟨value, hvalue, List.mem_cons_self⟩)
  have hpiece : packed.2.piece? found.1 = some (resultPiece t.call t.position) := by
    rw [hpacked.extend.piece? hnode, whole, hhead, resultPiece]
  exact (leaves_deliver (q := ⟨found.1, t.position, value⟩) hs' hcall hpiece hresult).imp
    (fun _ _ h => h.1) fun _ h => h

/-- What a thread at the end of a rule owes its call. -/
def Owes (p : Parser μ) (t : Thread) (w : Piece) : Prop :=
  w = p.whole t ∧ ∃ returns, (p.graph.slot t.slot).action = .complete returns

/-- **Every move** leaves a state whose content has its reasons. If it is cut short, then the thread
has ended or nothing was changed. -/
theorem leaves_advance {d : Descriptor} {t : Thread} (hs : p.Backed (fun _ => False) s)
    (hcoherent : p.Coherent s) (hground : s.Grounded) (ht : s.thread? d = some t)
    (hpassed : p.Entails (.passed t)) (hhead : (p.graph.slot t.slot).head = t.call.nonterminal) :
    Leaves (p.advance d) s (fun _ s' => p.Backed (p.Owes t) s')
      (fun s' => p.Backed (p.Owes t) s' ∧ (s'.running = none ∨ s' = s)) := by
  have hslot := (State.thread?_eq_some_iff.mp ht).1
  have hs : p.Backed (p.Owes t) s := hs.mono fun _ h => h.elim
  unfold advance
  rw [hslot]
  cases haction : (p.graph.slot t.slot).action with
  | scan terminal notes dest =>
    exact (leaves_scan hs ht).imp (fun _ _ h => h) fun _ h => ⟨h.1, Or.inl h.2⟩
  | call callee arguments notes dest =>
    exact (leaves_call hs hcoherent hground ht hpassed haction).imp (fun _ _ h => h)
      fun _ h => ⟨h.1, Or.inl h.2⟩
  | branch condition ifTrue ifFalse =>
    refine leaves_bind (leaves_ask (fun b _ => ?_) ⟨hs, Or.inr rfl⟩)
    exact Ends.leaves (ends_goOn (hs.of_eq rfl rfl rfl fun _ => id))
  | complete returns =>
    exact (leaves_complete hs ⟨rfl, returns, haction⟩ ht hpassed hhead haction).imp (fun _ _ h => h)
      fun _ h => ⟨h.1, Or.inl h.2⟩

/-- **What is owed is paid** if the move ends well. -/
theorem Backed.settle {t : Thread} (hs : p.Backed (p.Owes t) s') (hadv : p.Advanced t s s')
    (hhead : (p.graph.slot t.slot).head = t.call.nonterminal) :
    p.Backed (fun _ => False) s' := by
  refine ⟨hs.wf, hs.waiting, hs.entailed, fun {key right} hpiece _ => ?_⟩
  by_cases howes : p.Owes t (resultPiece key right)
  · obtain ⟨heq, returns, haction⟩ := howes
    obtain ⟨facts, hmove, -⟩ := hadv.found
    have hmove' := hmove
    rw [move, haction] at hmove'
    obtain ⟨value, -, rfl⟩ := Except.map_eq_ok_iff.mp hmove'
    have hshows := (hadv.covers ⟨_, hmove, List.mem_cons_self⟩ (by simp)).shows (by simp)
    obtain ⟨nonterminal, position, arguments⟩ := key
    rw [whole, hhead, resultPiece] at heq
    obtain ⟨rfl, rfl, rfl, rfl⟩ := Piece.nonterminal.inj heq
    exact ⟨value, hshows⟩
  · exact hs.answered hpiece howes

end

/-! ## Runs -/

section

variable [DecidableEq μ] (hg : SlotGraph.ofGrammar g = .ok p.graph)

include hg

omit hg [DecidableEq μ] in
theorem backed_begin {s : State} (h : p.begin p.initial = .ok () s) :
    p.Backed (fun _ => False) s := by
  have hinitial : p.Backed (fun _ => False) p.initial := by
    refine ⟨coherent_initial.wf, fun _ h => absurd h List.not_mem_nil,
      fun hf _ => coherent_initial.sound hf, fun {key right} hpiece _ => ?_⟩
    obtain ⟨id, hid⟩ := hpiece
    exact absurd (Forest.lt_size_of_piece? hid) (Nat.not_lt_zero id)
  have hground : p.initial.Grounded := ⟨.empty, Stack.within_empty _⟩
  have hends : Ends p.begin p.initial (fun _ s => p.Backed (fun _ => False) s)
      (fun _ => True) := by
    unfold begin
    refine ends_bind ((hinitial.create coherent_initial hground .start).imp ?_ fun _ h => h)
    intro o s hcreated
    cases o with
    | none => exact ends_modify (hcreated.1.of_eq rfl rfl rfl fun _ => id)
    | some id => exact ends_pure hcreated.1
  unfold Ends at hends
  rw [h] at hends
  exact hends

/-- **A step pays what it owes,** unless it is cut short; then the thread has ended or nothing was
changed. -/
theorem Reached.leaves_step {ran : Thread → Prop} {log : List Descriptor} {s : State}
    (h : p.Reached ran log s) (hground : s.Grounded) (hs : p.Backed (fun _ => False) s) :
    Leaves p.step s (fun _ s' => p.Backed (fun _ => False) s')
      (fun s' => (∃ owed, p.Backed owed s') ∧ (s'.running = none ∨ s' = s)) := by
  unfold step
  refine leaves_after (ends_get ?_)
  cases hrunning : s.running with
  | some d =>
    obtain ⟨t, ht, hends⟩ := h.moves hg hrunning
    obtain ⟨t', ht', hran⟩ := h.running hrunning
    obtain rfl := Option.some.inj (ht.symm.trans ht')
    have hpassed := h.entailed hran
    have hhead := head_eq_of_entails hg hpassed
    refine leaves_bind (((leaves_advance hs h.coherent hground ht hpassed hhead).and_ends
      hends).imp ?_ fun _ h => ⟨⟨_, h.1⟩, h.2⟩)
    intro _ s' h
    exact leaves_pure (h.1.settle h.2 hhead)
  | none =>
    dsimp only
    cases htake : s.agenda.take with
    | none => exact leaves_pure hs
    | some next =>
      obtain ⟨d, agenda⟩ := next
      obtain ⟨hwaiting, hseen⟩ := Agenda.take_eq_some htake
      refine Ends.leaves (ends_bind (ends_set (ends_bind (ends_record fun reach => ends_pure ?_))))
      refine hs.of_eq rfl rfl hseen fun d' hd' => ?_
      rw [hwaiting]
      exact List.mem_cons_of_mem _ hd'

/-- **In every state of a parse** everything has its reasons, and nothing is owed. -/
theorem Reaches.backed {log : List Descriptor} {s : State} (h : p.Reaches log s) :
    p.Backed (fun _ => False) s := by
  induction h with
  | begin hbegin => exact backed_begin hbegin
  | step h hstep ih =>
    obtain ⟨ran, hreached⟩ := h.reached hg
    have hleaves := hreached.leaves_step hg (h.grounded hg) ih
    unfold Leaves at hleaves
    rw [hstep] at hleaves
    exact hleaves

end

end Parser

end GeneralLL
