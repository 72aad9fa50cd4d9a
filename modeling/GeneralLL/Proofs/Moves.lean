import GeneralLL.Proofs.StateFacts

/-!
# What the moves of a parser do

`Ends` says of a move how it ends: with an answer in a new state, or with an error. The
lemmas of the first part take a move apart, one for each way in which moves are built.

The others say what each operation of the parser does to the facts of a state. Handing a
result to a caller adds exactly what `resume` says (`ends_propagate`), and so does a round
over many (`ends_propagateAll`).
-/

namespace GeneralLL

namespace Agenda

/-- Descriptors were accepted, and all of them wait. -/
def Grows (a a' : Agenda) : Prop :=
  ∃ l, a'.seen.toList = a.seen.toList ++ l ∧ a'.waiting.Perm (l ++ a.waiting)

theorem Grows.refl (a : Agenda) : a.Grows a := ⟨[], (List.append_nil _).symm, .refl _⟩

theorem Grows.trans {a a' a'' : Agenda} (h : a.Grows a') (h' : a'.Grows a'') : a.Grows a'' := by
  obtain ⟨l, hseen, hwaiting⟩ := h
  obtain ⟨l', hseen', hwaiting'⟩ := h'
  refine ⟨l ++ l', by rw [hseen', hseen, List.append_assoc], hwaiting'.trans ?_⟩
  calc (l' ++ a'.waiting).Perm (l' ++ (l ++ a.waiting)) := hwaiting.append_left _
    _ = l' ++ l ++ a.waiting := (List.append_assoc ..).symm
    List.Perm _ (l ++ l' ++ a.waiting) := List.perm_append_comm.append_right _

theorem Accepts.grows {a a' : Agenda} {d : Descriptor} (h : a.Accepts d a') : a.Grows a' := by
  cases h with
  | known _ => exact .refl a
  | new _ hseen hwaiting => exact ⟨[d], hseen, hwaiting⟩

end Agenda

namespace Parser

/-! ## How moves end -/

/-- The move ends in an answer and a state as `Q` says, or with an error as `E` says. -/
def Ends {α : Type} (m : Move α) (s : State) (Q : α → State → Prop) (E : ConditionError → Prop) :
    Prop :=
  match m s with
  | .ok a s' => Q a s'
  | .error e _ => E e

section

variable {α β : Type} {s : State} {Q : α → State → Prop} {E : ConditionError → Prop}

theorem ends_bind {x : Move α} {f : α → Move β} {Q : β → State → Prop}
    (h : Ends x s (fun a s' => Ends (f a) s' Q E) E) : Ends (x >>= f) s Q E := by
  unfold Ends at h ⊢
  simp only [bind, EStateM.bind]
  cases hx : x s with
  | ok a s' =>
    rw [hx] at h
    exact h
  | error e s' =>
    rw [hx] at h
    exact h

theorem Ends.imp {m : Move α} {Q' : α → State → Prop} {E' : ConditionError → Prop}
    (h : Ends m s Q E) (hQ : ∀ a s', Q a s' → Q' a s') (hE : ∀ e, E e → E' e) :
    Ends m s Q' E' := by
  unfold Ends at h ⊢
  cases hm : m s with
  | ok a s' =>
    rw [hm] at h
    exact hQ a s' h
  | error e s' =>
    rw [hm] at h
    exact hE e h

theorem ends_pure {a : α} (h : Q a s) : Ends (pure a) s Q E := h

theorem ends_get {Q : State → State → Prop} (h : Q s s) : Ends get s Q E := h

theorem ends_modify {f : State → State} {Q : Unit → State → Prop} (h : Q () (f s)) :
    Ends (modify f) s Q E := h

theorem ends_set {s' : State} {Q : Unit → State → Prop} (h : Q () s') : Ends (set s') s Q E := h

theorem ends_onStack {f : Stack → α × Stack} (h : Q (f s.stack).1 { s with stack := (f s.stack).2 }) :
    Ends (onStack f) s Q E := h

theorem ends_onForest {f : Forest → α × Forest}
    (h : Q (f s.forest).1 { s with forest := (f s.forest).2 }) : Ends (onForest f) s Q E := h

theorem ends_onAgenda {f : Agenda → Bool × Agenda} {Q : Unit → State → Prop}
    (h : Q () { s with agenda := (f s.agenda).2 }) : Ends (onAgenda f) s Q E := h

theorem ends_goOn {d : Option Descriptor} {Q : Unit → State → Prop}
    (h : Q () { s with running := d }) : Ends (goOn d) s Q E := h

theorem ends_record {d : Descriptor} {Q : Unit → State → Prop}
    (h : ∀ reach, Q () { s with furthest := reach }) : Ends (record d) s Q E := by
  show Q () (if s.furthest.all (·.position < d.position) then _ else s)
  split
  · exact h _
  · exact h s.furthest

theorem ends_ask {x : Except ConditionError α} (hok : ∀ a, x = .ok a → Q a s)
    (herror : ∀ e, x = .error e → E e) : Ends (ask x) s Q E := by
  cases x with
  | ok a => exact hok a rfl
  | error e => exact herror e rfl

end

/-- Values are asked for one after the other. -/
theorem ends_mapM {α β : Type} {s : State} {ask : α → Except EvalError β} {l : List α} :
    Ends (l.mapM fun a => askValue (ask a)) s (fun vs s' => s' = s ∧ l.mapM ask = .ok vs)
      (fun err => ∃ e, l.mapM ask = .error e ∧ err = .eval e) := by
  induction l with
  | nil => exact ends_pure ⟨rfl, rfl⟩
  | cons a rest ih =>
    rw [List.mapM_cons, List.mapM_cons]
    refine ends_bind ?_
    cases ask a with
    | error e => exact ⟨e, rfl, rfl⟩
    | ok v =>
      refine ends_bind (ih.imp ?_ ?_)
      · intro vs _ h
        obtain ⟨rfl, hvs⟩ := h
        rw [hvs]
        exact ends_pure ⟨rfl, rfl⟩
      · intro err h
        obtain ⟨e, he, rfl⟩ := h
        rw [he]
        exact ⟨e, rfl, rfl⟩

/-! ## Operations on the state -/

/-- The stack and the running thread stay, and accepted descriptors wait. -/
structure State.Keeps (s s' : State) : Prop where
  /-- The stack is left alone. -/
  stack : s'.stack = s.stack
  /-- The running thread is left alone. -/
  running : s'.running = s.running
  /-- What was newly accepted waits, and nothing was taken. -/
  agenda : s.agenda.Grows s'.agenda

theorem State.Keeps.refl (s : State) : s.Keeps s := ⟨rfl, rfl, .refl _⟩

theorem State.Keeps.trans {s s' s'' : State} (h : s.Keeps s') (h' : s'.Keeps s'') : s.Keeps s'' :=
  ⟨h'.stack.trans h.stack, h'.running.trans h.running, h.agenda.trans h'.agenda⟩

theorem ends_callArguments {s : State} {E : ConditionError → Prop} {id : Nat} {key : Stack.Key}
    (hs : s.Wf) (hkey : s.stack.call? id = some key) :
    Ends (callArguments id) s (fun a s' => ∃ f, s' = { s with forest := f } ∧
      s.forest.Adds f [] ∧ f.argumentsAt? a = some key.arguments) E := by
  obtain ⟨n, hn, rfl⟩ := Stack.call?_eq_some_iff.mp hkey
  unfold callArguments
  refine ends_bind (ends_get ?_)
  rw [Stack.get_eq hn]
  cases hvalues : n.key.arguments with
  | none => exact ends_pure ⟨s.forest, rfl, hs.forest.adds_nil, rfl⟩
  | some values =>
    exact ⟨_, rfl, hs.forest.adds_internArguments values,
      Forest.argumentsAt?_internArguments s.forest values⟩

variable {μ : Type} [Matcher μ] {p : Parser μ}

theorem resumed_of_error {notes : Annotations μ} {dest left right : Nat} {value : Option Value}
    {env : Environment} {err : ConditionError}
    (h : Condition.allHold p.evaluate p.input left right (notes.bindReturn value right env)
      notes.post = .error err) : p.resumed notes dest left right value env = .error err := by
  unfold resumed
  dsimp only
  rw [h]
  rfl

theorem resumed_of_ok {notes : Annotations μ} {dest left right : Nat} {value : Option Value}
    {env : Environment} {b : Bool}
    (h : Condition.allHold p.evaluate p.input left right (notes.bindReturn value right env)
      notes.post = .ok b) :
    p.resumed notes dest left right value env
      = .ok (if b ∧ (p.graph.slot dest).lookahead.admits (p.input.symbolAt? right) then
          some (notes.bindReturn value right env) else none) := by
  unfold resumed
  dsimp only
  rw [h]
  cases b with
  | false => rfl
  | true =>
    show Except.ok _ = _
    simp

/-- **Handing a result to a caller** adds what follows from their meeting. -/
theorem ends_propagate {s : State} {key : Stack.Key} {e : Stack.Edge} {c : Caller}
    {q : Stack.Popped} {immediate : Bool} (hs : s.Wf) (hc : s.caller? e = some c)
    (hq : s.stack.HasResult key q) :
    Ends (p.propagate e key.position immediate q) s
      (fun _ s' => ∃ facts, p.resume key c q.right q.value = .ok facts ∧ s.Adds s' facts ∧
        s.Keeps s')
      (fun err => p.resume key c q.right q.value = .error err) := by
  obtain ⟨hdest, hslot, hpart, henv⟩ := State.caller?_eq_some_iff.mp hc
  unfold propagate resume
  rw [← hslot, ← henv]
  cases haction : (p.graph.slot e.call).action with
  | scan | branch | complete => exact ends_pure ⟨[], rfl, hs.adds_nil, .refl s⟩
  | call callee arguments notes dest =>
    refine ends_bind (ends_ask (fun b hb => ?_) (fun err herr => ?_))
    · dsimp only
      rw [resumed_of_ok hb]
      cases b with
      | false => exact ends_pure ⟨[], rfl, hs.adds_nil, .refl s⟩
      | true =>
        rw [if_pos rfl]
        by_cases hadmits : (p.graph.slot dest).lookahead.admits (p.input.symbolAt? q.right)
        · rw [if_pos hadmits, if_pos ⟨rfl, hadmits⟩]
          refine ends_bind ((ends_callArguments hs hdest).imp ?_ fun _ => id)
          intro arguments' _ hnumbers
          obtain ⟨f, rfl, hf, harguments⟩ := hnumbers
          refine ends_bind (ends_onForest ?_)
          -- the part that the caller goes on with
          obtain ⟨hnode, hpiece⟩ := hf.wf.adds_getNode dest harguments
            (hf.extend.part? hpart) (hf.extend.piece? (hs.results hq))
          generalize f.getNode dest arguments' e.node q.node = found at hnode hpiece
          have hadds := hs.adds_forest (hf.trans hnode)
          let d : Descriptor := ⟨dest, q.right, e.dest, some found.1,
            notes.bindReturn q.value q.right e.env⟩
          have hthread : State.thread? { s with forest := found.2 } d
              = some ⟨dest, q.right, c.call, some (.join dest c.call.arguments c.part
                  (resultPiece key q.right)), notes.bindReturn q.value q.right e.env⟩ :=
            State.thread?_eq_some_iff.mpr ⟨rfl, rfl, hdest,
              Forest.part?_eq_some_iff.mpr (Or.inr ⟨_, _, rfl, rfl, hpiece⟩), rfl⟩
          -- the two ways to accept a descriptor differ in its place only
          have haccepts : s.agenda.Accepts d
              (if immediate then s.agenda.offerNext d else s.agenda.offer d).2 := by
            split
            · exact Agenda.accepts_offerNext s.agenda d
            · exact Agenda.accepts_offer s.agenda d
          have hposted := hadds.wf.adds_agenda haccepts hthread
            (Or.inr ⟨arguments', hnode.extend.argumentsAt? harguments⟩)
          refine ends_onAgenda ⟨_, rfl, (hadds.trans hposted).of_mem_iff fun fact => ?_,
            rfl, rfl, haccepts.grows⟩
          simp only [Option.elim, resumeFacts, List.mem_append, List.mem_cons, List.not_mem_nil,
            or_false, false_or]
          exact or_comm
        · rw [if_neg hadmits, if_neg fun h => hadmits h.2]
          exact ends_pure ⟨[], rfl, hs.adds_nil, .refl s⟩
    · show (Option.elim · [] (resumeFacts key c q.right dest)) <$> _ = _
      rw [resumed_of_error herr]
      rfl

/-- **A round of results** adds what follows from each meeting. -/
theorem ends_propagateAll {α : Type} (edge : α → Stack.Edge) (result : α → Stack.Popped)
    {key : Stack.Key} {immediate : Bool} {l : List α} :
    ∀ {s : State}, s.Wf →
      (∀ x ∈ l, (∃ c, s.caller? (edge x) = some c) ∧ s.stack.HasResult key (result x)) →
      Ends (l.forM fun x => p.propagate (edge x) key.position immediate (result x)) s
        (fun _ s' => ∃ facts, s.Adds s' facts ∧ s.Keeps s' ∧
          (∀ x ∈ l, ∀ c, s.caller? (edge x) = some c → ∃ found,
            p.resume key c (result x).right (result x).value = .ok found ∧ ∀ f ∈ found, f ∈ facts) ∧
          ∀ f ∈ facts, ∃ x ∈ l, ∃ c, s.caller? (edge x) = some c ∧
            p.ResumesTo key c (result x).right (result x).value f)
        (fun err => ∃ x ∈ l, ∃ c, s.caller? (edge x) = some c ∧
          p.resume key c (result x).right (result x).value = .error err) := by
  induction l with
  | nil =>
    intro s hs _
    exact ends_pure ⟨[], hs.adds_nil, .refl s, fun x h => absurd h List.not_mem_nil,
      fun f h => absurd h List.not_mem_nil⟩
  | cons x rest ih =>
    intro s hs hall
    obtain ⟨⟨c, hc⟩, hq⟩ := hall x List.mem_cons_self
    refine ends_bind ((ends_propagate hs hc hq).imp ?_ ?_)
    · intro _ s₁ hpropagated
      obtain ⟨found, hresume, hadds, hkeeps⟩ := hpropagated
      have hrest : ∀ y ∈ rest, (∃ c, s₁.caller? (edge y) = some c) ∧
          s₁.stack.HasResult key (result y) := by
        intro y hy
        obtain ⟨⟨c', hc'⟩, hq'⟩ := hall y (List.mem_cons_of_mem _ hy)
        exact ⟨⟨c', hadds.extend.caller? hc'⟩, hkeeps.stack ▸ hq'⟩
      -- the callers of the rest are read alike before and after the first meeting
      have hback : ∀ y ∈ rest, ∀ c, s₁.caller? (edge y) = some c → s.caller? (edge y) = some c := by
        intro y hy c' hc'
        obtain ⟨⟨c₀, hc₀⟩, -⟩ := hall y (List.mem_cons_of_mem _ hy)
        rw [hc₀, ← hadds.extend.caller? hc₀, hc']
      refine (ih hadds.wf hrest).imp ?_ ?_
      · intro _ s₂ hmoved
        obtain ⟨facts, hadds', hkeeps', hdone, horigin⟩ := hmoved
        refine ⟨found ++ facts, hadds.trans hadds', hkeeps.trans hkeeps', fun y hy c' hc' => ?_,
          fun f hf => ?_⟩
        · rcases List.mem_cons.mp hy with rfl | hy
          · obtain rfl := Option.some.inj (hc.symm.trans hc')
            exact ⟨found, hresume, fun f hf => List.mem_append_left _ hf⟩
          · obtain ⟨found', hresume', hfound'⟩ := hdone y hy c' (hadds.extend.caller? hc')
            exact ⟨found', hresume', fun f hf => List.mem_append_right _ (hfound' f hf)⟩
        · rcases List.mem_append.mp hf with hf | hf
          · exact ⟨x, List.mem_cons_self, c, hc, found, hresume, hf⟩
          · obtain ⟨y, hy, c', hc', hresumes⟩ := horigin f hf
            exact ⟨y, List.mem_cons_of_mem _ hy, c', hback y hy c' hc', hresumes⟩
      · intro err herr
        obtain ⟨y, hy, c', hc', herror⟩ := herr
        exact ⟨y, List.mem_cons_of_mem _ hy, c', hback y hy c' hc', herror⟩
    · exact fun err herror => ⟨x, List.mem_cons_self, c, hc, herror⟩

omit [Matcher μ] in
/-- Putting threads at the front of a call on the agenda posts them. -/
theorem ends_offerAll {E : ConditionError → Prop} {key : Stack.Key} {id : Nat}
    {slots : List Nat} :
    ∀ {s : State}, s.Wf → s.stack.call? id = some key →
      Ends (slots.forM fun slot => onAgenda (·.offer ⟨slot, key.position, id, none,
          p.calleeEnvironment key.nonterminal key.arguments⟩)) s
        (fun _ s' => s.Adds s' (slots.map fun slot => .posted (p.opening key slot)) ∧ s.Keeps s')
        E := by
  induction slots with
  | nil => exact fun hs _ => ends_pure ⟨hs.adds_nil, .refl _⟩
  | cons slot rest ih =>
    intro s hs hid
    let d : Descriptor := ⟨slot, key.position, id, none,
      p.calleeEnvironment key.nonterminal key.arguments⟩
    have haccepts := s.agenda.accepts_offer d
    have hkeeps : s.Keeps { s with agenda := (s.agenda.offer d).2 } := ⟨rfl, rfl, haccepts.grows⟩
    have hadds := hs.adds_agenda (t := p.opening key slot) haccepts
      (State.thread?_eq_some_iff.mpr ⟨rfl, rfl, hid, rfl, rfl⟩) (Or.inl rfl)
    refine ends_bind (ends_onAgenda ((ih hadds.wf hid).imp ?_ fun _ h => h))
    intro _ s' hkept
    obtain ⟨hadds', hkeeps'⟩ := hkept
    exact ⟨hadds.trans hadds', hkeeps.trans hkeeps'⟩

section

variable {α : Type} {s : State} {Q : α → State → Prop} {E : ConditionError → Prop}

omit [Matcher μ] in
/-- The arguments of a call are evaluated if the callee has parameters. -/
theorem ends_arguments {callee : Nat} {arguments : List Expr} {env : Environment}
    {next : Option (List Value) → Move α}
    (hok : ∀ values, p.argumentsFor callee arguments env = .ok values → Ends (next values) s Q E)
    (herror : ∀ err, p.argumentsFor callee arguments env = .error err → E err) :
    Ends (if (p.graph.nonterminal callee).parameters.isEmpty then pure none >>= next
        else (some <$> arguments.mapM fun e => askValue (p.evaluate e env)) >>= next) s Q E := by
  unfold argumentsFor at hok herror
  split
  · rename_i hempty
    exact ends_bind (ends_pure (hok none (if_pos hempty)))
  · rename_i hempty
    rw [map_eq_pure_bind, bind_assoc]
    refine ends_bind (ends_mapM.imp ?_ ?_)
    · intro values _ h
      obtain ⟨rfl, hvalues⟩ := h
      exact ends_bind (ends_pure (hok _ (by rw [if_neg hempty, hvalues]; rfl)))
    · intro err h
      obtain ⟨e, he, rfl⟩ := h
      exact herror _ (by rw [if_neg hempty, he]; rfl)

omit [Matcher μ] in
/-- A rule returns the value of its expression, if it has one. -/
theorem ends_returned {returns : Option Expr} {env : Environment} {next : Option Value → Move α}
    (hok : ∀ value, p.returned returns env = .ok value → Ends (next value) s Q E)
    (herror : ∀ err, p.returned returns env = .error err → E err) :
    Ends (match returns with
        | none => pure none >>= next
        | some e => (some <$> askValue (p.evaluate e env)) >>= next) s Q E := by
  unfold returned at hok herror
  cases returns with
  | none => exact ends_bind (ends_pure (hok none rfl))
  | some e =>
    dsimp only at hok herror ⊢
    rw [map_eq_pure_bind, bind_assoc]
    refine ends_bind ?_
    cases he : p.evaluate e env with
    | error err => exact herror _ (by rw [he]; rfl)
    | ok v => exact ends_bind (ends_pure (hok _ (by rw [he]; rfl)))

end

end Parser

end GeneralLL
