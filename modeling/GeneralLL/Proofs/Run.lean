import GeneralLL.Parser.Report
import GeneralLL.Proofs.Coherence
import GeneralLL.Proofs.Recognition
import GeneralLL.Terminal.Run

/-!
# Runs of a parser

`Reaches` says which states a parse passes through, with the descriptors that were
delivered on the way. All of them are coherent, the threads that have run have found all
that follows from where they were, and every accepted descriptor has been delivered or
waits (`Reached`).

A parse that comes to **rest** has nothing to deliver. So it knows every fact that it is
entitled to (`Reached.knows`), and all expressions had their answers
(`Reached.not_faulty`). A parse that ends with an error has met an expression without an
answer. What is left of the order of work is only how things are numbered.
-/

namespace GeneralLL

namespace Agenda

theorem take_eq_some {a a' : Agenda} {d : Descriptor} (h : a.take = some (d, a')) :
    a.waiting = d :: a'.waiting ∧ a'.seen = a.seen := by
  obtain ⟨scheduling, shortcut, seen, queue, next⟩ := a
  unfold take at h
  cases next with
  | some e =>
    obtain ⟨rfl, rfl⟩ := Prod.mk.inj (Option.some.inj h)
    exact ⟨rfl, rfl⟩
  | none =>
    cases queue with
    | nil => exact absurd h (by simp)
    | cons e rest =>
      obtain ⟨rfl, rfl⟩ := Prod.mk.inj (Option.some.inj h)
      exact ⟨rfl, rfl⟩

theorem take_eq_none {a : Agenda} (h : a.take = none) : a.waiting = [] := by
  obtain ⟨scheduling, shortcut, seen, queue, next⟩ := a
  unfold take at h
  cases next with
  | some e => exact absurd h (by simp)
  | none =>
    cases queue with
    | nil => rfl
    | cons e rest => exact absurd h (by simp)

end Agenda

namespace Parser

variable {μ : Type} [Matcher μ] {p : Parser μ} {g : Grammar μ}

/-- The descriptor that the next step delivers, if it does not go on with the running thread. -/
def State.delivers (s : State) : List Descriptor :=
  match s.running with
  | some _ => []
  | none => (s.agenda.take.map Prod.fst).toList

/-- The states of a parse, with the descriptors that were delivered so far. -/
inductive Reaches (p : Parser μ) : List Descriptor → State → Prop where
  | begin {s : State} : p.begin p.initial = .ok () s → Reaches p [] s
  | step {log : List Descriptor} {s s' : State} :
      Reaches p log s → p.step s = .ok true s' → Reaches p (log ++ s.delivers) s'

/-- Nothing runs and nothing waits. -/
def State.AtRest (s : State) : Prop := s.running = none ∧ s.agenda.waiting = []

/-- Everything that follows from a thread's being at its slot is known. -/
def Moved (p : Parser μ) (ran : Thread → Prop) (s : State) (t : Thread) : Prop :=
  ∃ facts, p.move t = .ok facts ∧ ∀ f ∈ facts, s.Covers f ∨ ∃ t', f = .passed t' ∧ ran t'

theorem Moved.extend {ran ran' : Thread → Prop} {s s' : State} {t : Thread}
    (h : p.Moved ran s t) (hext : s.Extends s') (hran : ∀ t, ran t → ran' t) :
    p.Moved ran' s' t := by
  obtain ⟨facts, hmove, hfacts⟩ := h
  refine ⟨facts, hmove, fun f hf => ?_⟩
  rcases hfacts f hf with hcovers | ⟨t', rfl, ht'⟩
  · exact Or.inl (hext.covers hcovers)
  · exact Or.inr ⟨t', rfl, hran t' ht'⟩

/-- **What is true of a state that a parse reaches.** The threads of `ran` are those that were
started, the running one included. -/
structure Reached (p : Parser μ) (ran : Thread → Prop) (log : List Descriptor) (s : State) :
    Prop where
  /-- The state is as it is between two moves. -/
  coherent : p.Coherent s
  /-- The start symbol was called, unless it cannot begin. -/
  started : p.openings p.startKey ≠ [] → s.Shows (.called p.startKey)
  /-- The running thread can be read, and was started. -/
  running : ∀ {d : Descriptor}, s.running = some d → ∃ t, s.thread? d = some t ∧ ran t
  /-- The parse is entitled to every thread that was started. -/
  entailed : ∀ {t : Thread}, ran t → p.Entails (.passed t)
  /-- A thread that was started is still running, or what follows from it is known. -/
  moved : ∀ {t : Thread}, ran t →
    (∃ d, s.running = some d ∧ s.thread? d = some t) ∨ p.Moved ran s t
  /-- What was delivered was started. -/
  delivered : ∀ {d : Descriptor}, d ∈ log → ∃ t, s.thread? d = some t ∧ ran t
  /-- What was accepted was delivered or waits, and is not so twice. -/
  queued : s.agenda.seen.toList.Perm (log ++ s.agenda.waiting)

theorem coherent_initial : p.Coherent p.initial := by
  have hno {d : Descriptor} (h : d ∈ p.initial.agenda.seen.toList) : False :=
    absurd h List.not_mem_nil
  have hedge {key : Stack.Key} {e : Stack.Edge} : ¬p.initial.stack.HasEdge key e := by
    intro hedge
    obtain ⟨id, n, hn, -⟩ := hedge
    exact absurd hn (by simp [initial, Stack.empty])
  have hresult {key : Stack.Key} {q : Stack.Popped} : ¬p.initial.stack.HasResult key q := by
    intro hresult
    obtain ⟨id, n, hn, -⟩ := hresult
    exact absurd hn (by simp [initial, Stack.empty])
  have hcall {key : Stack.Key} : ¬p.initial.stack.HasCall key := by
    intro hcall
    obtain ⟨id, hid⟩ := hcall
    obtain ⟨n, hn, -⟩ := Stack.call?_eq_some_iff.mp hid
    exact absurd hn (by simp [initial, Stack.empty])
  refine ⟨⟨Forest.wf_empty, Stack.wf_empty, fun h => (hedge h).elim, fun h => (hresult h).elim,
    fun h => (hno h).elim⟩, fun {f} hf => ?_, fun h _ => (hcall h).elim, fun {_ _ _ _} h _ => ?_,
    fun {t} h => ?_⟩
  · cases f with
    | called key => exact (hcall hf).elim
    | posted t =>
      obtain ⟨d, hd, -⟩ := hf
      exact (hno hd).elim
    | passed t => exact False.elim hf
    | awaited key c =>
      obtain ⟨e, he, -⟩ := hf
      exact (hedge he).elim
    | result key right value =>
      obtain ⟨q, hq, -⟩ := hf
      exact (hresult hq).elim
    | piece w =>
      obtain ⟨id, hid⟩ := hf
      obtain ⟨n, hn, -⟩ := Forest.piece?_eq_some_iff.mp hid
      exact absurd hn (by simp [initial, Forest.empty])
    | packing d =>
      obtain ⟨i, k, hk, -⟩ := hf
      exact absurd hk (by simp [initial, Forest.empty])
  · obtain ⟨e, he, -⟩ := h
    exact (hedge he).elim
  · obtain ⟨d, hd, -⟩ := h
    exact (hno hd).elim

/-- A parse begins in a reached state and without an error. -/
theorem ends_begin {E : ConditionError → Prop} :
    Ends p.begin p.initial (fun _ s => p.Reached (fun _ => False) [] s) E := by
  -- before the first step everything accepted waits
  have hreached {s : State} (hs : p.Coherent s) (hrunning : s.running = none)
      (hgrows : p.initial.agenda.Grows s.agenda)
      (hstarted : p.openings p.startKey ≠ [] → s.Shows (.called p.startKey)) :
      p.Reached (fun _ => False) [] s := by
    refine ⟨hs, hstarted, fun h => absurd (hrunning.symm.trans h) (by simp), fun h => h.elim,
      fun h => h.elim, fun h => absurd h List.not_mem_nil, ?_⟩
    obtain ⟨l, hseen, hwaiting⟩ := hgrows
    have hseen : s.agenda.seen.toList = l := hseen
    have hwaiting : s.agenda.waiting.Perm (l ++ []) := hwaiting
    rw [hseen]
    exact (List.append_nil l ▸ hwaiting).symm
  unfold begin
  refine ends_bind ((ends_create coherent_initial .start).imp ?_ fun _ h => h)
  intro o s hcreated
  obtain ⟨hs, hext, hrunning, hgrows, ho⟩ := hcreated
  cases o with
  | none =>
    exact ends_modify (hreached (hs.of_eq rfl rfl rfl) hrunning hgrows fun hne => absurd ho hne)
  | some id => exact ends_pure (hreached hs hrunning hgrows fun _ => ⟨id, ho.2⟩)

/-- A parse begins. -/
theorem exists_begin (p : Parser μ) :
    ∃ s, p.begin p.initial = .ok () s ∧ p.Reached (fun _ => False) [] s := by
  have hbegin := ends_begin (p := p) (E := fun _ => False)
  unfold Ends at hbegin
  cases hb : p.begin p.initial with
  | error e s =>
    rw [hb] at hbegin
    exact hbegin.elim
  | ok u s =>
    rw [hb] at hbegin
    exact ⟨s, rfl, hbegin⟩

/-! ## Steps -/

/-- A descriptor that waits is delivered. -/
theorem Reached.take {ran : Thread → Prop} {log : List Descriptor} {s : State} {d : Descriptor}
    {agenda : Agenda} {reach : Option Reach} (h : p.Reached ran log s) (hrunning : s.running = none)
    (htake : s.agenda.take = some (d, agenda)) :
    p.Reached (fun t => ran t ∨ s.thread? d = some t) (log ++ [d])
      { s with agenda, running := some d, furthest := reach } := by
  obtain ⟨hwaiting, hseen⟩ := Agenda.take_eq_some htake
  have hrest : s.Adds { s with agenda, running := some d, furthest := reach } [] :=
    h.coherent.wf.adds_rest rfl rfl hseen
  have hext := hrest.extend
  have hd : d ∈ s.agenda.seen.toList := by
    rw [h.queued.mem_iff, hwaiting]
    exact List.mem_append_right _ List.mem_cons_self
  obtain ⟨t, ht, -⟩ := h.coherent.wf.seen hd
  refine ⟨h.coherent.of_eq rfl rfl hseen, fun hne => hext.shows (h.started hne), fun {d'} hd' => ?_,
    fun {t'} ht' => ?_, fun {t'} ht' => ?_, fun {d'} hd' => ?_, ?_⟩
  · obtain rfl := Option.some.inj hd'
    exact ⟨t, hext.thread? ht, Or.inr ht⟩
  · rcases ht' with ht' | ht'
    · exact h.entailed ht'
    · exact .delivered (h.coherent.sound ⟨d, hd, ht'⟩)
  · -- nothing runs, so whatever ran before has moved
    rcases ht' with ht' | ht'
    · rcases h.moved ht' with ⟨d', hd', -⟩ | hmoved
      · exact absurd (hrunning.symm.trans hd') (by simp)
      · exact Or.inr (hmoved.extend hext fun _ => Or.inl)
    · exact Or.inl ⟨d, rfl, hext.thread? ht'⟩
  · rcases List.mem_append.mp hd' with hd' | hd'
    · obtain ⟨t', ht', hran⟩ := h.delivered hd'
      exact ⟨t', hext.thread? ht', Or.inl hran⟩
    · obtain rfl := List.mem_singleton.mp hd'
      exact ⟨t, hext.thread? ht, Or.inr ht⟩
  · have hqueued := h.queued
    rw [hwaiting] at hqueued
    show agenda.seen.toList.Perm (log ++ [d] ++ agenda.waiting)
    rw [hseen, List.append_assoc]
    exact hqueued

/-- The running thread moves. -/
theorem Reached.advance {ran : Thread → Prop} {log : List Descriptor} {s s' : State}
    {d : Descriptor} {t : Thread} (h : p.Reached ran log s) (hrunning : s.running = some d)
    (ht : s.thread? d = some t) (hadv : p.Advanced t s s') :
    p.Reached (fun t => ran t ∨ ∃ d, s'.running = some d ∧ s'.thread? d = some t) log s' := by
  have hext := hadv.extend
  obtain ⟨t₀, ht₀, hran⟩ := h.running hrunning
  obtain rfl := Option.some.inj (ht.symm.trans ht₀)
  refine ⟨hadv.coherent, fun hne => hext.shows (h.started hne), fun {d'} hd' => ?_,
    fun {t'} ht' => ?_, fun {t'} ht' => ?_, fun {d'} hd' => ?_, ?_⟩
  · obtain ⟨t', ht', -⟩ := hadv.running d' hd'
    exact ⟨t', ht', Or.inr ⟨d', hd', ht'⟩⟩
  · rcases ht' with ht' | ⟨d', hd', ht'⟩
    · exact h.entailed ht'
    · obtain ⟨t'', ht'', hleads⟩ := hadv.running d' hd'
      obtain rfl := Option.some.inj (ht'.symm.trans ht'')
      exact (h.entailed hran).of_leadsTo hleads
  · -- what was running has moved now, and any other thread has before
    rcases ht' with ht' | ht'
    · rcases h.moved ht' with ⟨d', hd', hthread⟩ | hmoved
      · obtain rfl := Option.some.inj (hrunning.symm.trans hd')
        obtain rfl := Option.some.inj (ht.symm.trans hthread)
        obtain ⟨facts, hmove, hfacts⟩ := hadv.found
        refine Or.inr ⟨facts, hmove, fun f hf => (hfacts f hf).imp_right ?_⟩
        intro hposted
        obtain ⟨d', t', rfl, hd', hthread'⟩ := hposted
        exact ⟨t', rfl, Or.inr ⟨d', hd', hthread'⟩⟩
      · exact Or.inr (hmoved.extend hext fun _ => Or.inl)
    · exact Or.inl ht'
  · obtain ⟨t', ht', hold⟩ := h.delivered hd'
    exact ⟨t', hext.thread? ht', Or.inl hold⟩
  · obtain ⟨l, hseen, hwaiting⟩ := hadv.agenda
    rw [hseen]
    -- what was accepted waits now
    calc (s.agenda.seen.toList ++ l).Perm (log ++ s.agenda.waiting ++ l) :=
          h.queued.append_right _
      _ = log ++ (s.agenda.waiting ++ l) := List.append_assoc ..
      List.Perm _ (log ++ (l ++ s.agenda.waiting)) := List.perm_append_comm.append_left _
      List.Perm _ (log ++ s'.agenda.waiting) := hwaiting.symm.append_left _

/-- A move of the running thread adds what follows from where the thread is. -/
theorem Reached.moves [DecidableEq μ] (hg : SlotGraph.ofGrammar g = .ok p.graph)
    {ran : Thread → Prop} {log : List Descriptor} {s : State} {d : Descriptor}
    (h : p.Reached ran log s) (hrunning : s.running = some d) :
    ∃ t, s.thread? d = some t ∧
      Ends (p.advance d) s (fun _ s' => p.Advanced t s s') (fun _ => p.Faulty) := by
  obtain ⟨t, ht, hran⟩ := h.running hrunning
  have hpassed := h.entailed hran
  exact ⟨t, ht, ends_advance h.coherent ht hpassed (head_eq_of_entails hg hpassed)⟩

/-- **A step leads from reached states to reached states,** and it is the last one only if the
parse is at rest. -/
theorem ends_step [DecidableEq μ] (hg : SlotGraph.ofGrammar g = .ok p.graph)
    {ran : Thread → Prop} {log : List Descriptor} {s : State} (h : p.Reached ran log s) :
    Ends p.step s
      (fun more s' => if more then ∃ ran', p.Reached ran' (log ++ s.delivers) s'
        else s' = s ∧ s.AtRest) (fun _ => p.Faulty) := by
  unfold step
  refine ends_bind (ends_get ?_)
  unfold State.delivers
  cases hrunning : s.running with
  | some d =>
    obtain ⟨t, ht, hends⟩ := h.moves hg hrunning
    refine ends_bind (hends.imp ?_ fun _ h => h)
    intro _ s' hadv
    refine ends_pure ?_
    rw [if_pos rfl, List.append_nil]
    exact ⟨_, h.advance hrunning ht hadv⟩
  | none =>
    dsimp only
    cases htake : s.agenda.take with
    | none => exact ends_pure ⟨rfl, hrunning, Agenda.take_eq_none htake⟩
    | some next =>
      obtain ⟨d, agenda⟩ := next
      refine ends_bind (ends_set (ends_bind (ends_record fun reach => ends_pure ?_)))
      rw [if_pos rfl]
      exact ⟨_, h.take hrunning htake⟩

/-- **Every state of a parse is as described.** -/
theorem Reaches.reached [DecidableEq μ] (hg : SlotGraph.ofGrammar g = .ok p.graph)
    {log : List Descriptor} {s : State} (h : p.Reaches log s) : ∃ ran, p.Reached ran log s := by
  induction h with
  | begin hbegin =>
    have hends := ends_begin (p := p) (E := fun _ => True)
    unfold Ends at hends
    rw [hbegin] at hends
    exact ⟨_, hends⟩
  | step _ hstep ih =>
    obtain ⟨ran, hreached⟩ := ih
    have hends := ends_step hg hreached
    unfold Ends at hends
    rw [hstep] at hends
    exact hends

/-! ## Parses at rest -/

/-- **A parse at rest knows every fact that it is entitled to.** -/
theorem Reached.knows {ran : Thread → Prop} {log : List Descriptor} {s : State}
    (h : p.Reached ran log s) (hrest : s.AtRest) {f : Fact} (hf : p.Entails f) :
    s.Covers f ∨ ∃ t, f = .passed t ∧ ran t := by
  have hs := h.coherent
  have hshows {f : Fact} (hknown : s.Covers f ∨ ∃ t, f = .passed t ∧ ran t)
      (hpassed : ∀ t, f ≠ .passed t) (hpacking : ∀ d, f ≠ .packing d) : s.Shows f := by
    rcases hknown with hcovers | ⟨t, ht, -⟩
    · exact hcovers.shows hpacking
    · exact absurd ht (hpassed t)
  induction hf with
  | start hne => exact Or.inl (Or.inl (h.started hne))
  | opening _ hslot ih => exact Or.inl (Or.inl (hs.opened (hshows ih (by simp) (by simp)) hslot))
  | @delivered t _ ih =>
    -- what was posted was delivered, for nothing waits
    obtain ⟨d, hd, ht⟩ := hshows ih (by simp) (by simp)
    rw [h.queued.mem_iff, hrest.2, List.append_nil] at hd
    obtain ⟨t', ht', hran⟩ := h.delivered hd
    obtain rfl := Option.some.inj (ht.symm.trans ht')
    exact Or.inr ⟨t, rfl, hran⟩
  | @move t facts f _ hmove hf ih =>
    have hran : ran t := by
      rcases ih with hcovers | ⟨t', heq, hran⟩
      · exact (hcovers.shows (by simp)).elim
      · obtain rfl := Fact.passed.inj heq
        exact hran
    rcases h.moved hran with ⟨d, hd, -⟩ | ⟨facts', hmove', hfacts⟩
    · exact absurd (hrest.1.symm.trans hd) (by simp)
    · obtain rfl := Except.ok.inj (hmove.symm.trans hmove')
      exact hfacts f hf
  | @resume key c right value facts f _ _ hresume hf ihc ihr =>
    obtain ⟨facts', hresume', hfacts⟩ := hs.met (hshows ihc (by simp) (by simp))
      (hshows ihr (by simp) (by simp))
    obtain rfl := Except.ok.inj (hresume.symm.trans hresume')
    exact Or.inl (hfacts f hf)

theorem Reached.shows {ran : Thread → Prop} {log : List Descriptor} {s : State}
    (h : p.Reached ran log s) (hrest : s.AtRest) {f : Fact} (hf : p.Entails f)
    (hpassed : ∀ t, f ≠ .passed t) (hpacking : ∀ d, f ≠ .packing d) : s.Shows f := by
  rcases h.knows hrest hf with hcovers | ⟨t, ht, -⟩
  · exact hcovers.shows hpacking
  · exact absurd ht (hpassed t)

/-- **A parse comes to rest only if all expressions had their answers.** -/
theorem Reached.not_faulty {ran : Thread → Prop} {log : List Descriptor} {s : State}
    (h : p.Reached ran log s) (hrest : s.AtRest) : ¬p.Faulty := by
  intro hfaulty
  cases hfaulty with
  | @move t e ht hmove =>
    rcases h.knows hrest ht with hcovers | ⟨t', heq, hran⟩
    · exact (hcovers.shows (by simp)).elim
    · obtain rfl := Fact.passed.inj heq
      rcases h.moved hran with ⟨d, hd, -⟩ | ⟨facts, hmove', -⟩
      · exact absurd (hrest.1.symm.trans hd) (by simp)
      · exact absurd (hmove.symm.trans hmove') (by simp)
  | @resume key c right value e hc hr hresume =>
    obtain ⟨facts, hresume', -⟩ := h.coherent.met (h.shows hrest hc (by simp) (by simp))
      (h.shows hrest hr (by simp) (by simp))
    exact absurd (hresume.symm.trans hresume') (by simp)

/-! ## Reports -/

/-- A run ends at rest, or out of steps, or with an error. -/
theorem ends_run [DecidableEq μ] (hg : SlotGraph.ofGrammar g = .ok p.graph) (fuel : Nat) :
    ∀ {log : List Descriptor} {s : State}, p.Reaches log s →
      Ends (p.run fuel) s
        (fun finished s' => (∃ log', p.Reaches log' s') ∧ (finished → s'.AtRest))
        (fun _ => p.Faulty) := by
  induction fuel with
  | zero => exact fun h => ends_pure ⟨⟨_, h⟩, fun h => absurd h (by simp)⟩
  | succ fuel ih =>
    intro log s h
    obtain ⟨ran, hreached⟩ := h.reached hg
    have hstep := ends_step hg hreached
    rw [run]
    refine ends_bind ?_
    unfold Ends at hstep ⊢
    cases hs : p.step s with
    | error e s' =>
      rw [hs] at hstep
      exact hstep
    | ok more s' =>
      rw [hs] at hstep
      cases more with
      | true => exact ih (.step h hs)
      | false =>
        obtain ⟨rfl, hrest⟩ := hstep
        exact ⟨⟨log, h⟩, fun _ => hrest⟩

/-- The parse comes to rest, and reports what it has found then. -/
structure EndsIn [DecidableEq μ] (p : Parser μ) (fuel : Nat) (log : List Descriptor) (s : State) :
    Prop where
  /-- The state is reached with these deliveries. -/
  reaches : p.Reaches log s
  /-- Nothing runs, and nothing waits. -/
  atRest : s.AtRest
  /-- The report is that of the state. -/
  report : p.parse fuel = ⟨s.stack, .ofState s, .ok (p.verdict s)⟩

/-- What a parse reports is what its run ends with. -/
theorem parse_eq {s : State} (hb : p.begin p.initial = .ok () s) (fuel : Nat) :
    p.parse fuel = match p.run fuel s with
      | .ok true s' => ⟨s'.stack, .ofState s', .ok (p.verdict s')⟩
      | .ok false s' => ⟨s'.stack, .ofState s', .ok .unfinished⟩
      | .error e s' => ⟨s'.stack, .ofState s', .error e⟩ := by
  unfold parse EStateM.run
  cases hr : p.run fuel s with
  | error e s' => simp only [bind, EStateM.bind, hb, hr]
  | ok finished s' => cases finished <;> simp only [bind, EStateM.bind, hb, hr]

/-- A parse comes to rest, or runs out of steps, or ends with an error. -/
theorem parse_cases [DecidableEq μ] (hg : SlotGraph.ofGrammar g = .ok p.graph) (fuel : Nat) :
    (∃ log s, p.EndsIn fuel log s) ∨
      (p.parse fuel).verdict = .ok .unfinished ∨
      ∃ e, (p.parse fuel).verdict = .error e ∧ p.Faulty := by
  obtain ⟨s, hb, -⟩ := p.exists_begin
  have hparse := parse_eq hb fuel
  have hrun := ends_run hg fuel (.begin hb)
  unfold Ends at hrun
  cases hr : p.run fuel s with
  | error e s' =>
    rw [hr] at hrun hparse
    exact Or.inr (Or.inr ⟨e, by rw [hparse], hrun⟩)
  | ok finished s' =>
    rw [hr] at hrun hparse
    obtain ⟨⟨log, hreaches⟩, hrest⟩ := hrun
    cases finished with
    | true => exact Or.inl ⟨log, s', hreaches, hrest rfl, hparse⟩
    | false => exact Or.inr (Or.inl (by rw [hparse]))

/-- What a parse without an error has counted is counted in a state that it has reached. -/
theorem reaches_of_verdict_eq_ok [DecidableEq μ] (hg : SlotGraph.ofGrammar g = .ok p.graph)
    {fuel : Nat} {v : Verdict} (h : (p.parse fuel).verdict = .ok v) :
    ∃ log s, p.Reaches log s ∧ (p.parse fuel).statistics = .ofState s := by
  obtain ⟨s, hb, -⟩ := p.exists_begin
  have hrun := ends_run hg fuel (.begin hb)
  unfold Ends at hrun
  rw [parse_eq hb] at h ⊢
  cases hr : p.run fuel s with
  | error e s' =>
    rw [hr] at h
    exact absurd h (by simp)
  | ok finished s' =>
    rw [hr] at hrun
    obtain ⟨⟨log, hreaches⟩, -⟩ := hrun
    cases finished <;> exact ⟨log, s', hreaches, rfl⟩

/-- A parse that succeeds has come to rest with the forest that it answers. -/
theorem endsIn_of_success [DecidableEq μ] (hg : SlotGraph.ofGrammar g = .ok p.graph)
    {fuel root : Nat} {f : Forest} (h : (p.parse fuel).verdict = .ok (.success root f)) :
    ∃ log s, p.EndsIn fuel log s ∧ s.forest.lookup p.rootSpan = some root ∧ s.forest = f := by
  rcases parse_cases hg fuel with ⟨log, s, hends⟩ | hunfinished | ⟨e, he, -⟩
  · rw [hends.report] at h
    have h : p.verdict s = .success root f := Except.ok.inj h
    unfold verdict at h
    cases hlookup : s.forest.lookup p.rootSpan with
    | none =>
      rw [hlookup] at h
      exact absurd h (by simp)
    | some id =>
      rw [hlookup] at h
      obtain ⟨rfl, rfl⟩ := Verdict.success.inj h
      exact ⟨log, s, hends, hlookup, rfl⟩
  · exact absurd (h.symm.trans hunfinished) (by simp)
  · exact absurd (h.symm.trans he) (by simp)

/-- A parse that fails has come to rest without a node for the text. -/
theorem endsIn_of_failure [DecidableEq μ] (hg : SlotGraph.ofGrammar g = .ok p.graph)
    {fuel : Nat} {f : Failure} (h : (p.parse fuel).verdict = .ok (.failure f)) :
    ∃ log s, p.EndsIn fuel log s ∧ s.forest.lookup p.rootSpan = none ∧ p.failure s = f := by
  rcases parse_cases hg fuel with ⟨log, s, hends⟩ | hunfinished | ⟨e, he, -⟩
  · rw [hends.report] at h
    have h : p.verdict s = .failure f := Except.ok.inj h
    unfold verdict at h
    cases hlookup : s.forest.lookup p.rootSpan with
    | none =>
      rw [hlookup] at h
      exact ⟨log, s, hends, hlookup, Verdict.failure.inj h⟩
    | some id =>
      rw [hlookup] at h
      exact absurd h (by simp)
  · exact absurd (h.symm.trans hunfinished) (by simp)
  · exact absurd (h.symm.trans he) (by simp)

/-- A parse reaches the state that so many steps lead to. -/
theorem exists_reaches_of_run [DecidableEq μ] (hg : SlotGraph.ofGrammar g = .ok p.graph)
    (fuel : Nat) {q : State → Bool}
    (h : (match (do p.begin; p.run fuel : Move Bool) p.initial with
      | .ok _ s => q s
      | .error _ _ => false) = true) : ∃ log s, p.Reaches log s ∧ q s := by
  obtain ⟨s, hb, -⟩ := p.exists_begin
  have hrun := ends_run hg fuel (.begin hb)
  unfold Ends at hrun
  simp only [bind, EStateM.bind, hb] at h
  cases hr : p.run fuel s with
  | error e s' =>
    rw [hr] at h
    exact absurd h (by simp)
  | ok finished s' =>
    rw [hr] at h hrun
    obtain ⟨⟨log, hreaches⟩, -⟩ := hrun
    exact ⟨log, s', hreaches, h⟩

/-- A parse ends in the state in which it comes to rest. -/
theorem exists_endsIn_of_run [DecidableEq μ] (hg : SlotGraph.ofGrammar g = .ok p.graph)
    (fuel : Nat) {q : State → Bool}
    (h : (match (do p.begin; p.run fuel : Move Bool) p.initial with
      | .ok finished s => finished && q s
      | .error _ _ => false) = true) : ∃ log s, p.EndsIn fuel log s ∧ q s := by
  obtain ⟨s, hb, -⟩ := p.exists_begin
  have hparse := parse_eq hb fuel
  have hrun := ends_run hg fuel (.begin hb)
  unfold Ends at hrun
  simp only [bind, EStateM.bind, hb] at h
  cases hr : p.run fuel s with
  | error e s' =>
    rw [hr] at h
    exact absurd h (by simp)
  | ok finished s' =>
    rw [hr] at h hrun hparse
    obtain ⟨⟨log, hreaches⟩, hrest⟩ := hrun
    obtain ⟨hfinished, hq⟩ : finished = true ∧ q s' = true := by simpa using h
    rw [hfinished] at hparse
    exact ⟨log, s', ⟨hreaches, hrest hfinished, hparse⟩, hq⟩

end Parser

namespace Verdict

/-- Was the text recognised? -/
def isSuccess : Verdict → Bool
  | success .. => true
  | _ => false

theorem exists_success {x : Except ConditionError Verdict} (h : x.toOption.any isSuccess) :
    ∃ root forest, x = .ok (.success root forest) := by
  cases x with
  | error e => exact absurd h (by simp [Except.toOption])
  | ok v =>
    cases v with
    | success root forest => exact ⟨root, forest, rfl⟩
    | failure f => exact absurd h (by simp [Except.toOption, isSuccess])
    | unfinished => exact absurd h (by simp [Except.toOption, isSuccess])

/-- Was the text recognised, with a root and a forest of which `q` holds? -/
def succeedsWith (q : Nat → Forest → Bool) : Verdict → Bool
  | success root forest => q root forest
  | _ => false

theorem exists_of_succeedsWith {x : Except ConditionError Verdict} {q : Nat → Forest → Bool}
    (h : x.toOption.any (succeedsWith q)) :
    ∃ root forest, x = .ok (.success root forest) ∧ q root forest := by
  cases x with
  | error e => exact absurd h (by simp [Except.toOption])
  | ok v =>
    cases v with
    | success root forest => exact ⟨root, forest, rfl, h⟩
    | failure f => exact absurd h (by simp [Except.toOption, succeedsWith])
    | unfinished => exact absurd h (by simp [Except.toOption, succeedsWith])

end Verdict

/-- A tree that is extracted from what a parse answers. -/
theorem Parser.exists_tree {μ : Type} [DecidableEq μ] [Matcher μ] (p : Parser μ) (fuel : Nat)
    {q : ParseTree → Bool} (h : (p.parse fuel).verdict.toOption.any
      (Verdict.succeedsWith fun root f => (f.tree p.graph p.input root).toOption.any q)) :
    ∃ root f tree, (p.parse fuel).verdict = .ok (.success root f) ∧
      f.tree p.graph p.input root = .ok tree ∧ q tree := by
  obtain ⟨root, f, hv, htree⟩ := Verdict.exists_of_succeedsWith h
  cases hok : f.tree p.graph p.input root with
  | error e =>
    rw [hok] at htree
    exact absurd htree (by simp [Except.toOption])
  | ok tree =>
    rw [hok] at htree
    exact ⟨root, f, tree, hv, hok, htree⟩

/-- A parse succeeds if its forest has the piece of the start symbol for the whole text. -/
theorem Parser.isSuccess_verdict_iff {μ : Type} [DecidableEq μ] [Matcher μ] {p : Parser μ}
    {s : Parser.State} (hs : s.Wf) : (p.verdict s).isSuccess ↔
      s.Shows (.piece (.nonterminal p.graph.start none 0 p.input.length)) := by
  have hspan : s.forest.pieceOf? p.rootSpan
      = some (.nonterminal p.graph.start none 0 p.input.length) := rfl
  unfold verdict
  constructor
  · intro h
    cases hlookup : s.forest.lookup p.rootSpan with
    | none =>
      rw [hlookup] at h
      exact absurd h (by simp [Verdict.isSuccess])
    | some id => exact ⟨id, (hs.forest.lookup_of_piece? hspan).mp hlookup⟩
  · intro hnode
    obtain ⟨id, hid⟩ := hnode
    rw [(hs.forest.lookup_of_piece? hspan).mpr hid]
    rfl

/-! ## An example -/

/-- A chain is one letter, or two chains one behind the other, or nothing. The rules are left
recursive and cyclic, and a text has infinitely many derivations. -/
def chains : Grammar RunMatcher where
  name := "chains"
  start := "S"
  rules :=
    [⟨"S", [.call "S" [] {}, .call "S" [] {}], none⟩, ⟨"S", [.terminal (.char 'a') {}], none⟩,
      ⟨"S", [], none⟩]

/-- The parser for chains. -/
def chainParser (text : String) (config : Configuration) : Parser RunMatcher :=
  { graph := SlotGraph.compile chains, config, input := .ofString text }

theorem ofGrammar_chains (text : String) (config : Configuration) :
    SlotGraph.ofGrammar chains = .ok (chainParser text config).graph :=
  SlotGraph.ofGrammar_eq_ok_iff.mpr ⟨by decide +kernel, rfl⟩

end GeneralLL
