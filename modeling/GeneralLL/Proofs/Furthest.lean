import GeneralLL.Proofs.Run

/-!
# The furthest place

A parse that fails reports the furthest place that it has noted. A thread's place is noted
when the thread is delivered, and when it is **stuck** (`Stuck`): its terminal does not
match, or its call is dead. Whatever else a thread does leaves no note
(`ends_advance_noting`).

So the reported position is exactly the greatest one that was noted, and a thread was at the
reported slot there (`failure_names`). No call and no descriptor lies beyond it. **But text
may have been matched beyond it:** behind a match a thread goes on without a note, and if
its conditions refuse it there or its result is not taken up, nothing of it is noted
(`Silent`, `matched_beyond_failure`).
-/

namespace GeneralLL

namespace Parser

/-! ## Notes -/

/-- What is noted once a descriptor's place is, given what was noted before. -/
def note (d : Descriptor) (reach : Option Reach) : Option Reach :=
  if reach.all (·.position < d.position) then some ⟨some d.slot, d.position, some d.stackNode⟩
  else reach

/-- Something is noted that is not before this position. -/
def Covered (position : Nat) (reach : Option Reach) : Prop :=
  ∃ r, reach = some r ∧ position ≤ r.position

theorem covered_note_self (d : Descriptor) (reach : Option Reach) :
    Covered d.position (note d reach) := by
  unfold note
  split
  · exact ⟨_, rfl, Nat.le_refl _⟩
  · rename_i hfar
    cases reach with
    | none => exact absurd rfl hfar
    | some r => exact ⟨r, rfl, by simpa using hfar⟩

theorem Covered.note {position : Nat} {reach : Option Reach} (h : Covered position reach)
    (d : Descriptor) : Covered position (note d reach) := by
  obtain ⟨r, rfl, hle⟩ := h
  unfold Parser.note
  split
  · rename_i hlt
    have hlt : r.position < d.position := by simpa using hlt
    exact ⟨_, rfl, by simpa using Nat.le_of_lt (Nat.lt_of_le_of_lt hle hlt)⟩
  · exact ⟨r, rfl, hle⟩

theorem note_cases (d : Descriptor) (reach : Option Reach) :
    note d reach = some ⟨some d.slot, d.position, some d.stackNode⟩ ∨ note d reach = reach := by
  unfold note
  split
  · exact Or.inl rfl
  · exact Or.inr rfl

section

variable {α β : Type} {s : State} {Q Q' : α → State → Prop} {E E' : ConditionError → Prop}

/-- A place is noted, and nothing else changes. -/
theorem ends_note {d : Descriptor} {Q : Unit → State → Prop}
    (h : Q () { s with furthest := note d s.furthest }) : Ends (record d) s Q E := by
  unfold note at h
  show Q () (if s.furthest.all (·.position < d.position) then _ else s)
  split at h
  · rename_i hfar
    rw [if_pos hfar]
    exact h
  · rename_i hfar
    rw [if_neg hfar]
    exact h

theorem Ends.and {m : Move α} (h : Ends m s Q E) (h' : Ends m s Q' E') :
    Ends m s (fun a s' => Q a s' ∧ Q' a s') (fun e => E e ∧ E' e) := by
  unfold Ends at h h' ⊢
  cases hm : m s with
  | ok a s' =>
    rw [hm] at h h'
    exact ⟨h, h'⟩
  | error e s' =>
    rw [hm] at h h'
    exact ⟨h, h'⟩

/-! ## Moves without a note -/

/-- The move leaves the note as it is. -/
def Quiet (m : Move α) : Prop :=
  ∀ s : State, Ends m s (fun _ s' => s'.furthest = s.furthest) (fun _ => True)

theorem Quiet.bind {m : Move α} {f : α → Move β} (hm : Quiet m) (hf : ∀ a, Quiet (f a)) :
    Quiet (m >>= f) := by
  intro s
  refine ends_bind ((hm s).imp ?_ fun _ h => h)
  intro a s' hs'
  exact (hf a s').imp (fun _ _ h => h.trans hs') fun _ h => h

theorem quiet_pure (a : α) : Quiet (pure a) := fun _ => ends_pure rfl

theorem quiet_get : Quiet (get : Move State) := fun _ => ends_get rfl

theorem quiet_onStack (f : Stack → α × Stack) : Quiet (onStack f) := fun _ => ends_onStack rfl

theorem quiet_onForest (f : Forest → α × Forest) : Quiet (onForest f) := fun _ => ends_onForest rfl

theorem quiet_onAgenda (f : Agenda → Bool × Agenda) : Quiet (onAgenda f) :=
  fun _ => ends_onAgenda rfl

theorem quiet_goOn (d : Option Descriptor) : Quiet (goOn d) := fun _ => ends_goOn rfl

theorem quiet_ask (x : Except ConditionError α) : Quiet (ask x) :=
  fun _ => ends_ask (fun _ _ => rfl) fun _ _ => trivial

theorem quiet_askValue (x : Except EvalError α) : Quiet (askValue x) := by
  intro s
  cases x with
  | ok a => exact ends_pure rfl
  | error e => exact trivial

theorem Quiet.map {m : Move α} (hm : Quiet m) (f : α → β) : Quiet (f <$> m) := by
  rw [map_eq_pure_bind]
  exact hm.bind fun a => quiet_pure (f a)

theorem Quiet.forM {l : List α} {f : α → Move Unit} (hf : ∀ a, Quiet (f a)) :
    Quiet (l.forM f) := by
  induction l with
  | nil => exact quiet_pure ()
  | cons a rest ih => exact (hf a).bind fun _ => ih

theorem quiet_callArguments (id : Nat) : Quiet (callArguments id) := by
  refine quiet_get.bind fun s => ?_
  cases (s.stack.get id).key.arguments with
  | none => exact quiet_pure none
  | some values => exact (quiet_onForest _).map some

end

variable {μ : Type} [Matcher μ] {p : Parser μ} {g : Grammar μ}

omit [Matcher μ] in
theorem quiet_create (callee : Nat) (arguments : Option (List Value)) (position : Nat) :
    Quiet (p.create callee arguments position) := by
  refine quiet_get.bind fun s => ?_
  dsimp only
  split
  · exact quiet_pure _
  · split
    · exact quiet_pure _
    · exact (quiet_onStack _).bind fun _ => (Quiet.forM fun _ => quiet_onAgenda _).bind
        fun _ => quiet_pure _

theorem quiet_propagate (edge : Stack.Edge) (left : Nat) (immediate : Bool)
    (result : Stack.Popped) : Quiet (p.propagate edge left immediate result) := by
  unfold propagate
  split
  · refine (quiet_ask _).bind fun b => ?_
    split
    · split
      · exact (quiet_callArguments _).bind fun _ => (quiet_onForest _).bind fun _ =>
          quiet_onAgenda _
      · exact quiet_pure ()
    · exact quiet_pure ()
  · exact quiet_pure ()

omit [Matcher μ] in
/-- What a whole rule is made of is there, or made. -/
theorem quiet_child {α : Type} {d : Descriptor} {next : Nat → Move α} (h : ∀ child, Quiet (next child)) :
    Quiet (match d.forestNode with
      | some child => pure child >>= next
      | none => onForest (·.terminal p.graph.epsilon d.position d.position) >>= next) := by
  cases d.forestNode with
  | some child => exact (quiet_pure child).bind h
  | none => exact (quiet_onForest _).bind h

omit [Matcher μ] in
/-- What a rule returns is asked for, if it returns anything. -/
theorem quiet_returned {α : Type} {returns : Option Expr} {env : Environment} {next : Option Value → Move α}
    (h : ∀ value, Quiet (next value)) :
    Quiet (match returns with
      | none => pure none >>= next
      | some e => (some <$> askValue (p.evaluate e env)) >>= next) := by
  cases returns with
  | none => exact (quiet_pure none).bind h
  | some e => exact ((quiet_askValue _).map some).bind h

theorem quiet_complete (d : Descriptor) (returns : Option Expr) :
    Quiet (p.complete d returns) := by
  unfold complete
  refine (quiet_goOn none).bind fun _ => quiet_child fun child => quiet_get.bind fun s =>
    (quiet_callArguments _).bind fun _ => (quiet_onForest _).bind fun _ =>
    (quiet_onForest _).bind fun _ => quiet_returned fun value => (quiet_onStack _).bind fun b => ?_
  split
  · exact quiet_get.bind fun s => Quiet.forM fun edge => quiet_propagate edge _ _ _
  · exact quiet_pure ()

/-! ## Threads that are stuck -/

/-- The thread can go no further for want of a match, or of an alternative of the nonterminal that it
calls. -/
def Stuck (p : Parser μ) (t : Thread) : Prop :=
  match (p.graph.slot t.slot).action with
  | .scan terminal notes _ =>
    p.AllHold notes.pre t.position t.position t.env ∧
      (p.graph.terminal terminal).matchAt p.input t.position = none
  | .call callee arguments notes _ =>
    ∃ found, p.calling callee arguments notes t.position t.env = .ok (some found) ∧
      p.openings found.1 = []
  | _ => False

theorem stuck_scan_iff {t : Thread} {terminal dest : Nat} {notes : Annotations μ}
    (haction : (p.graph.slot t.slot).action = .scan terminal notes dest) :
    p.Stuck t ↔ p.AllHold notes.pre t.position t.position t.env ∧
      (p.graph.terminal terminal).matchAt p.input t.position = none := by
  unfold Stuck
  rw [haction]

theorem stuck_call_iff {t : Thread} {callee dest : Nat} {arguments : List Expr}
    {notes : Annotations μ}
    (haction : (p.graph.slot t.slot).action = .call callee arguments notes dest) :
    p.Stuck t ↔ ∃ found, p.calling callee arguments notes t.position t.env = .ok (some found) ∧
      p.openings found.1 = [] := by
  unfold Stuck
  rw [haction]

/-- The place of a thread is noted if the thread is stuck, and else nothing is. -/
def Noting (p : Parser μ) (t : Thread) (d : Descriptor) (s s' : State) : Prop :=
  p.Stuck t ∧ s'.furthest = note d s.furthest ∨ ¬p.Stuck t ∧ s'.furthest = s.furthest

theorem Quiet.noting {m : Move Unit} {t : Thread} {d : Descriptor} {s s' : State} (hm : Quiet m)
    (hs : s.furthest = s'.furthest) (ht : ¬p.Stuck t) :
    Ends m s (fun _ s'' => p.Noting t d s' s'') (fun _ => True) :=
  (hm s).imp (fun _ _ h => Or.inr ⟨ht, h.trans hs⟩) fun _ h => h

theorem ends_scan_noting {s : State} {d : Descriptor} {t : Thread} {terminal dest : Nat}
    {notes : Annotations μ} (ht : s.thread? d = some t)
    (haction : (p.graph.slot t.slot).action = .scan terminal notes dest) :
    Ends (p.scan d terminal notes dest) s (fun _ s' => p.Noting t d s s') (fun _ => True) := by
  have hstuck := stuck_scan_iff haction
  obtain ⟨-, hpos, -, -, henv⟩ := State.thread?_eq_some_iff.mp ht
  refine ends_bind (ends_goOn ?_)
  dsimp only
  rw [hpos, henv]
  refine ends_bind (ends_ask (fun b hpre => ?_) fun _ _ => trivial)
  cases b with
  | false =>
    refine ends_pure (Or.inr ⟨fun h => ?_, rfl⟩)
    have htrue := allHold_eq_ok_true_iff.mpr (hstuck.mp h).1
    exact absurd (htrue.symm.trans hpre) (by simp)
  | true =>
    rw [if_pos rfl]
    cases hmatch : (p.graph.terminal terminal).matchAt p.input t.position with
    | none =>
      exact ends_note (Or.inl ⟨hstuck.mpr ⟨allHold_eq_ok_true_iff.mp hpre, hmatch⟩, rfl⟩)
    | some right =>
      have hmatched : ¬p.Stuck t := fun h => absurd (hmatch.symm.trans (hstuck.mp h).2) (by simp)
      refine Quiet.noting ?_ rfl hmatched
      refine (quiet_ask _).bind fun b => ?_
      split
      · exact (quiet_onForest _).bind fun _ => (quiet_callArguments _).bind fun _ =>
          (quiet_onForest _).bind fun _ => quiet_goOn _
      · exact quiet_pure ()

/-- A call that is not dead is made. -/
theorem Entails.called_of_calling {t : Thread} {callee dest : Nat} {arguments : List Expr}
    {notes : Annotations μ} {found : Stack.Key × Environment} (ht : p.Entails (.passed t))
    (haction : (p.graph.slot t.slot).action = .call callee arguments notes dest)
    (hcalling : p.calling callee arguments notes t.position t.env = .ok (some found))
    (hne : p.openings found.1 ≠ []) : p.Entails (.called found.1) := by
  refine ht.of_leadsTo ((leadsTo_call_iff haction).mpr ⟨found, hcalling, ?_⟩)
  unfold callFacts
  rw [if_neg hne]
  exact List.mem_cons_self

theorem ends_call_noting {s : State} {d : Descriptor} {t : Thread} {callee dest : Nat}
    {arguments : List Expr} {notes : Annotations μ} (hs : p.Coherent s)
    (ht : s.thread? d = some t) (hpassed : p.Entails (.passed t))
    (haction : (p.graph.slot t.slot).action = .call callee arguments notes dest) :
    Ends (p.call d callee arguments notes) s (fun _ s' => p.Noting t d s s') (fun _ => True) := by
  have hstuck := stuck_call_iff haction
  obtain ⟨-, hpos, -, -, henv⟩ := State.thread?_eq_some_iff.mp ht
  refine ends_bind (ends_goOn ?_)
  dsimp only
  rw [hpos, henv]
  refine ends_bind (ends_ask (fun b hpre => ?_) fun _ _ => trivial)
  cases b with
  | false =>
    refine ends_pure (Or.inr ⟨fun h => ?_, rfl⟩)
    obtain ⟨⟨key, env⟩, hcalling, -⟩ := hstuck.mp h
    have htrue := allHold_eq_ok_true_iff.mpr (calling_eq_some_iff.mp hcalling).1
    exact absurd (htrue.symm.trans hpre) (by simp)
  | true =>
    rw [if_pos rfl]
    refine ends_arguments (fun values hvalues => ?_) fun _ _ => trivial
    have hcalling : p.calling callee arguments notes t.position t.env
        = .ok (some (⟨callee, t.position, values⟩, notes.bindCall t.position t.env)) :=
      calling_eq_some_iff.mpr ⟨allHold_eq_ok_true_iff.mp hpre, rfl, rfl, rfl, hvalues⟩
    have hdead : p.Stuck t ↔ p.openings ⟨callee, t.position, values⟩ = [] := by
      rw [hstuck, hcalling]
      simp
    have hcoherent : p.Coherent { s with running := none } := hs.of_eq rfl rfl rfl
    refine ends_bind (((ends_create (E := fun _ => True) hcoherent
      (hpassed.called_of_calling haction hcalling)).and
      (quiet_create callee values t.position _)).imp ?_ fun _ _ => trivial)
    intro o s' h
    obtain ⟨⟨-, -, -, -, ho⟩, hfurthest⟩ := h
    cases o with
    | none =>
      refine ends_note (Or.inl ⟨hdead.mpr ho, ?_⟩)
      rw [hfurthest]
    | some id =>
      refine Quiet.noting ?_ hfurthest fun h => ho.1 (hdead.mp h)
      refine (quiet_onStack _).bind fun b => ?_
      split
      · exact quiet_get.bind fun s => Quiet.forM fun result => quiet_propagate _ _ _ result
      · exact quiet_pure ()

/-- **A thread's move notes its place exactly if it is stuck there.** -/
theorem ends_advance_noting {s : State} {d : Descriptor} {t : Thread} (hs : p.Coherent s)
    (ht : s.thread? d = some t) (hpassed : p.Entails (.passed t)) :
    Ends (p.advance d) s (fun _ s' => p.Noting t d s s') (fun _ => True) := by
  have hslot := (State.thread?_eq_some_iff.mp ht).1
  unfold advance
  rw [hslot]
  cases haction : (p.graph.slot t.slot).action with
  | scan terminal notes dest => exact ends_scan_noting ht haction
  | call callee arguments notes dest => exact ends_call_noting hs ht hpassed haction
  | branch condition ifTrue ifFalse =>
    have hmoves : ¬p.Stuck t := by simp [Stuck, haction]
    exact ((quiet_ask _).bind fun b => quiet_goOn _).noting rfl hmoves
  | complete returns =>
    have hends : ¬p.Stuck t := by simp [Stuck, haction]
    exact (quiet_complete d returns).noting rfl hends

/-! ## What is noted -/

/-- The threads whose places are noted: those that were put on the agenda, and those that were
stuck. -/
inductive Noted (p : Parser μ) (t : Thread) : Prop where
  | posted : p.Entails (.posted t) → Noted p t
  | stuck : p.Entails (.passed t) → p.Stuck t → Noted p t

theorem Noted.passed {t : Thread} (h : p.Noted t) : p.Entails (.passed t) := by
  cases h with
  | posted h => exact .delivered h
  | stuck h => exact h

/-- The note is accounted for: by a start that is dead, or by a thread. -/
def Accounted (p : Parser μ) (s : State) (r : Reach) : Prop :=
  p.openings p.startKey = [] ∧ r = ⟨none, 0, none⟩ ∨
    ∃ d t, r = ⟨some d.slot, d.position, some d.stackNode⟩ ∧ s.thread? d = some t ∧ p.Noted t

theorem Accounted.extend {s s' : State} {r : Reach} (h : p.Accounted s r) (hext : s.Extends s') :
    p.Accounted s' r := by
  refine h.imp_right ?_
  intro hthread
  obtain ⟨d, t, heq, ht, hnoted⟩ := hthread
  exact ⟨d, t, heq, hext.thread? ht, hnoted⟩

/-- **What the note says of a state.** The threads of `ran` are those that were started, and the
descriptors of `log` those that were delivered. -/
structure Tracks (p : Parser μ) (ran : Thread → Prop) (log : List Descriptor) (s : State) :
    Prop where
  /-- What was noted goes back to a thread, or to a start symbol that could not begin. -/
  origin : ∀ {r : Reach}, s.furthest = some r → p.Accounted s r
  /-- Nothing was delivered beyond the note. -/
  delivered : ∀ {d : Descriptor}, d ∈ log → Covered d.position s.furthest
  /-- A thread that was stuck is not beyond the note, unless it is still running. -/
  stuck : ∀ {t : Thread}, ran t → p.Stuck t →
    (∃ d, s.running = some d ∧ s.thread? d = some t) ∨ Covered t.position s.furthest

/-- A note of a thread's place is one of a thread. -/
theorem Tracks.origin_note {ran : Thread → Prop} {log : List Descriptor} {s s' : State}
    {d : Descriptor} {t : Thread} (h : p.Tracks ran log s) (hext : s.Extends s')
    (ht : s.thread? d = some t) (hnoted : p.Noted t) {r : Reach}
    (hr : note d s.furthest = some r) : p.Accounted s' r := by
  rcases note_cases d s.furthest with hnote | hnote
  · rw [hnote] at hr
    exact Or.inr ⟨d, t, (Option.some.inj hr).symm, hext.thread? ht, hnoted⟩
  · rw [hnote] at hr
    exact (h.origin hr).extend hext

/-- A descriptor that is delivered is noted. -/
theorem Tracks.take {ran : Thread → Prop} {log : List Descriptor} {s : State} {d : Descriptor}
    {agenda : Agenda} (h : p.Tracks ran log s) (hreached : p.Reached ran log s)
    (hrunning : s.running = none) (htake : s.agenda.take = some (d, agenda)) :
    p.Tracks (fun t => ran t ∨ s.thread? d = some t) (log ++ [d])
      { s with agenda, running := some d, furthest := note d s.furthest } := by
  obtain ⟨hwaiting, hseen⟩ := Agenda.take_eq_some htake
  have hrest : s.Adds { s with agenda, running := some d, furthest := note d s.furthest } [] :=
    hreached.coherent.wf.adds_rest rfl rfl hseen
  have hext := hrest.extend
  have hd : d ∈ s.agenda.seen.toList := by
    rw [hreached.queued.mem_iff, hwaiting]
    exact List.mem_append_right _ List.mem_cons_self
  obtain ⟨t, ht, -⟩ := hreached.coherent.wf.seen hd
  have hposted : p.Entails (.posted t) := hreached.coherent.sound ⟨d, hd, ht⟩
  refine ⟨fun hr => h.origin_note hext ht (.posted hposted) hr, fun {d'} hd' => ?_,
    fun {t'} hran hstuck => ?_⟩
  · rcases List.mem_append.mp hd' with hd' | hd'
    · exact (h.delivered hd').note d
    · obtain rfl := List.mem_singleton.mp hd'
      exact covered_note_self _ _
  · rcases hran with hran | ht'
    · -- nothing runs, so whatever was stuck was noted before
      rcases h.stuck hran hstuck with ⟨d', hd', -⟩ | hcovered
      · exact absurd (hrunning.symm.trans hd') (by simp)
      · exact Or.inr (hcovered.note d)
    · exact Or.inl ⟨d, rfl, hext.thread? ht'⟩

/-- A thread that moves is noted if it is stuck. -/
theorem Tracks.advance {ran : Thread → Prop} {log : List Descriptor} {s s' : State}
    {d : Descriptor} {t : Thread} (h : p.Tracks ran log s) (hreached : p.Reached ran log s)
    (hrunning : s.running = some d) (ht : s.thread? d = some t) (hadv : p.Advanced t s s')
    (hnoting : p.Noting t d s s') :
    p.Tracks (fun t => ran t ∨ ∃ d, s'.running = some d ∧ s'.thread? d = some t) log s' := by
  have hext := hadv.extend
  obtain ⟨t₀, ht₀, hran⟩ := hreached.running hrunning
  obtain rfl := Option.some.inj (ht.symm.trans ht₀)
  have hpos := (State.thread?_eq_some_iff.mp ht).2.1
  have hcovered {position : Nat} (hold : Covered position s.furthest) :
      Covered position s'.furthest := by
    rcases hnoting with ⟨-, hnote⟩ | ⟨-, hnote⟩
    · exact hnote ▸ hold.note d
    · exact hnote ▸ hold
  refine ⟨fun {r} hr => ?_, fun hd' => hcovered (h.delivered hd'), fun {t'} hran' hstuck => ?_⟩
  · rcases hnoting with ⟨hstuck, hnote⟩ | ⟨-, hnote⟩
    · rw [hnote] at hr
      exact h.origin_note hext ht (.stuck (hreached.entailed hran) hstuck) hr
    · rw [hnote] at hr
      refine (h.origin hr).imp_right ?_
      intro hold
      obtain ⟨d', t', heq, ht', hnoted⟩ := hold
      exact ⟨d', t', heq, hext.thread? ht', hnoted⟩
  · rcases hran' with hran' | hnow
    · rcases h.stuck hran' hstuck with ⟨d', hd', ht'⟩ | hold
      · -- it was running, so the note is its own
        obtain rfl := Option.some.inj (hrunning.symm.trans hd')
        obtain rfl := Option.some.inj (ht.symm.trans ht')
        rcases hnoting with ⟨-, hnote⟩ | ⟨hnot, -⟩
        · rw [hnote, ← hpos]
          exact Or.inr (covered_note_self d s.furthest)
        · exact absurd hstuck hnot
      · exact Or.inr (hcovered hold)
    · exact Or.inl hnow

/-- Before the first step nothing is noted but a dead start. -/
theorem ends_begin_tracks {E : ConditionError → Prop} :
    Ends p.begin p.initial (fun _ s => p.Tracks (fun _ => False) [] s) E := by
  have htracks {s : State} (horigin : ∀ r, s.furthest = some r →
      p.openings p.startKey = [] ∧ r = ⟨none, 0, none⟩) : p.Tracks (fun _ => False) [] s :=
    ⟨fun hr => Or.inl (horigin _ hr), fun h => absurd h List.not_mem_nil, fun h => h.elim⟩
  unfold begin
  refine ends_bind (((ends_create coherent_initial .start).and
    ((quiet_create p.graph.start none 0 p.initial).imp (fun _ _ h => h) fun _ _ => trivial)).imp ?_
      fun _ h => h.1)
  intro o s h
  obtain ⟨⟨-, -, -, -, ho⟩, hfurthest⟩ := h
  cases o with
  | none => exact ends_modify (htracks fun r hr => ⟨ho, (Option.some.inj hr).symm⟩)
  | some id =>
    refine ends_pure (htracks fun r hr => absurd (hfurthest.symm.trans hr) ?_)
    simp [initial]

variable [DecidableEq μ]

/-- **A step leads from tracked states to tracked states.** -/
theorem ends_step_tracks (hg : SlotGraph.ofGrammar g = .ok p.graph) {ran : Thread → Prop}
    {log : List Descriptor} {s : State} (h : p.Reached ran log s) (htracks : p.Tracks ran log s) :
    Ends p.step s
      (fun more s' => more → ∃ ran', p.Reached ran' (log ++ s.delivers) s' ∧
        p.Tracks ran' (log ++ s.delivers) s') (fun _ => True) := by
  unfold step
  refine ends_bind (ends_get ?_)
  unfold State.delivers
  cases hrunning : s.running with
  | some d =>
    obtain ⟨t, ht, hran⟩ := h.running hrunning
    have hpassed := h.entailed hran
    have hadvance := ends_advance h.coherent ht hpassed (head_eq_of_entails hg hpassed)
    refine ends_bind ((hadvance.and (ends_advance_noting h.coherent ht hpassed)).imp ?_
      fun _ _ => trivial)
    intro _ s' hmoved
    obtain ⟨hadv, hnoting⟩ := hmoved
    refine ends_pure fun _ => ?_
    rw [List.append_nil]
    exact ⟨_, h.advance hrunning ht hadv, htracks.advance h hrunning ht hadv hnoting⟩
  | none =>
    dsimp only
    cases htake : s.agenda.take with
    | none => exact ends_pure fun h => absurd h (by simp)
    | some next =>
      obtain ⟨d, agenda⟩ := next
      exact ends_bind (ends_set (ends_bind (ends_note (ends_pure fun _ =>
        ⟨_, h.take hrunning htake, htracks.take h hrunning htake⟩))))

/-- **Every state of a parse is tracked by its note.** -/
theorem Reaches.tracks (hg : SlotGraph.ofGrammar g = .ok p.graph) {log : List Descriptor}
    {s : State} (h : p.Reaches log s) : ∃ ran, p.Reached ran log s ∧ p.Tracks ran log s := by
  induction h with
  | begin hbegin =>
    have hends := (ends_begin (p := p) (E := fun _ => True)).and
      (ends_begin_tracks (E := fun _ => True))
    unfold Ends at hends
    rw [hbegin] at hends
    exact ⟨_, hends⟩
  | step _ hstep ih =>
    obtain ⟨ran, hreached, htracks⟩ := ih
    have hends := ends_step_tracks hg hreached htracks
    unfold Ends at hends
    rw [hstep] at hends
    exact hends rfl

/-! ## Beyond the note -/

omit [DecidableEq μ] in
/-- The places of calls are noted, as calls have alternatives on the agenda. -/
theorem Entails.exists_noted {key : Stack.Key} (h : p.Entails (.called key)) :
    ∃ t, p.Noted t ∧ t.position = key.position := by
  obtain ⟨slot, hslot⟩ := List.exists_mem_of_ne_nil _ (openings_ne_nil h)
  exact ⟨p.opening key slot, .posted (.opening h hslot), rfl⟩

omit [DecidableEq μ] in
/-- Nothing follows from a start that is dead. -/
theorem not_entails_of_dead (hdead : p.openings p.startKey = []) {f : Fact} : ¬p.Entails f := by
  intro h
  induction h with
  | start hne => exact hne hdead
  | opening _ _ ih | delivered _ ih | move _ _ _ ih | resume _ _ _ _ ih _ => exact ih

/-- Ways to go on, or to end, of which nothing is noted. -/
inductive Silent (p : Parser μ) (t : Thread) : Prop where
  /-- The thread goes on behind a match, or in a branch. -/
  | goesOn {t' : Thread} : p.LeadsTo t (.passed t') → Silent p t
  /-- It is refused before a terminal. -/
  | refusedBefore {terminal dest : Nat} {notes : Annotations μ} :
      (p.graph.slot t.slot).action = .scan terminal notes dest →
      ¬p.AllHold notes.pre t.position t.position t.env → Silent p t
  /-- It is refused behind a match. -/
  | refusedBehind {terminal dest right : Nat} {notes : Annotations μ} :
      (p.graph.slot t.slot).action = .scan terminal notes dest →
      (p.graph.terminal terminal).matchAt p.input t.position = some right →
      ¬p.AllHold notes.post t.position right (notes.bindScan p.input t.position right t.env) →
      Silent p t
  /-- It is refused before a call. -/
  | refusedCall {callee dest : Nat} {arguments : List Expr} {notes : Annotations μ} :
      (p.graph.slot t.slot).action = .call callee arguments notes dest →
      ¬p.AllHold notes.pre t.position t.position t.env → Silent p t
  /-- It completes its rule, and no caller takes the result up. -/
  | unwanted {value : Option Value} :
      p.LeadsTo t (.result t.call t.position value) →
      (∀ c f, p.Entails (.awaited t.call c) → ¬p.ResumesTo t.call c t.position value f) →
      Silent p t

section

variable (hfair : ¬p.Faulty) {t : Thread} (ht : p.Entails (.passed t))

include hfair ht

omit [DecidableEq μ] in
/-- Where all expressions have their answers, a thread finds out what follows. -/
theorem exists_move : ∃ facts, p.move t = .ok facts := by
  cases h : p.move t with
  | ok facts => exact ⟨facts, rfl⟩
  | error e => exact absurd (.move ht h) hfair

omit [DecidableEq μ] in
/-- A call whose conditions hold is made at the position of the caller, or is dead. -/
theorem exists_calling {callee dest : Nat} {arguments : List Expr} {notes : Annotations μ}
    (haction : (p.graph.slot t.slot).action = .call callee arguments notes dest)
    (hpre : p.AllHold notes.pre t.position t.position t.env) :
    ∃ found, p.calling callee arguments notes t.position t.env = .ok (some found) ∧
      found.1.position = t.position := by
  obtain ⟨facts, hmove⟩ := exists_move hfair ht
  rw [move, haction] at hmove
  obtain ⟨o, ho, -⟩ := Except.map_eq_ok_iff.mp hmove
  rw [calling, guard_of_ok (allHold_eq_ok_true_iff.mpr hpre), if_pos rfl] at ho
  obtain ⟨values, hvalues, -⟩ := Except.bind_eq_ok_iff.mp ho
  exact ⟨(⟨callee, t.position, values⟩, notes.bindCall t.position t.env),
    calling_eq_some_iff.mpr ⟨hpre, rfl, rfl, rfl, hvalues⟩, rfl⟩

omit hfair ht [DecidableEq μ] in
/-- A caller that takes up a result goes on where the result ends. -/
theorem ResumesTo.exists_posted {key : Stack.Key} {c : Caller} {right : Nat}
    {value : Option Value} {f : Fact} (h : p.ResumesTo key c right value f) :
    ∃ t, p.ResumesTo key c right value (.posted t) ∧ t.position = right := by
  cases haction : (p.graph.slot c.slot).action with
  | call callee arguments notes dest =>
    obtain ⟨env, hresumed, -⟩ := (resumesTo_iff haction).mp h
    exact ⟨_, (resumesTo_iff haction).mpr ⟨env, hresumed, List.mem_cons_self⟩, rfl⟩
  | scan | branch | complete =>
    obtain ⟨facts, hresume, hf⟩ := h
    rw [resume, haction] at hresume
    obtain rfl := Except.ok.inj hresume
    exact absurd hf List.not_mem_nil

omit [DecidableEq μ] in
/-- **A thread that gets beyond all notes is silent there.** -/
theorem silent_of_beyond (hbeyond : ∀ t', p.Noted t' → t'.position < t.position) :
    p.Silent t := by
  have hnone {t' : Thread} (hnoted : p.Noted t') (hpos : t'.position = t.position) : False :=
    absurd (hbeyond t' hnoted) (by omega)
  obtain ⟨facts, hmove⟩ := exists_move hfair ht
  rw [move] at hmove
  cases haction : (p.graph.slot t.slot).action with
  | scan terminal notes dest =>
    by_cases hpre : p.AllHold notes.pre t.position t.position t.env
    · cases hmatch : (p.graph.terminal terminal).matchAt p.input t.position with
      | none => exact (hnone (.stuck ht ((stuck_scan_iff haction).mpr ⟨hpre, hmatch⟩)) rfl).elim
      | some right =>
        by_cases hpost : p.AllHold notes.post t.position right
            (notes.bindScan p.input t.position right t.env)
        · exact .goesOn ((leadsTo_scan_iff haction).mpr
            ⟨_, scanned_eq_some_iff.mpr ⟨hpre, hmatch, rfl, hpost⟩, List.mem_cons_self⟩)
        · exact .refusedBehind haction hmatch hpost
    · exact .refusedBefore haction hpre
  | call callee arguments notes dest =>
    by_cases hpre : p.AllHold notes.pre t.position t.position t.env
    · -- the thread is stuck or makes a call here, and both are noted
      obtain ⟨found, hcalling, hfound⟩ := exists_calling hfair ht haction hpre
      by_cases hopenings : p.openings found.1 = []
      · exact (hnone (.stuck ht ((stuck_call_iff haction).mpr ⟨found, hcalling, hopenings⟩))
          rfl).elim
      · obtain ⟨t', hnoted, hpos⟩ := (ht.called_of_calling haction hcalling hopenings).exists_noted
        exact (hnone hnoted (hpos.trans hfound)).elim
    · exact .refusedCall haction hpre
  | branch condition ifTrue ifFalse =>
    rw [haction] at hmove
    obtain ⟨b, htruth, -⟩ := Except.map_eq_ok_iff.mp hmove
    exact .goesOn ((leadsTo_branch_iff haction).mpr ⟨b, htruth, rfl⟩)
  | complete returns =>
    rw [haction] at hmove
    obtain ⟨value, hvalue, -⟩ := Except.map_eq_ok_iff.mp hmove
    have hresult : p.LeadsTo t (.result t.call t.position value) :=
      (leadsTo_complete_iff haction).mpr ⟨value, hvalue, List.mem_cons_self⟩
    refine .unwanted hresult fun c f hc hresumes => ?_
    obtain ⟨t', hposted, hpos⟩ := hresumes.exists_posted
    exact hnone (.posted (.of_resumesTo hc (ht.of_leadsTo hresult) hposted)) hpos

end

/-! ## Where forest nodes end -/

/-- Where something ends a thread has been: there it was made. -/
def Ended (p : Parser μ) : Fact → Prop
  | .posted t | .passed t => ∀ w ∈ t.part, w.right = t.position
  | .piece w => ∃ t, p.Entails (.passed t) ∧ t.position = w.right
  | _ => True

theorem right_join {slot : Nat} {arguments : Option (List Value)} {left : Option Piece}
    {right : Piece} : (Piece.join slot arguments left right).right = right.right := by
  cases left <;> rfl

omit [DecidableEq μ] in
theorem ended_joinFacts {slot : Nat} {arguments : Option (List Value)} {left : Option Piece}
    {right : Piece} {t : Thread} (ht : p.Entails (.passed t)) (hpos : t.position = right.right)
    {f : Fact} (hf : f ∈ Piece.joinFacts slot arguments left right) : p.Ended f := by
  cases left with
  | none => exact absurd hf List.not_mem_nil
  | some l =>
    simp only [Piece.joinFacts, List.mem_cons, List.not_mem_nil, or_false] at hf
    rcases hf with rfl | rfl
    · exact ⟨t, ht, hpos.trans right_join.symm⟩
    · exact trivial

omit [DecidableEq μ] in
/-- **Where a forest node ends a thread has been.** -/
theorem ended_of_entails {f : Fact} (h : p.Entails f) : p.Ended f := by
  induction h with
  | start => exact trivial
  | opening => exact fun w hw => absurd hw (by simp [opening])
  | delivered _ ih => exact ih
  | @move t facts f ht hmove hf ih =>
    have hleads : p.LeadsTo t f := ⟨facts, hmove, hf⟩
    cases haction : (p.graph.slot t.slot).action with
    | scan terminal notes dest =>
      obtain ⟨found, hscanned, hf⟩ := (leadsTo_scan_iff haction).mp hleads
      have hnext : p.LeadsTo t _ :=
        (leadsTo_scan_iff haction).mpr ⟨found, hscanned, List.mem_cons_self⟩
      have hpassed := ht.of_leadsTo hnext
      simp only [scanFacts, List.mem_cons] at hf
      rcases hf with rfl | rfl | hf
      · intro w hw
        obtain rfl := Option.mem_some.mp hw
        exact right_join
      · exact ⟨_, hpassed, rfl⟩
      · exact ended_joinFacts hpassed rfl hf
    | call callee arguments notes dest =>
      obtain ⟨found, -, hf⟩ := (leadsTo_call_iff haction).mp hleads
      unfold callFacts at hf
      split at hf
      · exact absurd hf List.not_mem_nil
      · simp only [List.mem_cons, List.not_mem_nil, or_false] at hf
        rcases hf with rfl | rfl <;> exact trivial
    | branch condition ifTrue ifFalse =>
      obtain ⟨b, -, rfl⟩ := (leadsTo_branch_iff haction).mp hleads
      exact ih
    | complete returns =>
      obtain ⟨value, -, hf⟩ := (leadsTo_complete_iff haction).mp hleads
      simp only [completeFacts, List.mem_cons, List.not_mem_nil, or_false] at hf
      rcases hf with rfl | rfl | rfl | rfl
      · exact trivial
      · refine ⟨t, ht, ?_⟩
        unfold child
        cases hpart : t.part with
        | none => rfl
        | some w => exact (ih w hpart).symm
      · exact ⟨t, ht, rfl⟩
      · exact trivial
  | @resume key c right value facts f hc hr hresume hf =>
    have hresumes : p.ResumesTo key c right value f := ⟨facts, hresume, hf⟩
    cases haction : (p.graph.slot c.slot).action with
    | call callee arguments notes dest =>
      obtain ⟨env, hresumed, hf⟩ := (resumesTo_iff haction).mp hresumes
      have hposted := Entails.of_resumesTo hc hr
        ((resumesTo_iff haction).mpr ⟨env, hresumed, List.mem_cons_self⟩)
      rcases List.mem_cons.mp hf with rfl | hf
      · intro w hw
        obtain rfl := Option.mem_some.mp hw
        exact right_join
      · exact ended_joinFacts (.delivered hposted) rfl hf
    | scan | branch | complete =>
      rw [resume, haction] at hresume
      obtain rfl := Except.ok.inj hresume
      exact absurd hf List.not_mem_nil

omit [DecidableEq μ] in
theorem exists_passed_of_node {s : State} (hs : p.Coherent s) {id : Nat} {n : Forest.Node}
    (hn : s.forest.nodes[id]? = some n) :
    ∃ t, p.Entails (.passed t) ∧ t.position = n.span.right := by
  obtain ⟨w, hw⟩ := hs.wf.forest.pieces hn
  have hid : s.forest.piece? id = some w := Forest.piece?_eq_some_iff.mpr ⟨n, hn, hw⟩
  have hright : n.span.right = w.right := by
    have hextents := (Forest.extents_of_piece? hid).2
    rwa [Forest.get, hn] at hextents
  rw [hright]
  exact ended_of_entails (hs.sound (f := .piece w) ⟨id, hid⟩)

/-! ## What a failure names -/

omit [DecidableEq μ] in
/-- At rest every note is covered. -/
theorem Tracks.covered {ran : Thread → Prop} {log : List Descriptor} {s : State}
    (h : p.Tracks ran log s) (hreached : p.Reached ran log s) (hrest : s.AtRest) {t : Thread}
    (ht : p.Noted t) : Covered t.position s.furthest := by
  cases ht with
  | posted hposted =>
    -- what was put on the agenda was delivered, for nothing waits
    obtain ⟨d, hd, hthread⟩ := hreached.shows hrest hposted (by simp) (by simp)
    rw [hreached.queued.mem_iff, hrest.2, List.append_nil] at hd
    rw [← (State.thread?_eq_some_iff.mp hthread).2.1]
    exact h.delivered hd
  | stuck hpassed hstuck =>
    rcases hreached.knows hrest hpassed with hcovers | ⟨t', heq, hran⟩
    · exact (hcovers.shows (by simp)).elim
    · obtain rfl := Fact.passed.inj heq
      rcases h.stuck hran hstuck with ⟨d, hd, -⟩ | hcovered
      · exact absurd (hrest.1.symm.trans hd) (by simp)
      · exact hcovered

omit [DecidableEq μ] in
/-- If the start symbol cannot begin, nothing is noted but that. -/
theorem Tracks.furthest_of_dead {ran : Thread → Prop} {log : List Descriptor} {s : State}
    (h : p.Tracks ran log s) (hdead : p.openings p.startKey = []) :
    s.furthest.getD ⟨none, 0, none⟩ = ⟨none, 0, none⟩ := by
  cases hfurthest : s.furthest with
  | none => rfl
  | some r =>
    rcases h.origin hfurthest with ⟨-, rfl⟩ | ⟨d, t, -, -, ht⟩
    · rfl
    · exact absurd ht.passed (not_entails_of_dead hdead)

omit [DecidableEq μ] in
/-- If the start symbol can begin, the place of a thread is noted at rest. -/
theorem Tracks.exists_furthest {ran : Thread → Prop} {log : List Descriptor} {s : State}
    (h : p.Tracks ran log s) (hreached : p.Reached ran log s) (hrest : s.AtRest)
    (hne : p.openings p.startKey ≠ []) :
    ∃ d t, s.furthest = some ⟨some d.slot, d.position, some d.stackNode⟩ ∧
      s.thread? d = some t ∧ p.Noted t := by
  obtain ⟨t, ht, -⟩ := (Entails.start hne).exists_noted
  obtain ⟨r, hr, -⟩ := h.covered hreached hrest ht
  rcases h.origin hr with ⟨hdead, -⟩ | ⟨d, t', rfl, ht', hnoted⟩
  · exact absurd hdead hne
  · exact ⟨d, t', hr, ht', hnoted⟩

/-- What a failure says about the parse that ended in a state. -/
structure FailsAt (p : Parser μ) (s : State) (f : Failure) : Prop where
  /-- No slot is named exactly if the start symbol could not begin. -/
  unstarted : f.slot = none ↔ p.openings p.startKey = []
  /-- Without a slot the failure is at the start of the text. -/
  start : f.slot = none → f.position = 0
  /-- A thread was at the slot and the position, in the call that is named. -/
  current : ∀ slot, f.slot = some slot → ∃ t id, p.Noted t ∧ t.slot = slot ∧
    t.position = f.position ∧ s.stack.call? id = some t.call ∧
    f.stackNode = s.stack.describe p.graph id
  /-- No place beyond the position was noted. -/
  furthest : ∀ t, p.Noted t → t.position ≤ f.position
  /-- No call was made beyond the position. -/
  calls : ∀ (id : Nat) (n : Stack.Node), s.stack.nodes[id]? = some n → n.key.position ≤ f.position
  /-- Threads that got beyond the position were silent there. -/
  silent : ∀ t, p.Entails (.passed t) → f.position < t.position → p.Silent t
  /-- Forest nodes that end beyond the position end where such threads were. -/
  nodes : ∀ (id : Nat) (n : Forest.Node), s.forest.nodes[id]? = some n →
    f.position < n.span.right → ∃ t, p.Entails (.passed t) ∧ t.position = n.span.right ∧ p.Silent t

omit [DecidableEq μ] in
/-- What a parse at rest reports if it fails. -/
theorem Tracks.failsAt {ran : Thread → Prop} {log : List Descriptor} {s : State}
    (h : p.Tracks ran log s) (hreached : p.Reached ran log s) (hrest : s.AtRest) :
    p.FailsAt s (p.failure s) := by
  have hposition : (p.failure s).position = (s.furthest.getD ⟨none, 0, none⟩).position := rfl
  have hslot : (p.failure s).slot = (s.furthest.getD ⟨none, 0, none⟩).slot := rfl
  have hunstarted : (p.failure s).slot = none ↔ p.openings p.startKey = [] := by
    rw [hslot]
    constructor
    · intro hnone
      by_contra hne
      obtain ⟨d, t, hfurthest, -, -⟩ := h.exists_furthest hreached hrest hne
      rw [hfurthest] at hnone
      exact absurd hnone (by simp)
    · intro hdead
      rw [h.furthest_of_dead hdead]
  have hbound {t : Thread} (ht : p.Noted t) : t.position ≤ (p.failure s).position := by
    obtain ⟨r, hr, hle⟩ := h.covered hreached hrest ht
    rw [hposition, hr]
    exact hle
  have hsilent {t : Thread} (ht : p.Entails (.passed t))
      (hbeyond : (p.failure s).position < t.position) : p.Silent t :=
    silent_of_beyond (hreached.not_faulty hrest) ht fun t' ht' =>
      Nat.lt_of_le_of_lt (hbound ht') hbeyond
  refine ⟨hunstarted, fun hnone => ?start, fun slot hsome => ?current, fun t ht => hbound ht,
    fun id n hn => ?calls, fun t ht hlt => hsilent ht hlt, fun id n hn hlt => ?nodes⟩
  case start => rw [hposition, h.furthest_of_dead (hunstarted.mp hnone)]
  case current =>
    have hne : p.openings p.startKey ≠ [] := fun hdead =>
      absurd ((hunstarted.mpr hdead).symm.trans hsome) (by simp)
    obtain ⟨d, t, hfurthest, ht, hnoted⟩ := h.exists_furthest hreached hrest hne
    obtain ⟨hdslot, hdpos, hdcall, -, -⟩ := State.thread?_eq_some_iff.mp ht
    rw [hslot, hfurthest] at hsome
    refine ⟨t, d.stackNode, hnoted, hdslot.symm.trans (Option.some.inj hsome), ?_, hdcall, ?_⟩
    · rw [hposition, hfurthest, ← hdpos]
      rfl
    · unfold failure
      rw [hfurthest]
      rfl
  case calls =>
    have hcalled : p.Entails (.called n.key) := hreached.coherent.sound (f := .called n.key)
      ⟨id, Stack.call?_eq_some_iff.mpr ⟨n, hn, rfl⟩⟩
    obtain ⟨t, ht, hpos⟩ := hcalled.exists_noted
    exact hpos ▸ hbound ht
  case nodes =>
    obtain ⟨t, ht, hpos⟩ := exists_passed_of_node hreached.coherent hn
    exact ⟨t, ht, hpos, hsilent ht (hpos.symm ▸ hlt)⟩

/-- **What a failure names.** Its position is the greatest one that was noted, a thread was at its
slot there, and no call was made beyond it. What was matched beyond it was matched by threads of
which nothing was noted there. -/
theorem failure_names (hg : SlotGraph.ofGrammar g = .ok p.graph) {fuel : Nat} {f : Failure}
    (h : (p.parse fuel).verdict = .ok (.failure f)) :
    ∃ log s, p.EndsIn fuel log s ∧ p.FailsAt s f := by
  obtain ⟨log, s, hends, -, rfl⟩ := endsIn_of_failure hg h
  obtain ⟨ran, hreached, htracks⟩ := hends.reaches.tracks hg
  exact ⟨log, s, hends, htracks.failsAt hreached hends.atRest⟩

end Parser

/-! ## An example -/

/-- One letter. -/
def letter : Grammar RunMatcher where
  name := "letter"
  start := "S"
  rules := [⟨"S", [.terminal (.char 'a') {}], none⟩]

/-- The parser for one letter, of which there is one too many. -/
def letterParser : Parser RunMatcher :=
  { graph := SlotGraph.compile letter, input := .ofString "aa" }

theorem ofGrammar_letter : SlotGraph.ofGrammar letter = .ok letterParser.graph :=
  SlotGraph.ofGrammar_eq_ok_iff.mpr ⟨by decide +kernel, rfl⟩

/-- The parse fails at the start of the text, and has a forest node behind the first letter. -/
theorem exists_failure_letter : ∃ log s f, letterParser.EndsIn 100 log s ∧
    (letterParser.parse 100).verdict = .ok (.failure f) ∧ f.position = 0 ∧
    ∃ (id : Nat) (n : Forest.Node), s.forest.nodes[id]? = some n ∧ n.span.right = 1 := by
  obtain ⟨log, s, hends, hs⟩ := Parser.exists_endsIn_of_run ofGrammar_letter 100
    (q := fun s => s.forest.lookup letterParser.rootSpan = none ∧
      (letterParser.failure s).position = 0 ∧ s.forest.nodes.any (·.span.right = 1))
    (by decide +kernel)
  obtain ⟨hlookup, hposition, hnode⟩ := of_decide_eq_true hs
  obtain ⟨id, hid, hright⟩ := Array.any_eq_true.mp hnode
  refine ⟨log, s, letterParser.failure s, hends, ?_, hposition, id, _,
    Array.getElem?_eq_getElem hid, of_decide_eq_true hright⟩
  rw [hends.report]
  show Except.ok (letterParser.verdict s) = _
  rw [Parser.verdict, hlookup]

/-- A thread was behind the first letter, and nothing of it was noted there. -/
theorem failure_names_letter :
    SlotGraph.ofGrammar letter = .ok letterParser.graph ∧
      ∃ f, (letterParser.parse 100).verdict = .ok (.failure f) ∧ f.position = 0 ∧
        ∃ log s, letterParser.EndsIn 100 log s ∧ letterParser.FailsAt s f := by
  obtain ⟨-, -, f, -, hf, hposition, -⟩ := exists_failure_letter
  exact ⟨ofGrammar_letter, f, hf, hposition, Parser.failure_names ofGrammar_letter hf⟩

/-- **Text may have been matched beyond the position that a failure names.** -/
theorem matched_beyond_failure :
    SlotGraph.ofGrammar letter = .ok letterParser.graph ∧
      ∃ log s f, letterParser.EndsIn 100 log s ∧
        (letterParser.parse 100).verdict = .ok (.failure f) ∧
        ∃ (id : Nat) (n : Forest.Node), s.forest.nodes[id]? = some n ∧ f.position < n.span.right := by
  obtain ⟨log, s, f, hends, hf, hposition, id, n, hn, hright⟩ := exists_failure_letter
  exact ⟨ofGrammar_letter, log, s, f, hends, hf, id, n, hn, by omega⟩

end GeneralLL
