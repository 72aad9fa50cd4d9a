import GeneralLL.Proofs.Moves

/-!
# Coherent states

A state is **coherent** if it shows only facts that the parse is entitled to, and shows
all that follows from the calls, edges and results in it: a call has its alternatives on
the agenda, and no caller misses a result, whichever of the two came first. Conversely
every descriptor is there for one of these reasons.

Every move of a thread leads from coherent states to coherent states, and the state
then knows everything that follows from the thread's being at its slot (`Advanced`). If a
move fails, an expression has no answer that some fact of the parse asks for.
-/

namespace GeneralLL

namespace Parser

variable {μ : Type} [Matcher μ] {p : Parser μ}

/-- Why a thread was put on the agenda: it is at the front of a call, or it goes on behind one. -/
def Origin (p : Parser μ) (s : State) (t : Thread) : Prop :=
  (∃ key slot, s.Shows (.called key) ∧ slot ∈ p.openings key ∧ t = p.opening key slot) ∨
    ∃ key c right value, s.Shows (.awaited key c) ∧ s.Shows (.result key right value) ∧
      p.ResumesTo key c right value (.posted t)

/-- The meeting of a caller and a result has been dealt with. -/
def Met (p : Parser μ) (s : State) (key : Stack.Key) (c : Caller) (right : Nat)
    (value : Option Value) : Prop :=
  ∃ facts, p.resume key c right value = .ok facts ∧ ∀ f ∈ facts, s.Covers f

/-- **What is true of a state between two moves.** -/
structure Coherent (p : Parser μ) (s : State) : Prop where
  /-- Everything in the state can be read. -/
  wf : s.Wf
  /-- The state knows only what the parse is entitled to. -/
  sound : ∀ {f : Fact}, s.Shows f → p.Entails f
  /-- A call that was made has had its alternatives put on the agenda. -/
  opened : ∀ {key : Stack.Key} {slot : Nat}, s.Shows (.called key) → slot ∈ p.openings key →
    s.Shows (.posted (p.opening key slot))
  /-- A caller and a result of its call have met: what follows from them is known. -/
  met : ∀ {key : Stack.Key} {c : Caller} {right : Nat} {value : Option Value},
    s.Shows (.awaited key c) → s.Shows (.result key right value) → p.Met s key c right value
  /-- A thread on the agenda was opened by a call, or goes on with a result. -/
  origin : ∀ {t : Thread}, s.Shows (.posted t) → p.Origin s t

theorem Origin.extend {s s' : State} {t : Thread} (h : p.Origin s t) (hext : s.Extends s') :
    p.Origin s' t := by
  rcases h with ⟨key, slot, hkey, hslot, ht⟩ | ⟨key, c, right, value, hc, hresult, ht⟩
  · exact Or.inl ⟨key, slot, hext.shows hkey, hslot, ht⟩
  · exact Or.inr ⟨key, c, right, value, hext.shows hc, hext.shows hresult, ht⟩

theorem Met.extend {s s' : State} {key : Stack.Key} {c : Caller} {right : Nat}
    {value : Option Value} (h : p.Met s key c right value) (hext : s.Extends s') :
    p.Met s' key c right value := by
  obtain ⟨facts, hresume, hfacts⟩ := h
  exact ⟨facts, hresume, fun f hf => hext.covers (hfacts f hf)⟩

/-- **A change keeps a state coherent** if what it adds is entitled to be there and is dealt
with. -/
theorem Coherent.adds {s s' : State} {facts : List Fact} (hs : p.Coherent s)
    (h : s.Adds s' facts) (hentails : ∀ f ∈ facts, p.Entails f)
    (hopened : ∀ key slot, .called key ∈ facts → slot ∈ p.openings key →
      .posted (p.opening key slot) ∈ facts)
    (hmet : ∀ key c right value, s'.Shows (.awaited key c) → s'.Shows (.result key right value) →
      .awaited key c ∈ facts ∨ .result key right value ∈ facts → p.Met s' key c right value)
    (horigin : ∀ t, .posted t ∈ facts → p.Origin s' t) : p.Coherent s' := by
  refine ⟨h.wf, fun {f} hf => ?_, fun {key slot} hkey hslot => ?_,
    fun {key c right value} hc hresult => ?_, fun {t} ht => ?_⟩
  · exact (h.sound hf).elim hs.sound (hentails f)
  · rcases h.sound hkey with hkey | hkey
    · exact h.extend.shows (hs.opened hkey hslot)
    · exact (h.complete (hopened key slot hkey hslot)).shows (by simp)
  · rcases h.sound hc with hc' | hc'
    · rcases h.sound hresult with hresult' | hresult'
      · exact (hs.met hc' hresult').extend h.extend
      · exact hmet key c right value hc hresult (Or.inr hresult')
    · exact hmet key c right value hc hresult (Or.inl hc')
  · rcases h.sound ht with ht | ht
    · exact (hs.origin ht).extend h.extend
    · exact horigin t ht

/-- A change of the forest keeps a state coherent. -/
theorem Coherent.adds_ofForest {s s' : State} {facts : List Fact} (hs : p.Coherent s)
    (h : s.Adds s' facts) (hentails : ∀ f ∈ facts, p.Entails f)
    (hforest : ∀ f ∈ facts, f.OfForest) : p.Coherent s' := by
  refine hs.adds h hentails (fun key slot hkey _ => ?_) (fun key c right value _ _ hnew => ?_)
    (fun t ht => ?_)
  · exact (hforest _ hkey).elim
  · exact hnew.elim (fun h => (hforest _ h).elim) (fun h => (hforest _ h).elim)
  · exact (hforest _ ht).elim

/-- A change of what shows no facts keeps a state coherent. -/
theorem Coherent.of_eq {s s' : State} (hs : p.Coherent s) (hforest : s'.forest = s.forest)
    (hstack : s'.stack = s.stack) (hseen : s'.agenda.seen = s.agenda.seen) : p.Coherent s' :=
  hs.adds_ofForest (hs.wf.adds_rest hforest hstack hseen) (fun _ h => absurd h List.not_mem_nil)
    (fun _ h => absurd h List.not_mem_nil)

/-! ## Calls -/

/-- **A call gets its node and its alternatives,** unless it is dead. -/
theorem ends_create {s : State} {E : ConditionError → Prop} {callee position : Nat}
    {values : Option (List Value)} (hs : p.Coherent s)
    (hcalled : p.openings ⟨callee, position, values⟩ ≠ [] →
      p.Entails (.called ⟨callee, position, values⟩)) :
    Ends (p.create callee values position) s
      (fun o s' => p.Coherent s' ∧ s.Extends s' ∧ s'.running = s.running ∧
        s.agenda.Grows s'.agenda ∧
        match o with
        | none => p.openings ⟨callee, position, values⟩ = []
        | some id => p.openings ⟨callee, position, values⟩ ≠ [] ∧
          s'.stack.call? id = some ⟨callee, position, values⟩) E := by
  unfold create
  dsimp only
  refine ends_bind (ends_get ?_)
  cases hfind : s.stack.find? ⟨callee, position, values⟩ with
  | some id =>
    -- the call was made before, so it has openings
    have hid := Stack.find?_eq_some hfind
    exact ends_pure ⟨hs, .refl s, rfl, .refl _, openings_ne_nil (hs.sound ⟨id, hid⟩), hid⟩
  | none =>
    have hnew : ¬s.stack.HasCall ⟨callee, position, values⟩ := Stack.find?_eq_none hfind
    have hopenings : p.openings ⟨callee, position, values⟩
        = (p.graph.nonterminal callee).firstSlots.filter fun slot =>
            (p.graph.slot slot).lookahead.admits (p.input.symbolAt? position) := rfl
    dsimp only
    rw [← hopenings]
    cases hempty : (p.openings ⟨callee, position, values⟩).isEmpty with
    | true => exact ends_pure ⟨hs, .refl s, rfl, .refl _, List.isEmpty_iff.mp hempty⟩
    | false =>
      have hne : p.openings ⟨callee, position, values⟩ ≠ [] := by
        intro h
        rw [h] at hempty
        exact absurd hempty (by simp)
      rw [if_neg (by simp)]
      refine ends_bind (ends_onStack ?_)
      rw [Stack.getOrCreate, hfind]
      -- the node of the call comes first, then its openings
      have hpush := hs.wf.stack.adds_push hnew
      have hid : (⟨s.stack.nodes.push { key := ⟨callee, position, values⟩ }⟩ : Stack).call?
          s.stack.nodes.size = some ⟨callee, position, values⟩ :=
        Stack.call?_eq_some_iff.mpr ⟨_, Array.getElem?_push_size, rfl⟩
      have hcall := hs.wf.adds_call hpush
      refine ends_bind ((ends_offerAll hcall.wf hid).imp ?_ fun _ h => h)
      intro _ s' hoffered
      obtain ⟨hposts, hkeeps⟩ := hoffered
      have hcalled := hcalled hne
      have hshows : s'.Shows (.called ⟨callee, position, values⟩) :=
        ⟨_, hposts.extend.call? hid⟩
      refine ends_pure ⟨hs.adds (hcall.trans hposts) ?_ ?_ ?_ ?_,
        (hcall.trans hposts).extend, hkeeps.running, hkeeps.agenda, hne, hposts.extend.call? hid⟩
      · intro f hf
        rcases List.mem_append.mp hf with hf | hf
        · exact List.mem_singleton.mp hf ▸ hcalled
        · obtain ⟨slot, hslot, rfl⟩ := List.mem_map.mp hf
          exact .opening hcalled hslot
      · -- only the new call has to open its alternatives
        intro key slot hkey hslot
        obtain rfl : key = ⟨callee, position, values⟩ := by simpa using hkey
        exact List.mem_append_right _ (List.mem_map.mpr ⟨slot, hslot, rfl⟩)
      · rintro key c right value - - (h | h) <;> simp at h
      · intro t ht
        obtain ⟨slot, hslot, rfl⟩ : ∃ slot ∈ p.openings ⟨callee, position, values⟩,
            p.opening ⟨callee, position, values⟩ slot = t := by simpa using ht
        exact Or.inl ⟨_, slot, hshows, hslot, rfl⟩

/-! ## Moves of a thread -/

/-- The state after a move of a thread knows everything that follows from it. -/
structure Advanced (p : Parser μ) (t : Thread) (s s' : State) : Prop where
  /-- The state is still coherent. -/
  coherent : p.Coherent s'
  /-- What could be read before is read as it was. -/
  extend : s.Extends s'
  /-- What was newly accepted waits, and nothing was taken. -/
  agenda : s.agenda.Grows s'.agenda
  /-- All that follows from the thread is known, except that it may run on as another thread. -/
  found : ∃ facts, p.move t = .ok facts ∧
    ∀ f ∈ facts, s'.Covers f ∨ ∃ d t', f = .passed t' ∧ s'.running = some d ∧ s'.thread? d = some t'
  /-- If a thread runs then, it follows from this one. -/
  running : ∀ d, s'.running = some d → ∃ t', s'.thread? d = some t' ∧ p.LeadsTo t (.passed t')

theorem Advanced.after {t : Thread} {s₀ s s' : State} (h : p.Advanced t s s')
    (hext : s₀.Extends s) (hgrows : s₀.agenda.Grows s.agenda) : p.Advanced t s₀ s' :=
  ⟨h.coherent, hext.trans h.extend, hgrows.trans h.agenda, h.found, h.running⟩

/-- A thread that finds nothing ends. -/
theorem Coherent.advanced_nothing {s s' : State} {t : Thread} (hs : p.Coherent s)
    (hforest : s'.forest = s.forest) (hstack : s'.stack = s.stack) (hagenda : s'.agenda = s.agenda)
    (hrunning : s'.running = none) (hmove : p.move t = .ok []) : p.Advanced t s s' := by
  have hseen : s'.agenda.seen = s.agenda.seen := by rw [hagenda]
  refine ⟨hs.of_eq hforest hstack hseen, (hs.wf.adds_rest hforest hstack hseen).extend,
    by rw [hagenda]; exact .refl _, ⟨[], hmove, fun f h => absurd h List.not_mem_nil⟩,
    fun d hd => ?_⟩
  rw [hrunning] at hd
  exact absurd hd (by simp)

/-- A thread stops before it moves. -/
theorem ends_stop {s : State} {d : Descriptor} {t : Thread} {m : Move Unit}
    {E : ConditionError → Prop} (hs : p.Coherent s) (ht : s.thread? d = some t)
    (h : ∀ {s₀ : State}, p.Coherent s₀ → s₀.thread? d = some t → s₀.running = none →
      Ends m s₀ (fun _ s' => p.Advanced t s₀ s') E) :
    Ends (goOn none >>= fun _ => m) s (fun _ s' => p.Advanced t s s') E := by
  refine ends_bind (ends_goOn ?_)
  have hrest : s.Adds { s with running := none } [] := hs.wf.adds_rest rfl rfl rfl
  have hext := hrest.extend
  have hcoherent : p.Coherent { s with running := none } := hs.of_eq rfl rfl rfl
  exact (h hcoherent (hext.thread? ht) rfl).imp (fun _ _ hadv => hadv.after hext (.refl _))
    fun _ h => h

/-- A thread goes on after a change of the forest. -/
theorem Coherent.advanced_goOn {s : State} {f : Forest} {d : Descriptor} {t t' : Thread}
    {facts : List Fact} (hs : p.Coherent s) (hpassed : p.Entails (.passed t))
    (hmove : p.move t = .ok (.passed t' :: facts)) (hadds : s.forest.Adds f facts)
    (hforest : ∀ f ∈ facts, f.OfForest) (ht' : { s with forest := f }.thread? d = some t') :
    p.Advanced t s { s with forest := f, running := some d } := by
  have hadds := hs.wf.adds_forest hadds
  have hcoherent : p.Coherent { s with forest := f } :=
    hs.adds_ofForest hadds (fun _ hf => .move hpassed hmove (List.mem_cons_of_mem _ hf)) hforest
  have hrest : State.Adds { s with forest := f } { s with forest := f, running := some d } [] :=
    hcoherent.wf.adds_rest rfl rfl rfl
  refine ⟨hcoherent.of_eq rfl rfl rfl, hadds.extend.trans hrest.extend, .refl _,
    ⟨_, hmove, fun f' hf' => ?_⟩, fun d' hd' => ?_⟩
  · rcases List.mem_cons.mp hf' with rfl | hf'
    · exact Or.inr ⟨d, t', rfl, rfl, hrest.extend.thread? ht'⟩
    · exact Or.inl (hrest.extend.covers (hadds.complete hf'))
  · obtain rfl := Option.some.inj hd'
    exact ⟨t', hrest.extend.thread? ht', _, hmove, List.mem_cons_self⟩

/-- **A scan** goes on behind the match, if there is one. -/
theorem ends_scan {s : State} {d : Descriptor} {t : Thread} {terminal dest : Nat}
    {notes : Annotations μ} (hs : p.Coherent s) (ht : s.thread? d = some t)
    (hpassed : p.Entails (.passed t))
    (haction : (p.graph.slot t.slot).action = .scan terminal notes dest) :
    Ends (p.scan d terminal notes dest) s (fun _ s' => p.Advanced t s s')
      (fun err => p.move t = .error err) := by
  have hmove : p.move t = (Option.elim · [] (scanFacts t terminal dest))
      <$> p.scanned terminal notes t.position t.env := by rw [move, haction]
  refine ends_stop hs ht fun {s₀} hs ht hrunning => ?_
  obtain ⟨hslot, hpos, hcall, hpart, henv⟩ := State.thread?_eq_some_iff.mp ht
  dsimp only
  rw [hpos, henv]
  refine ends_bind (ends_ask (fun b hpre => ?_) (fun err herr => ?_))
  · rw [scanned, guard_of_ok hpre] at hmove
    cases b with
    | false => exact ends_pure (hs.advanced_nothing rfl rfl rfl hrunning hmove)
    | true =>
      rw [if_pos rfl] at hmove ⊢
      -- the conditions before the terminal hold; it may still not match
      cases hmatch : (p.graph.terminal terminal).matchAt p.input t.position with
      | none =>
        rw [hmatch] at hmove
        exact ends_record fun reach => hs.advanced_nothing rfl rfl rfl hrunning hmove
      | some right =>
        rw [hmatch] at hmove
        dsimp only at hmove ⊢
        refine ends_bind (ends_ask (fun b hpost => ?_) (fun err herr => ?_))
        · have hpost : Condition.allHold p.evaluate p.input t.position right
            (notes.bindScan p.input t.position right t.env) notes.post = .ok b := hpost
          rw [guard_of_ok hpost] at hmove
          cases b with
          | false => exact ends_pure (hs.advanced_nothing rfl rfl rfl hrunning hmove)
          | true =>
            rw [if_pos rfl] at hmove ⊢
            refine ends_bind (ends_onForest ?_)
            -- the leaf, the node of the part with it, and then the thread goes on
            have hspan : s₀.forest.pieceOf? ⟨.terminal terminal, t.position, right⟩
                = some (.terminal terminal t.position right) := rfl
            obtain ⟨hleaf, hpiece⟩ := hs.wf.forest.adds_find hspan
            rw [Forest.terminal]
            generalize s₀.forest.find ⟨.terminal terminal, t.position, right⟩ = leaf
              at hleaf hpiece
            refine ends_bind ((ends_callArguments (hs.wf.adds_forest hleaf).wf hcall).imp ?_
              fun _ h => h)
            intro arguments _ hnumbers
            obtain ⟨f, rfl, hf, harguments⟩ := hnumbers
            have hfound : s₀.forest.Adds f _ := hleaf.trans hf
            refine ends_bind (ends_onForest (ends_goOn ?_))
            obtain ⟨hnode, hpart'⟩ := hfound.wf.adds_getNode dest harguments
              (hfound.extend.part? hpart) (hf.extend.piece? hpiece)
            generalize f.getNode dest arguments d.forestNode leaf.1 = found at hnode hpart'
            refine hs.advanced_goOn hpassed hmove (hfound.trans hnode) (fun f hf => ?_) ?_
            · rcases List.mem_cons.mp hf with rfl | hf
              · exact trivial
              · exact Piece.ofForest_joinFacts hf
            · exact State.thread?_eq_some_iff.mpr ⟨rfl, rfl, hcall,
                Forest.part?_eq_some_iff.mpr (Or.inr ⟨_, _, rfl, rfl, hpart'⟩), rfl⟩
        · have herr : Condition.allHold p.evaluate p.input t.position right
            (notes.bindScan p.input t.position right t.env) notes.post = .error err := herr
          rw [herr] at hmove
          exact hmove
  · rw [hmove, scanned, herr]
    rfl

/-! ## Rounds of results -/

/-- **A new caller or a new result keeps a state coherent** if it then meets whatever it has to
meet. -/
theorem Coherent.adds_round {s s' s'' : State} {new : Fact} {facts : List Fact} {α : Type}
    {l : List α} {edge : α → Stack.Edge} {result : α → Stack.Popped} {key : Stack.Key}
    (hs : p.Coherent s) (hnew : s.Adds s' [new]) (hentails : p.Entails new)
    (hcalled : ∀ key, new ≠ .called key) (hposted : ∀ t, new ≠ .posted t)
    (hall : ∀ x ∈ l, s'.stack.HasEdge key (edge x) ∧ s'.stack.HasResult key (result x))
    (hmeets : ∀ key' c right value, s''.Shows (.awaited key' c) →
      s''.Shows (.result key' right value) → .awaited key' c = new ∨ .result key' right value = new →
      key' = key ∧ ∃ x ∈ l, s'.caller? (edge x) = some c ∧ (result x).right = right ∧
        (result x).value = value)
    (hadds : s'.Adds s'' facts)
    (hdone : ∀ x ∈ l, ∀ c, s'.caller? (edge x) = some c → ∃ found,
      p.resume key c (result x).right (result x).value = .ok found ∧ ∀ f ∈ found, f ∈ facts)
    (horigin : ∀ f ∈ facts, ∃ x ∈ l, ∃ c, s'.caller? (edge x) = some c ∧
      p.ResumesTo key c (result x).right (result x).value f) : p.Coherent s'' := by
  have hsound {f : Fact} (hf : s'.Shows f) : p.Entails f :=
    (hnew.sound hf).elim hs.sound fun h => List.mem_singleton.mp h ▸ hentails
  have hsource {f : Fact} (hf : f ∈ facts) : ∃ c right value, s'.Shows (.awaited key c) ∧
      s'.Shows (.result key right value) ∧ p.ResumesTo key c right value f := by
    obtain ⟨x, hx, c, hc, hresumes⟩ := horigin f hf
    obtain ⟨hedge, hresult⟩ := hall x hx
    exact ⟨c, _, _, ⟨edge x, hedge, hc⟩, ⟨result x, hresult, rfl, rfl⟩, hresumes⟩
  -- a round makes neither calls nor callers nor results, so nothing else has to meet
  have hkind {f : Fact} (hf : f ∈ facts) : (∃ t, f = .posted t) ∨ f.OfForest := by
    obtain ⟨c, right, value, -, -, hresumes⟩ := hsource hf
    exact hresumes.posted_or_ofForest
  refine hs.adds (hnew.trans hadds) (fun f hf => ?_) (fun key' slot hkey' _ => ?_)
    (fun key' c right value hc hresult hmem => ?_) (fun t ht => ?_)
  · rcases List.mem_append.mp hf with hf | hf
    · exact List.mem_singleton.mp hf ▸ hentails
    · obtain ⟨c, right, value, hc, hresult, hresumes⟩ := hsource hf
      exact (hsound hc).of_resumesTo (hsound hresult) hresumes
  · rcases List.mem_append.mp hkey' with h | h
    · exact absurd (List.mem_singleton.mp h).symm (hcalled key')
    · rcases hkind h with ⟨t, h⟩ | h
      · exact absurd h (by simp)
      · exact h.elim
  · have hnew' : .awaited key' c = new ∨ .result key' right value = new := by
      have hin {f : Fact} (hf : f ∈ [new] ++ facts) (hne : ∀ t, f ≠ .posted t)
          (hforest : ¬f.OfForest) : f = new := by
        rcases List.mem_append.mp hf with hf | hf
        · exact List.mem_singleton.mp hf
        · rcases hkind hf with ⟨t, h⟩ | h
          · exact absurd h (hne t)
          · exact absurd h hforest
      rcases hmem with h | h
      · exact Or.inl (hin h (by simp) (by simp [Fact.OfForest]))
      · exact Or.inr (hin h (by simp) (by simp [Fact.OfForest]))
    obtain ⟨rfl, x, hx, hcaller, rfl, rfl⟩ := hmeets key' c right value hc hresult hnew'
    obtain ⟨found, hresume, hfound⟩ := hdone x hx c hcaller
    exact ⟨found, hresume, fun f hf => hadds.complete (hfound f hf)⟩
  · rcases List.mem_append.mp ht with h | h
    · exact absurd (List.mem_singleton.mp h).symm (hposted t)
    · obtain ⟨c, right, value, hc, hresult, hresumes⟩ := hsource h
      exact Or.inr ⟨key, c, right, value, hadds.extend.shows hc, hadds.extend.shows hresult,
        hresumes⟩

/-- A caller waits for a call, and takes up what the call has produced before. -/
theorem ends_await {s : State} {t : Thread} {id : Nat} {key : Stack.Key} {e : Stack.Edge}
    {c : Caller} (hs : p.Coherent s) (hrunning : s.running = none)
    (hid : s.stack.call? id = some key) (hc : s.caller? e = some c)
    (hpassed : p.Entails (.passed t)) (hmove : p.move t = .ok [.called key, .awaited key c]) :
    Ends (do
        if ← onStack (·.addEdge id e) then
          let results := ((← get).stack.get id).popped
          results.forM (p.propagate e key.position (results.length = 1))) s
      (fun _ s' => p.Advanced t s s') (fun _ => p.Faulty) := by
  have hawaited : p.Entails (.awaited key c) := .move hpassed hmove (by simp)
  -- a state that has the caller knows all that follows from the thread
  have hadvanced {s' : State} (hs' : p.Coherent s') (hext : s.Extends s')
      (hagenda : s.agenda.Grows s'.agenda) (hrunning' : s'.running = none)
      (he : s'.stack.HasEdge key e) : p.Advanced t s s' := by
    refine ⟨hs', hext, hagenda, ⟨_, hmove, fun f hf => Or.inl (Or.inl ?_)⟩, fun d hd => ?_⟩
    · simp only [List.mem_cons, List.not_mem_nil, or_false] at hf
      rcases hf with rfl | rfl
      · exact ⟨id, hext.call? hid⟩
      · exact ⟨e, he, hext.caller? hc⟩
    · exact absurd (hrunning'.symm.trans hd) (by simp)
  obtain ⟨n, hn, rfl⟩ := Stack.call?_eq_some_iff.mp hid
  refine ends_bind (ends_onStack ?_)
  rcases hs.wf.stack.addEdge_cases hn e with ⟨hadd, he⟩ | ⟨st, hadd, hst⟩
  · rw [hadd]
    exact ends_pure (hadvanced hs (.refl s) (.refl _) hrunning he)
  · rw [hadd, if_pos rfl]
    refine ends_bind (ends_get ?_)
    dsimp only
    have he : st.HasEdge n.key e := hst.hasEdge.mpr (Or.inr (List.mem_singleton_self _))
    have hnew := hs.wf.adds_edge hst hc
    obtain ⟨n', hn', hkey⟩ := Stack.call?_eq_some_iff.mp (hst.call? hid)
    rw [Stack.get_eq hn']
    -- the round goes over all results of the call
    have hresult {q : Stack.Popped} : q ∈ n'.popped ↔ st.HasResult n.key q := by
      rw [← hkey]
      exact (hst.wf.hasResult_iff hn').symm
    refine (ends_propagateAll (fun _ => e) (fun q => q) hnew.wf fun q hq =>
      ⟨⟨c, hnew.extend.caller? hc⟩, hresult.mp hq⟩).imp ?_ ?_
    · intro _ s' h
      obtain ⟨facts, hadds, hkeeps, hdone, horigin⟩ := h
      refine hadvanced (hs.adds_round hnew hawaited (by simp) (by simp)
        (fun q hq => ⟨he, hresult.mp hq⟩) (fun key' c' right value _ hr hor => ?_) hadds hdone horigin)
        (hnew.extend.trans hadds.extend) hkeeps.agenda (hkeeps.running.trans hrunning)
        (hadds.extend.hasEdge he)
      obtain ⟨rfl, rfl⟩ : key' = n.key ∧ c' = c := by simpa using hor
      obtain ⟨q, hq, rfl, rfl⟩ := hr
      rw [hkeeps.stack] at hq
      exact ⟨rfl, q, hresult.mpr hq, hnew.extend.caller? hc, rfl, rfl⟩
    · intro err h
      obtain ⟨q, hq, c', hc', herr⟩ := h
      obtain rfl := Option.some.inj ((hnew.extend.caller? hc).symm.trans hc')
      -- the result was there before the caller, so the error is one of the parse
      have hold : s.stack.HasResult n.key q :=
        (hst.hasResult.mp (hresult.mp hq)).resolve_right List.not_mem_nil
      exact .resume hawaited (hs.sound ⟨q, hold, rfl, rfl⟩) herr

/-- **A call** lets the caller wait, and hands it what the callee has produced before. -/
theorem ends_call {s : State} {d : Descriptor} {t : Thread} {callee dest : Nat}
    {arguments : List Expr} {notes : Annotations μ} (hs : p.Coherent s)
    (ht : s.thread? d = some t) (hpassed : p.Entails (.passed t))
    (haction : (p.graph.slot t.slot).action = .call callee arguments notes dest) :
    Ends (p.call d callee arguments notes) s (fun _ s' => p.Advanced t s s')
      (fun err => p.move t = .error err ∨ p.Faulty) := by
  have hmove : p.move t = (Option.elim · [] (p.callFacts t))
      <$> p.calling callee arguments notes t.position t.env := by rw [move, haction]
  refine ends_stop hs ht fun {s₀} hs ht hrunning => ?_
  obtain ⟨hslot, hpos, hcall, hpart, henv⟩ := State.thread?_eq_some_iff.mp ht
  dsimp only
  rw [hpos, henv]
  refine ends_bind (ends_ask (fun b hpre => ?_) (fun err herr => ?_))
  · rw [calling, guard_of_ok hpre] at hmove
    cases b with
    | false => exact ends_pure (hs.advanced_nothing rfl rfl rfl hrunning hmove)
    | true =>
      rw [if_pos rfl] at hmove ⊢
      dsimp only at hmove
      refine ends_arguments (fun values hvalues => ?_) (fun err herr => ?_)
      · have hvalues : p.argumentsFor callee arguments (notes.bindCall t.position t.env)
          = .ok values := hvalues
        rw [hvalues] at hmove
        have hmove : p.move t = .ok (p.callFacts t (⟨callee, t.position, values⟩,
          notes.bindCall t.position t.env)) := hmove
        unfold callFacts at hmove
        dsimp only at hmove
        have hcalled (hne : p.openings ⟨callee, t.position, values⟩ ≠ []) :
            p.Entails (.called ⟨callee, t.position, values⟩) := by
          rw [if_neg hne] at hmove
          exact .move hpassed hmove List.mem_cons_self
        refine ends_bind ((ends_create hs hcalled).imp ?_ fun _ h => h)
        intro o s₁ hcreated
        obtain ⟨hs₁, hext, hrunning₁, hgrows, ho⟩ := hcreated
        have hrunning := hrunning₁.trans hrunning
        cases o with
        | none =>
          have hempty : p.openings ⟨callee, t.position, values⟩ = [] := ho
          rw [if_pos hempty] at hmove
          refine ends_record fun reach => Advanced.after (s := s₁) ?_ hext hgrows
          exact hs₁.advanced_nothing rfl rfl rfl hrunning hmove
        | some id =>
          obtain ⟨hne, hid⟩ := ho
          rw [if_neg hne] at hmove
          let e : Stack.Edge := ⟨d.stackNode, d.slot, d.forestNode, notes.bindCall t.position t.env⟩
          let c : Caller := ⟨t.call, t.slot, t.part, notes.bindCall t.position t.env⟩
          have hc : s₁.caller? e = some c := State.caller?_eq_some_iff.mpr
            ⟨hext.call? hcall, hslot, hext.forest.part? hpart, rfl⟩
          exact (ends_await hs₁ hrunning hid hc hpassed hmove).imp
            (fun _ _ hadv => hadv.after hext hgrows) fun _ h => Or.inr h
      · have herr : p.argumentsFor callee arguments (notes.bindCall t.position t.env)
          = .error err := herr
        rw [herr] at hmove
        exact Or.inl hmove
  · rw [calling, herr] at hmove
    exact Or.inl hmove

/-- A call has a result, which is handed to all that wait for it. -/
theorem ends_deliver {s : State} {id : Nat} {key : Stack.Key} {q : Stack.Popped}
    (hs : p.Coherent s) (hid : s.stack.call? id = some key)
    (hpiece : s.forest.piece? q.node = some (resultPiece key q.right))
    (hentails : p.Entails (.result key q.right q.value)) :
    Ends (do
        if ← onStack (·.addPopped id q) then
          let edges := ((← get).stack.get id).edges
          edges.forM fun edge => p.propagate edge key.position (edges.length = 1) q) s
      (fun _ s' => p.Coherent s' ∧ s.Extends s' ∧ s.agenda.Grows s'.agenda ∧
        s'.running = s.running ∧ s'.Shows (.result key q.right q.value)) (fun _ => p.Faulty) := by
  obtain ⟨n, hn, rfl⟩ := Stack.call?_eq_some_iff.mp hid
  refine ends_bind (ends_onStack ?_)
  rcases hs.wf.stack.addPopped_cases hn q with ⟨hadd, q', hq', hsame⟩ | ⟨st, hadd, hst⟩
  · rw [hadd]
    exact ends_pure ⟨hs, .refl s, .refl _, rfl, q', hq', hsame⟩
  · rw [hadd, if_pos rfl]
    refine ends_bind (ends_get ?_)
    dsimp only
    have hq : st.HasResult n.key q := hst.hasResult.mpr (Or.inr (List.mem_singleton_self _))
    have hnew := hs.wf.adds_result hst hpiece
    obtain ⟨n', hn', hkey⟩ := Stack.call?_eq_some_iff.mp (hst.call? hid)
    rw [Stack.get_eq hn']
    -- the round goes over all callers of the call
    have hedge {e : Stack.Edge} : e ∈ n'.edges ↔ st.HasEdge n.key e := by
      rw [← hkey]
      exact (hst.wf.hasEdge_iff hn').symm
    refine (ends_propagateAll (fun e => e) (fun _ => q) hnew.wf fun e he =>
      ⟨hnew.wf.callers (hedge.mp he), hq⟩).imp ?_ ?_
    · intro _ s' h
      obtain ⟨facts, hadds, hkeeps, hdone, horigin⟩ := h
      refine ⟨hs.adds_round hnew hentails (by simp) (by simp) (fun e he => ⟨hedge.mp he, hq⟩)
        (fun key' c right value hc _ hor => ?_) hadds hdone horigin,
        hnew.extend.trans hadds.extend, hkeeps.agenda, hkeeps.running, q,
        hadds.extend.hasResult hq, rfl, rfl⟩
      obtain ⟨rfl, rfl, rfl⟩ : key' = n.key ∧ right = q.right ∧ value = q.value := by
        simpa using hor
      obtain ⟨e, he, hc⟩ := hc
      rw [hkeeps.stack] at he
      exact ⟨rfl, e, hedge.mpr he, hadds.extend.caller?_old hnew.wf he hc, rfl, rfl⟩
    · intro err h
      obtain ⟨e, he, c, hc, herr⟩ := h
      -- the caller was there before the result
      have hold : s.stack.HasEdge n.key e :=
        (hst.hasEdge.mp (hedge.mp he)).resolve_right List.not_mem_nil
      exact .resume (hs.sound ⟨e, hold, hnew.extend.caller?_old hs.wf hold hc⟩) hentails herr

omit [Matcher μ] in
/-- The piece of a complete rule is the one that the thread has, or that of the empty terminal. -/
theorem ends_child {α : Type} {s : State} {Q : α → State → Prop} {E : ConditionError → Prop}
    {t : Thread} {o : Option Nat} {next : Nat → Move α} (hs : s.Wf)
    (hpart : s.forest.part? o = some t.part)
    (h : ∀ id f, s.forest.Adds f [.piece (p.child t)] → f.piece? id = some (p.child t) →
      Ends (next id) { s with forest := f } Q E) :
    Ends (match o with
        | some child => pure child >>= next
        | none => onForest (·.terminal p.graph.epsilon t.position t.position) >>= next) s Q E := by
  unfold child at h
  rcases Forest.part?_eq_some_iff.mp hpart with ⟨rfl, hnone⟩ | ⟨id, w, rfl, hsome, hid⟩
  · rw [hnone] at h
    have hspan : s.forest.pieceOf? ⟨.terminal p.graph.epsilon, t.position, t.position⟩
        = some (.terminal p.graph.epsilon t.position t.position) := rfl
    obtain ⟨hadds, hpiece⟩ := hs.forest.adds_find hspan
    exact ends_bind (ends_onForest (h _ _ hadds hpiece))
  · rw [hsome] at h
    refine ends_bind (ends_pure (h id s.forest ⟨hs.forest, .refl _, Or.inl, fun hf => ?_⟩ hid))
    obtain rfl := List.mem_singleton.mp hf
    exact Or.inl ⟨id, hid⟩

/-- **The end of a rule** is a result of its call. -/
theorem ends_complete {s : State} {d : Descriptor} {t : Thread} {returns : Option Expr}
    (hs : p.Coherent s) (ht : s.thread? d = some t) (hpassed : p.Entails (.passed t))
    (hhead : (p.graph.slot t.slot).head = t.call.nonterminal)
    (haction : (p.graph.slot t.slot).action = .complete returns) :
    Ends (p.complete d returns) s (fun _ s' => p.Advanced t s s')
      (fun err => p.move t = .error err ∨ p.Faulty) := by
  have hmove : p.move t = p.completeFacts t <$> p.returned returns t.env := by rw [move, haction]
  refine ends_stop hs ht fun {s₀} hs ht hrunning => ?_
  obtain ⟨hslot, hpos, hcall, hpart, henv⟩ := State.thread?_eq_some_iff.mp ht
  dsimp only
  rw [hpos, henv, hslot]
  refine ends_child hs.wf hpart fun child f hchild hpiece => ?_
  refine ends_bind (ends_get ?_)
  obtain ⟨n, hn, hkey⟩ := Stack.call?_eq_some_iff.mp hcall
  dsimp only
  rw [Stack.get_eq hn, hkey]
  refine ends_bind ((ends_callArguments (hs.wf.adds_forest hchild).wf hcall).imp ?_ fun _ h => h)
  intro arguments _ hnumbers
  obtain ⟨f', rfl, hf', harguments⟩ := hnumbers
  refine ends_bind (ends_onForest ?_)
  rw [Forest.nonterminal]
  have hspan : f'.pieceOf? ⟨.nonterminal (p.graph.slot t.slot).head arguments, t.call.position,
      t.position⟩ = some (p.whole t) :=
    Forest.pieceOf?_eq_some_iff.mpr ⟨arguments, harguments, rfl⟩
  obtain ⟨hwhole, hnode⟩ := hf'.wf.adds_find hspan
  -- whatever number the node of the rule has, its derivation is put there
  generalize f'.find ⟨.nonterminal (p.graph.slot t.slot).head arguments, t.call.position,
    t.position⟩ = found at hwhole hnode
  refine ends_bind (ends_onForest ?_)
  have hnone : found.2.part? none = some none := rfl
  have hpacked := hwhole.wf.adds_addPacked t.slot hnode hnone
    ((hf'.trans hwhole).extend.piece? hpiece)
  generalize found.2.addPacked found.1 t.slot none child = packed at hpacked
  refine ends_returned (fun value hvalue => ?_) (fun err herr => ?_)
  · rw [hvalue] at hmove
    have hmove : p.move t = .ok (p.completeFacts t value) := hmove
    have hall := hs.wf.adds_forest (((hchild.trans hf').trans hwhole).trans hpacked)
    have hmem : ∀ f ∈ [Fact.piece (p.child t), .piece (p.whole t),
        .packing ⟨p.whole t, t.slot, (p.child t).left, none, p.child t⟩],
        f ∈ p.completeFacts t value := fun f hf => List.mem_cons_of_mem _ hf
    have hcoherent := hs.adds_ofForest hall (fun f hf => .move hpassed hmove (hmem f hf))
      (fun f hf => ?_)
    · have hresult : p.Entails (.result t.call t.position value) :=
        .move hpassed hmove List.mem_cons_self
      have hpiece : packed.2.piece? found.1 = some (resultPiece t.call t.position) := by
        rw [hpacked.extend.piece? hnode, whole, hhead, resultPiece]
      refine (ends_deliver (q := ⟨found.1, t.position, value⟩) hcoherent hcall hpiece hresult).imp
        ?_ fun _ h => Or.inr h
      intro _ s' hdelivered
      obtain ⟨hs', hext, hgrows, hrunning', hshows⟩ := hdelivered
      refine ⟨hs', hall.extend.trans hext, hgrows, ⟨_, hmove, fun f hf => Or.inl ?_⟩,
        fun d hd => ?_⟩
      · rcases List.mem_cons.mp hf with rfl | hf
        · exact Or.inl hshows
        · exact hext.covers (hall.complete hf)
      · exact absurd ((hrunning'.trans hrunning).symm.trans hd) (by simp)
    · simp only [List.mem_append, List.mem_cons, List.not_mem_nil, or_false, or_assoc] at hf
      rcases hf with rfl | rfl | rfl <;> exact trivial
  · rw [herr] at hmove
    exact Or.inl hmove

/-- **A branch** goes on at one of two slots. -/
theorem ends_branch {s : State} {d : Descriptor} {t : Thread} {condition : Expr}
    {ifTrue ifFalse : Nat} (hs : p.Coherent s) (ht : s.thread? d = some t)
    (hpassed : p.Entails (.passed t))
    (haction : (p.graph.slot t.slot).action = .branch condition ifTrue ifFalse) :
    Ends (do
        let b ← ask (p.evaluate.truth condition d.env)
        goOn (some { d with slot := if b then ifTrue else ifFalse })) s
      (fun _ s' => p.Advanced t s s') (fun err => p.move t = .error err) := by
  obtain ⟨hslot, hpos, hcall, hpart, henv⟩ := State.thread?_eq_some_iff.mp ht
  have hmove : p.move t = (fun b => [.passed { t with slot := if b then ifTrue else ifFalse }])
      <$> p.evaluate.truth condition t.env := by rw [move, haction]
  rw [henv]
  refine ends_bind (ends_ask (fun b hb => ends_goOn ?_) (fun err herr => ?_))
  · rw [hb] at hmove
    exact hs.advanced_goOn hpassed hmove hs.wf.forest.adds_nil (fun f h => absurd h List.not_mem_nil)
      (State.thread?_eq_some_iff.mpr ⟨rfl, hpos, hcall, hpart, rfl⟩)
  · rw [herr] at hmove
    exact hmove

/-- **Every move of a thread keeps a state coherent,** and finds what follows from the thread's
being at its slot. -/
theorem ends_advance {s : State} {d : Descriptor} {t : Thread} (hs : p.Coherent s)
    (ht : s.thread? d = some t) (hpassed : p.Entails (.passed t))
    (hhead : (p.graph.slot t.slot).head = t.call.nonterminal) :
    Ends (p.advance d) s (fun _ s' => p.Advanced t s s') (fun _ => p.Faulty) := by
  have hslot := (State.thread?_eq_some_iff.mp ht).1
  have hfaulty {err : ConditionError} (h : p.move t = .error err) : p.Faulty := .move hpassed h
  unfold advance
  rw [hslot]
  cases haction : (p.graph.slot t.slot).action with
  | scan terminal notes dest =>
    exact (ends_scan hs ht hpassed haction).imp (fun _ _ h => h) fun _ => hfaulty
  | call callee arguments notes dest =>
    exact (ends_call hs ht hpassed haction).imp (fun _ _ h => h) fun _ h => h.elim hfaulty id
  | branch condition ifTrue ifFalse =>
    exact (ends_branch hs ht hpassed haction).imp (fun _ _ h => h) fun _ => hfaulty
  | complete returns =>
    exact (ends_complete hs ht hpassed hhead haction).imp (fun _ _ h => h)
      fun _ h => h.elim hfaulty id

end Parser

end GeneralLL
