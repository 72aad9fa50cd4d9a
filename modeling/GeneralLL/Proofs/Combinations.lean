import GeneralLL.Proofs.Continuations
import GeneralLL.Proofs.ForestShape
import GeneralLL.Proofs.Order

/-!
# What packing keeps of a combination

Where a rule goes on, what it had recognised is **combined** with what comes next
(`Combined`): a caller goes on with a result, or a thread behind a terminal. The node that
the two parts are made into packs derivations by slot and pivot alone. Whatever the grammar
is, **of every combination a derivation with this slot and this pivot is packed, and all are
packed exactly if they differ in these** (`combined_packed`). In simple grammars they do.

If calls have arguments or symbols are conditional, what comes behind a part may depend on
the environment. Two right parts over the same text then have the same key, and only the
derivation with the first of them is kept (`combination_lost`).
-/

namespace GeneralLL

/-- Two forest nodes for parts of a rule that lie one behind the other. -/
structure Combination where
  /-- The slot that the rule goes on at. -/
  slot : Nat
  /-- The call that the rule belongs to. -/
  call : Stack.Key
  /-- The node of what the rule had recognised before. -/
  left : Nat
  /-- The node of the symbol behind it. -/
  right : Nat

namespace Forest

/-- The derivation that a combination is. -/
def combination? (f : Forest) (c : Combination) : Option Packing := do
  let l ← f.piece? c.left
  let r ← f.piece? c.right
  return ⟨.join c.slot c.call.arguments (some l) r, c.slot, l.right, some l, r⟩

theorem combination?_eq_some_iff {f : Forest} {c : Combination} {d : Packing} :
    f.combination? c = some d ↔ ∃ l r, f.piece? c.left = some l ∧ f.piece? c.right = some r ∧
      d = ⟨.intermediate c.slot c.call.arguments l.left r.right, c.slot, l.right, some l, r⟩ := by
  simp only [combination?, bind, Option.bind_eq_some_iff, pure, Option.some.injEq]
  constructor
  · intro h
    obtain ⟨l, hl, r, hr, rfl⟩ := h
    exact ⟨l, r, hl, hr, rfl⟩
  · intro h
    obtain ⟨l, r, hl, hr, rfl⟩ := h
    exact ⟨l, hl, r, hr, rfl⟩

theorem Extends.combination? {f f' : Forest} (h : f.Extends f') {c : Combination} {d : Packing}
    (hd : f.combination? c = some d) : f'.combination? c = some d := by
  obtain ⟨l, r, hl, hr, rfl⟩ := combination?_eq_some_iff.mp hd
  exact combination?_eq_some_iff.mpr ⟨l, r, h.piece? hl, h.piece? hr, rfl⟩

theorem parent_of_combination? {f : Forest} {c : Combination} {d : Packing}
    (hd : f.combination? c = some d) : d.parent = .intermediate c.slot c.call.arguments
      d.parent.left d.parent.right := by
  obtain ⟨l, r, -, -, rfl⟩ := combination?_eq_some_iff.mp hd
  rfl

/-- A combination is known by its key and its parts. -/
theorem combination?_inj {f : Forest} {c c' : Combination} {d d' : Packing}
    (hd : f.combination? c = some d) (hd' : f.combination? c' = some d') (hkey : d.key = d'.key)
    (hleft : c.left = c'.left) (hright : c.right = c'.right) : d = d' := by
  obtain ⟨l, r, hl, hr, rfl⟩ := combination?_eq_some_iff.mp hd
  obtain ⟨l', r', hl', hr', rfl⟩ := combination?_eq_some_iff.mp hd'
  rw [hleft, hl'] at hl
  rw [hright, hr'] at hr
  obtain rfl := Option.some.inj hl
  obtain rfl := Option.some.inj hr
  obtain ⟨⟨hslot, harguments⟩, -⟩ : (c.slot = c'.slot ∧ c.call.arguments = c'.call.arguments) ∧
      c.slot = c'.slot := by simpa [Packing.key] using hkey
  rw [hslot, harguments]

/-- **A derivation is packed for a combination:** the node for the front of the rule, from where
the left part starts to where the right part ends, has it for the slot of the combination and with
the pivot where the two parts meet. -/
def PackedFor (f : Forest) (c : Combination) (k : Packed) : Prop :=
  ∃ (l r : Piece) (id : Nat) (n : Node), f.piece? c.left = some l ∧ f.piece? c.right = some r ∧
    f.nodes[id]? = some n ∧
    f.pieceOf? n.span = some (.intermediate c.slot c.call.arguments l.left r.right) ∧
    f.HasPacked n k ∧ k.slot = c.slot ∧ k.pivot = l.right

/-- The combination itself is packed. -/
def Holds (f : Forest) (c : Combination) : Prop :=
  ∃ k, f.PackedFor c k ∧ k.left = some c.left ∧ k.right = c.right

/-- Two combinations are made into one node, at the same slot and with the same pivot. -/
def SameKey (f : Forest) (c c' : Combination) : Prop :=
  (f.combination? c).map Packing.key = (f.combination? c').map Packing.key

theorem Wf.packedFor_of_key {f : Forest} (hf : f.Wf) {c : Combination} {d d' : Packing} {i : Nat}
    {k : Packed} (hd : f.combination? c = some d) (hkey : d'.key = d.key)
    (hk : f.packed[i]? = some k) (hread : f.packing? k = some d') : f.PackedFor c k := by
  obtain ⟨l, r, hl, hr, rfl⟩ := combination?_eq_some_iff.mp hd
  obtain ⟨hparent, hslot, hpivot, -, -⟩ := packing?_eq_some_iff.mp hread
  simp only [Packing.key, Prod.mk.injEq] at hkey
  obtain ⟨hkparent, hkslot, hkpivot⟩ := hkey
  rw [hkparent] at hparent
  obtain ⟨n, hn, hpiece⟩ := piece?_eq_some_iff.mp hparent
  exact ⟨l, r, k.parent, n, hl, hr, hn, hpiece, ⟨i, ((hf.lists hn).2 i).mpr ⟨k, hk, rfl⟩, hk⟩,
    hslot.trans hkslot, hpivot.trans hkpivot⟩

/-- A combination whose own derivation is stored is held. -/
theorem Wf.holds_of_shows {f : Forest} (hf : f.Wf) {c : Combination} {d : Packing}
    (hd : f.combination? c = some d) (hshows : f.Shows (.packing d)) : f.Holds c := by
  obtain ⟨i, k, hk, hread⟩ := hshows
  obtain ⟨l, r, hl, hr, rfl⟩ := combination?_eq_some_iff.mp hd
  obtain ⟨-, -, -, hleft, hright⟩ := packing?_eq_some_iff.mp hread
  have hleft' : f.part? (some c.left) = some (some l) :=
    part?_eq_some_iff.mpr (Or.inr ⟨c.left, l, rfl, rfl, hl⟩)
  exact ⟨k, hf.packedFor_of_key hd rfl hk hread, hf.part?_inj hleft hleft', hf.piece?_inj hright hr⟩

/-- What is held is stored. -/
theorem Wf.shows_of_holds {f : Forest} (hf : f.Wf) {c : Combination} {d : Packing}
    (hd : f.combination? c = some d) (hholds : f.Holds c) :
    ∃ (i : Nat) (k : Packed), f.packed[i]? = some k ∧ f.packing? k = some d ∧
      k.left = some c.left ∧ k.right = c.right := by
  obtain ⟨k, ⟨l, r, id, n, hl, hr, hn, hpiece, ⟨i, hi, hk⟩, hslot, hpivot⟩, hleft, hright⟩ := hholds
  obtain ⟨l', r', hl', hr', rfl⟩ := combination?_eq_some_iff.mp hd
  obtain rfl := Option.some.inj (hl.symm.trans hl')
  obtain rfl := Option.some.inj (hr.symm.trans hr')
  obtain ⟨k', hk', rfl⟩ := ((hf.lists hn).2 i).mp hi
  obtain rfl := Option.some.inj (hk.symm.trans hk')
  refine ⟨i, k, hk, packing?_eq_some_iff.mpr ⟨piece?_eq_some_iff.mpr ⟨n, hn, hpiece⟩, hslot,
    hpivot, ?_, by rw [hright]; exact hr⟩, hleft, hright⟩
  rw [hleft]
  exact part?_eq_some_iff.mpr (Or.inr ⟨c.left, l, rfl, rfl, hl⟩)

end Forest

theorem mem_joinFacts_iff {slot : Nat} {arguments : Option (List Value)} {left : Option Piece}
    {right : Piece} {d : Packing} : .packing d ∈ Piece.joinFacts slot arguments left right ↔
      ∃ l, left = some l ∧ d = ⟨.intermediate slot arguments l.left right.right, slot, l.right,
        some l, right⟩ := by
  cases left with
  | none => simp [Piece.joinFacts]
  | some l => simp [Piece.joinFacts, Piece.join]

namespace Parser

variable {μ : Type} [Matcher μ] {p : Parser μ} {g : Grammar μ}

/-! ## What is packed -/

/-- Only a thread behind a terminal packs something behind a part. -/
theorem packing_of_leadsTo {t : Thread} {k : Packing} (h : p.LeadsTo t (.packing k)) :
    (∃ terminal notes dest found l, (p.graph.slot t.slot).action = .scan terminal notes dest ∧
      p.scanned terminal notes t.position t.env = .ok (some found) ∧ t.part = some l ∧
      k = ⟨.intermediate dest t.call.arguments l.left found.1, dest, l.right, some l,
        .terminal terminal t.position found.1⟩) ∨
      k = ⟨p.whole t, t.slot, (p.child t).left, none, p.child t⟩ := by
  cases haction : (p.graph.slot t.slot).action with
  | scan terminal notes dest =>
    obtain ⟨found, hfound, hmem⟩ := (leadsTo_scan_iff haction).mp h
    rw [scanFacts, List.mem_cons, List.mem_cons] at hmem
    obtain ⟨l, hl, rfl⟩ :=
      mem_joinFacts_iff.mp ((hmem.resolve_left (by simp)).resolve_left (by simp))
    exact Or.inl ⟨terminal, notes, dest, found, l, rfl, hfound, hl, rfl⟩
  | call callee arguments notes dest =>
    obtain ⟨found, -, hmem⟩ := (leadsTo_call_iff haction).mp h
    unfold callFacts at hmem
    split at hmem <;> simp at hmem
  | branch condition ifTrue ifFalse =>
    obtain ⟨b, -, hmem⟩ := (leadsTo_branch_iff haction).mp h
    exact absurd hmem (by simp)
  | complete returns =>
    obtain ⟨value, -, hmem⟩ := (leadsTo_complete_iff haction).mp h
    exact Or.inr (by simpa [completeFacts] using hmem)

/-- A caller that goes on packs the result behind its part. -/
theorem packing_of_resumesTo {key : Stack.Key} {c : Caller} {right : Nat} {value : Option Value}
    {k : Packing} (h : p.ResumesTo key c right value (.packing k)) :
    ∃ callee arguments notes dest env l,
      (p.graph.slot c.slot).action = .call callee arguments notes dest ∧
      p.resumed notes dest key.position right value c.env = .ok (some env) ∧ c.part = some l ∧
      k = ⟨.intermediate dest c.call.arguments l.left right, dest, l.right, some l,
        resultPiece key right⟩ := by
  cases haction : (p.graph.slot c.slot).action with
  | call callee arguments notes dest =>
    obtain ⟨env, hresumed, hmem⟩ := (resumesTo_iff haction).mp h
    rw [resumeFacts, List.mem_cons] at hmem
    obtain ⟨l, hl, rfl⟩ := mem_joinFacts_iff.mp (hmem.resolve_left (by simp))
    exact ⟨callee, arguments, notes, dest, env, l, rfl, hresumed, hl, rfl⟩
  | scan | branch | complete =>
    obtain ⟨facts, hresume, hf⟩ := h
    rw [Parser.resume, haction] at hresume
    obtain rfl := Except.ok.inj hresume
    exact absurd hf List.not_mem_nil

/-- Parts of rules are packed with a left part. -/
theorem left_ne_none_of_entails {k : Packing} (h : p.Entails (.packing k)) {slot left right : Nat}
    {arguments : Option (List Value)} (hk : k.parent = .intermediate slot arguments left right) :
    k.left ≠ none := by
  cases h with
  | move _ hmove hf =>
    rcases packing_of_leadsTo ⟨_, hmove, hf⟩ with ⟨_, _, _, _, l, -, -, -, rfl⟩ | rfl
    · exact Option.some_ne_none l
    · exact absurd hk (by simp [whole])
  | resume _ _ hresume hf =>
    obtain ⟨_, _, _, _, _, l, -, -, -, rfl⟩ := packing_of_resumesTo ⟨_, hresume, hf⟩
    exact Option.some_ne_none l

/-! ## Combinations of a parse -/

/-- **The combinations that a parse has made** when it is in a state. -/
inductive Combined (p : Parser μ) : State → Combination → Prop where
  /-- A caller goes on with a result, whichever of the two came first. -/
  | resumed {log : List Descriptor} {s : State} {id dest x : Nat} {v : Stack.Node}
      {e : Stack.Edge} {q : Stack.Popped} {env : Environment} {key : Stack.Key} :
      p.Reaches log s → s.stack.nodes[id]? = some v → p.GoesOn v e q dest env →
      s.stack.call? e.dest = some key → e.node = some x → Combined p s ⟨dest, key, x, q.node⟩
  /-- A thread goes on behind a terminal. -/
  | scanned {log : List Descriptor} {s s' : State} {d d' : Descriptor} {terminal dest x y : Nat}
      {notes : Annotations μ} {key : Stack.Key} :
      p.Reaches log s → s.running = some d →
      (p.graph.slot d.slot).action = .scan terminal notes dest → p.step s = .ok true s' →
      s'.running = some d' → s'.stack.call? d.stackNode = some key → d.forestNode = some x →
      s'.forest.lookup ⟨.terminal terminal, d.position, d'.position⟩ = some y →
      Combined p s' ⟨dest, key, x, y⟩
  /-- It was made before. -/
  | later {s s' : State} {c : Combination} :
      Combined p s c → p.step s = .ok true s' → Combined p s' c

theorem Combined.reaches {s : State} {c : Combination} (h : p.Combined s c) :
    ∃ log, p.Reaches log s := by
  induction h with
  | resumed hreaches => exact ⟨_, hreaches⟩
  | scanned hreaches _ _ hstep => exact ⟨_, .step hreaches hstep⟩
  | later _ hstep ih =>
    obtain ⟨log, hreaches⟩ := ih
    exact ⟨_, .step hreaches hstep⟩

/-! ## Steps -/

/-- A step without a running thread delivers the next descriptor. -/
theorem taken_of_step {s s' : State} (hrunning : s.running = none)
    (hstep : p.step s = .ok true s') : ∃ d agenda reach, s.agenda.take = some (d, agenda) ∧
      s' = { s with agenda, running := some d, furthest := reach } := by
  have hends : Ends p.step s (fun more s' => more = true → ∃ d agenda reach,
      s.agenda.take = some (d, agenda) ∧
        s' = { s with agenda, running := some d, furthest := reach }) fun _ => True := by
    unfold step
    refine ends_bind (ends_get ?_)
    rw [hrunning]
    dsimp only
    cases s.agenda.take with
    | none => exact ends_pure fun h => absurd h (by simp)
    | some next => exact ends_bind (ends_set (ends_bind (ends_record fun reach =>
        ends_pure fun _ => ⟨next.1, next.2, reach, rfl, rfl⟩)))
  unfold Ends at hends
  rw [hstep] at hends
  exact hends rfl

section

variable {s s' : State} {t : Thread}

/-- What follows from where a thread was is known after its move. -/
theorem Advanced.covers (h : p.Advanced t s s') {f : Fact} (hf : p.LeadsTo t f)
    (hpassed : ∀ t', f ≠ .passed t') : s'.Covers f := by
  obtain ⟨facts, hmove, hfacts⟩ := h.found
  obtain ⟨facts', hmove', hmem⟩ := hf
  obtain rfl := Except.ok.inj (hmove.symm.trans hmove')
  rcases hfacts f hmem with hcovers | ⟨_, t', rfl, -⟩
  · exact hcovers
  · exact absurd rfl (hpassed t')

variable {terminal dest : Nat} {notes : Annotations μ}
  (haction : (p.graph.slot t.slot).action = .scan terminal notes dest)

include haction

/-- A thread that goes on after a move at a terminal is behind a match. -/
theorem Advanced.exists_scanned (h : p.Advanced t s s') {d' : Descriptor}
    (hrunning : s'.running = some d') : ∃ found,
      p.scanned terminal notes t.position t.env = .ok (some found) ∧ d'.position = found.1 := by
  obtain ⟨t', ht', hleads⟩ := h.running d' hrunning
  obtain ⟨found, hfound, hf⟩ := (leadsTo_scan_iff haction).mp hleads
  refine ⟨found, hfound, (State.thread?_eq_some_iff.mp ht').2.1.trans ?_⟩
  rw [scanFacts, List.mem_cons, List.mem_cons] at hf
  rcases hf with hf | hf | hf
  · rw [Fact.passed.inj hf]
  · exact absurd hf (by simp)
  · exact (Piece.ofForest_joinFacts hf).elim

/-- A thread that finds a match goes on behind it. -/
theorem Advanced.running_of_scanned (h : p.Advanced t s s') {found : Nat × Environment}
    (hfound : p.scanned terminal notes t.position t.env = .ok (some found)) :
    ∃ d', s'.running = some d' ∧ d'.position = found.1 := by
  obtain ⟨facts, hmove, hfacts⟩ := h.found
  obtain ⟨facts', hmove', hmem⟩ := (leadsTo_scan_iff haction).mpr ⟨found, hfound,
    List.mem_cons_self⟩
  obtain rfl := Except.ok.inj (hmove.symm.trans hmove')
  rcases hfacts _ hmem with hcovers | ⟨d', t', htook, hrunning, ht'⟩
  · exact (hcovers.shows (by simp)).elim
  · refine ⟨d', hrunning, (State.thread?_eq_some_iff.mp ht').2.1.trans ?_⟩
    rw [← Fact.passed.inj htook]

end

section

variable [DecidableEq μ] (hg : SlotGraph.ofGrammar g = .ok p.graph)

include hg

/-- A step of the running thread is its move. -/
theorem Reached.advanced {ran : Thread → Prop} {log : List Descriptor} {s s' : State}
    {d : Descriptor} (h : p.Reached ran log s) (hrunning : s.running = some d)
    (hstep : p.step s = .ok true s') :
    ∃ t, s.thread? d = some t ∧ ran t ∧ p.Advanced t s s' := by
  obtain ⟨t, ht, hends⟩ := h.moves hg hrunning
  have hends : Ends p.step s (fun _ s' => p.Advanced t s s') fun _ => p.Faulty := by
    unfold step
    refine ends_bind (ends_get ?_)
    rw [hrunning]
    exact ends_bind (hends.imp (fun _ _ hadv => ends_pure hadv) fun _ h => h)
  unfold Ends at hends
  rw [hstep] at hends
  obtain ⟨t₀, ht₀, hran⟩ := h.running hrunning
  obtain rfl := Option.some.inj (ht.symm.trans ht₀)
  exact ⟨t, ht, hran, hends⟩

/-- What can be read in a state is read alike after a step. -/
theorem Reached.extends_step {ran : Thread → Prop} {log : List Descriptor} {s s' : State}
    (h : p.Reached ran log s) (hstep : p.step s = .ok true s') : s.Extends s' := by
  cases hrunning : s.running with
  | some d =>
    obtain ⟨t, -, -, hadv⟩ := h.advanced hg hrunning hstep
    exact hadv.extend
  | none =>
    obtain ⟨d, agenda, reach, htake, rfl⟩ := taken_of_step hrunning hstep
    have hrest : s.Adds { s with agenda, running := some d, furthest := reach } [] :=
      h.coherent.wf.adds_rest rfl rfl (Agenda.take_eq_some htake).2
    exact hrest.extend

/-- **A combination that was made is a derivation that the parse is entitled to,** and one with its
key is stored. -/
theorem Combined.covers {s : State} {c : Combination} (h : p.Combined s c) :
    ∃ k, s.forest.combination? c = some k ∧ s.Covers (.packing k) ∧ p.Entails (.packing k) := by
  induction h with
  | @resumed log s id dest x v e q env key hreaches hv hgoes hkey hx =>
    obtain ⟨ran, hreached⟩ := hreaches.reached hg
    have hs := hreached.coherent
    have hedge := (hs.wf.stack.hasEdge_iff hv).mpr hgoes.edge
    have hresult := (hs.wf.stack.hasResult_iff hv).mpr hgoes.result
    obtain ⟨c, hc⟩ := hs.wf.callers hedge
    obtain ⟨hcall, hslot, hpart, henv⟩ := State.caller?_eq_some_iff.mp hc
    obtain rfl := Option.some.inj (hkey.symm.trans hcall)
    rw [hx] at hpart
    obtain ⟨l, hl, hpart⟩ := Option.map_eq_some_iff.mp hpart
    -- the caller has met the result
    have hresume := hgoes.resume_eq hslot henv
    obtain ⟨facts, hresume', hfacts⟩ := hs.met ⟨e, hedge, hc⟩ ⟨q, hresult, rfl, rfl⟩
    obtain rfl := Except.ok.inj (hresume.symm.trans hresume')
    have hmem : .packing ⟨.intermediate dest c.call.arguments l.left q.right, dest, l.right, some l,
        resultPiece v.key q.right⟩ ∈ resumeFacts v.key c q.right dest env :=
      List.mem_cons_of_mem _ (mem_joinFacts_iff.mpr ⟨l, hpart.symm, rfl⟩)
    exact ⟨_, Forest.combination?_eq_some_iff.mpr ⟨l, _, hl, hs.wf.results hresult, rfl⟩,
      hfacts _ hmem,
      .resume (hs.sound ⟨e, hedge, hc⟩) (hs.sound ⟨q, hresult, rfl, rfl⟩) hresume hmem⟩
  | @scanned log s s' d d' terminal dest x y notes key hreaches hrunning haction hstep hrunning'
      hkey hx hy =>
    obtain ⟨ran, hreached⟩ := hreaches.reached hg
    obtain ⟨t, ht, hran, hadv⟩ := hreached.advanced hg hrunning hstep
    obtain ⟨hslot, hpos, hcall, hpart, -⟩ := State.thread?_eq_some_iff.mp ht
    obtain rfl := Option.some.inj (hkey.symm.trans (hadv.extend.call? hcall))
    rw [hx] at hpart
    obtain ⟨l, hl, hpart⟩ := Option.map_eq_some_iff.mp hpart
    rw [hslot] at haction
    obtain ⟨found, hfound, hposition⟩ := hadv.exists_scanned haction hrunning'
    rw [hpos, hposition] at hy
    have hleaf : s'.forest.piece? y = some (.terminal terminal t.position found.1) :=
      (hadv.coherent.wf.forest.lookup_of_piece? rfl).mp hy
    have hmem : .packing ⟨.intermediate dest t.call.arguments l.left found.1, dest, l.right, some l,
        .terminal terminal t.position found.1⟩ ∈ scanFacts t terminal dest found :=
      List.mem_cons_of_mem _ (List.mem_cons_of_mem _ (mem_joinFacts_iff.mpr ⟨l, hpart.symm, rfl⟩))
    have hleads := (leadsTo_scan_iff haction).mpr ⟨found, hfound, hmem⟩
    exact ⟨_, Forest.combination?_eq_some_iff.mpr ⟨l, _, hadv.extend.forest.piece? hl, hleaf, rfl⟩,
      hadv.covers hleads (by simp), (hreached.entailed hran).of_leadsTo hleads⟩
  | later hcombined hstep ih =>
    obtain ⟨k, hk, hcovers, hentails⟩ := ih
    obtain ⟨log, hreaches⟩ := hcombined.reaches
    obtain ⟨ran, hreached⟩ := hreaches.reached hg
    have hext := hreached.extends_step hg hstep
    exact ⟨k, hext.forest.combination? hk, hext.covers hcovers, hentails⟩

/-- Of every combination a derivation is packed with its slot and its pivot. -/
theorem Combined.packedFor {s : State} {c : Combination} (h : p.Combined s c) :
    ∃ k, s.forest.PackedFor c k := by
  obtain ⟨log, hreaches⟩ := h.reaches
  obtain ⟨ran, hreached⟩ := hreaches.reached hg
  have hwf := hreached.coherent.wf.forest
  obtain ⟨d, hd, hcovers, -⟩ := h.covers hg
  rcases hcovers with ⟨i, k, hk, hread⟩ | ⟨d₀, d', heq, hkey, i, k, hk, hread⟩
  · exact ⟨k, hwf.packedFor_of_key hd rfl hk hread⟩
  · obtain rfl := Fact.packing.inj heq
    exact ⟨k, hwf.packedFor_of_key hd hkey hk hread⟩

/-! ## What has run was combined -/

/-- What follows from a thread's being at its slot, and packs something behind a part, was
combined. -/
def Recorded (p : Parser μ) (s : State) (t : Thread) : Prop :=
  ∀ k, p.LeadsTo t (.packing k) → k.left ≠ none →
    ∃ c, p.Combined s c ∧ s.forest.combination? c = some k

omit [DecidableEq μ] hg in
theorem Recorded.step {s s' : State} {t : Thread} (h : p.Recorded s t)
    (hstep : p.step s = .ok true s') (hext : s.Extends s') : p.Recorded s' t := by
  intro k hk hleft
  obtain ⟨c, hc, hread⟩ := h k hk hleft
  exact ⟨c, .later hc hstep, hext.forest.combination? hread⟩

omit [DecidableEq μ] hg in
/-- **A move is recorded.** -/
theorem Advanced.recorded {log : List Descriptor} {s s' : State} {d : Descriptor} {t : Thread}
    (h : p.Advanced t s s') (hreaches : p.Reaches log s) (hrunning : s.running = some d)
    (ht : s.thread? d = some t) (hstep : p.step s = .ok true s') : p.Recorded s' t := by
  intro k hk hleft
  obtain ⟨hslot, hpos, hcall, hpart, -⟩ := State.thread?_eq_some_iff.mp ht
  rcases packing_of_leadsTo hk with
    ⟨terminal, notes, dest, found, l, haction, hfound, hl, rfl⟩ | rfl
  · -- the leaf is there, and the thread goes on behind it
    obtain ⟨d', hrunning', hposition⟩ := h.running_of_scanned haction hfound
    have hleads : p.LeadsTo t (.piece (.terminal terminal t.position found.1)) :=
      (leadsTo_scan_iff haction).mpr ⟨found, hfound, List.mem_cons_of_mem _ List.mem_cons_self⟩
    obtain ⟨y, hy⟩ := (h.covers hleads (by simp)).shows (by simp)
    have hspan : s'.forest.pieceOf? ⟨.terminal terminal, d.position, d'.position⟩
        = some (.terminal terminal t.position found.1) := by
      rw [hposition, hpos]
      rfl
    have hlookup := (h.coherent.wf.forest.lookup_of_piece? hspan).mpr hy
    rcases Forest.part?_eq_some_iff.mp hpart with ⟨-, hnone⟩ | ⟨x, w, hx, hw, hpiece⟩
    · exact absurd (hl.symm.trans hnone) (by simp)
    obtain rfl := Option.some.inj (hl.symm.trans hw)
    exact ⟨⟨dest, t.call, x, y⟩, .scanned hreaches hrunning (hslot ▸ haction) hstep hrunning'
      (h.extend.call? hcall) hx hlookup,
      Forest.combination?_eq_some_iff.mpr ⟨l, _, h.extend.forest.piece? hpiece, hy, rfl⟩⟩
  · exact absurd rfl hleft

/-- **The moves of all threads that ran were recorded,** but for that of the running one. -/
theorem Reaches.recorded {log : List Descriptor} {s : State} (h : p.Reaches log s) :
    ∃ ran, p.Reached ran log s ∧ ∀ t, ran t →
      (∃ d, s.running = some d ∧ s.thread? d = some t) ∨ p.Recorded s t := by
  induction h with
  | begin hbegin =>
    have hends := ends_begin (p := p) (E := fun _ => True)
    unfold Ends at hends
    rw [hbegin] at hends
    exact ⟨_, hends, fun t h => h.elim⟩
  | @step log s s' hreaches hstep ih =>
    obtain ⟨ran, hreached, hrecorded⟩ := ih
    have hext := hreached.extends_step hg hstep
    unfold State.delivers
    cases hrunning : s.running with
    | some d =>
      obtain ⟨t, ht, -, hadv⟩ := hreached.advanced hg hrunning hstep
      rw [List.append_nil]
      refine ⟨_, hreached.advance hrunning ht hadv, fun t' ht' => ?_⟩
      rcases ht' with ht' | ht'
      · rcases hrecorded t' ht' with ⟨d', hd', hthread⟩ | hrecorded
        · -- this is the thread that has moved
          obtain rfl := Option.some.inj (hrunning.symm.trans hd')
          obtain rfl := Option.some.inj (ht.symm.trans hthread)
          exact Or.inr (hadv.recorded hreaches hrunning ht hstep)
        · exact Or.inr (hrecorded.step hstep hext)
      · exact Or.inl ht'
    | none =>
      obtain ⟨d, agenda, reach, htake, rfl⟩ := taken_of_step hrunning hstep
      rw [htake]
      refine ⟨_, hreached.take hrunning htake, fun t' ht' => ?_⟩
      rcases ht' with ht' | ht'
      · rcases hrecorded t' ht' with ⟨d', hd', -⟩ | hrecorded
        · exact absurd (hrunning.symm.trans hd') (by simp)
        · exact Or.inr (hrecorded.step hstep hext)
      · exact Or.inl ⟨d, rfl, hext.thread? ht'⟩

/-- **What a parse at rest is entitled to pack behind a part, it has combined.** -/
theorem Reaches.exists_combined {log : List Descriptor} {s : State} (h : p.Reaches log s)
    (hrest : s.AtRest) {k : Packing} (hk : p.Entails (.packing k)) (hleft : k.left ≠ none) :
    ∃ c, p.Combined s c ∧ s.forest.combination? c = some k := by
  obtain ⟨ran, hreached, hrecorded⟩ := h.recorded hg
  have hs := hreached.coherent
  cases hk with
  | @move t facts _ ht hmove hf =>
    rcases hreached.knows hrest ht with hcovers | ⟨t', heq, hran⟩
    · exact (hcovers.shows (by simp)).elim
    · obtain rfl := Fact.passed.inj heq
      rcases hrecorded t hran with ⟨d, hd, -⟩ | hrecorded
      · exact absurd (hrest.1.symm.trans hd) (by simp)
      · exact hrecorded k ⟨facts, hmove, hf⟩ hleft
  | @resume key c right value facts _ hawaited hresult hresume hf =>
    obtain ⟨e, ⟨id, v, hv, rfl, he⟩, hc⟩ := hreached.shows hrest hawaited (by simp) (by simp)
    obtain ⟨q, hq, rfl, rfl⟩ := hreached.shows hrest hresult (by simp) (by simp)
    have hpiece := hs.wf.results hq
    obtain ⟨id', v', hv', hkey, hq⟩ := hq
    obtain rfl := hs.wf.stack.node_eq hv hv' hkey
    obtain ⟨hcall, hslot, hpart, henv⟩ := State.caller?_eq_some_iff.mp hc
    obtain ⟨callee, arguments, notes, dest, env, l, haction, hresumed, hl, rfl⟩ :=
      packing_of_resumesTo ⟨facts, hresume, hf⟩
    obtain ⟨rfl, hpost, hadmits⟩ := resumed_eq_some_iff.mp hresumed
    rw [← henv] at hpost
    have hgoes : p.GoesOn v' e q dest (notes.bindReturn q.value q.right e.env) :=
      ⟨he, hq, ⟨callee, arguments, notes, hslot ▸ haction, rfl, hpost⟩, hadmits⟩
    rcases Forest.part?_eq_some_iff.mp hpart with ⟨-, hnone⟩ | ⟨x, w, hx, hw, hpiece'⟩
    · exact absurd (hl.symm.trans hnone) (by simp)
    obtain rfl := Option.some.inj (hl.symm.trans hw)
    exact ⟨⟨dest, c.call, x, q.node⟩, .resumed h hv hgoes hcall hx,
      Forest.combination?_eq_some_iff.mpr ⟨l, _, hpiece', hpiece, rfl⟩⟩

/-- **Of every combination a derivation is packed with its slot and its pivot.** A parse at rest
holds all combinations exactly if no two different ones have the same key; in a simple grammar every
state does. -/
theorem combined_packed :
    (∀ s c, p.Combined s c → ∃ k, s.forest.PackedFor c k) ∧
      (∀ log s, p.Reaches log s → s.AtRest →
        ((∀ c, p.Combined s c → s.forest.Holds c) ↔
          ∀ c c', p.Combined s c → p.Combined s c' → s.forest.SameKey c c' →
            c.left = c'.left ∧ c.right = c'.right)) ∧
      (g.IsSimple → ∀ s c, p.Combined s c → s.forest.Holds c) := by
  refine ⟨fun s c hc => hc.packedFor hg, fun log s hreaches hrest => ?_, fun hsimple s c hc => ?_⟩
  · obtain ⟨ran, hreached⟩ := hreaches.reached hg
    have hs := hreached.coherent
    have hwf := hs.wf.forest
    constructor
    · intro hall c c' hc hc' hsame
      obtain ⟨k, hk, -⟩ := hc.covers hg
      obtain ⟨k', hk', -⟩ := hc'.covers hg
      obtain ⟨i, m, hm, hread, hleft, hright⟩ := hwf.shows_of_holds hk (hall c hc)
      obtain ⟨j, m', hm', hread', hleft', hright'⟩ := hwf.shows_of_holds hk' (hall c' hc')
      rw [Forest.SameKey, hk, hk', Option.map_some, Option.map_some] at hsame
      -- packed nodes with one key are one
      obtain rfl := (hreached.settled hrest).packed_inj hm hm' hread hread' (Option.some.inj hsame)
      obtain rfl := Option.some.inj (hm.symm.trans hm')
      exact ⟨Option.some.inj (hleft.symm.trans hleft'), hright.symm.trans hright'⟩
    · intro hkeys c hc
      obtain ⟨k, hk, hcovers, -⟩ := hc.covers hg
      rcases hcovers with hshows | ⟨k₀, k', heq, hkey, hshows⟩
      · exact hwf.holds_of_shows hk hshows
      · obtain rfl := Fact.packing.inj heq
        -- the derivation that is stored instead was combined as well
        have hparent := (congrArg Prod.fst hkey).trans (Forest.parent_of_combination? hk)
        have hleft := left_ne_none_of_entails (hs.sound hshows) hparent
        obtain ⟨c', hc', hk'⟩ := hreaches.exists_combined hg hrest (hs.sound hshows) hleft
        have hsame : s.forest.SameKey c' c := by
          rw [Forest.SameKey, hk, hk', Option.map_some, Option.map_some, hkey]
        obtain ⟨hl, hr⟩ := hkeys c' c hc' hc hsame
        obtain rfl := Forest.combination?_inj hk' hk hkey hl hr
        exact hwf.holds_of_shows hk hshows
  · obtain ⟨log, hreaches⟩ := hc.reaches
    obtain ⟨ran, hreached⟩ := hreaches.reached hg
    have hs := hreached.coherent
    obtain ⟨k, hk, hcovers, hentails⟩ := hc.covers hg
    refine hs.wf.forest.holds_of_shows hk ?_
    rcases hcovers with hshows | ⟨k₀, k', heq, hkey, hshows⟩
    · exact hshows
    · obtain rfl := Fact.packing.inj heq
      have hsame := Placed.key_inj hg (inPlace_of_entails hg hsimple (hs.sound hshows))
        (inPlace_of_entails hg hsimple hentails) hkey
      exact hsame ▸ hshows

end

end Parser

/-- What comes behind an `A` depends on which of its alternatives was taken. -/
def picks : Grammar RunMatcher where
  name := "picks"
  start := "S"
  rules :=
    [⟨"S", [.call "A" [] { label := some "x" }, .call "B" [.var "x"] {}], none⟩,
      ⟨"A", [.terminal (.char 'a') {}], some (.const (.int 1))⟩,
      ⟨"A", [.terminal (.char 'a') {}], some (.const (.int 2))⟩,
      ⟨"B", [.terminal (.char 'b') {}], none⟩]
  parameters := [("B", ["n"])]

/-- The parser for picks. -/
def pickParser (text : String) : Parser RunMatcher :=
  { graph := SlotGraph.compile picks, input := .ofString text }

theorem ofGrammar_picks (text : String) :
    SlotGraph.ofGrammar picks = .ok (pickParser text).graph :=
  SlotGraph.ofGrammar_eq_ok_iff.mpr ⟨by decide +kernel, rfl⟩

/-- Behind the only `A` of the text there is a `B` for each of its two values, over the same letter.
The parse goes on with either, but packs the first. -/
theorem exists_not_holds_picks : ∃ log s c, (pickParser "ab").EndsIn 100 log s ∧
    (pickParser "ab").Combined s c ∧ ¬s.forest.Holds c := by
  have hg := ofGrammar_picks "ab"
  have hforest : ((pickParser "ab").parse 100).verdict.toOption.any (Verdict.succeedsWith fun _ f =>
      f.packed.all fun k => ¬(k.left = some 1 ∧ k.right = 6)) := by decide +kernel
  obtain ⟨root, f, hv, hnone⟩ := Verdict.exists_of_succeedsWith hforest
  obtain ⟨log, s, hends, -, rfl⟩ := Parser.endsIn_of_success hg hv
  have hstack : ((pickParser "ab").parse 100).stack = s.stack := congrArg Report.stack hends.report
  -- the caller of `B(2)` and its result
  let env : Environment := ⟨.frames, [[("x", .int 2), ("x.rExt", .int 1)], [("x.lExt", .int 0)]]⟩
  let e : Stack.Edge := ⟨0, 1, some 1, env⟩
  let q : Stack.Popped := ⟨6, 2, none⟩
  let v : Stack.Node := ⟨⟨2, 1, some [.int 2]⟩, [], [e], [q]⟩
  have hnode : s.stack.nodes[3]? = some v := by
    rw [← hstack]
    decide +kernel
  have hkey : s.stack.call? e.dest = some ⟨0, 0, none⟩ := by
    rw [← hstack]
    decide +kernel
  have haction : ((pickParser "ab").graph.slot 1).action = .call 2 [.var "x"] {} 2 := by
    decide +kernel
  have hgoes : (pickParser "ab").GoesOn v e q 2 env :=
    ⟨by simp [v, Stack.Node.edges], by simp [v],
      ⟨_, _, _, haction, rfl, fun _ h => absurd h List.not_mem_nil⟩, by decide +kernel⟩
  refine ⟨log, s, ⟨2, ⟨0, 0, none⟩, 1, 6⟩, hends, .resumed hends.reaches hnode hgoes hkey rfl, ?_⟩
  rintro ⟨k, ⟨-, -, -, n, -, -, -, -, ⟨i, -, hk⟩, -⟩, hleft, hright⟩
  have hk := Array.all_eq_true_iff_forall_mem.mp hnone k (Array.mem_of_getElem? hk)
  simp [hleft, hright] at hk

/-- The two combinations have one key, so not both are packed. -/
theorem combined_packed_picks :
    SlotGraph.ofGrammar picks = .ok (pickParser "ab").graph ∧
      ∃ log s c c', (pickParser "ab").EndsIn 100 log s ∧ (pickParser "ab").Combined s c ∧
        (pickParser "ab").Combined s c' ∧ s.forest.SameKey c c' ∧
        ¬(c.left = c'.left ∧ c.right = c'.right) := by
  have hg := ofGrammar_picks "ab"
  obtain ⟨log, s, c, hends, hc, hlost⟩ := exists_not_holds_picks
  have hiff := (Parser.combined_packed hg).2.1 log s hends.reaches hends.atRest
  by_contra hnone
  refine hlost (hiff.mpr (fun c c' hc hc' hsame => ?_) c hc)
  by_contra hne
  exact hnone ⟨hg, log, s, c, c', hends, hc, hc', hsame, hne⟩

/-- **A combination may be lost.** -/
theorem combination_lost : SlotGraph.ofGrammar picks = .ok (pickParser "ab").graph ∧
    ¬∀ s c, (pickParser "ab").Combined s c → s.forest.Holds c := by
  obtain ⟨-, s, c, -, hc, hlost⟩ := exists_not_holds_picks
  exact ⟨ofGrammar_picks "ab", fun hall => hlost (hall s c hc)⟩

end GeneralLL
