import GeneralLL.Proofs.Fact
import GeneralLL.Proofs.Layout

/-!
# What the facts mean

The facts that a parse is entitled to are about derivations, and they tell of all of
them:

* **Soundness.** A thread is on track: whatever the symbols that are left at its slot lead
  to, its rule leads to as well (`OnTrack`). So a result is a derivation (`meant_of_entails`).
* **Completeness.** A thread passes through whatever the symbols that are left lead to,
  up to the end of its rule (`Entails.pass`). Lookahead is no obstacle, because it
  admits all that can be derived.

Together: a call has exactly the results that its nonterminal derives
(`meant_of_entails`, `Entails.complete`), and the start symbol has a piece for the whole
text exactly if the text is in the language (`entails_root_iff`).
-/

namespace GeneralLL

open SlotGraph

namespace Parser

variable {μ : Type} [DecidableEq μ] [Matcher μ] {p : Parser μ} {g : Grammar μ}

/-! ## Soundness -/

/-- A slot of a rule with the symbols that are left there. -/
structure Left (p : Parser μ) (g : Grammar μ) (k : Nat) (r : Rule μ) (slot : Nat)
    (symbols : List (Symbol μ)) : Prop where
  /-- The rule is one of the grammar. -/
  rule : g.rules[k]? = some r
  /-- From the slot on, the graph leads over the symbols to the end of the rule. -/
  awaits : Awaits p.graph (.ofGrammar g) (ownerOf g k r) slot symbols
  /-- The symbols are what is left of the body, with branches in place of conditionals. -/
  remainder : Remainder r.body symbols

/-- Whatever symbols lead to from a place, the rule leads to from the start of its call. -/
def LeadOn (p : Parser μ) (g : Grammar μ) (k : Nat) (r : Rule μ) (call : Stack.Key)
    (symbols : List (Symbol μ)) (env : Environment) (i : Nat) : Prop :=
  call.nonterminal = (ownerOf g k r).head ∧
    ∀ env' j, p.Passes g symbols env i env' j →
      p.Passes g r.body (p.entry g r.head call.arguments) call.position env' j

/-- The nonterminal of a call derives a result. -/
def Results (p : Parser μ) (g : Grammar μ) (key : Stack.Key) (right : Nat)
    (value : Option Value) : Prop :=
  p.Derives g (p.graph.nonterminalName key.nonterminal) key.arguments key.position right value

/-- A piece of a nonterminal is there because of a derivation. -/
def Derived (p : Parser μ) (g : Grammar μ) : Piece → Prop
  | .nonterminal id arguments left right => ∃ value, p.Results g ⟨id, left, arguments⟩ right value
  | _ => True

/-- A thread is on the way through a rule of its call. -/
def OnTrack (p : Parser μ) (g : Grammar μ) (t : Thread) : Prop :=
  (∀ w ∈ t.part, p.Derived g w) ∧
    ∃ k r symbols, p.Left g k r t.slot symbols ∧ p.LeadOn g k r t.call symbols t.env t.position

/-- A caller waits inside a rule of its own call. -/
def Waiting (p : Parser μ) (g : Grammar μ) (key : Stack.Key) (c : Caller) : Prop :=
  (∀ w ∈ c.part, p.Derived g w) ∧
    ∃ k r name arguments notes rest, p.Left g k r c.slot (.call name arguments notes :: rest) ∧
      p.graph.nonterminalName key.nonterminal = name ∧
      ∀ value right, p.Derives g name key.arguments key.position right value →
        p.AllHold notes.post key.position right (notes.bindReturn value right c.env) →
        p.LeadOn g k r c.call rest (notes.bindReturn value right c.env) right

/-- What the facts mean in terms of the grammar. -/
def Meant (p : Parser μ) (g : Grammar μ) : Fact → Prop
  | .called key => key.nonterminal < p.graph.nonterminals.size
  | .posted t | .passed t => p.OnTrack g t
  | .awaited key c => p.Waiting g key c
  | .result key right value => p.Results g key right value
  | .piece w => p.Derived g w
  | .packing _ => True

/-- What is added by joining parts means nothing more. -/
theorem meant_joinFacts {slot : Nat} {arguments : Option (List Value)} {left : Option Piece}
    {right : Piece} {f : Fact} (h : f ∈ Piece.joinFacts slot arguments left right) :
    p.Meant g f := by
  cases left with
  | none => exact absurd h List.not_mem_nil
  | some l =>
    simp only [Piece.joinFacts, Piece.join, List.mem_cons, List.not_mem_nil, or_false] at h
    rcases h with rfl | rfl <;> exact trivial

omit [DecidableEq μ] in
theorem derived_join {slot : Nat} {arguments : Option (List Value)} {left : Option Piece}
    {right : Piece} (h : p.Derived g right) :
    ∀ w ∈ some (Piece.join slot arguments left right), p.Derived g w := by
  intro w hw
  obtain rfl := Option.some.inj hw
  cases left with
  | none => exact h
  | some l => exact trivial

section

variable (hg : SlotGraph.ofGrammar g = .ok p.graph)

include hg

theorem closed_of_ofGrammar : g.Closed :=
  Grammar.closed_of_check (ofGrammar_eq_ok_iff.mp hg).1

theorem compile_eq : SlotGraph.compile g = p.graph := (ofGrammar_eq_ok_iff.mp hg).2

theorem get?_epsilon : p.graph.terminals.get? p.graph.epsilon = some .epsilon := by
  rw [← compile_eq hg]
  exact Numbering.get?_ofList_zero

/-- The alternatives of a call are the rules of its nonterminal that lookahead admits. -/
theorem mem_openings_iff {key : Stack.Key} {slot : Nat}
    (hkey : key.nonterminal < p.graph.nonterminals.size) :
    slot ∈ p.openings key ↔ ∃ k r, g.rules[k]? = some r ∧
      r.head = p.graph.nonterminalName key.nonterminal ∧ slot = SlotGraph.base g k ∧
      ((FirstFollow.ofGrammar g).lookahead r.head r.body).admits
        (p.input.symbolAt? key.position) := by
  have hgraph := compile_eq hg
  have hlook {k : Nat} {r : Rule μ} (hr : g.rules[k]? = some r) :
      (p.graph.slot (SlotGraph.base g k)).lookahead
        = (FirstFollow.ofGrammar g).lookahead r.head r.body := by
    obtain ⟨action, hslot, -⟩ := body_slot hr (Nat.zero_le _)
    rw [← hgraph, slot_eq (by simpa using hslot)]
    rfl
  rw [openings, List.mem_filter, ← hgraph, mem_firstSlots_iff (hgraph ▸ hkey), hgraph]
  constructor
  · intro h
    obtain ⟨⟨k, r, hr, hhead, rfl⟩, hadmits⟩ := h
    exact ⟨k, r, hr, hhead, rfl, hlook hr ▸ hadmits⟩
  · intro h
    obtain ⟨k, r, hr, hhead, rfl, hadmits⟩ := h
    exact ⟨⟨k, r, hr, hhead, rfl⟩, (hlook hr).symm ▸ hadmits⟩

theorem parametersOf_nonterminalName {id : Nat} (hid : id < p.graph.nonterminals.size) :
    g.parametersOf (p.graph.nonterminalName id) = (p.graph.nonterminal id).parameters := by
  rw [← compile_eq hg] at hid ⊢
  exact (parameters_eq hid).symm

/-- A call and the rules of its nonterminal start in the same environment. -/
theorem calleeEnvironment_eq {key : Stack.Key}
    (hkey : key.nonterminal < p.graph.nonterminals.size) :
    p.calleeEnvironment key.nonterminal key.arguments
      = p.entry g (p.graph.nonterminalName key.nonterminal) key.arguments := by
  rw [calleeEnvironment, entry, parametersOf_nonterminalName hg hkey]

/-- A rule is known by the number of its head. -/
theorem head_eq_of_name {k : Nat} {r : Rule μ} {id : Nat} (hr : g.rules[k]? = some r)
    (hid : id < p.graph.nonterminals.size) (h : r.head = p.graph.nonterminalName id) :
    id = (ownerOf g k r).head := by
  have hgraph := compile_eq hg
  obtain ⟨hlt, hname⟩ := head_ownerOf hr
  exact nonterminalName_inj (hgraph ▸ hid) hlt (by rw [hname, h, hgraph])

theorem nonterminalName_head {k : Nat} {r : Rule μ} (hr : g.rules[k]? = some r) :
    (ownerOf g k r).head < p.graph.nonterminals.size ∧
      p.graph.nonterminalName (ownerOf g k r).head = r.head :=
  compile_eq hg ▸ head_ownerOf hr

/-- A rule can be entered at its base. -/
theorem left_base {k : Nat} {r : Rule μ} (hr : g.rules[k]? = some r) :
    p.Left g k r (SlotGraph.base g k) r.body := by
  have hawaits := awaits_base (closed_of_ofGrammar hg) hr (Nat.zero_le _)
  rw [List.drop_zero, Nat.add_zero, compile_eq hg] at hawaits
  exact ⟨hr, hawaits, .whole⟩

/-- The arguments of a call in the graph are those in the grammar. -/
theorem argumentsFor_iff_passing {callee : Nat} {arguments : List Expr} {env : Environment}
    {values : Option (List Value)} (hcallee : callee < p.graph.nonterminals.size) :
    p.argumentsFor callee arguments env = .ok values ↔
      p.Passing g (p.graph.nonterminalName callee) arguments env values := by
  rw [argumentsFor_eq_ok_iff, Passing, parametersOf_nonterminalName hg hcallee]

/-- The end of a rule means a result. -/
theorem meant_completeFacts {t : Thread} {k : Nat} {r : Rule μ} {value : Option Value} {f : Fact}
    (hpart : ∀ w ∈ t.part, p.Derived g w) (hr : g.rules[k]? = some r)
    (hhead : (p.graph.slot t.slot).head = (ownerOf g k r).head)
    (hlead : p.LeadOn g k r t.call [] t.env t.position) (hvalue : p.Returning r t.env value)
    (hf : f ∈ p.completeFacts t value) : p.Meant g f := by
  have hresults : p.Results g t.call t.position value := by
    rw [Results, hlead.1, (nonterminalName_head hg hr).2]
    exact ⟨r, List.mem_of_getElem? hr, rfl, t.env, hlead.2 _ _ .nil, hvalue⟩
  simp only [completeFacts, List.mem_cons, List.not_mem_nil, or_false] at hf
  rcases hf with rfl | rfl | rfl | rfl
  · exact hresults
  · show p.Derived g (p.child t)
    unfold child
    cases h : t.part with
    | none => exact trivial
    | some w => exact hpart w h
  · refine ⟨value, ?_⟩
    rw [hhead, ← hlead.1]
    exact hresults
  · exact trivial

omit hg in
/-- A match of a terminal leads on along the rule. -/
theorem meant_scanFacts {t : Thread} {k id dest right : Nat} {r : Rule μ} {terminal : Terminal μ}
    {notes : Annotations μ} {rest : List (Symbol μ)} {f : Fact} (hleft : p.Left g k r dest rest)
    (hlead : p.LeadOn g k r t.call (.terminal terminal notes :: rest) t.env t.position)
    (hpre : p.AllHold notes.pre t.position t.position t.env)
    (hmatch : terminal.matchAt p.input t.position = some right)
    (hpost : p.AllHold notes.post t.position right
      (notes.bindScan p.input t.position right t.env))
    (hf : f ∈ scanFacts t id dest (right, notes.bindScan p.input t.position right t.env)) :
    p.Meant g f := by
  simp only [scanFacts, List.mem_cons] at hf
  rcases hf with rfl | rfl | hf
  · refine ⟨derived_join trivial, k, r, rest, hleft, hlead.1, ?_⟩
    exact fun env' j h => hlead.2 env' j (.terminal hpre hmatch hpost h)
  · exact trivial
  · exact meant_joinFacts hf

omit hg in
/-- A caller waits for what lets it go on along its rule. -/
theorem meant_callFacts {t : Thread} {k : Nat} {r : Rule μ} {name : String}
    {arguments : List Expr} {notes : Annotations μ} {rest : List (Symbol μ)} {key : Stack.Key}
    {f : Fact} (hpart : ∀ w ∈ t.part, p.Derived g w)
    (hleft : p.Left g k r t.slot (.call name arguments notes :: rest))
    (hlead : p.LeadOn g k r t.call (.call name arguments notes :: rest) t.env t.position)
    (hkey : key.nonterminal < p.graph.nonterminals.size)
    (hname : p.graph.nonterminalName key.nonterminal = name) (hposition : key.position = t.position)
    (hpre : p.AllHold notes.pre t.position t.position t.env)
    (hvalues : p.Passing g name arguments (notes.bindCall t.position t.env) key.arguments)
    (hf : f ∈ p.callFacts t (key, notes.bindCall t.position t.env)) : p.Meant g f := by
  unfold callFacts at hf
  split at hf
  · exact absurd hf List.not_mem_nil
  simp only [List.mem_cons, List.not_mem_nil, or_false] at hf
  rcases hf with rfl | rfl
  · exact hkey
  · refine ⟨hpart, k, r, name, arguments, notes, rest, hleft, hname,
      fun value right hderives hpost => ⟨hlead.1, fun env' j hrest => ?_⟩⟩
    obtain ⟨r', hr', hhead', inner, hbody, hreturning⟩ := hderives
    rw [hposition] at hbody hpost
    exact hlead.2 env' j (.call hpre hvalues hr' hhead' hbody hreturning hpost hrest)

/-- **A thread on track leads to threads on track,** and to what its rule means. -/
theorem meant_of_leadsTo {t : Thread} {f : Fact} (ht : p.OnTrack g t) (h : p.LeadsTo t f) :
    p.Meant g f := by
  obtain ⟨hpart, k, r, symbols, hleft, hlead⟩ := ht
  obtain ⟨hr, hawaits, hremainder⟩ := hleft
  cases hawaits with
  | complete hslot howns haction =>
    rw [← slot_eq hslot] at howns haction
    obtain ⟨value, hvalue, hf⟩ := (leadsTo_complete_iff haction).mp h
    exact meant_completeFacts hg hpart hr howns.1 hlead (returned_eq_ok_iff.mp hvalue) hf
  | @scan _ terminal dest _ _ notes rest hslot howns haction hterminal hdest =>
    rw [← slot_eq hslot] at haction
    obtain ⟨⟨right, env⟩, hscanned, hf⟩ := (leadsTo_scan_iff haction).mp h
    obtain ⟨hpre, hmatch, rfl, hpost⟩ := scanned_eq_some_iff.mp hscanned
    rw [SlotGraph.terminal, hterminal] at hmatch
    exact meant_scanFacts ⟨hr, hdest, hremainder.rest⟩ hlead hpre hmatch hpost hf
  | @call _ callee dest _ name arguments notes rest hslot howns haction hcallee hname hlook
      hdest =>
    have hleft : p.Left g k r t.slot (.call name arguments notes :: rest) :=
      ⟨hr, .call hslot howns haction hcallee hname hlook hdest, hremainder⟩
    rw [← slot_eq hslot] at haction
    obtain ⟨⟨key, env⟩, hcalling, hf⟩ := (leadsTo_call_iff haction).mp h
    obtain ⟨hpre, rfl, rfl, hposition, hvalues⟩ := calling_eq_some_iff.mp hcalling
    rw [argumentsFor_iff_passing hg hcallee, hname] at hvalues
    exact meant_callFacts hpart hleft hlead hcallee hname hposition hpre hvalues hf
  | @ifThen _ ifTrue ifFalse _ condition body notes rest hslot howns haction htrue hfalse =>
    rw [← slot_eq hslot] at haction
    obtain ⟨b, htruth, rfl⟩ := (leadsTo_branch_iff haction).mp h
    refine ⟨hpart, ?_⟩
    cases b with
    | true =>
      exact ⟨k, r, _, ⟨hr, htrue, hremainder.taken⟩, hlead.1,
        fun env' j h => hlead.2 env' j (.taken htruth h)⟩
    | false =>
      exact ⟨k, r, _, ⟨hr, hfalse, hremainder.rest⟩, hlead.1,
        fun env' j h => hlead.2 env' j (.skipped htruth h)⟩
  | @ifThenElse _ ifTrue ifFalse _ condition body otherwise notes rest hslot howns haction htrue
      hfalse =>
    rw [← slot_eq hslot] at haction
    obtain ⟨b, htruth, rfl⟩ := (leadsTo_branch_iff haction).mp h
    refine ⟨hpart, ?_⟩
    cases b with
    | true =>
      exact ⟨k, r, _, ⟨hr, htrue, hremainder.thenTaken⟩, hlead.1,
        fun env' j h => hlead.2 env' j (.thenTaken htruth h)⟩
    | false =>
      exact ⟨k, r, _, ⟨hr, hfalse, hremainder.elseTaken⟩, hlead.1,
        fun env' j h => hlead.2 env' j (.elseTaken htruth h)⟩

omit hg in
/-- A result lets a waiting caller go on along its rule. -/
theorem meant_of_resumesTo {key : Stack.Key} {c : Caller} {right : Nat} {value : Option Value}
    {f : Fact} (hc : p.Waiting g key c) (hresult : p.Results g key right value)
    (h : p.ResumesTo key c right value f) : p.Meant g f := by
  obtain ⟨hpart, k, r, name, arguments, notes, rest, ⟨hr, hawaits, hremainder⟩, hname, hlead⟩ := hc
  cases hawaits with
  | call hslot howns haction hcallee hcalleeName hlook hdest =>
    rw [← slot_eq hslot] at haction
    rw [resumesTo_iff haction] at h
    obtain ⟨env, hresumed, hf⟩ := h
    obtain ⟨rfl, hpost, hadmits⟩ := resumed_eq_some_iff.mp hresumed
    have hpiece : p.Derived g (resultPiece key right) := ⟨value, hresult⟩
    simp only [resumeFacts, List.mem_cons] at hf
    rcases hf with rfl | hf
    · exact ⟨derived_join hpiece, k, r, rest, ⟨hr, hdest, hremainder.rest⟩,
        hlead value right (hname ▸ hresult) hpost⟩
    · exact meant_joinFacts hf

/-- **Soundness.** What a parse finds out is true of the grammar. -/
theorem meant_of_entails {f : Fact} (h : p.Entails f) : p.Meant g f := by
  induction h with
  | start _ =>
    have hstart := (nonterminalName_start g).1
    rw [compile_eq hg] at hstart
    exact hstart
  | @opening key slot _ hslot hkey =>
    obtain ⟨k, r, hr, hhead, rfl, -⟩ := (mem_openings_iff hg hkey).mp hslot
    refine ⟨fun w hw => absurd hw (by simp [opening]), k, r, r.body, left_base hg hr,
      head_eq_of_name hg hr hkey hhead, ?_⟩
    intro env' j h
    rw [opening, calleeEnvironment_eq hg hkey, ← hhead] at h
    exact h
  | delivered _ ht => exact ht
  | move _ hmove hf ht => exact meant_of_leadsTo hg ht ⟨_, hmove, hf⟩
  | resume _ _ hresume hf hc hresult => exact meant_of_resumesTo hc hresult ⟨_, hresume, hf⟩

/-- A thread is inside a rule of the nonterminal that was called. -/
theorem head_eq_of_entails {t : Thread} (h : p.Entails (.passed t)) :
    (p.graph.slot t.slot).head = t.call.nonterminal := by
  obtain ⟨-, k, r, symbols, ⟨-, hawaits, -⟩, hcall, -⟩ := meant_of_entails hg h
  rw [hcall]
  cases hawaits with
  | complete hslot howns _ | scan hslot howns _ _ _ | call hslot howns _ _ _ _ _
  | ifThen hslot howns _ _ _ | ifThenElse hslot howns _ _ _ => rw [slot_eq hslot, howns.1]

/-! ## Completeness -/

omit hg in
/-- A thread goes on behind a terminal that matches. -/
theorem Entails.scan {t : Thread} {k right : Nat} {r : Rule μ} {terminal : Terminal μ}
    {notes : Annotations μ} {rest : List (Symbol μ)} (ht : p.Entails (.passed t))
    (hleft : p.Left g k r t.slot (.terminal terminal notes :: rest))
    (hpre : p.AllHold notes.pre t.position t.position t.env)
    (hmatch : terminal.matchAt p.input t.position = some right)
    (hpost : p.AllHold notes.post t.position right
      (notes.bindScan p.input t.position right t.env)) :
    ∃ id dest, p.graph.terminals.get? id = some terminal ∧ p.Left g k r dest rest ∧
      ∀ f ∈ scanFacts t id dest (right, notes.bindScan p.input t.position right t.env),
        p.Entails f := by
  obtain ⟨hr, hawaits, hremainder⟩ := hleft
  cases hawaits with
  | @scan _ id dest _ _ _ _ hslot howns haction hterminal hdest =>
    rw [← slot_eq hslot] at haction
    have hscanned := scanned_eq_some_iff.mpr
      ⟨hpre, by rwa [SlotGraph.terminal, hterminal], rfl, hpost⟩
    exact ⟨id, dest, hterminal, ⟨hr, hdest, hremainder.rest⟩,
      fun f hf => ht.of_leadsTo ((leadsTo_scan_iff haction).mpr ⟨_, hscanned, hf⟩)⟩

/-- A thread waits for a call that can be opened, and goes on with its results. -/
theorem Entails.call {t : Thread} {k : Nat} {r : Rule μ} {name : String} {arguments : List Expr}
    {notes : Annotations μ} {rest : List (Symbol μ)} {values : Option (List Value)}
    (ht : p.Entails (.passed t)) (hleft : p.Left g k r t.slot (.call name arguments notes :: rest))
    (hpre : p.AllHold notes.pre t.position t.position t.env)
    (hvalues : p.Passing g name arguments (notes.bindCall t.position t.env) values) :
    ∃ callee dest, callee < p.graph.nonterminals.size ∧ p.graph.nonterminalName callee = name ∧
      p.Left g k r dest rest ∧
      (p.openings ⟨callee, t.position, values⟩ ≠ [] →
        p.Entails (.called ⟨callee, t.position, values⟩)) ∧
      ∀ right value, p.Entails (.result ⟨callee, t.position, values⟩ right value) →
        p.AllHold notes.post t.position right
          (notes.bindReturn value right (notes.bindCall t.position t.env)) →
        ((FirstFollow.ofGrammar g).lookahead r.head rest).admits (p.input.symbolAt? right) →
        p.openings ⟨callee, t.position, values⟩ ≠ [] →
        ∀ f ∈ resumeFacts ⟨callee, t.position, values⟩
            ⟨t.call, t.slot, t.part, notes.bindCall t.position t.env⟩ right dest
            (notes.bindReturn value right (notes.bindCall t.position t.env)), p.Entails f := by
  obtain ⟨hr, hawaits, hremainder⟩ := hleft
  cases hawaits with
  | @call _ callee dest _ _ _ _ _ hslot howns haction hcallee hname hlook hdest =>
    rw [← slot_eq hslot] at haction
    let key : Stack.Key := ⟨callee, t.position, values⟩
    have hvalues : p.argumentsFor callee arguments (notes.bindCall t.position t.env)
        = .ok key.arguments :=
      (argumentsFor_iff_passing hg hcallee).mpr (hname.symm ▸ hvalues)
    have hcalling : p.calling callee arguments notes t.position t.env
        = .ok (some (key, notes.bindCall t.position t.env)) :=
      calling_eq_some_iff.mpr ⟨hpre, rfl, rfl, rfl, hvalues⟩
    have hfound {f : Fact} (hne : p.openings key ≠ []) (hf : f ∈ [.called key,
        .awaited key ⟨t.call, t.slot, t.part, notes.bindCall t.position t.env⟩]) : p.Entails f :=
      ht.of_leadsTo ((leadsTo_call_iff haction).mpr
        ⟨_, hcalling, by rwa [callFacts, if_neg hne]⟩)
    refine ⟨callee, dest, hcallee, hname, ⟨hr, hdest, hremainder.rest⟩,
      fun hne => hfound hne List.mem_cons_self, fun right value hresult hpost hadmits hne f hf => ?_⟩
    have hresumed := resumed_eq_some_iff.mpr ⟨rfl, hpost, hlook.symm ▸ hadmits⟩
    exact (hfound hne (List.mem_cons_of_mem _ (List.mem_singleton_self _))).of_resumesTo hresult
      ((resumesTo_iff haction).mpr ⟨_, hresumed, hf⟩)

omit hg in
/-- A thread at the end of its rule completes it. -/
theorem Entails.finish {t : Thread} {k : Nat} {r : Rule μ} {value : Option Value}
    (ht : p.Entails (.passed t)) (hleft : p.Left g k r t.slot [])
    (hvalue : p.Returning r t.env value) : ∀ f ∈ p.completeFacts t value, p.Entails f := by
  cases hleft.awaits with
  | complete hslot _ haction =>
    rw [← slot_eq hslot] at haction
    exact fun f hf => ht.of_leadsTo ((leadsTo_complete_iff haction).mpr
      ⟨value, returned_eq_ok_iff.mpr hvalue, hf⟩)

omit hg in
/-- A thread goes on in the branch that is taken. -/
theorem Entails.branch {t : Thread} {k : Nat} {r : Rule μ} {condition : Expr} {body : Symbol μ}
    {notes : Annotations μ} {rest : List (Symbol μ)} {b : Bool} (ht : p.Entails (.passed t))
    (hleft : p.Left g k r t.slot (.ifThen condition body notes :: rest))
    (htruth : p.evaluate.truth condition t.env = .ok b) :
    ∃ slot, p.Entails (.passed { t with slot }) ∧
      p.Left g k r slot (if b then body :: rest else rest) := by
  obtain ⟨hr, hawaits, hremainder⟩ := hleft
  cases hawaits with
  | ifThen hslot howns haction htrue hfalse =>
    rw [← slot_eq hslot] at haction
    refine ⟨_, ht.of_leadsTo ((leadsTo_branch_iff haction).mpr ⟨b, htruth, rfl⟩), ?_⟩
    cases b with
    | true => exact ⟨hr, htrue, hremainder.taken⟩
    | false => exact ⟨hr, hfalse, hremainder.rest⟩

omit hg in
theorem Entails.branchElse {t : Thread} {k : Nat} {r : Rule μ} {condition : Expr}
    {body otherwise : Symbol μ} {notes : Annotations μ} {rest : List (Symbol μ)} {b : Bool}
    (ht : p.Entails (.passed t))
    (hleft : p.Left g k r t.slot (.ifThenElse condition body otherwise notes :: rest))
    (htruth : p.evaluate.truth condition t.env = .ok b) :
    ∃ slot, p.Entails (.passed { t with slot }) ∧
      p.Left g k r slot ((if b then body else otherwise) :: rest) := by
  obtain ⟨hr, hawaits, hremainder⟩ := hleft
  cases hawaits with
  | ifThenElse hslot howns haction htrue hfalse =>
    rw [← slot_eq hslot] at haction
    refine ⟨_, ht.of_leadsTo ((leadsTo_branch_iff haction).mpr ⟨b, htruth, rfl⟩), ?_⟩
    cases b with
    | true => exact ⟨hr, htrue, hremainder.thenTaken⟩
    | false => exact ⟨hr, hfalse, hremainder.elseTaken⟩

section

variable (hhonest : g.Honest p.input)

include hhonest

omit hg [DecidableEq μ] in
/-- What is left of a rule uses the matchers of the grammar only. -/
theorem honest_of_remainder {k : Nat} {r : Rule μ} {symbols : List (Symbol μ)}
    (hr : g.rules[k]? = some r) (h : Remainder r.body symbols) :
    ∀ s ∈ symbols, s.Honest p.input := by
  have hrule (s : Symbol μ) (hs : s ∈ r.body) : s.Honest p.input :=
    hhonest.of_mem (List.mem_of_getElem? hr) hs
  cases symbols with
  | nil => exact fun s hs => absurd hs List.not_mem_nil
  | cons s' rest =>
    obtain ⟨s, hsuffix, -, hterminals⟩ := h.exists_suffix
    intro s₁ hs₁
    rcases List.mem_cons.mp hs₁ with rfl | hs₁
    · exact fun m hm => hrule s (hsuffix.subset List.mem_cons_self) m (hterminals _ hm)
    · exact hrule s₁ (h.suffix.subset hs₁)

omit hg hhonest in
/-- What the lookahead set behind a call admits, FOLLOW of the callee admits. -/
theorem follow_admits {k : Nat} {r r' : Rule μ} {slot : Nat} {name : String}
    {arguments : List Expr} {notes : Annotations μ} {rest : List (Symbol μ)} {next : Option Char}
    (hleft : p.Left g k r slot (.call name arguments notes :: rest))
    (hr' : r' ∈ g.rules) (hname : r'.head = name)
    (hbehind : ((FirstFollow.ofGrammar g).lookahead r.head rest).admits next) :
    (FirstFollow.lookup (FirstFollow.ofGrammar g).follow r'.head).admits next := by
  obtain ⟨s, hsuffix, hreferences, -⟩ := hleft.remainder.exists_suffix
  refine FirstFollow.admits_follow_of_lookahead (List.mem_of_getElem? hleft.rule) hsuffix
    (hreferences _ ?_) (FirstFollow.head_mem_nonterminals hr') hbehind
  rw [hname]
  exact List.mem_singleton_self _

omit hg in
/-- What is left of a rule is admitted by its lookahead set where it leads on, if FOLLOW of the
head admits what comes behind the rule. -/
theorem Left.lookahead_admits {k slot i j : Nat} {r : Rule μ} {symbols : List (Symbol μ)}
    {env env' : Environment} (hleft : p.Left g k r slot symbols)
    (h : p.Passes g symbols env i env' j)
    (hfollow : (FirstFollow.lookup (FirstFollow.ofGrammar g).follow r.head).admits
      (p.input.symbolAt? j)) :
    ((FirstFollow.ofGrammar g).lookahead r.head symbols).admits (p.input.symbolAt? i) :=
  h.lookahead_admits hhonest (honest_of_remainder hhonest hleft.rule hleft.remainder) hfollow

/-- A rule that leads on is an opening of the calls of its nonterminal. -/
theorem base_mem_openings {key : Stack.Key} {k j : Nat} {r : Rule μ} {env env' : Environment}
    (hkey : key.nonterminal < p.graph.nonterminals.size) (hr : g.rules[k]? = some r)
    (hhead : r.head = p.graph.nonterminalName key.nonterminal)
    (hbody : p.Passes g r.body env key.position env' j)
    (hfollow : (FirstFollow.lookup (FirstFollow.ofGrammar g).follow r.head).admits
      (p.input.symbolAt? j)) :
    SlotGraph.base g k ∈ p.openings key :=
  (mem_openings_iff hg hkey).mpr
    ⟨k, r, hr, hhead, rfl, (left_base hg hr).lookahead_admits hhonest hbody hfollow⟩

/-- **A thread passes through whatever the symbols that are left lead to,** up to the end of its
rule. -/
theorem Entails.pass {symbols : List (Symbol μ)} {env env' : Environment} {i j : Nat}
    (h : p.Passes g symbols env i env' j) :
    ∀ {t : Thread} {k : Nat} {r : Rule μ}, p.Entails (.passed t) → t.env = env → t.position = i →
      p.Left g k r t.slot symbols →
      (FirstFollow.lookup (FirstFollow.ofGrammar g).follow r.head).admits (p.input.symbolAt? j) →
      ∃ t', p.Entails (.passed t') ∧ t'.call = t.call ∧ t'.position = j ∧ t'.env = env' ∧
        p.Left g k r t'.slot [] := by
  induction h with
  | nil => exact fun ht henv hpos hleft _ => ⟨_, ht, rfl, hpos, henv, hleft⟩
  | terminal hpre hmatch hpost _ ih =>
    intro t k r ht henv hpos hleft hfollow
    subst henv hpos
    obtain ⟨id, dest, -, hleft', hfound⟩ := ht.scan hleft hpre hmatch hpost
    have hpass := ih (hfound _ List.mem_cons_self) rfl rfl hleft' hfollow
    exact hpass
  | @call name arguments notes rest env inner env' i j _ values r' value hpre hvalues hr' hname
      hbody hreturning hpost hrest ihbody ih =>
    intro t k r ht henv hpos hleft hfollow
    subst henv hpos
    obtain ⟨callee, dest, hcallee, hcalleeName, hleft', hcalled, hresumes⟩ :=
      ht.call hg hleft hpre hvalues
    -- what stands behind the call admits the text behind the result
    have hbehind : ((FirstFollow.ofGrammar g).lookahead r.head rest).admits
        (p.input.symbolAt? j) := hleft'.lookahead_admits hhonest hrest hfollow
    have hfollow' := follow_admits hleft hr' hname hbehind
    obtain ⟨k', hk'⟩ := List.mem_iff_getElem?.mp hr'
    -- the call is made, and its rule is one of the openings
    have hopening : SlotGraph.base g k' ∈ p.openings ⟨callee, t.position, values⟩ :=
      base_mem_openings hg hhonest hcallee hk' (hname.trans hcalleeName.symm) hbody hfollow'
    have hne := List.ne_nil_of_mem hopening
    -- the callee produces its result
    obtain ⟨t', ht', hcall', rfl, rfl, hleft''⟩ :=
      ihbody (.delivered (.opening (hcalled hne) hopening))
        (by rw [Parser.opening, calleeEnvironment_eq hg hcallee, hcalleeName]) rfl
        (left_base hg hk') hfollow'
    have hcall' : t'.call = ⟨callee, t.position, values⟩ := hcall'
    have hresult : p.Entails (.result ⟨callee, t.position, values⟩ t'.position value) :=
      ht'.finish hleft'' hreturning _ (by rw [completeFacts, hcall']; exact List.mem_cons_self)
    -- which the caller takes up
    have hnext := hresumes _ _ hresult hpost hbehind hne _ List.mem_cons_self
    have hpass := ih hnext.delivered rfl rfl hleft' hfollow
    exact hpass
  | taken htruth _ ih | skipped htruth _ ih =>
    intro t k r ht henv hpos hleft hfollow
    subst henv hpos
    obtain ⟨slot, hnext, hleft'⟩ := ht.branch hleft htruth
    have hpass := ih hnext rfl rfl hleft' hfollow
    exact hpass
  | thenTaken htruth _ ih | elseTaken htruth _ ih =>
    intro t k r ht henv hpos hleft hfollow
    subst henv hpos
    obtain ⟨slot, hnext, hleft'⟩ := ht.branchElse hleft htruth
    have hpass := ih hnext rfl rfl hleft' hfollow
    exact hpass

/-- **A call that is made produces whatever its nonterminal derives,** where FOLLOW admits what
comes behind. -/
theorem Entails.complete {key : Stack.Key} {right : Nat} {value : Option Value}
    (hkey : key.nonterminal < p.graph.nonterminals.size) (h : p.Results g key right value)
    (hcalled : p.openings key ≠ [] → p.Entails (.called key))
    (hfollow : (FirstFollow.lookup (FirstFollow.ofGrammar g).follow
      (p.graph.nonterminalName key.nonterminal)).admits (p.input.symbolAt? right)) :
    p.Entails (.called key) ∧ p.Entails (.result key right value) ∧
      p.Entails (.piece (resultPiece key right)) := by
  obtain ⟨r, hr, hhead, inner, hbody, hreturning⟩ := h
  obtain ⟨k, hk⟩ := List.mem_iff_getElem?.mp hr
  rw [← hhead] at hfollow hbody
  have hopening : SlotGraph.base g k ∈ p.openings key :=
    base_mem_openings hg hhonest hkey hk hhead hbody hfollow
  have hcalled := hcalled (List.ne_nil_of_mem hopening)
  obtain ⟨t, ht, hcall, rfl, rfl, hleft⟩ :=
    Entails.pass hg hhonest hbody (.delivered (.opening hcalled hopening))
      (by rw [Parser.opening, calleeEnvironment_eq hg hkey, hhead]) rfl (left_base hg hk) hfollow
  have hcall : t.call = key := hcall
  have hfound := ht.finish hleft hreturning
  refine ⟨hcalled, hfound _ ?_, hfound _ ?_⟩
  · rw [completeFacts, hcall]
    exact List.mem_cons_self
  · rw [completeFacts, whole, head_eq_of_entails hg ht, hcall, resultPiece]
    simp

omit hhonest in
/-- The end of the text is admitted behind the start symbol. -/
theorem follow_start_admits : (FirstFollow.lookup (FirstFollow.ofGrammar g).follow g.start).admits
    (p.input.symbolAt? p.input.length) := by
  have hnone : p.input.symbolAt? p.input.length = none := by
    simp [Input.symbolAt?, Input.length]
  rw [hnone]
  exact FirstFollow.admits_follow_start (FirstFollow.mem_nonterminals_iff.mpr
    (Grammar.hasNonterminal_iff.mp (closed_of_ofGrammar hg).start))

omit hhonest in
theorem nonterminalName_start_eq : p.graph.start < p.graph.nonterminals.size ∧
    p.graph.nonterminalName p.graph.start = g.start :=
  compile_eq hg ▸ nonterminalName_start g

/-- **The start symbol has a piece for the whole text exactly if the text is in the language.** -/
theorem entails_root_iff :
    p.Entails (.piece (.nonterminal p.graph.start none 0 p.input.length)) ↔
      ∃ value, p.Derives g g.start none 0 p.input.length value := by
  obtain ⟨hstart, hname⟩ := nonterminalName_start_eq hg
  constructor
  · intro h
    obtain ⟨value, hresults⟩ := meant_of_entails hg h
    exact ⟨value, hname ▸ hresults⟩
  · intro hlanguage
    obtain ⟨value, hderives⟩ := hlanguage
    have hresults : p.Results g p.startKey p.input.length value := by
      rw [Results, startKey, hname]
      exact hderives
    refine (Entails.complete hg hhonest hstart hresults .start ?_).2.2
    rw [startKey, hname]
    exact follow_start_admits hg

end

end

end Parser

end GeneralLL
