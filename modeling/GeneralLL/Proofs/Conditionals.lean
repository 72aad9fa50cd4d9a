import GeneralLL.Proofs.Run

/-!
# What conditional symbols carry

A conditional symbol can carry a label and conditions, as any symbol can. But its slot is
a branch, and a branch has no place for them: only the symbols inside a conditional are
annotated when they are compiled.

So what conditionals carry is without effect. `bare` takes it away, at every depth. Grammars
with the same bare form have the same FIRST and FOLLOW sets and compile to the same slots but
for their texts (`untitled_compile_bare`), and a parser does not read these texts. **Every
parse goes through the same states with what conditionals carry and without it, and ends
alike** (`parse_of_bare_eq`): no condition of a conditional is asked, and no label of one is
bound (`passes_refused`).
-/

namespace GeneralLL

/-! ## Bare grammars -/

namespace Symbol

variable {μ : Type}

/-- The symbol without what its conditionals carry. What they choose between is left as it is. -/
def bare : Symbol μ → Symbol μ
  | terminal t notes => terminal t notes
  | call name arguments notes => call name arguments notes
  | ifThen condition body _ => ifThen condition body.bare {}
  | ifThenElse condition body otherwise _ => ifThenElse condition body.bare otherwise.bare {}

@[simp] theorem calls_bare (s : Symbol μ) : s.bare.calls = s.calls := by
  induction s with
  | terminal | call => rfl
  | ifThen _ _ _ ih => exact ih
  | ifThenElse _ _ _ _ ih ih' => simp only [bare, calls, ih, ih']

@[simp] theorem references_bare (s : Symbol μ) : s.bare.references = s.references := by
  rw [references, calls_bare, references]

@[simp] theorem terminals_bare (s : Symbol μ) : s.bare.terminals = s.terminals := by
  induction s with
  | terminal | call => rfl
  | ifThen _ _ _ ih => exact ih
  | ifThenElse _ _ _ _ ih ih' => simp only [bare, terminals, ih, ih']

variable [Matcher μ]

@[simp] theorem nullable_bare (names : List String) (s : Symbol μ) :
    s.bare.nullable names = s.nullable names := by
  induction s with
  | terminal | call | ifThen => rfl
  | ifThenElse _ _ _ _ ih ih' => simp only [bare, nullable, ih, ih']

@[simp] theorem first_bare (sets : String → Lookahead) (s : Symbol μ) :
    s.bare.first sets = s.first sets := by
  induction s with
  | terminal | call => rfl
  | ifThen _ _ _ ih => exact ih
  | ifThenElse _ _ _ _ ih ih' => simp only [bare, first, ih, ih']

end Symbol

/-- The rule without what its conditionals carry. -/
def Rule.bare {μ : Type} (r : Rule μ) : Rule μ := { r with body := r.body.map Symbol.bare }

/-- The grammar without what its conditionals carry. -/
def Grammar.bare {μ : Type} (g : Grammar μ) : Grammar μ := { g with rules := g.rules.map Rule.bare }

namespace Grammar

variable {μ : Type}

theorem heads_bare (g : Grammar μ) : g.bare.rules.map Rule.head = g.rules.map Rule.head :=
  List.map_map ..

theorem nonterminals_bare (g : Grammar μ) : g.bare.nonterminals = g.nonterminals := by
  rw [nonterminals, heads_bare, nonterminals]

theorem alternatives_bare (g : Grammar μ) (name : String) :
    g.bare.alternatives name = (g.alternatives name).map Rule.bare :=
  List.filter_map ..

theorem hasNonterminal_bare (g : Grammar μ) (name : String) :
    g.bare.hasNonterminal name = g.hasNonterminal name :=
  List.any_map ..

variable [Matcher μ]

omit [Matcher μ] in
/-- A grammar is closed with what its conditionals carry or without it. -/
theorem closed_bare_iff {g : Grammar μ} : g.bare.Closed ↔ g.Closed := by
  constructor
  · intro h
    refine ⟨g.hasNonterminal_bare g.start ▸ h.start, h.start_parameters,
      fun r hr s hs call hcall => ?_⟩
    have hname := h.calls r.bare (List.mem_map_of_mem hr) s.bare (List.mem_map_of_mem hs) call
      (s.calls_bare ▸ hcall)
    exact ⟨g.hasNonterminal_bare call.1 ▸ hname.1, hname.2⟩
  · intro h
    refine ⟨(g.hasNonterminal_bare g.start).symm ▸ h.start, h.start_parameters, ?_⟩
    simp only [bare, List.forall_mem_map, Rule.bare, Symbol.calls_bare]
    intro r hr s hs call hcall
    have hname := h.calls r hr s hs call hcall
    exact ⟨(g.hasNonterminal_bare call.1).symm ▸ hname.1, hname.2⟩

theorem check_eq_ok_iff {g : Grammar μ} : g.check = .ok () ↔ g.Closed := by
  refine ⟨closed_of_check, fun h => ?_⟩
  have hcall (r : Rule μ) (hr : r ∈ g.rules) :
      (r.body.flatMap Symbol.calls).forM (g.checkCall r) = .ok () := by
    refine Except.forM_eq_ok_iff.mpr fun call hcall => ?_
    obtain ⟨s, hs, hcall⟩ := List.mem_flatMap.mp hcall
    obtain ⟨hname, hlength⟩ := h.calls r hr s hs call hcall
    simp [checkCall, hname, hlength]
  simp only [check, h.start, h.start_parameters, Bool.not_true, List.isEmpty_nil, Bool.false_eq_true,
    if_false]
  exact Except.forM_eq_ok_iff.mpr hcall

end Grammar

/-! ## The sets of a bare grammar -/

namespace FirstFollow

variable {μ : Type} [Matcher μ]

theorem sequenceNullable_bare (names : List String) (body : List (Symbol μ)) :
    sequenceNullable names (body.map Symbol.bare) = sequenceNullable names body := by
  simp only [sequenceNullable, List.all_map, Function.comp_def, Symbol.nullable_bare]

theorem front_bare (names : List String) (body : List (Symbol μ)) :
    front names (body.map Symbol.bare) = (front names body).map Symbol.bare := by
  induction body with
  | nil => rfl
  | cons s rest ih =>
    rw [List.map_cons, front, front, Symbol.nullable_bare, ih]
    split <;> rfl

theorem sequenceFirst_bare (names : List String) (sets : String → Lookahead)
    (body : List (Symbol μ)) :
    sequenceFirst names sets (body.map Symbol.bare) = sequenceFirst names sets body := by
  simp only [sequenceFirst, front_bare, List.foldl_map, Symbol.first_bare]

omit [Matcher μ] in
theorem withRests_bare (body : List (Symbol μ)) :
    withRests (body.map Symbol.bare)
      = (withRests body).map (Prod.map Symbol.bare (List.map Symbol.bare)) := by
  induction body with
  | nil => rfl
  | cons s rest ih => rw [List.map_cons, withRests, withRests, ih, List.map_cons, Prod.map]

theorem nullableNames_bare (g : Grammar μ) : nullableNames g.bare = nullableNames g := by
  have hround (names : List String) : nullableRound g.bare.rules names
      = nullableRound g.rules names := by
    simp only [nullableRound, Grammar.bare, List.foldl_map, Rule.bare, sequenceNullable_bare]
  have hrounds (n : Nat) : ∀ names, nullableRounds g.bare.rules n names
      = nullableRounds g.rules n names := by
    induction n with
    | zero => exact fun _ => rfl
    | succ n ih => intro names; simp only [nullableRounds, hround, ih]
  rw [nullableNames, hrounds, nullableNames, Grammar.bare, List.length_map]

theorem leads_bare (g : Grammar μ) (names : List String) : leads g.bare names = leads g names := by
  funext name
  simp only [leads, Grammar.alternatives_bare, List.flatMap_map, Rule.bare, front_bare,
    Symbol.references_bare]

theorem firstTable_bare (g : Grammar μ) (names : List String) :
    firstTable g.bare names = firstTable g names := by
  have hdirect (name : String) : directFirst g.bare names name = directFirst g names name := by
    simp only [directFirst, Grammar.alternatives_bare, List.foldl_map, Rule.bare,
      sequenceFirst_bare]
  simp only [firstTable, Grammar.nonterminals_bare, Grammar.heads_bare, leads_bare, hdirect]

theorem followTable_bare (g : Grammar μ) (names : List String) (sets : String → Lookahead) :
    followTable g.bare names sets = followTable g names sets := by
  have hcloses : closes g.bare names = closes g names := by
    funext name
    simp only [closes, Grammar.bare, List.flatMap_map, Rule.bare, withRests_bare, Prod.map,
      Symbol.references_bare, sequenceNullable_bare]
  have hdirect (name : String) :
      directFollow g.bare names sets name = directFollow g names sets name := by
    simp only [directFollow, Grammar.bare, List.flatMap_map, Rule.bare, withRests_bare,
      ← List.map_flatMap, List.foldl_map, Prod.map, Symbol.references_bare, sequenceFirst_bare]
    rfl
  simp only [followTable, Grammar.nonterminals_bare, Grammar.heads_bare, hcloses, hdirect]

/-- **A condition is taken to go either way**, whatever the conditional carries. -/
theorem ofGrammar_bare (g : Grammar μ) : ofGrammar g.bare = ofGrammar g := by
  simp only [ofGrammar, nullableNames_bare, firstTable_bare, followTable_bare]

theorem lookahead_bare (sets : FirstFollow) (head : String) (rest : List (Symbol μ)) :
    sets.lookahead head (rest.map Symbol.bare) = sets.lookahead head rest := by
  rw [lookahead, restFirst, restNullable, sequenceFirst_bare, sequenceNullable_bare]
  rfl

end FirstFollow

/-! ## The slots of a bare grammar -/

/-- The slot without its text. -/
def Slot.untitled {μ : Type} (s : Slot μ) : Slot μ := { s with text := "" }

namespace SlotGraph

variable {μ : Type}

/-- The place without its text. -/
def Place.untitled (p : Place) : Place := { p with text := "" }

/-- The graph without texts. -/
def untitled (g : SlotGraph μ) : SlotGraph μ :=
  { g with slots := g.slots.map Slot.untitled, rules := #[] }

theorem Place.untitled_slot (p : Place) (lookahead : Lookahead) (action : Action μ) :
    (p.slot lookahead action).untitled = p.untitled.slot lookahead action := rfl

section

variable [DecidableEq μ] (names : Names μ)

/-- A symbol is compiled to the same slots with what its conditionals carry and without it. -/
theorem compileSymbol_bare (dest : Nat) (s : Symbol μ) :
    ∀ {place place' : Place} (next : Nat), place'.untitled = place.untitled →
      (compileSymbol names dest place' next s.bare).1 = (compileSymbol names dest place next s).1 ∧
        (compileSymbol names dest place' next s.bare).2.map Slot.untitled
          = (compileSymbol names dest place next s).2.map Slot.untitled := by
  induction s with
  | terminal | call => exact fun _ _ => ⟨rfl, rfl⟩
  | ifThen condition body _ ih =>
    intro place place' next h
    have hbranch : (place'.branch "then").untitled = (place.branch "then").untitled := h
    obtain ⟨haction, hinner⟩ := ih (next + 1) hbranch
    refine ⟨rfl, ?_⟩
    simp only [Symbol.bare, compileSymbol, List.map_cons, Place.untitled_slot, hbranch, haction,
      hinner]
  | ifThenElse condition body otherwise _ ih ih' =>
    intro place place' next h
    have hthen : (place'.branch "then").untitled = (place.branch "then").untitled := h
    have helse : (place'.branch "else").untitled = (place.branch "else").untitled := h
    obtain ⟨haction, hinner⟩ := ih (next + 1) hthen
    -- the second branch has its slots behind the first, so these have to be as many
    have hlength := congrArg List.length hinner
    rw [List.length_map, List.length_map] at hlength
    obtain ⟨haction', hinner'⟩ :=
      ih' (next + 1 + (compileSymbol names dest (place.branch "then") (next + 1) body).2.length + 1)
        helse
    refine ⟨?_, ?_⟩
    · simp only [Symbol.bare, compileSymbol, hlength]
    · simp only [Symbol.bare, compileSymbol, List.map_cons, List.map_append, Place.untitled_slot,
        hthen, helse, hlength, haction, hinner, haction', hinner']

theorem compileBody_bare (place place' : Nat → Place)
    (h : ∀ k, (place' k).untitled = (place k).untitled) (base : Nat) (body : List (Symbol μ)) :
    ∀ position next : Nat,
      (compileBody names place' base position next (body.map Symbol.bare)).1
          = (compileBody names place base position next body).1 ∧
        (compileBody names place' base position next (body.map Symbol.bare)).2.map Slot.untitled
          = (compileBody names place base position next body).2.map Slot.untitled := by
  induction body with
  | nil => exact fun _ _ => ⟨rfl, rfl⟩
  | cons s rest ih =>
    intro position next
    obtain ⟨haction, hinner⟩ :=
      compileSymbol_bare names (base + position + 1) s next (h position)
    have hlength := congrArg List.length hinner
    rw [List.length_map, List.length_map] at hlength
    obtain ⟨hactions, hinners⟩ := ih (position + 1)
      (next + (compileSymbol names (base + position + 1) (place position) next s).2.length)
    rw [List.map_cons, compileBody_cons, compileBody_cons, haction, hlength, hactions,
      List.map_append, List.map_append, hinner, hinners]
    exact ⟨rfl, rfl⟩

variable [Matcher μ] (sets : FirstFollow)

theorem compileRule_bare (index base : Nat) (r : Rule μ) :
    (compileRule names sets index base r.bare).map Slot.untitled
      = (compileRule names sets index base r).map Slot.untitled := by
  obtain ⟨hactions, hbranches⟩ := compileBody_bare names
    (fun k => ⟨(names.nonterminals.find? r.head).getD 0, index, k, r.dotted k⟩)
    (fun k => ⟨(names.nonterminals.find? r.head).getD 0, index, k, r.bare.dotted k⟩)
    (fun _ => rfl) base r.body 0 (base + r.body.length + 1)
  simp only [compileRule, Rule.bare] at hactions hbranches ⊢
  simp only [List.length_map, List.map_append, List.mapIdx_eq_zipIdx_map, List.map_map,
    Function.comp_def, ← List.map_drop, FirstFollow.lookahead_bare, Place.untitled_slot, hactions,
    hbranches]
  rfl

/-- Every rule has its slots from the same number on. -/
theorem compileRules_bare (rules : List (Rule μ)) :
    ∀ index base : Nat,
      (compileRules names sets index base (rules.map Rule.bare)).map
          (Prod.map id (List.map Slot.untitled))
        = (compileRules names sets index base rules).map (Prod.map id (List.map Slot.untitled)) := by
  induction rules with
  | nil => exact fun _ _ => rfl
  | cons r rest ih =>
    intro index base
    have hslots := compileRule_bare names sets index base r
    have hlength := congrArg List.length hslots
    rw [List.length_map, List.length_map] at hlength
    rw [List.map_cons, compileRules, compileRules, List.map_cons, List.map_cons, hlength, ih]
    simp only [Prod.map, hslots]

end

variable [DecidableEq μ] [Matcher μ]

omit [Matcher μ] in
theorem namesOf_bare (g : Grammar μ) : namesOf g.bare = namesOf g := by
  simp only [namesOf, Grammar.heads_bare]
  simp only [Grammar.bare, List.flatMap_map, Rule.bare, Symbol.terminals_bare]

/-- The first slots of a nonterminal are read off the heads of the rules and their bases. -/
theorem firstSlots_eq (g : Grammar μ) (name : String) :
    (g.rules.zip (compiledRules g)).filterMap (fun (r, base, _) =>
        if r.head = name then some base else none)
      = ((g.rules.map Rule.head).zip ((compiledRules g).map Prod.fst)).filterMap
          fun (head, base) => if head = name then some base else none := by
  rw [List.zip_map, List.filterMap_map]
  rfl

/-- **What conditionals carry changes nothing but texts.** -/
theorem untitled_compile_bare (g : Grammar μ) :
    (compile g.bare).untitled = (compile g).untitled := by
  have hcompiled : (compiledRules g.bare).map (Prod.map id (List.map Slot.untitled))
      = (compiledRules g).map (Prod.map id (List.map Slot.untitled)) := by
    rw [compiledRules, namesOf_bare, FirstFollow.ofGrammar_bare]
    exact compileRules_bare (namesOf g) (.ofGrammar g) g.rules 0 0
  have hbases : (compiledRules g.bare).map Prod.fst = (compiledRules g).map Prod.fst := by
    have h := congrArg (List.map Prod.fst) hcompiled
    rwa [List.map_map, List.map_map] at h
  have hslots : ((compiledRules g.bare).flatMap Prod.snd).map Slot.untitled
      = ((compiledRules g).flatMap Prod.snd).map Slot.untitled := by
    have h := congrArg (List.flatMap Prod.snd) hcompiled
    rw [List.flatMap_map, List.flatMap_map] at h
    rw [List.map_flatMap, List.map_flatMap]
    exact h
  have hfirst (name : String) : (g.bare.rules.zip (compiledRules g.bare)).filterMap
        (fun (r, base, _) => if r.head = name then some base else none)
      = (g.rules.zip (compiledRules g)).filterMap
        fun (r, base, _) => if r.head = name then some base else none := by
    rw [firstSlots_eq, Grammar.heads_bare, hbases, ← firstSlots_eq]
  have hnonterminals : (compile g.bare).nonterminals = (compile g).nonterminals := by
    show (namesOf g.bare).nonterminals.items.map _ = (namesOf g).nonterminals.items.map _
    rw [namesOf_bare]
    exact Array.map_congr_left fun name _ => congrArg _ (hfirst name)
  have hterminals : (compile g.bare).terminals = (compile g).terminals := by
    show (namesOf g.bare).terminals = (namesOf g).terminals
    rw [namesOf_bare]
  have hall : (compile g.bare).slots.map Slot.untitled = (compile g).slots.map Slot.untitled := by
    rw [compile_slots, compile_slots, List.map_toArray, List.map_toArray, hslots]
  simp only [untitled, hnonterminals, hterminals, hall]
  rfl

end SlotGraph

/-! ## What a parser reads of its slots -/

namespace SlotGraph

variable {μ : Type}

theorem slot_untitled (g : SlotGraph μ) (id : Nat) : g.untitled.slot id = (g.slot id).untitled := by
  rw [slot, untitled, Array.getElem?_map, slot]
  cases g.slots[id]? <;> rfl

@[simp] theorem head_untitled (g : SlotGraph μ) (id : Nat) :
    (g.untitled.slot id).head = (g.slot id).head := by rw [slot_untitled, Slot.untitled]

@[simp] theorem lookahead_untitled (g : SlotGraph μ) (id : Nat) :
    (g.untitled.slot id).lookahead = (g.slot id).lookahead := by rw [slot_untitled, Slot.untitled]

@[simp] theorem action_untitled (g : SlotGraph μ) (id : Nat) :
    (g.untitled.slot id).action = (g.slot id).action := by rw [slot_untitled, Slot.untitled]

end SlotGraph

/-- The failure without the text of its slot. -/
def Failure.untitled (f : Failure) : Failure := { f with label := "" }

/-- The verdict without the text of a slot. -/
def Verdict.untitled : Verdict → Verdict
  | failure f => failure f.untitled
  | v => v

/-- The report without the text of a slot. -/
def Report.untitled (r : Report) : Report := { r with verdict := r.verdict.map Verdict.untitled }

namespace Parser

variable {μ : Type}

/-- The parser without the texts of its slots. -/
def untitled (p : Parser μ) : Parser μ := { p with graph := p.graph.untitled }

variable (p : Parser μ)

theorem create_untitled : p.untitled.create = p.create := by
  funext callee arguments position
  unfold create
  simp only [untitled, SlotGraph.lookahead_untitled]
  rfl

theorem begin_untitled : p.untitled.begin p.untitled.initial = p.begin p.initial := by
  unfold begin
  rw [create_untitled]
  rfl

/-- Only the label of a failure is the text of a slot. -/
theorem verdict_untitled (s : State) :
    (p.untitled.verdict s).untitled = (p.verdict s).untitled := by
  have hspan : p.untitled.rootSpan = p.rootSpan := rfl
  unfold verdict
  rw [hspan]
  cases s.forest.lookup p.rootSpan <;> rfl

variable [Matcher μ]

theorem propagate_untitled : p.untitled.propagate = p.propagate := by
  funext edge left immediate result
  unfold propagate
  simp only [untitled, SlotGraph.lookahead_untitled, SlotGraph.action_untitled]
  rfl

theorem advance_untitled : p.untitled.advance = p.advance := by
  funext d
  unfold advance scan call complete
  rw [create_untitled, propagate_untitled]
  simp only [untitled, SlotGraph.head_untitled, SlotGraph.action_untitled]
  rfl

/-- **A parser does not read the texts of its slots.** -/
theorem step_untitled : p.untitled.step = p.step := by
  unfold step
  rw [advance_untitled]

theorem run_untitled (fuel : Nat) : p.untitled.run fuel = p.run fuel := by
  induction fuel with
  | zero => rfl
  | succ fuel ih => rw [run, run, step_untitled, ih]

theorem reaches_untitled_iff {log : List Descriptor} {s : State} :
    p.untitled.Reaches log s ↔ p.Reaches log s := by
  constructor
  · intro h
    induction h with
    | begin hb => exact .begin (p.begin_untitled.symm.trans hb)
    | step _ hstep ih => exact .step ih (p.step_untitled ▸ hstep)
  · intro h
    induction h with
    | begin hb => exact .begin (p.begin_untitled.trans hb)
    | step _ hstep ih => exact .step ih (p.step_untitled.symm ▸ hstep)

theorem parse_untitled (fuel : Nat) :
    (p.untitled.parse fuel).untitled = (p.parse fuel).untitled := by
  obtain ⟨s, hb, -⟩ := p.exists_begin
  rw [parse_eq hb, parse_eq (p.begin_untitled.trans hb), run_untitled]
  cases p.run fuel s with
  | error e s' => rfl
  | ok finished s' =>
    cases finished with
    | false => rfl
    | true =>
      have h := p.verdict_untitled s'
      simp only [Report.untitled, Except.map, h]

variable [DecidableEq μ] {p} {g g' : Grammar μ}

/-- **What conditionals carry is without effect.** Of two grammars that differ in nothing but the
labels and conditions of conditional symbols, both are accepted or neither is. The parses of a text
go through the same states, and end alike but for the text of the slot that a failure names. -/
theorem parse_of_bare_eq (hbare : g.bare = g'.bare)
    (hg : SlotGraph.ofGrammar g = .ok p.graph) :
    ∃ graph, SlotGraph.ofGrammar g' = .ok graph ∧
      (∀ log s, ({ p with graph } : Parser μ).Reaches log s ↔ p.Reaches log s) ∧
      ∀ fuel, (({ p with graph } : Parser μ).parse fuel).untitled = (p.parse fuel).untitled := by
  obtain ⟨hcheck, hgraph⟩ := SlotGraph.ofGrammar_eq_ok_iff.mp hg
  have hclosed : g'.Closed := Grammar.closed_bare_iff.mp
    (hbare ▸ Grammar.closed_bare_iff.mpr (Grammar.check_eq_ok_iff.mp hcheck))
  refine ⟨SlotGraph.compile g',
    SlotGraph.ofGrammar_eq_ok_iff.mpr ⟨Grammar.check_eq_ok_iff.mpr hclosed, rfl⟩, ?_⟩
  have hsame : ({ p with graph := SlotGraph.compile g' } : Parser μ).untitled = p.untitled := by
    rw [untitled, untitled, ← hgraph, ← SlotGraph.untitled_compile_bare g',
      ← SlotGraph.untitled_compile_bare g, hbare]
  refine ⟨fun log s => ?_, fun fuel => ?_⟩
  · rw [← reaches_untitled_iff, hsame, reaches_untitled_iff]
  · rw [← parse_untitled, hsame, parse_untitled]

end Parser

/-! ## An example -/

/-- What no symbol can be passed with: conditions that never hold. -/
def refusing : Annotations RunMatcher where
  label := some "x"
  pre := [.expr (.const (.bool false))]
  post := [.expr (.const (.bool false))]

/-- One letter, behind a conditional with conditions that never hold. -/
def refused : Grammar RunMatcher where
  name := "refused"
  start := "S"
  rules := [⟨"S", [.ifThen (.const (.bool true)) (.terminal (.char 'a') {}) refusing], none⟩]

/-- The parser for the refused letter. -/
def refusedParser : Parser RunMatcher :=
  { graph := SlotGraph.compile refused, input := .ofString "a" }

theorem ofGrammar_refused : SlotGraph.ofGrammar refused = .ok refusedParser.graph :=
  SlotGraph.ofGrammar_eq_ok_iff.mpr ⟨by decide +kernel, rfl⟩

/-- The refused letter is parsed as the letter alone is. -/
theorem parse_of_bare_eq_refused :
    refused.bare = refused.bare.bare ∧ SlotGraph.ofGrammar refused = .ok refusedParser.graph ∧
      ∃ graph, SlotGraph.ofGrammar refused.bare = .ok graph ∧
        (∀ log s, ({ refusedParser with graph } : Parser RunMatcher).Reaches log s ↔
          refusedParser.Reaches log s) ∧
        ∀ fuel, (({ refusedParser with graph } : Parser RunMatcher).parse fuel).untitled
          = (refusedParser.parse fuel).untitled := by
  have hbare : refused.bare = refused.bare.bare := rfl
  exact ⟨hbare, ofGrammar_refused, Parser.parse_of_bare_eq hbare ofGrammar_refused⟩

/-- The conditions never hold. -/
theorem not_allHold_refusing {left right : Nat} {env : Environment} :
    ¬refusedParser.AllHold [.expr (.const (.bool false))] left right env := by
  intro h
  have hfalse := h _ (List.mem_singleton_self _)
  exact absurd hfalse (by simp [Condition.holds, Evaluator.truth, refusedParser, Expr.eval])

/-- **A thread passes a conditional whose conditions do not hold**, and its label is not bound. -/
theorem passes_refused :
    SlotGraph.ofGrammar refused = .ok refusedParser.graph ∧
      (∀ env, ¬refusedParser.AllHold refusing.pre 0 0 env) ∧
      (∀ env, ¬refusedParser.AllHold refusing.post 0 1 env) ∧
      ∃ log s d, refusedParser.Reaches log s ∧ s.running = some d ∧
        (refusedParser.graph.slot d.slot).position = 1 ∧ d.position = 1 ∧
        d.env.lookup (Expr.leftExtentName "x") = none ∧
        d.env.lookup (Expr.rightExtentName "x") = none := by
  -- the thread is delivered, takes the branch and matches the letter
  obtain ⟨log, s, hreaches, hs⟩ := Parser.exists_reaches_of_run ofGrammar_refused 3
    (q := fun s => s.running = some ⟨1, 1, 0, some 0, .empty .frames⟩) (by decide +kernel)
  exact ⟨ofGrammar_refused, fun env => not_allHold_refusing, fun env => not_allHold_refusing, log, s,
    _, hreaches, of_decide_eq_true hs, by decide +kernel, rfl, by decide +kernel, by decide +kernel⟩

end GeneralLL
