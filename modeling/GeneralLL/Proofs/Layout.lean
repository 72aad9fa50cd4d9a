import GeneralLL.Proofs.Numbering
import GeneralLL.Proofs.Results
import GeneralLL.SlotGraph.Compile

/-!
# Where compiled rules lie

A compiled grammar is one list of slots. This file says what stands where:

* the slots of a rule lie together, from its **base** on, and the slot at `base + i` is
  the place before symbol `i` (`body_slot`);
* `Awaits` says what is left to be recognised at a slot. It follows the actions:
  crossing a symbol leads to a slot that awaits the rest, and a branch leads to a slot
  that awaits the chosen symbol before the rest. **The first slot of a rule awaits its
  body** (`awaits_base`);
* the first slots of a nonterminal are the bases of its rules (`mem_firstSlots_iff`).
-/

namespace GeneralLL

/-! ## Closed grammars -/

namespace Grammar

variable {μ : Type} [Matcher μ] {g : Grammar μ}

/-- What is checked before a grammar is compiled. -/
structure Closed (g : Grammar μ) : Prop where
  /-- The start symbol has rules. -/
  start : g.hasNonterminal g.start
  /-- It has no parameters. -/
  start_parameters : g.parametersOf g.start = []
  /-- Every call names a nonterminal with rules, and passes as many arguments as it takes. -/
  calls : ∀ r ∈ g.rules, ∀ s ∈ r.body, ∀ call ∈ s.calls,
    g.hasNonterminal call.1 ∧ (g.parametersOf call.1).length = call.2.length

theorem closed_of_check (h : g.check = .ok ()) : g.Closed := by
  unfold check at h
  split at h
  · exact absurd h (by simp)
  · rename_i hstart
    split at h
    · exact absurd h (by simp)
    · rename_i hparameters
      refine ⟨by simpa using hstart, by simpa using hparameters, ?_⟩
      intro r hr s hs call hcall
      have hrule := Except.forM_eq_ok_iff.mp h r hr
      have hok := Except.forM_eq_ok_iff.mp hrule call (List.mem_flatMap.mpr ⟨s, hs, hcall⟩)
      unfold checkCall at hok
      dsimp only at hok
      split at hok
      · exact absurd hok (by simp)
      · rename_i hname
        split at hok
        · exact absurd hok (by simp)
        · rename_i hlength
          exact ⟨by simpa using hname, by simpa using hlength⟩

omit [Matcher μ] in
theorem hasNonterminal_iff {name : String} :
    g.hasNonterminal name ↔ name ∈ g.rules.map Rule.head := by
  simp [hasNonterminal, List.any_eq_true]

end Grammar

namespace SlotGraph

variable {μ : Type}

/-! ## Stretches of slots -/

/-- The slots from `base` on are `part`. -/
def Holds (graph : SlotGraph μ) (base : Nat) (part : List (Slot μ)) : Prop :=
  ∀ i, i < part.length → graph.slots[base + i]? = part[i]?

theorem Holds.append_left {graph : SlotGraph μ} {base : Nat} {p q : List (Slot μ)}
    (h : graph.Holds base (p ++ q)) : graph.Holds base p := by
  intro i hi
  rw [h i (by rw [List.length_append]; omega), List.getElem?_append_left hi]

theorem Holds.append_right {graph : SlotGraph μ} {base : Nat} {p q : List (Slot μ)}
    (h : graph.Holds base (p ++ q)) : graph.Holds (base + p.length) q := by
  intro i hi
  have h' := h (p.length + i) (by rw [List.length_append]; omega)
  rw [Nat.add_assoc, h', List.getElem?_append_right (by omega), Nat.add_sub_cancel_left]

theorem Holds.head {graph : SlotGraph μ} {base : Nat} {slot : Slot μ} {q : List (Slot μ)}
    (h : graph.Holds base (slot :: q)) : graph.slots[base]? = some slot := by
  simpa using h 0 (by simp)

theorem Holds.tail {graph : SlotGraph μ} {base : Nat} {slot : Slot μ} {q : List (Slot μ)}
    (h : graph.Holds base (slot :: q)) : graph.Holds (base + 1) q :=
  Holds.append_right (p := [slot]) h

theorem slot_eq {graph : SlotGraph μ} {id : Nat} {slot : Slot μ}
    (h : graph.slots[id]? = some slot) : graph.slot id = slot := by
  rw [SlotGraph.slot, h, Option.getD_some]

/-! ## What a slot awaits -/

/-- A rule with its number and the number of its head. -/
structure Owner (μ : Type) where
  /-- The number of the nonterminal that the rule belongs to. -/
  head : Nat
  /-- The number of the rule. -/
  index : Nat
  /-- The rule itself. -/
  rule : Rule μ

/-- A slot of this rule. -/
def Owner.Owns (o : Owner μ) (slot : Slot μ) : Prop := slot.head = o.head ∧ slot.rule = o.index

/-- At a slot of a rule these symbols are left. -/
inductive Awaits (graph : SlotGraph μ) (sets : FirstFollow) [Matcher μ] (o : Owner μ) :
    Nat → List (Symbol μ) → Prop where
  | complete {id : Nat} {slot : Slot μ} :
      graph.slots[id]? = some slot → o.Owns slot → slot.action = .complete o.rule.returns →
      Awaits graph sets o id []
  | scan {id terminal dest : Nat} {slot : Slot μ} {t : Terminal μ} {notes : Annotations μ}
      {rest : List (Symbol μ)} :
      graph.slots[id]? = some slot → o.Owns slot → slot.action = .scan terminal notes dest →
      graph.terminals.get? terminal = some t → Awaits graph sets o dest rest →
      Awaits graph sets o id (.terminal t notes :: rest)
  | call {id callee dest : Nat} {slot : Slot μ} {name : String} {arguments : List Expr}
      {notes : Annotations μ} {rest : List (Symbol μ)} :
      graph.slots[id]? = some slot → o.Owns slot →
      slot.action = .call callee arguments notes dest →
      callee < graph.nonterminals.size → graph.nonterminalName callee = name →
      (graph.slot dest).lookahead = sets.lookahead o.rule.head rest →
      Awaits graph sets o dest rest →
      Awaits graph sets o id (.call name arguments notes :: rest)
  | ifThen {id ifTrue ifFalse : Nat} {slot : Slot μ} {condition : Expr} {body : Symbol μ}
      {notes : Annotations μ} {rest : List (Symbol μ)} :
      graph.slots[id]? = some slot → o.Owns slot →
      slot.action = .branch condition ifTrue ifFalse →
      Awaits graph sets o ifTrue (body :: rest) → Awaits graph sets o ifFalse rest →
      Awaits graph sets o id (.ifThen condition body notes :: rest)
  | ifThenElse {id ifTrue ifFalse : Nat} {slot : Slot μ} {condition : Expr}
      {body otherwise : Symbol μ} {notes : Annotations μ} {rest : List (Symbol μ)} :
      graph.slots[id]? = some slot → o.Owns slot →
      slot.action = .branch condition ifTrue ifFalse →
      Awaits graph sets o ifTrue (body :: rest) → Awaits graph sets o ifFalse (otherwise :: rest) →
      Awaits graph sets o id (.ifThenElse condition body otherwise notes :: rest)

/-! ## The parts of a compiled grammar -/

section

variable [DecidableEq μ] [Matcher μ]

/-- The numbers of a grammar's names and terminals. -/
def namesOf (g : Grammar μ) : Names μ where
  nonterminals := .ofList (g.start :: g.rules.map Rule.head)
  terminals := .ofList (.epsilon :: g.rules.flatMap fun r => r.body.flatMap Symbol.terminals)

/-- The slots of a grammar, rule by rule, each with its base. -/
def compiledRules (g : Grammar μ) : List (Nat × List (Slot μ)) :=
  compileRules (namesOf g) (.ofGrammar g) 0 0 g.rules

theorem compile_slots (g : Grammar μ) :
    (compile g).slots = ((compiledRules g).flatMap Prod.snd).toArray := rfl

theorem ofGrammar_eq_ok_iff {g : Grammar μ} {graph : SlotGraph μ} :
    ofGrammar g = .ok graph ↔ g.check = .ok () ∧ compile g = graph := by
  unfold ofGrammar
  cases hc : g.check with
  | error e => simp [bind, Except.bind]
  | ok u => simp [bind, Except.bind, pure, Except.pure]

/-- Rules are laid out one behind the other. -/
theorem compileRules_getElem? (names : Names μ) (sets : FirstFollow) {rules : List (Rule μ)} :
    ∀ (index base : Nat) {k : Nat} {r : Rule μ}, rules[k]? = some r →
      ∃ pre post, (compileRules names sets index base rules)[k]?
          = some (base + pre.length, compileRule names sets (index + k) (base + pre.length) r) ∧
        (compileRules names sets index base rules).flatMap Prod.snd
          = pre ++ (compileRule names sets (index + k) (base + pre.length) r ++ post) := by
  induction rules with
  | nil => intro index base k r h; exact absurd h (by simp)
  | cons q rest ih =>
    intro index base k r h
    rw [compileRules]
    cases k with
    | zero =>
      rw [List.getElem?_cons_zero] at h
      obtain rfl := Option.some.inj h
      exact ⟨[], _, rfl, List.flatMap_cons⟩
    | succ k =>
      rw [List.getElem?_cons_succ] at h
      obtain ⟨pre, post, hget, hall⟩ :=
        ih (index + 1) (base + (compileRule names sets index base q).length) h
      refine ⟨compileRule names sets index base q ++ pre, post, ?_, ?_⟩
      · rw [List.getElem?_cons_succ, hget, List.length_append]
        simp only [Nat.add_assoc, Nat.add_comm 1 k]
      · rw [List.flatMap_cons, hall, List.length_append, List.append_assoc]
        simp only [Nat.add_assoc, Nat.add_comm 1 k]

/-- The number of the first slot of a rule. -/
def base (g : Grammar μ) (index : Nat) : Nat := ((compiledRules g)[index]?.elim 0 Prod.fst)

theorem compiledRules_getElem? {g : Grammar μ} {k : Nat} {r : Rule μ} (h : g.rules[k]? = some r) :
    (compiledRules g)[k]?
        = some (base g k, compileRule (namesOf g) (.ofGrammar g) k (base g k) r) ∧
      (compile g).Holds (base g k) (compileRule (namesOf g) (.ofGrammar g) k (base g k) r) := by
  obtain ⟨pre, post, hget, hall⟩ := compileRules_getElem? (namesOf g) (.ofGrammar g) 0 0 h
  have hbase : base g k = 0 + pre.length := by
    rw [base, compiledRules, hget]
    rfl
  rw [Nat.zero_add k, ← hbase] at hget hall
  refine ⟨hget, fun i hi => ?_⟩
  have hpos : base g k + i = pre.length + i := by omega
  rw [compile_slots, compiledRules, hall, List.getElem?_toArray, hpos,
    List.getElem?_append_right (by omega), Nat.add_sub_cancel_left, List.getElem?_append_left hi]

omit [Matcher μ] in
theorem compileBody_cons {names : Names μ} {place : Nat → Place} {base position next : Nat}
    {s : Symbol μ} {rest : List (Symbol μ)} :
    compileBody names place base position next (s :: rest)
      = ((compileSymbol names (base + position + 1) (place position) next s).1 ::
          (compileBody names place base (position + 1) (next
            + (compileSymbol names (base + position + 1) (place position) next s).2.length) rest).1,
        (compileSymbol names (base + position + 1) (place position) next s).2 ++
          (compileBody names place base (position + 1) (next
            + (compileSymbol names (base + position + 1) (place position) next s).2.length)
            rest).2) := rfl

omit [Matcher μ] in
/-- Symbol `i` of a body is compiled for the slot behind it, and the slots of its branches lie
together. -/
theorem compileBody_getElem? (names : Names μ) (place : Nat → Place) (base : Nat)
    {body : List (Symbol μ)} :
    ∀ (position next : Nat) {i : Nat} {s : Symbol μ}, body[i]? = some s →
      ∃ pre post, (compileBody names place base position next body).1[i]?
          = some (compileSymbol names (base + (position + i) + 1) (place (position + i))
              (next + pre.length) s).1 ∧
        (compileBody names place base position next body).2
          = pre ++ ((compileSymbol names (base + (position + i) + 1) (place (position + i))
              (next + pre.length) s).2 ++ post) := by
  induction body with
  | nil => intro position next i s h; exact absurd h (by simp)
  | cons q rest ih =>
    intro position next i s h
    rw [compileBody_cons]
    cases i with
    | zero =>
      rw [List.getElem?_cons_zero] at h
      obtain rfl := Option.some.inj h
      exact ⟨[], _, rfl, rfl⟩
    | succ i =>
      rw [List.getElem?_cons_succ] at h
      obtain ⟨pre, post, hget, hall⟩ := ih (position + 1)
        (next + (compileSymbol names (base + position + 1) (place position) next q).2.length) h
      have hpos : position + 1 + i = position + (i + 1) := by omega
      refine ⟨(compileSymbol names (base + position + 1) (place position) next q).2 ++ pre, post,
        ?_, ?_⟩
      · rw [List.getElem?_cons_succ, hget, List.length_append, hpos, Nat.add_assoc next]
      · rw [hall, List.length_append, List.append_assoc, hpos, Nat.add_assoc next]

omit [Matcher μ] in
theorem length_compileBody {names : Names μ} {place : Nat → Place} {base : Nat}
    {body : List (Symbol μ)} :
    ∀ {position next : Nat},
      (compileBody names place base position next body).1.length = body.length := by
  induction body with
  | nil => intros; rfl
  | cons q rest ih => intros; rw [compileBody_cons, List.length_cons, List.length_cons, ih]

/-- The place of the dot before symbol `i` of a rule. -/
def placeOf (g : Grammar μ) (index : Nat) (r : Rule μ) (i : Nat) : Place :=
  ⟨((namesOf g).nonterminals.find? r.head).getD 0, index, i, r.dotted i⟩

/-- **The slots of a rule.** The slot at `base + i` is the place before symbol `i`; it crosses
the symbol, and behind the last one the rule is complete. -/
theorem body_slot {g : Grammar μ} {k i : Nat} {r : Rule μ} (hr : g.rules[k]? = some r)
    (hi : i ≤ r.body.length) :
    ∃ action : Action μ, (compile g).slots[base g k + i]?
        = some ((placeOf g k r i).slot ((FirstFollow.ofGrammar g).lookahead r.head (r.body.drop i))
            action) ∧
      (i = r.body.length → action = .complete r.returns) ∧
      ∀ s, r.body[i]? = some s → ∃ next,
        action = (compileSymbol (namesOf g) (base g k + i + 1) (placeOf g k r i) next s).1 ∧
        (compile g).Holds next
          (compileSymbol (namesOf g) (base g k + i + 1) (placeOf g k r i) next s).2 := by
  have hholds := (compiledRules_getElem? hr).2
  unfold compileRule at hholds
  dsimp only at hholds
  -- the slots of a rule are its body with the end behind it, and then its branches
  change (compile g).Holds (base g k)
    (((compileBody (namesOf g) (placeOf g k r) (base g k) 0 (base g k + r.body.length + 1) r.body).1
      ++ [Action.complete r.returns]).mapIdx _ ++ (compileBody (namesOf g) (placeOf g k r) (base g k)
        0 (base g k + r.body.length + 1) r.body).2) at hholds
  have hlen : ((compileBody (namesOf g) (placeOf g k r) (base g k) 0
      (base g k + r.body.length + 1) r.body).1 ++ [Action.complete r.returns]).length
      = r.body.length + 1 := by
    rw [List.length_append, length_compileBody, List.length_singleton]
  have hslots := hholds.append_left
  have hbranches := hholds.append_right
  rw [List.length_mapIdx, hlen] at hbranches
  have hslot := hslots i (by rw [List.length_mapIdx, hlen]; omega)
  rw [List.getElem?_mapIdx] at hslot
  rcases Nat.lt_or_eq_of_le hi with hlt | heq
  · -- the branches of a symbol lie between those of the symbols around it
    obtain ⟨pre, post, hget, hall⟩ := compileBody_getElem? (namesOf g) (placeOf g k r) (base g k)
      0 (base g k + r.body.length + 1) (List.getElem?_eq_getElem hlt)
    rw [Nat.zero_add] at hget hall
    rw [List.getElem?_append_left (by rw [length_compileBody]; exact hlt), hget,
      Option.map_some] at hslot
    refine ⟨_, hslot, fun h => absurd h (by omega), fun s hs => ?_⟩
    rw [List.getElem?_eq_getElem hlt] at hs
    obtain rfl := Option.some.inj hs
    refine ⟨_, rfl, ?_⟩
    rw [hall] at hbranches
    exact hbranches.append_right.append_left
  · rw [heq, List.getElem?_append_right (Nat.le_of_eq length_compileBody),
      length_compileBody, Nat.sub_self, List.getElem?_cons_zero, Option.map_some, ← heq] at hslot
    refine ⟨_, hslot, fun _ => rfl, fun s hs => ?_⟩
    rw [heq, List.getElem?_eq_none (Nat.le_refl _)] at hs
    exact absurd hs (by simp)

/-! ## Rules are awaited in full -/

/-- Names and terminals that a symbol mentions are numbered. -/
def Names.Cover (names : Names μ) (s : Symbol μ) : Prop :=
  (∀ t ∈ s.terminals, t ∈ names.terminals.toList) ∧
    ∀ call ∈ s.calls, call.1 ∈ names.nonterminals.toList

omit [Matcher μ] in
theorem get?_find?_getD {α : Type} [DecidableEq α] {n : Numbering α} {a : α} (h : a ∈ n.toList) :
    n.get? ((n.find? a).getD 0) = some a := by
  obtain ⟨i, hi⟩ := Option.isSome_iff_exists.mp (Numbering.find?_isSome_iff.mpr h)
  rw [hi, Option.getD_some]
  exact Numbering.find?_eq_some_iff.mp hi

theorem nonterminals_getElem? {g : Grammar μ} {i : Nat} :
    (compile g).nonterminals[i]?.map Nonterminal.name = (namesOf g).nonterminals.get? i := by
  show ((namesOf g).nonterminals.items.map _)[i]?.map _ = _
  rw [Array.getElem?_map, Option.map_map]
  exact Option.map_id'

theorem nonterminalName_of_get? {g : Grammar μ} {i : Nat} {name : String}
    (h : (namesOf g).nonterminals.get? i = some name) :
    i < (compile g).nonterminals.size ∧ (compile g).nonterminalName i = name := by
  rw [← nonterminals_getElem?] at h
  obtain ⟨nt, hnt, rfl⟩ := Option.map_eq_some_iff.mp h
  obtain ⟨hi, -⟩ := Array.getElem?_eq_some_iff.mp hnt
  exact ⟨hi, by rw [nonterminalName, nonterminal, hnt, Option.getD_some]⟩

/-- A slot whose action crosses a symbol awaits the symbol before what is awaited behind it. -/
theorem awaits_symbol {g : Grammar μ} {o : Owner μ} {dest : Nat} {rest : List (Symbol μ)}
    (hdest : Awaits (compile g) (.ofGrammar g) o dest rest)
    (hlook : ((compile g).slot dest).lookahead
      = (FirstFollow.ofGrammar g).lookahead o.rule.head rest) :
    ∀ (s : Symbol μ) (place : Place) {id next : Nat} {slot : Slot μ}, (namesOf g).Cover s →
      (compile g).slots[id]? = some slot → o.Owns slot → place.head = o.head → place.rule = o.index →
      slot.action = (compileSymbol (namesOf g) dest place next s).1 →
      (compile g).Holds next (compileSymbol (namesOf g) dest place next s).2 →
      Awaits (compile g) (.ofGrammar g) o id (s :: rest)
  | .terminal t notes, place, id, next, slot, hcover, hslot, howns, _, _, haction, _ =>
    .scan hslot howns haction
      (get?_find?_getD (hcover.1 t (List.mem_singleton_self t))) hdest
  | .call name arguments notes, place, id, next, slot, hcover, hslot, howns, _, _, haction, _ =>
    have hname := nonterminalName_of_get?
      (get?_find?_getD (hcover.2 (name, arguments) (List.mem_singleton_self _)))
    .call hslot howns haction hname.1 hname.2 hlook hdest
  | .ifThen condition body notes, place, id, next, slot, hcover, hslot, howns, hhead, hrule,
      haction, hholds =>
    .ifThen hslot howns haction
      (awaits_symbol hdest hlook body (place.branch "then") hcover hholds.head ⟨hhead, hrule⟩ hhead
        hrule rfl hholds.tail)
      hdest
  | .ifThenElse condition body otherwise notes, place, id, next, slot, hcover, hslot, howns, hhead,
      hrule, haction, hholds => by
    have hthen := hholds.append_left
    have helse := hholds.append_right
    rw [List.length_cons, Nat.add_comm _ 1, ← Nat.add_assoc] at helse
    -- the slots of the first branch come before those of the second
    refine .ifThenElse hslot howns haction
      (awaits_symbol hdest hlook body (place.branch "then") ?_ hthen.head ⟨hhead, hrule⟩ hhead hrule
        rfl hthen.tail)
      (awaits_symbol hdest hlook otherwise (place.branch "else") ?_ helse.head ⟨hhead, hrule⟩ hhead
        hrule rfl helse.tail)
    · exact ⟨fun t ht => hcover.1 t (List.mem_append_left _ ht),
        fun call hcall => hcover.2 call (List.mem_append_left _ hcall)⟩
    · exact ⟨fun t ht => hcover.1 t (List.mem_append_right _ ht),
        fun call hcall => hcover.2 call (List.mem_append_right _ hcall)⟩

/-- A rule of a grammar as the owner of its slots. -/
def ownerOf (g : Grammar μ) (index : Nat) (r : Rule μ) : Owner μ :=
  ⟨((namesOf g).nonterminals.find? r.head).getD 0, index, r⟩

omit [Matcher μ] in
theorem cover_of_mem {g : Grammar μ} (hclosed : g.Closed) {r : Rule μ} {s : Symbol μ}
    (hr : r ∈ g.rules) (hs : s ∈ r.body) : (namesOf g).Cover s := by
  refine ⟨fun t ht => ?_, fun call hcall => ?_⟩
  · refine Numbering.mem_ofList.mpr (List.mem_cons_of_mem _ ?_)
    exact List.mem_flatMap.mpr ⟨r, hr, List.mem_flatMap.mpr ⟨s, hs, ht⟩⟩
  · have hname := (hclosed.calls r hr s hs call hcall).1
    exact Numbering.mem_ofList.mpr
      (List.mem_cons_of_mem _ (Grammar.hasNonterminal_iff.mp hname))

/-- **The slot before symbol `i` of a rule awaits the rest of the body.** -/
theorem awaits_base {g : Grammar μ} (hclosed : g.Closed) {k : Nat} {r : Rule μ}
    (hr : g.rules[k]? = some r) {i : Nat} (hi : i ≤ r.body.length) :
    Awaits (compile g) (.ofGrammar g) (ownerOf g k r) (base g k + i) (r.body.drop i) := by
  obtain ⟨d, hd⟩ : ∃ d, r.body.length - i = d := ⟨_, rfl⟩
  induction d generalizing i with
  | zero =>
    obtain ⟨action, hslot, hend, -⟩ := body_slot hr hi
    have hlen : i = r.body.length := by omega
    rw [hlen, List.drop_length]
    rw [hlen] at hslot
    exact .complete hslot ⟨rfl, rfl⟩ (hend hlen)
  | succ d ih =>
    have hlt : i < r.body.length := by omega
    obtain ⟨action, hslot, -, hsymbol⟩ := body_slot hr hi
    obtain ⟨next, haction, hholds⟩ := hsymbol _ (List.getElem?_eq_getElem hlt)
    obtain ⟨action', hslot', -⟩ := body_slot hr (i := i + 1) hlt
    have hcover := cover_of_mem hclosed (List.mem_of_getElem? hr) (List.getElem_mem hlt)
    rw [List.drop_eq_getElem_cons hlt]
    have hlook : ((compile g).slot (base g k + i + 1)).lookahead
        = (FirstFollow.ofGrammar g).lookahead r.head (r.body.drop (i + 1)) := by
      rw [Nat.add_assoc, slot_eq hslot']
      rfl
    exact awaits_symbol (ih hlt (by omega)) hlook _ _ hcover hslot ⟨rfl, rfl⟩ rfl rfl haction hholds

/-! ## Nonterminals -/

theorem nonterminal_of_lt {g : Grammar μ} {i : Nat} (hi : i < (compile g).nonterminals.size) :
    ∃ name, (namesOf g).nonterminals.get? i = some name ∧
      (compile g).nonterminal i = ⟨name, g.parametersOf name,
        (g.rules.zip (compiledRules g)).filterMap fun (r, base, _) =>
          if r.head = name then some base else none⟩ := by
  have hsize : (compile g).nonterminals.size = (namesOf g).nonterminals.items.size :=
    Array.size_map ..
  have hget : (namesOf g).nonterminals.get? i = some ((namesOf g).nonterminals.items[i]) :=
    Array.getElem?_eq_getElem (hsize ▸ hi)
  refine ⟨_, hget, ?_⟩
  show ((Array.map _ (namesOf g).nonterminals.items)[i]?).getD _ = _
  unfold Numbering.get? at hget
  rw [Array.getElem?_map, hget]
  rfl

/-- **The first slots of a nonterminal are the bases of its rules.** -/
theorem mem_firstSlots_iff {g : Grammar μ} {i id : Nat}
    (hi : i < (compile g).nonterminals.size) :
    id ∈ ((compile g).nonterminal i).firstSlots ↔
      ∃ k r, g.rules[k]? = some r ∧ r.head = (compile g).nonterminalName i ∧ id = base g k := by
  obtain ⟨name, -, hnt⟩ := nonterminal_of_lt hi
  rw [nonterminalName, hnt]
  dsimp only
  rw [List.mem_filterMap]
  constructor
  · intro h
    obtain ⟨⟨r, b, slots⟩, hmem, hsome⟩ := h
    obtain ⟨k, hk⟩ := List.mem_iff_getElem?.mp hmem
    obtain ⟨hr, hb⟩ := List.getElem?_zip_eq_some.mp hk
    rw [(compiledRules_getElem? hr).1] at hb
    obtain ⟨rfl, -⟩ := Prod.mk.inj (Option.some.inj hb)
    by_cases hhead : r.head = name
    · simp only [hhead, if_true, Option.some.injEq] at hsome
      exact ⟨k, r, hr, hhead, hsome.symm⟩
    · simp [hhead] at hsome
  · intro h
    obtain ⟨k, r, hr, hhead, rfl⟩ := h
    refine ⟨(r, base g k, _), List.mem_iff_getElem?.mpr ⟨k, List.getElem?_zip_eq_some.mpr
      ⟨hr, (compiledRules_getElem? hr).1⟩⟩, ?_⟩
    simp [hhead]

theorem parameters_eq {g : Grammar μ} {i : Nat} (hi : i < (compile g).nonterminals.size) :
    ((compile g).nonterminal i).parameters = g.parametersOf ((compile g).nonterminalName i) := by
  obtain ⟨name, -, hnt⟩ := nonterminal_of_lt hi
  rw [nonterminalName, hnt]

/-- A nonterminal is known by its name. -/
theorem nonterminalName_inj {g : Grammar μ} {i j : Nat} (hi : i < (compile g).nonterminals.size)
    (hj : j < (compile g).nonterminals.size)
    (h : (compile g).nonterminalName i = (compile g).nonterminalName j) : i = j := by
  obtain ⟨a, ha, hnti⟩ := nonterminal_of_lt hi
  obtain ⟨b, hb, hntj⟩ := nonterminal_of_lt hj
  rw [nonterminalName, nonterminalName, hnti, hntj] at h
  obtain rfl : a = b := h
  exact Numbering.get?_inj ha hb

theorem nonterminalName_start (g : Grammar μ) :
    (compile g).start < (compile g).nonterminals.size ∧
      (compile g).nonterminalName (compile g).start = g.start :=
  nonterminalName_of_get? Numbering.get?_ofList_zero

theorem head_ownerOf {g : Grammar μ} {k : Nat} {r : Rule μ} (hr : g.rules[k]? = some r) :
    (ownerOf g k r).head < (compile g).nonterminals.size ∧
      (compile g).nonterminalName (ownerOf g k r).head = r.head := by
  refine nonterminalName_of_get? (get?_find?_getD (Numbering.mem_ofList.mpr ?_))
  exact List.mem_cons_of_mem _ (List.mem_map_of_mem (List.mem_of_getElem? hr))

end

end SlotGraph

end GeneralLL
