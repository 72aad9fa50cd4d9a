import GeneralLL.Proofs.Places

/-!
# Compilation preserves every rule

Slots are laid out rule by rule, but the slots of branches come behind those of their rule, and
a branch of a branch comes in between. This file says that no action goes astray because of it
(`preserves_compile`):

* **From place to place the slots of a rule cross its symbols,** one after the other and each
  with all that it carries, and a branch leads back to the place behind its conditional symbol;
* every slot belongs to a place of a rule (`exists_before`), so every number in an action is
  that of a slot, a nonterminal or a terminal;
* an action leads to a slot with less of its rule left (`Before.of_leads`), so **no way along
  the slots comes back to where it was.**
-/

namespace GeneralLL

open SlotGraph Relation

/-- The slots that an action leads to. -/
def Action.targets {μ : Type} : Action μ → List Nat
  | .scan _ _ dest => [dest]
  | .call _ _ _ dest => [dest]
  | .branch _ ifTrue ifFalse => [ifTrue, ifFalse]
  | .complete _ => []

namespace SlotGraph

variable {μ : Type}

/-- All numbers in an action are those of something. -/
def InRange (graph : SlotGraph μ) : Action μ → Prop
  | .scan terminal _ dest => terminal < graph.terminals.size ∧ dest < graph.slots.size
  | .call callee _ _ dest => callee < graph.nonterminals.size ∧ dest < graph.slots.size
  | .branch _ ifTrue ifFalse => ifTrue < graph.slots.size ∧ ifFalse < graph.slots.size
  | .complete _ => True

/-- The action of a slot leads to another. -/
def Leads (graph : SlotGraph μ) (id id' : Nat) : Prop := id' ∈ (graph.slot id).action.targets

/-! ## Every slot has a place -/

section

variable [DecidableEq μ] [Matcher μ]

/-- The rules leave no slot out. -/
theorem compileRules_cover (names : Names μ) (sets : FirstFollow) {rules : List (Rule μ)} :
    ∀ (index base : Nat) {j : Nat},
      j < ((compileRules names sets index base rules).flatMap Prod.snd).length →
      ∃ (k : Nat) (r : Rule μ) (first : Nat) (slots : List (Slot μ)), rules[k]? = some r ∧
        (compileRules names sets index base rules)[k]? = some (first, slots) ∧
        first ≤ base + j ∧ base + j < first + slots.length := by
  induction rules with
  | nil => intro index base j h; exact absurd h (Nat.not_lt_zero j)
  | cons q rest ih =>
    intro index base j h
    rw [compileRules, List.flatMap_cons, List.length_append] at h
    dsimp only at h
    rcases Nat.lt_or_ge j (compileRule names sets index base q).length with hlt | hge
    · exact ⟨0, q, base, _, rfl, rfl, Nat.le_add_right _ _, by omega⟩
    · obtain ⟨k, r, first, slots, hr, hget, hle, hlt⟩ := ih (index + 1)
        (base + (compileRule names sets index base q).length)
        (j := j - (compileRule names sets index base q).length) (by omega)
      exact ⟨k + 1, r, first, slots, hr, hget, by omega, by omega⟩

omit [Matcher μ] in
/-- Every slot behind those of a body belongs to a branch of one of the symbols. -/
theorem compileBody_cover (names : Names μ) (place : Nat → Place) (base : Nat)
    {body : List (Symbol μ)} :
    ∀ (position next : Nat) {j : Nat},
      j < (compileBody names place base position next body).2.length →
      ∃ i s pre post, body[i]? = some s ∧
        (compileBody names place base position next body).2
          = pre ++ ((compileSymbol names (base + (position + i) + 1) (place (position + i))
              (next + pre.length) s).2 ++ post) ∧
        pre.length ≤ j ∧
        j < pre.length + (compileSymbol names (base + (position + i) + 1) (place (position + i))
              (next + pre.length) s).2.length := by
  induction body with
  | nil => intro position next j h; exact absurd h (Nat.not_lt_zero j)
  | cons q rest ih =>
    intro position next j h
    rw [compileBody_cons, List.length_append] at h
    rw [compileBody_cons]
    rcases Nat.lt_or_ge j (compileSymbol names (base + position + 1) (place position) next q).2.length
      with hlt | hge
    · exact ⟨0, q, [], _, rfl, rfl, Nat.zero_le _, by simpa using hlt⟩
    · obtain ⟨i, s, pre, post, hs, hall, hle, hlt⟩ := ih (position + 1)
        (next + (compileSymbol names (base + position + 1) (place position) next q).2.length)
        (j := j - (compileSymbol names (base + position + 1) (place position) next q).2.length)
        (by omega)
      have hposition : position + 1 + i = position + (i + 1) := by omega
      rw [hposition] at hall hlt
      refine ⟨i + 1, s, (compileSymbol names (base + position + 1) (place position) next q).2 ++ pre,
        post, hs, ?_, ?_, ?_⟩
      · rw [hall, List.length_append, List.append_assoc, Nat.add_assoc next]
      · rw [List.length_append]
        omega
      · rw [List.length_append, ← Nat.add_assoc next]
        omega

/-- A slot crosses what may have the place of a symbol: the symbol itself, or one inside it. -/
def CrossesWithin (graph : SlotGraph μ) (o : Owner μ) (position dest id : Nat) (s : Symbol μ) :
    Prop :=
  ∃ s' : Symbol μ, (∀ b ∈ s'.branches, b ∈ s.branches) ∧ s'.size ≤ s.size ∧
    graph.Crosses o position dest id s'

section

variable {g : Grammar μ} {o : Owner μ} {dest next j : Nat}

omit [Matcher μ] in
theorem CrossesWithin.mono {graph : SlotGraph μ} {position id : Nat} {s s' : Symbol μ}
    (h : graph.CrossesWithin o position dest id s) (hbranches : ∀ b ∈ s.branches, b ∈ s'.branches)
    (hsize : s.size ≤ s'.size) : graph.CrossesWithin o position dest id s' := by
  obtain ⟨t, ht, hle, hcrosses⟩ := h
  exact ⟨t, fun b hb => hbranches b (ht b hb), Nat.le_trans hle hsize, hcrosses⟩

/-- The first slot of a branch crosses the symbol of the branch, and the others are inside it. -/
theorem crosses_branch (body : Symbol μ) (place : Place) (hcover : (namesOf g).Cover body)
    (hhead : place.head = o.head) (hrule : place.rule = o.index)
    (hholds : (compile g).Holds next (place.slot .empty
      (compileSymbol (namesOf g) dest place (next + 1) body).1 ::
        (compileSymbol (namesOf g) dest place (next + 1) body).2))
    (hinner : ∀ j, j < (compileSymbol (namesOf g) dest place (next + 1) body).2.length →
      (compile g).CrossesWithin o place.position dest (next + 1 + j) body)
    (hj : j < (compileSymbol (namesOf g) dest place (next + 1) body).2.length + 1) :
    (compile g).CrossesWithin o place.position dest (next + j) body := by
  cases j with
  | zero =>
    exact ⟨body, fun _ hb => hb, Nat.le_refl _,
      crosses_symbol body place hcover hholds.head ⟨hhead, hrule⟩ rfl hhead hrule rfl hholds.tail⟩
  | succ j =>
    rw [← Nat.add_assoc, Nat.add_right_comm]
    exact hinner j (Nat.lt_of_succ_lt_succ hj)

/-- **The slots inside a symbol cross what is inside it.** -/
theorem crosses_inner : ∀ (s : Symbol μ) (place : Place) {next j : Nat}, (namesOf g).Cover s →
    place.head = o.head → place.rule = o.index →
    (compile g).Holds next (compileSymbol (namesOf g) dest place next s).2 →
    j < (compileSymbol (namesOf g) dest place next s).2.length →
    (compile g).CrossesWithin o place.position dest (next + j) s
  | .terminal .., place, next, j, _, _, _, _, hj | .call .., place, next, j, _, _, _, _, hj =>
    absurd hj (Nat.not_lt_zero j)
  | .ifThen condition body notes, place, next, j, hcover, hhead, hrule, hholds, hj =>
    (crosses_branch body (place.branch "then") hcover hhead hrule hholds
      (fun _ hj => crosses_inner body (place.branch "then") hcover hhead hrule hholds.tail hj)
      hj).mono (fun _ hb => hb) (Nat.le_succ body.size)
  | .ifThenElse condition body otherwise notes, place, next, j, hcover, hhead, hrule, hholds, hj => by
    have hthen : (namesOf g).Cover body := ⟨fun t ht => hcover.1 t (List.mem_append_left _ ht),
      fun call hcall => hcover.2 call (List.mem_append_left _ hcall)⟩
    have helse : (namesOf g).Cover otherwise := ⟨fun t ht => hcover.1 t (List.mem_append_right _ ht),
      fun call hcall => hcover.2 call (List.mem_append_right _ hcall)⟩
    have hfirst := hholds.append_left
    have hsecond := hholds.append_right
    rw [List.length_cons, Nat.add_comm _ 1, ← Nat.add_assoc] at hsecond
    -- the slots of the first branch come before those of the second
    rcases Nat.lt_or_ge j
      ((compileSymbol (namesOf g) dest (place.branch "then") (next + 1) body).2.length + 1)
      with hlt | hge
    · refine (crosses_branch body (place.branch "then") hthen hhead hrule hfirst
        (fun _ hj => crosses_inner body (place.branch "then") hthen hhead hrule hfirst.tail hj)
        hlt).mono (fun _ hb => List.mem_append_left _ hb) ?_
      rw [Symbol.size]
      omega
    · simp only [compileSymbol, List.length_append, List.length_cons] at hj
      obtain ⟨i, rfl⟩ := Nat.exists_eq_add_of_le hge
      have hbranches : ∀ b ∈ otherwise.branches,
          b ∈ (Symbol.ifThenElse condition body otherwise notes).branches :=
        fun _ hb => List.mem_append_right _ hb
      have hcrosses := (crosses_branch (j := i) otherwise (place.branch "else") helse hhead hrule
        hsecond
        (fun _ hj => crosses_inner otherwise (place.branch "else") helse hhead hrule hsecond.tail hj)
        (by omega)).mono hbranches (by rw [Symbol.size]; omega)
      rwa [Nat.add_assoc next 1, Nat.add_comm 1, Nat.add_assoc next] at hcrosses

end

/-- The slots of the branches of a rule. -/
def branchSlots (g : Grammar μ) (k : Nat) (r : Rule μ) : List (Slot μ) :=
  (compileBody (namesOf g) (placeOf g k r) (base g k) 0 (base g k + r.body.length + 1) r.body).2

/-- A rule takes a slot for each place of the dot, and behind these come those of its branches. -/
theorem rule_slots {g : Grammar μ} {k : Nat} {r : Rule μ} (hr : g.rules[k]? = some r) :
    (compileRule (namesOf g) (.ofGrammar g) k (base g k) r).length
        = r.body.length + 1 + (branchSlots g k r).length ∧
      (compile g).Holds (base g k + r.body.length + 1) (branchSlots g k r) := by
  have hholds := (compiledRules_getElem? hr).2
  have hrule : ∃ places, places.length = r.body.length + 1 ∧
      compileRule (namesOf g) (.ofGrammar g) k (base g k) r = places ++ branchSlots g k r := by
    refine ⟨_, ?_, rfl⟩
    rw [List.length_mapIdx, List.length_append, length_compileBody, List.length_singleton]
  obtain ⟨places, hlength, heq⟩ := hrule
  rw [heq] at hholds ⊢
  have hbranches := hholds.append_right
  rw [hlength, ← Nat.add_assoc] at hbranches
  exact ⟨by rw [List.length_append, hlength], hbranches⟩

/-- **Every slot of a compiled grammar has a place:** it is before a symbol of a rule, or at the end
of one. -/
theorem exists_before {g : Grammar μ} (hclosed : g.Closed) {id : Nat}
    (hid : id < (compile g).slots.size) :
    ∃ k r i symbols, g.rules[k]? = some r ∧ (compile g).Before g k r i id symbols := by
  rw [compile_slots, List.size_toArray] at hid
  obtain ⟨k, r, first, slots, hr, hget, hle, hlt⟩ :=
    compileRules_cover (namesOf g) (.ofGrammar g) 0 0 hid
  obtain ⟨hlength, hbranches⟩ := rule_slots hr
  obtain ⟨rfl, rfl⟩ :=
    Prod.mk.inj (Option.some.inj (hget.symm.trans (compiledRules_getElem? hr).1))
  rw [Nat.zero_add] at hle hlt
  obtain ⟨j, rfl⟩ := Nat.exists_eq_add_of_le hle
  rcases Nat.lt_or_ge j (r.body.length + 1) with hbody | hbranch
  · exact ⟨k, r, j, _, hr, before_base hclosed hr (Nat.le_of_lt_succ hbody)⟩
  · -- the slot belongs to a branch of a symbol
    obtain ⟨m, rfl⟩ := Nat.exists_eq_add_of_le hbranch
    have hm : m < (branchSlots g k r).length := by omega
    obtain ⟨i, s, pre, post, hs, hall, hpre, hlt⟩ := compileBody_cover (namesOf g) (placeOf g k r)
      (base g k) 0 (base g k + r.body.length + 1) hm
    rw [Nat.zero_add] at hall hlt
    rw [branchSlots, hall] at hbranches
    obtain ⟨n, rfl⟩ := Nat.exists_eq_add_of_le hpre
    have hcover := cover_of_mem hclosed (List.mem_of_getElem? hr) (List.mem_of_getElem? hs)
    obtain ⟨s', hsub, hsize, hcrosses⟩ := crosses_inner (o := ownerOf g k r) s (placeOf g k r i)
      hcover rfl rfl hbranches.append_right.append_left (Nat.lt_of_add_lt_add_left hlt)
    refine ⟨k, r, i, s' :: r.body.drop (i + 1), hr, .symbol hs hsub hsize ?_⟩
    have hid : base g k + (r.body.length + 1 + (pre.length + n))
        = base g k + r.body.length + 1 + pre.length + n := by omega
    rw [hid]
    exact hcrosses

/-! ## Where actions lead -/

section

variable {g : Grammar μ} {k i id : Nat} {r : Rule μ} {symbols : List (Symbol μ)}

/-- **An action leads to a slot with less of the rule left.** -/
theorem Before.of_leads (hclosed : g.Closed) (hr : g.rules[k]? = some r)
    (h : (compile g).Before g k r i id symbols) {id' : Nat} (hleads : (compile g).Leads id id') :
    ∃ i' symbols', (compile g).Before g k r i' id' symbols' ∧ weight symbols' < weight symbols := by
  unfold Leads at hleads
  cases h with
  | atEnd _ _ haction =>
    rw [haction] at hleads
    exact absurd hleads List.not_mem_nil
  | @symbol _ _ s s' hs hbranches hsize hcrosses =>
    have hbehind := before_base hclosed hr (i := i + 1) (List.getElem?_eq_some_iff.mp hs).1
    have hrest := weight_rest_lt s' (r.body.drop (i + 1))
    cases hcrosses with
    | scan _ haction | call _ haction =>
      rw [haction] at hleads
      obtain rfl := List.mem_singleton.mp hleads
      exact ⟨_, _, hbehind, hrest⟩
    | @ifThen _ _ _ body _ _ haction htrue =>
      rw [haction] at hleads
      rw [Symbol.size] at hsize
      have hbody : ∀ b ∈ body.branches, b ∈ s.branches := hbranches
      rcases List.mem_pair.mp hleads with rfl | rfl
      · exact ⟨_, _, .symbol hs hbody (by omega) htrue,
          weight_lt (by rw [Symbol.size]; omega)⟩
      · exact ⟨_, _, hbehind, hrest⟩
    | ifThenElse _ haction htrue hfalse =>
      rw [haction] at hleads
      rw [Symbol.size] at hsize
      rcases List.mem_pair.mp hleads with rfl | rfl
      · exact ⟨_, _, .symbol hs (fun b hb => hbranches b (List.mem_append_left _ hb)) (by omega)
          htrue, weight_lt (by rw [Symbol.size]; omega)⟩
      · exact ⟨_, _, .symbol hs (fun b hb => hbranches b (List.mem_append_right _ hb)) (by omega)
          hfalse, weight_lt (by rw [Symbol.size]; omega)⟩

/-- The numbers in the action of a slot are those of something. -/
theorem Before.inRange (hclosed : g.Closed) (hr : g.rules[k]? = some r)
    (h : (compile g).Before g k r i id symbols) :
    (compile g).InRange ((compile g).slot id).action := by
  have hlead {id' : Nat} (hleads : (compile g).Leads id id') : id' < (compile g).slots.size := by
    obtain ⟨i', symbols', hbefore, -⟩ := h.of_leads hclosed hr hleads
    exact hbefore.lies.lt
  unfold Leads at hlead
  cases h with
  | atEnd _ _ haction => rw [haction]; trivial
  | symbol _ _ _ hcrosses =>
    cases hcrosses with
    | scan _ haction hterminal =>
      rw [haction] at hlead ⊢
      exact ⟨(Array.getElem?_eq_some_iff.mp hterminal).1, hlead (List.mem_singleton_self _)⟩
    | call _ haction hcallee =>
      rw [haction] at hlead ⊢
      exact ⟨hcallee, hlead (List.mem_singleton_self _)⟩
    | ifThen _ haction | ifThenElse _ haction =>
      rw [haction] at hlead ⊢
      exact ⟨hlead List.mem_cons_self, hlead (List.mem_cons_of_mem _ (List.mem_singleton_self _))⟩

/-- A slot has nothing to do exactly at the end of its rule. -/
theorem Before.isEnd_iff (h : (compile g).Before g k r i id symbols) :
    ((compile g).slot id).isEnd ↔ i = r.body.length := by
  unfold Slot.isEnd
  cases h with
  | atEnd _ _ haction => simp [haction]
  | symbol hs _ _ hcrosses =>
    have hlt := (List.getElem?_eq_some_iff.mp hs).1
    cases hcrosses with
    | scan _ haction | call _ haction | ifThen _ haction | ifThenElse _ haction =>
      simp [haction, Nat.ne_of_lt hlt]

theorem Before.of_transGen (hclosed : g.Closed) (hr : g.rules[k]? = some r)
    (h : (compile g).Before g k r i id symbols) {id' : Nat}
    (hleads : TransGen (compile g).Leads id id') :
    ∃ i' symbols', (compile g).Before g k r i' id' symbols' ∧ weight symbols' < weight symbols := by
  induction hleads with
  | single hstep => exact h.of_leads hclosed hr hstep
  | tail _ hstep ih =>
    obtain ⟨_, _, hbefore, hlt⟩ := ih
    obtain ⟨i', symbols', hbefore', hlt'⟩ := hbefore.of_leads hclosed hr hstep
    exact ⟨i', symbols', hbefore', Nat.lt_trans hlt' hlt⟩

/-- On a way that came back to its start there would be less and less left of the rule. -/
theorem Before.not_back (hclosed : g.Closed) (hr : g.rules[k]? = some r)
    (hback : TransGen (compile g).Leads id id) :
    ∀ (n : Nat) {i : Nat} {symbols : List (Symbol μ)}, weight symbols ≤ n →
      ¬(compile g).Before g k r i id symbols := by
  intro n
  induction n with
  | zero =>
    intro i symbols hn h
    obtain ⟨_, _, -, hlt⟩ := h.of_transGen hclosed hr hback
    omega
  | succ n ih =>
    intro i symbols hn h
    obtain ⟨_, _, hbefore, hlt⟩ := h.of_transGen hclosed hr hback
    exact ih (by omega) hbefore

/-- **No way along the slots comes back to where it was.** -/
theorem not_transGen_leads (hclosed : g.Closed) (id : Nat) :
    ¬TransGen (compile g).Leads id id := by
  intro hback
  have hid : id < (compile g).slots.size := by
    -- a number without a slot stands for one that is complete
    obtain ⟨id', hleads, -⟩ := TransGen.head'_iff.mp hback
    refine Nat.lt_of_not_le fun hge => ?_
    rw [Leads, SlotGraph.slot, Array.getElem?_eq_none hge] at hleads
    exact absurd hleads List.not_mem_nil
  obtain ⟨k, r, i, symbols, hr, hbefore⟩ := exists_before hclosed hid
  exact Before.not_back hclosed hr hback _ (Nat.le_refl _) hbefore

end

/-! ## Names and terminals -/

section

variable {g : Grammar μ}

/-- A nonterminal has the number of its name. -/
theorem nonterminalId?_eq (name : String) :
    (compile g).nonterminalId? name = (namesOf g).nonterminals.find? name := by
  show ((namesOf g).nonterminals.items.map _).findIdx? _ = _
  rw [Array.findIdx?_map]
  rfl

theorem nonterminalId?_eq_some_iff {name : String} {i : Nat} :
    (compile g).nonterminalId? name = some i ↔
      i < (compile g).nonterminals.size ∧ (compile g).nonterminalName i = name := by
  rw [nonterminalId?_eq, Numbering.find?_eq_some_iff]
  constructor
  · exact nonterminalName_of_get?
  · intro h
    obtain ⟨hi, hname⟩ := h
    obtain ⟨name', hget, hnt⟩ := nonterminal_of_lt hi
    rw [nonterminalName, hnt] at hname
    rw [hget, ← hname]

theorem length_compileRules (names : Names μ) (sets : FirstFollow) (rules : List (Rule μ)) :
    ∀ index base : Nat, (compileRules names sets index base rules).length = rules.length := by
  induction rules with
  | nil => exact fun _ _ => rfl
  | cons r rest ih => exact fun index base => congrArg (· + 1) (ih _ _)

/-- The rules are compiled in order, each from its base on. -/
theorem compiledRules_eq (g : Grammar μ) : compiledRules g = g.rules.zipIdx.map fun rk =>
    (base g rk.2, compileRule (namesOf g) (.ofGrammar g) rk.2 (base g rk.2) rk.1) := by
  have hlength : (compiledRules g).length = g.rules.length := length_compileRules ..
  refine List.ext_getElem? fun k => ?_
  rw [List.getElem?_map, List.getElem?_zipIdx]
  cases hr : g.rules[k]? with
  | none =>
    rw [List.getElem?_eq_none_iff, ← hlength] at hr
    rw [List.getElem?_eq_none hr]
    rfl
  | some r =>
    rw [(compiledRules_getElem? hr).1]
    simp

/-- **The first slots of a nonterminal are the bases of its rules, in order.** -/
theorem firstSlots_eq_map {i : Nat} (hi : i < (compile g).nonterminals.size) :
    ((compile g).nonterminal i).firstSlots
      = (g.rules.zipIdx.filter fun rk => rk.1.head = (compile g).nonterminalName i).map
          fun rk => base g rk.2 := by
  obtain ⟨name, -, hnt⟩ := nonterminal_of_lt hi
  rw [nonterminalName, hnt]
  dsimp only
  have hzip : g.rules.zip (compiledRules g) = g.rules.zipIdx.map fun rk => (rk.1, base g rk.2,
      compileRule (namesOf g) (.ofGrammar g) rk.2 (base g rk.2) rk.1) := by
    calc g.rules.zip (compiledRules g)
        = (g.rules.zipIdx.map Prod.fst).zip (compiledRules g) := by rw [List.zipIdx_map_fst]
      _ = _ := by rw [compiledRules_eq, List.zip_map']
  rw [hzip, List.filterMap_map, ← List.filterMap_eq_map, ← List.filterMap_eq_filter,
    List.filterMap_filterMap]
  refine List.filterMap_congr fun rk _ => ?_
  by_cases hhead : rk.1.head = name <;> simp [Option.guard, hhead]

end

/-! ## What compilation preserves -/

/-- The slots of a rule. The slot at `base + i` is the place before symbol `i`, and from there the
symbol is crossed to the next place. The last slot is the end of the rule. -/
structure RuleSlots (graph : SlotGraph μ) (g : Grammar μ) (k : Nat) (r : Rule μ) : Prop where
  /-- The head has a number. -/
  head : graph.nonterminalId? r.head = some (ownerOf g k r).head
  /-- The slot at `base + i` stands at place `i` of the rule. -/
  lies : ∀ i, i ≤ r.body.length → graph.Lies (ownerOf g k r) i (base g k + i)
  /-- It is written as the rule with its dot there. -/
  text : ∀ i, i ≤ r.body.length → (graph.slot (base g k + i)).text = r.dotted i
  /-- It admits what may come next there. -/
  lookahead : ∀ i, i ≤ r.body.length → (graph.slot (base g k + i)).lookahead
    = (FirstFollow.ofGrammar g).lookahead r.head (r.body.drop i)
  /-- Every symbol is crossed from its slot to the next one. -/
  crosses : ∀ i s, r.body[i]? = some s →
    graph.Crosses (ownerOf g k r) i (base g k + (i + 1)) (base g k + i) s
  /-- The last slot returns what the rule returns. -/
  complete : (graph.slot (base g k + r.body.length)).action = .complete r.returns

/-- A graph has all that is in a grammar, and nothing else. Slots and nonterminals have no other
numbers than their positions. -/
structure Preserves (graph : SlotGraph μ) (g : Grammar μ) : Prop where
  /-- The rules are those of the grammar, in order. -/
  rules : graph.rules.toList = g.rules
  /-- Every rule has its slots. -/
  rule : ∀ k r, g.rules[k]? = some r → graph.RuleSlots g k r
  /-- Every slot, also that of a branch, stands at a place of a rule. -/
  place : ∀ id, id < graph.slots.size → ∃ k r i, g.rules[k]? = some r ∧ i ≤ r.body.length ∧
    graph.Lies (ownerOf g k r) i id ∧ ((graph.slot id).isEnd ↔ i = r.body.length)
  /-- The slots without a way on are those at the ends of rules. -/
  isEnd : ∀ id, id < graph.slots.size →
    ((graph.slot id).isEnd ↔ ∃ k r, g.rules[k]? = some r ∧ id = base g k + r.body.length)
  /-- No slot refers to anything that the graph does not have. -/
  inRange : ∀ id, id < graph.slots.size → graph.InRange (graph.slot id).action ∧
    (graph.slot id).head < graph.nonterminals.size ∧ (graph.slot id).rule < graph.rules.size
  /-- No way through the slots leads back to where it started. -/
  acyclic : ∀ id, ¬TransGen graph.Leads id id
  /-- Terminals and their numbers belong to each other one to one. -/
  terminalId? : ∀ t i, graph.terminalId? t = some i ↔ graph.terminals.get? i = some t
  /-- The terminals are those of the rules, and the empty one. -/
  terminals : ∀ t, (∃ i, graph.terminals.get? i = some t) ↔
    t = .epsilon ∨ ∃ r ∈ g.rules, ∃ s ∈ r.body, t ∈ s.terminals
  /-- The empty terminal has the number that is kept for it. -/
  epsilon : graph.terminals.get? graph.epsilon = some .epsilon
  /-- Nonterminals and their numbers belong to each other one to one. -/
  nonterminalId? : ∀ name i, graph.nonterminalId? name = some i ↔
    i < graph.nonterminals.size ∧ graph.nonterminalName i = name
  /-- The nonterminals are the names that have rules. -/
  nonterminals : ∀ name, (∃ i, graph.nonterminalId? name = some i) ↔ g.hasNonterminal name
  /-- The start symbol has the number that is kept for it. -/
  start : graph.nonterminalId? g.start = some graph.start
  /-- Nonterminals have the parameters that they have in the grammar. -/
  parameters : ∀ i, i < graph.nonterminals.size →
    (graph.nonterminal i).parameters = g.parametersOf (graph.nonterminalName i)
  /-- One first slot for each rule of a nonterminal, in the order of the rules. -/
  firstSlots : ∀ i, i < graph.nonterminals.size → (graph.nonterminal i).firstSlots
    = (g.rules.zipIdx.filter fun rk => rk.1.head = graph.nonterminalName i).map
        fun rk => base g rk.2

variable {g : Grammar μ}

theorem nonterminalId?_head {k : Nat} {r : Rule μ} (hr : g.rules[k]? = some r) :
    (compile g).nonterminalId? r.head = some (ownerOf g k r).head :=
  nonterminalId?_eq_some_iff.mpr (head_ownerOf hr)

/-- **The slots of a rule cross its symbols one after the other.** -/
theorem ruleSlots_compile (hclosed : g.Closed) {k : Nat} {r : Rule μ} (hr : g.rules[k]? = some r) :
    (compile g).RuleSlots g k r := by
  refine ⟨nonterminalId?_head hr, fun i hi => (before_base hclosed hr hi).lies,
    fun i hi => ?_, fun i hi => ?_, fun i s hs => ?_, ?_⟩
  · obtain ⟨action, hslot, -⟩ := body_slot hr hi
    rw [slot_eq hslot]
    rfl
  · obtain ⟨action, hslot, -⟩ := body_slot hr hi
    rw [slot_eq hslot]
    rfl
  · obtain ⟨hi, rfl⟩ := List.getElem?_eq_some_iff.mp hs
    obtain ⟨action, hslot, -, hsymbol⟩ := body_slot hr (Nat.le_of_lt hi)
    obtain ⟨next, haction, hholds⟩ := hsymbol _ hs
    have hcover := cover_of_mem hclosed (List.mem_of_getElem? hr) (List.getElem_mem hi)
    exact crosses_symbol _ (placeOf g k r i) hcover hslot ⟨rfl, rfl⟩ rfl rfl rfl haction hholds
  · obtain ⟨action, hslot, hend, -⟩ := body_slot hr (Nat.le_refl _)
    rw [slot_eq hslot, ← hend rfl]
    rfl

/-- A slot without a way on is the last one of a rule. -/
theorem isEnd_compile_iff (hclosed : g.Closed) {id : Nat} (hid : id < (compile g).slots.size) :
    ((compile g).slot id).isEnd ↔ ∃ k r, g.rules[k]? = some r ∧ id = base g k + r.body.length := by
  constructor
  · intro hend
    obtain ⟨k, r, i, symbols, hr, hbefore⟩ := exists_before hclosed hid
    have hi := hbefore.isEnd_iff.mp hend
    cases hbefore with
    | atEnd _ hid => exact ⟨k, r, hr, hid⟩
    | symbol hs => exact absurd hi (Nat.ne_of_lt (List.getElem?_eq_some_iff.mp hs).1)
  · intro h
    obtain ⟨k, r, hr, rfl⟩ := h
    exact (before_base hclosed hr (Nat.le_refl _)).isEnd_iff.mpr rfl

/-- **Compilation preserves every rule.** -/
theorem preserves_compile (hclosed : g.Closed) : (compile g).Preserves g where
  rules := rfl
  rule _ _ hr := ruleSlots_compile hclosed hr
  place id hid := by
    obtain ⟨k, r, i, symbols, hr, hbefore⟩ := exists_before hclosed hid
    exact ⟨k, r, i, hr, hbefore.le_length, hbefore.lies, hbefore.isEnd_iff⟩
  isEnd _ hid := isEnd_compile_iff hclosed hid
  inRange id hid := by
    obtain ⟨k, r, i, symbols, hr, hbefore⟩ := exists_before hclosed hid
    refine ⟨hbefore.inRange hclosed hr, ?_, ?_⟩
    · rw [hbefore.lies.head]
      exact (head_ownerOf hr).1
    · rw [hbefore.lies.rule]
      exact (List.getElem?_eq_some_iff.mp hr).1
  acyclic := not_transGen_leads hclosed
  terminalId? _ _ := Numbering.find?_eq_some_iff
  terminals t := by
    rw [← Numbering.mem_toList_iff]
    show t ∈ (Numbering.ofList _).toList ↔ _
    simp only [Numbering.mem_ofList, List.mem_cons, List.mem_flatMap]
  epsilon := Numbering.get?_ofList_zero
  nonterminalId? _ _ := nonterminalId?_eq_some_iff
  nonterminals name := by
    simp only [nonterminalId?_eq, ← Option.isSome_iff_exists, Numbering.find?_isSome_iff]
    rw [Grammar.hasNonterminal_iff]
    show name ∈ (Numbering.ofList _).toList ↔ _
    rw [Numbering.mem_ofList, List.mem_cons]
    refine or_iff_right_of_imp fun h => ?_
    rw [h]
    exact Grammar.hasNonterminal_iff.mp hclosed.start
  start := nonterminalId?_eq_some_iff.mpr (nonterminalName_start g)
  parameters _ hi := parameters_eq hi
  firstSlots _ hi := firstSlots_eq_map hi

/-- **Compilation preserves every rule** of a grammar that it accepts. -/
theorem preserves_ofGrammar {graph : SlotGraph μ} (hg : ofGrammar g = .ok graph) :
    graph.Preserves g := by
  obtain ⟨hcheck, rfl⟩ := ofGrammar_eq_ok_iff.mp hg
  exact preserves_compile (Grammar.closed_of_check hcheck)

end

end SlotGraph

/-- A letter and behind it, under one condition after the other, another letter or nothing. -/
def choices : Grammar RunMatcher where
  name := "choices"
  start := "S"
  rules :=
    [⟨"S", [.terminal (.char 'a') {},
        .ifThen (.const (.bool true)) (.ifThenElse (.const (.bool false)) (.terminal (.char 'b') {})
          (.call "T" [] {}) {}) {}], none⟩,
      ⟨"T", [.terminal (.char 'c') {}], none⟩, ⟨"S", [], none⟩]

theorem preserves_ofGrammar_choices :
    ofGrammar choices = .ok (compile choices) ∧ (compile choices).Preserves choices := by
  have hg : ofGrammar choices = .ok (compile choices) :=
    ofGrammar_eq_ok_iff.mpr ⟨by decide +kernel, rfl⟩
  exact ⟨hg, preserves_ofGrammar hg⟩

/-- The slots of the branches come behind the three places of the first rule. -/
example : (compile choices).slots.toList.map (·.position) = [0, 1, 2, 1, 1, 1, 0, 1, 0] ∧
    ((compile choices).slot 1).action = .branch (.const (.bool true)) 3 2 ∧
    ((compile choices).slot 3).action = .branch (.const (.bool false)) 4 5 := by
  decide +kernel

end GeneralLL
