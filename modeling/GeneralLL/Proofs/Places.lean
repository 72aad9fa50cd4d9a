import GeneralLL.Proofs.Recognition
import GeneralLL.Terminal.Run
import Mathlib.Algebra.GroupWithZero.Nat

/-!
# Places in rules

With labels, arguments and conditional symbols a thread may be anywhere along its rule, but
it always is at some place of it: at the end, or on the way over one symbol. This file says
where, for all grammars.

* A symbol is **crossed** along the slots of its branches, which all belong to its place
  (`Crosses`). A slot is `Before` a symbol if it lies on such a way.
* `Finds` says once what a thread at a place finds out: it completes the rule, matches a
  terminal or makes a call that the symbol may stand for, or takes a branch and then has
  less of the rule left.
* So **everything has a place** (`located_of_entails`): what was recognised before a place
  lies between the start of the call and the position of the thread, pivots lie between
  the extents of what they join, and nothing lies outside the text.

The text is left by a matcher only, so matchers have to stay inside it (`Grammar.Bounded`).
-/

namespace GeneralLL

open SlotGraph

/-! ## What a symbol may stand for -/

namespace Symbol

variable {μ : Type}

/-- The terminals and calls that a symbol may stand for. -/
def branches : Symbol μ → List (Symbol μ)
  | terminal t notes => [terminal t notes]
  | call name arguments notes => [call name arguments notes]
  | ifThen _ body _ => body.branches
  | ifThenElse _ body otherwise _ => body.branches ++ otherwise.branches

/-- The number of symbols inside a symbol, itself included. -/
def size : Symbol μ → Nat
  | terminal .. | call .. => 1
  | ifThen _ body _ => body.size + 1
  | ifThenElse _ body otherwise _ => body.size + otherwise.size + 1

theorem size_pos (s : Symbol μ) : 0 < s.size := by
  cases s <;> simp [size]

theorem mem_terminals_of_branch {t : Terminal μ} {notes : Annotations μ} :
    ∀ {s : Symbol μ}, .terminal t notes ∈ s.branches → t ∈ s.terminals
  | .terminal _ _, h => by
    obtain ⟨rfl, -⟩ := Symbol.terminal.inj (List.mem_singleton.mp h)
    exact List.mem_singleton_self _
  | .call .., h => by simp [branches] at h
  | .ifThen _ body _, h => mem_terminals_of_branch (s := body) h
  | .ifThenElse _ body otherwise _, h => by
    rcases List.mem_append.mp h with h | h
    · exact List.mem_append_left _ (mem_terminals_of_branch h)
    · exact List.mem_append_right _ (mem_terminals_of_branch h)

end Symbol

/-- How much of a rule there is left to go. -/
def weight {μ : Type} (symbols : List (Symbol μ)) : Nat := (symbols.map Symbol.size).sum

theorem weight_rest_lt {μ : Type} (s : Symbol μ) (rest : List (Symbol μ)) :
    weight rest < weight (s :: rest) := by
  show weight rest < s.size + weight rest
  have hsize := s.size_pos
  omega

theorem weight_lt {μ : Type} {s s' : Symbol μ} {rest : List (Symbol μ)} (h : s'.size < s.size) :
    weight (s' :: rest) < weight (s :: rest) := Nat.add_lt_add_right h _

theorem weight_drop_le {μ : Type} (symbols : List (Symbol μ)) (i : Nat) :
    weight (symbols.drop i) ≤ weight symbols := by
  induction symbols generalizing i with
  | nil => exact Nat.le_of_eq (by rw [List.drop_nil])
  | cons s rest ih =>
    cases i with
    | zero => exact Nat.le_refl _
    | succ i =>
      have hlt := weight_rest_lt s rest
      have hle := ih i
      rw [List.drop_succ_cons]
      omega

/-! ## Matches inside the text -/

section

variable {μ : Type} [Matcher μ]

/-- The matches of a matcher that start inside a text end inside it. -/
def Matcher.Bounded (input : Input) (m : μ) : Prop :=
  ∀ i j, i ≤ input.length → Matcher.matchAt m input i = some j → i ≤ j ∧ j ≤ input.length

/-- All matchers that a grammar uses stay inside a text. -/
def Grammar.Bounded (g : Grammar μ) (input : Input) : Prop :=
  ∀ m : μ, .custom m ∈ (g.rules.flatMap fun r => r.body.flatMap Symbol.terminals) →
    Matcher.Bounded input m

theorem Input.lt_length_of_symbolAt? {input : Input} {i : Nat} {c : Char}
    (h : input.symbolAt? i = some c) : i < input.length :=
  (Array.getElem?_eq_some_iff.mp h).1

theorem Terminal.bounded_of_matchChars {input : Input} {text : List Char} :
    ∀ {i j : Nat}, i ≤ input.length → matchChars input text i = some j →
      i ≤ j ∧ j ≤ input.length := by
  induction text with
  | nil =>
    intro i j hi h
    obtain rfl := Option.some.inj h
    exact ⟨Nat.le_refl _, hi⟩
  | cons c rest ih =>
    intro i j hi h
    rw [matchChars] at h
    split at h
    · rename_i hc
      have hlt := Input.lt_length_of_symbolAt? hc
      obtain ⟨hle, hj⟩ := ih hlt h
      exact ⟨by omega, hj⟩
    · exact absurd h (by simp)

/-- **A match that starts inside the text ends inside it,** if matchers keep to that. -/
theorem Terminal.bounded_of_matchAt {input : Input} {t : Terminal μ} {i j : Nat}
    (hm : ∀ m, t = .custom m → Matcher.Bounded input m) (hi : i ≤ input.length)
    (h : t.matchAt input i = some j) : i ≤ j ∧ j ≤ input.length := by
  cases t with
  | epsilon =>
    obtain rfl := Option.some.inj h
    exact ⟨Nat.le_refl _, hi⟩
  | char c =>
    rw [matchAt] at h
    split at h
    · rename_i hc
      have hlt := Input.lt_length_of_symbolAt? hc
      obtain rfl := Option.some.inj h
      exact ⟨by omega, hlt⟩
    · exact absurd h (by simp)
  | oneOf s =>
    rw [matchAt] at h
    split at h
    · rename_i hc
      obtain ⟨c, hc, -⟩ := (Option.any_eq_true _ _).mp hc
      have hlt := Input.lt_length_of_symbolAt? hc
      obtain rfl := Option.some.inj h
      exact ⟨by omega, hlt⟩
    · exact absurd h (by simp)
  | literal text => exact bounded_of_matchChars hi h
  | custom m => exact hm m rfl i j hi h

/-- The terminals that a symbol of the grammar may stand for match inside the text. -/
theorem Grammar.Bounded.matchAt {g : Grammar μ} {input : Input} (h : g.Bounded input)
    {r : Rule μ} {s : Symbol μ} {t : Terminal μ} {notes : Annotations μ} {i j : Nat}
    (hr : r ∈ g.rules) (hs : s ∈ r.body) (ht : .terminal t notes ∈ s.branches)
    (hi : i ≤ input.length) (hmatch : t.matchAt input i = some j) :
    i ≤ j ∧ j ≤ input.length := by
  refine Terminal.bounded_of_matchAt (fun m hm => h m ?_) hi hmatch
  have hterminal := Symbol.mem_terminals_of_branch ht
  rw [hm] at hterminal
  exact List.mem_flatMap.mpr ⟨r, hr, List.mem_flatMap.mpr ⟨s, hs, hterminal⟩⟩

end

namespace RunMatcher

theorem runLength_le (s : CharClass) (l : List Char) : runLength s l ≤ l.length := by
  induction l with
  | nil => exact Nat.le_refl _
  | cons c rest ih =>
    rw [runLength, List.length_cons]
    split <;> omega

/-- **A run ends inside the text.** -/
theorem bounded (m : RunMatcher) (input : Input) : Matcher.Bounded input m := by
  intro i j hi h
  have h : m.matchAt input i = some j := h
  unfold matchAt at h
  dsimp only at h
  split at h
  · obtain rfl := Option.some.inj h
    have hrun := runLength_le m.chars (input.chars.toList.drop i)
    rw [List.length_drop, Array.length_toList] at hrun
    have hlength : input.length = input.chars.size := rfl
    exact ⟨Nat.le_add_right _ _, by omega⟩
  · exact absurd h (by simp)

end RunMatcher

/-! ## Ways over a symbol -/

namespace SlotGraph

variable {μ : Type}

/-- The slot with this number stands at a place of a rule. -/
structure Lies (graph : SlotGraph μ) (o : Owner μ) (position id : Nat) : Prop where
  /-- There is such a slot. -/
  lt : id < graph.slots.size
  /-- It belongs to the head of the rule. -/
  head : (graph.slot id).head = o.head
  /-- It belongs to the rule. -/
  rule : (graph.slot id).rule = o.index
  /-- So many symbols stand before its dot. -/
  position : (graph.slot id).position = position

theorem lies_of_getElem? {graph : SlotGraph μ} {o : Owner μ} {position id : Nat} {slot : Slot μ}
    (h : graph.slots[id]? = some slot) (howns : o.Owns slot)
    (hposition : slot.position = position) : graph.Lies o position id := by
  have hslot := slot_eq h
  exact ⟨(Array.getElem?_eq_some_iff.mp h).1, by rw [hslot]; exact howns.1,
    by rw [hslot]; exact howns.2, by rw [hslot]; exact hposition⟩

/-- From this slot a symbol is crossed to `dest`: at once, or along one of its branches. All slots
on the way stand at the place of the symbol. -/
inductive Crosses [DecidableEq μ] (graph : SlotGraph μ) (o : Owner μ) (position dest : Nat) :
    Nat → Symbol μ → Prop where
  | scan {id terminal : Nat} {t : Terminal μ} {notes : Annotations μ} :
      graph.Lies o position id → (graph.slot id).action = .scan terminal notes dest →
      graph.terminals.get? terminal = some t →
      Crosses graph o position dest id (.terminal t notes)
  | call {id callee : Nat} {name : String} {arguments : List Expr} {notes : Annotations μ} :
      graph.Lies o position id → (graph.slot id).action = .call callee arguments notes dest →
      callee < graph.nonterminals.size → graph.nonterminalName callee = name →
      Crosses graph o position dest id (.call name arguments notes)
  | ifThen {id ifTrue : Nat} {condition : Expr} {body : Symbol μ} {notes : Annotations μ} :
      graph.Lies o position id → (graph.slot id).action = .branch condition ifTrue dest →
      Crosses graph o position dest ifTrue body →
      Crosses graph o position dest id (.ifThen condition body notes)
  | ifThenElse {id ifTrue ifFalse : Nat} {condition : Expr} {body otherwise : Symbol μ}
      {notes : Annotations μ} :
      graph.Lies o position id → (graph.slot id).action = .branch condition ifTrue ifFalse →
      Crosses graph o position dest ifTrue body → Crosses graph o position dest ifFalse otherwise →
      Crosses graph o position dest id (.ifThenElse condition body otherwise notes)

variable [DecidableEq μ]

theorem Crosses.lies {graph : SlotGraph μ} {o : Owner μ} {position dest id : Nat} {s : Symbol μ}
    (h : graph.Crosses o position dest id s) : graph.Lies o position id := by
  cases h with
  | scan h | call h | ifThen h | ifThenElse h => exact h

variable [Matcher μ]

/-- The slots of a compiled symbol cross it. -/
theorem crosses_symbol {g : Grammar μ} {o : Owner μ} {dest : Nat} :
    ∀ (s : Symbol μ) (place : Place) {id next : Nat} {slot : Slot μ}, (namesOf g).Cover s →
      (compile g).slots[id]? = some slot → o.Owns slot → slot.position = place.position →
      place.head = o.head → place.rule = o.index →
      slot.action = (compileSymbol (namesOf g) dest place next s).1 →
      (compile g).Holds next (compileSymbol (namesOf g) dest place next s).2 →
      (compile g).Crosses o place.position dest id s
  | .terminal t notes, place, id, next, slot, hcover, hslot, howns, hposition, _, _, haction, _ =>
    .scan (lies_of_getElem? hslot howns hposition) (by rw [slot_eq hslot, haction]; rfl)
      (get?_find?_getD (hcover.1 t (List.mem_singleton_self t)))
  | .call name arguments notes, place, id, next, slot, hcover, hslot, howns, hposition, _, _,
      haction, _ =>
    have hname := nonterminalName_of_get?
      (get?_find?_getD (hcover.2 (name, arguments) (List.mem_singleton_self _)))
    .call (lies_of_getElem? hslot howns hposition) (by rw [slot_eq hslot, haction]; rfl) hname.1
      hname.2
  | .ifThen condition body notes, place, id, next, slot, hcover, hslot, howns, hposition, hhead,
      hrule, haction, hholds =>
    .ifThen (lies_of_getElem? hslot howns hposition) (by rw [slot_eq hslot, haction]; rfl)
      (crosses_symbol body (place.branch "then") hcover hholds.head ⟨hhead, hrule⟩ rfl hhead
        hrule rfl hholds.tail)
  | .ifThenElse condition body otherwise notes, place, id, next, slot, hcover, hslot, howns,
      hposition, hhead, hrule, haction, hholds => by
    have hthen := hholds.append_left
    have helse := hholds.append_right
    rw [List.length_cons, Nat.add_comm _ 1, ← Nat.add_assoc] at helse
    refine .ifThenElse (lies_of_getElem? hslot howns hposition)
      (by rw [slot_eq hslot, haction]; rfl)
      (crosses_symbol body (place.branch "then") ?_ hthen.head ⟨hhead, hrule⟩ rfl hhead hrule
        rfl hthen.tail)
      (crosses_symbol otherwise (place.branch "else") ?_ helse.head ⟨hhead, hrule⟩ rfl hhead
        hrule rfl helse.tail)
    · exact ⟨fun t ht => hcover.1 t (List.mem_append_left _ ht),
        fun call hcall => hcover.2 call (List.mem_append_left _ hcall)⟩
    · exact ⟨fun t ht => hcover.1 t (List.mem_append_right _ ht),
        fun call hcall => hcover.2 call (List.mem_append_right _ hcall)⟩

/-- A slot is before symbol `i` of a rule, or at its end, and these symbols are left. Of the first
of them some conditions may be decided already. -/
inductive Before (graph : SlotGraph μ) (g : Grammar μ) (k : Nat) (r : Rule μ) :
    Nat → Nat → List (Symbol μ) → Prop where
  | atEnd {id : Nat} :
      graph.Lies (ownerOf g k r) r.body.length id → id = base g k + r.body.length →
      (graph.slot id).action = .complete r.returns → Before graph g k r r.body.length id []
  | symbol {i id : Nat} {s s' : Symbol μ} :
      r.body[i]? = some s → (∀ b ∈ s'.branches, b ∈ s.branches) → s'.size ≤ s.size →
      graph.Crosses (ownerOf g k r) i (base g k + (i + 1)) id s' →
      Before graph g k r i id (s' :: r.body.drop (i + 1))

theorem Before.le_length {graph : SlotGraph μ} {g : Grammar μ} {k i id : Nat} {r : Rule μ}
    {symbols : List (Symbol μ)} (h : graph.Before g k r i id symbols) : i ≤ r.body.length := by
  cases h with
  | atEnd => exact Nat.le_refl _
  | symbol hs => exact Nat.le_of_lt (List.getElem?_eq_some_iff.mp hs).1

theorem Before.lies {graph : SlotGraph μ} {g : Grammar μ} {k i id : Nat} {r : Rule μ}
    {symbols : List (Symbol μ)} (h : graph.Before g k r i id symbols) :
    graph.Lies (ownerOf g k r) i id := by
  cases h with
  | atEnd hlies => exact hlies
  | symbol _ _ _ hcrosses => exact hcrosses.lies

/-- No more is left than the whole rule. -/
theorem Before.weight_le {graph : SlotGraph μ} {g : Grammar μ} {k i id : Nat} {r : Rule μ}
    {symbols : List (Symbol μ)} (h : graph.Before g k r i id symbols) :
    weight symbols ≤ weight r.body := by
  cases h with
  | atEnd => exact Nat.zero_le _
  | @symbol _ _ s s' hs _ hsize _ =>
    obtain ⟨hi, rfl⟩ := List.getElem?_eq_some_iff.mp hs
    have hle := weight_drop_le r.body i
    rw [List.drop_eq_getElem_cons hi] at hle
    calc weight (s' :: r.body.drop (i + 1)) ≤ weight (r.body[i] :: r.body.drop (i + 1)) :=
          Nat.add_le_add_right hsize _
      _ ≤ weight r.body := hle

/-- **The slot at `base + i` is before symbol `i`,** and the rest of the rule is left there. -/
theorem before_base {g : Grammar μ} (hclosed : g.Closed) {k i : Nat} {r : Rule μ}
    (hr : g.rules[k]? = some r) (hi : i ≤ r.body.length) :
    (compile g).Before g k r i (base g k + i) (r.body.drop i) := by
  obtain ⟨action, hslot, hend, hsymbol⟩ := body_slot hr hi
  rcases Nat.eq_or_lt_of_le hi with rfl | hlt
  · rw [List.drop_length]
    refine .atEnd (lies_of_getElem? hslot ⟨rfl, rfl⟩ rfl) rfl ?_
    rw [slot_eq hslot, ← hend rfl]
    rfl
  · obtain ⟨next, haction, hholds⟩ := hsymbol _ (List.getElem?_eq_getElem hlt)
    have hcover := cover_of_mem hclosed (List.mem_of_getElem? hr) (List.getElem_mem hlt)
    rw [List.drop_eq_getElem_cons hlt]
    exact .symbol (List.getElem?_eq_getElem hlt) (fun _ h => h) (Nat.le_refl _)
      (crosses_symbol _ (placeOf g k r i) hcover hslot ⟨rfl, rfl⟩ rfl rfl rfl haction hholds)

end SlotGraph

namespace Parser

variable {μ : Type} [DecidableEq μ] [Matcher μ] {p : Parser μ} {g : Grammar μ}

/-! ## What a thread at a place finds -/

/-- What a thread before symbol `i` of a rule finds: it completes the rule, or crosses the symbol
by a terminal or a call that the symbol may stand for, or decides a condition and then has less
of the rule left. -/
inductive Finds (p : Parser μ) (g : Grammar μ) (k : Nat) (r : Rule μ) (i : Nat)
    (symbols : List (Symbol μ)) (t : Thread) : Fact → Prop where
  | complete {value : Option Value} {f : Fact} :
      i = r.body.length → t.slot = base g k + i → p.returned r.returns t.env = .ok value →
      f ∈ p.completeFacts t value → Finds p g k r i symbols t f
  | scan {id right : Nat} {s : Symbol μ} {terminal : Terminal μ} {notes : Annotations μ}
      {f : Fact} :
      r.body[i]? = some s → .terminal terminal notes ∈ s.branches →
      symbols = .terminal terminal notes :: r.body.drop (i + 1) →
      p.graph.terminals.get? id = some terminal →
      terminal.matchAt p.input t.position = some right →
      f ∈ scanFacts t id (base g k + (i + 1))
        (right, notes.bindScan p.input t.position right t.env) →
      Finds p g k r i symbols t f
  | call {s : Symbol μ} {arguments : List Expr} {notes : Annotations μ} {key : Stack.Key}
      {f : Fact} :
      r.body[i]? = some s →
      .call (p.graph.nonterminalName key.nonterminal) arguments notes ∈ s.branches →
      (p.graph.slot t.slot).action = .call key.nonterminal arguments notes (base g k + (i + 1)) →
      key.nonterminal < p.graph.nonterminals.size → key.position = t.position →
      p.argumentsFor key.nonterminal arguments (notes.bindCall t.position t.env)
        = .ok key.arguments →
      f ∈ p.callFacts t (key, notes.bindCall t.position t.env) → Finds p g k r i symbols t f
  | branch {i' slot : Nat} {symbols' : List (Symbol μ)} :
      i ≤ i' → p.graph.Before g k r i' slot symbols' → weight symbols' < weight symbols →
      Finds p g k r i symbols t (.passed { t with slot })

section

variable (hg : SlotGraph.ofGrammar g = .ok p.graph)

include hg

/-- The slot at `base + i` is before symbol `i`. -/
theorem before_base_graph {k i : Nat} {r : Rule μ} (hr : g.rules[k]? = some r)
    (hi : i ≤ r.body.length) : p.graph.Before g k r i (base g k + i) (r.body.drop i) :=
  compile_eq hg ▸ before_base (closed_of_ofGrammar hg) hr hi

/-- **What follows from a thread at a place.** -/
theorem finds_of_leadsTo {k i : Nat} {r : Rule μ} {symbols : List (Symbol μ)} {t : Thread}
    {f : Fact} (hr : g.rules[k]? = some r) (hbefore : p.graph.Before g k r i t.slot symbols)
    (h : p.LeadsTo t f) : p.Finds g k r i symbols t f := by
  cases hbefore with
  | atEnd _ hslot haction =>
    obtain ⟨value, hvalue, hf⟩ := (leadsTo_complete_iff haction).mp h
    exact .complete rfl hslot hvalue hf
  | @symbol _ _ s s' hs hbranches hsize hcrosses =>
    obtain ⟨hi, -⟩ := List.getElem?_eq_some_iff.mp hs
    cases hcrosses with
    | scan hlies haction hterminal =>
      obtain ⟨⟨right, env⟩, hscanned, hf⟩ := (leadsTo_scan_iff haction).mp h
      obtain ⟨-, hmatch, rfl, -⟩ := scanned_eq_some_iff.mp hscanned
      rw [SlotGraph.terminal, hterminal] at hmatch
      exact .scan hs (hbranches _ (List.mem_singleton_self _)) rfl hterminal hmatch hf
    | call hlies haction hcallee hname =>
      obtain ⟨⟨key, env⟩, hcalling, hf⟩ := (leadsTo_call_iff haction).mp h
      obtain ⟨-, rfl, rfl, hposition, harguments⟩ := calling_eq_some_iff.mp hcalling
      subst hname
      exact .call hs (hbranches _ (List.mem_singleton_self _)) haction hcallee hposition
        harguments hf
    | @ifThen _ ifTrue condition body notes hlies haction htrue =>
      obtain ⟨b, -, rfl⟩ := (leadsTo_branch_iff haction).mp h
      rw [Symbol.size] at hsize
      cases b with
      | true =>
        have htaken : p.graph.Before g k r i ifTrue (body :: r.body.drop (i + 1)) :=
          .symbol hs hbranches (by omega) htrue
        exact .branch (Nat.le_refl i) htaken (weight_lt (by rw [Symbol.size]; omega))
      | false =>
        -- nothing is taken, so the symbol is crossed
        have hskipped := before_base_graph hg hr (i := i + 1) hi
        exact .branch (Nat.le_succ i) hskipped (weight_rest_lt _ _)
    | @ifThenElse _ ifTrue ifFalse condition body otherwise notes hlies haction htrue hfalse =>
      obtain ⟨b, -, rfl⟩ := (leadsTo_branch_iff haction).mp h
      rw [Symbol.size] at hsize
      cases b with
      | true =>
        have htaken : p.graph.Before g k r i ifTrue (body :: r.body.drop (i + 1)) :=
          .symbol hs (fun b hb => hbranches b (List.mem_append_left _ hb)) (by omega) htrue
        exact .branch (Nat.le_refl i) htaken (weight_lt (by rw [Symbol.size]; omega))
      | false =>
        have htaken : p.graph.Before g k r i ifFalse (otherwise :: r.body.drop (i + 1)) :=
          .symbol hs (fun b hb => hbranches b (List.mem_append_right _ hb)) (by omega) hfalse
        exact .branch (Nat.le_refl i) htaken (weight_lt (by rw [Symbol.size]; omega))

end

/-! ## What is recognised before a place -/

/-- The piece of a terminal or of a call between two positions. -/
inductive Fits (p : Parser μ) : Symbol μ → Nat → Nat → Piece → Prop where
  | terminal {id : Nat} {t : Terminal μ} {notes : Annotations μ} {left right : Nat} :
      p.graph.terminals.get? id = some t → t.matchAt p.input left = some right →
      Fits p (.terminal t notes) left right (.terminal id left right)
  | call {id : Nat} {name : String} {arguments : List Expr} {notes : Annotations μ}
      {values : Option (List Value)} {left right : Nat} :
      id < p.graph.nonterminals.size → p.graph.nonterminalName id = name →
      Fits p (.call name arguments notes) left right (.nonterminal id values left right)

/-- What a rule has recognised before symbol `i`, between two positions, in a call with these
arguments: nothing, one of its symbols, or the part up to an earlier place. -/
inductive Recognised (p : Parser μ) (g : Grammar μ) (k : Nat) (r : Rule μ)
    (values : Option (List Value)) (left : Nat) : Nat → Nat → Option Piece → Prop where
  | nothing {i : Nat} : Recognised p g k r values left i left none
  | first {i j right : Nat} {s b : Symbol μ} {w : Piece} :
      j < i → r.body[j]? = some s → b ∈ s.branches → p.Fits b left right w →
      Recognised p g k r values left i right (some w)
  | part {i j right : Nat} :
      j ≤ i →
      Recognised p g k r values left i right
        (some (.intermediate (base g k + j) values left right))

omit [DecidableEq μ] in
theorem Fits.extents {s : Symbol μ} {left right : Nat} {w : Piece} (h : p.Fits s left right w) :
    w.left = left ∧ w.right = right := by
  cases h with
  | terminal | call => exact ⟨rfl, rfl⟩

section

variable {k i left right : Nat} {r : Rule μ} {values : Option (List Value)} {part : Option Piece}

theorem Recognised.extents {w : Piece} (h : p.Recognised g k r values left i right (some w)) :
    w.left = left ∧ w.right = right := by
  cases h with
  | first _ _ _ hw => exact hw.extents
  | part => exact ⟨rfl, rfl⟩

theorem Recognised.mono {i' : Nat} (h : p.Recognised g k r values left i right part)
    (hi : i ≤ i') : p.Recognised g k r values left i' right part := by
  cases h with
  | nothing => exact .nothing
  | first hj hs hb hw => exact .first (by omega) hs hb hw
  | part hj => exact .part (by omega)

/-- One more symbol. -/
theorem Recognised.join {middle : Nat} {s b : Symbol μ} {w : Piece}
    (h : p.Recognised g k r values left i middle part) (hs : r.body[i]? = some s)
    (hb : b ∈ s.branches) (hw : p.Fits b middle right w) :
    p.Recognised g k r values left (i + 1) right
      (some (.join (base g k + (i + 1)) values part w)) := by
  cases part with
  | none =>
    cases h with
    | nothing => exact .first (Nat.lt_succ_self i) hs hb hw
  | some l =>
    rw [Piece.join, h.extents.1, hw.extents.2]
    exact .part (Nat.le_refl _)

/-- An empty rule ends where its call starts. -/
theorem Recognised.child_eq (id : Nat) (h : p.Recognised g k r values left i right part) :
    part.getD (.terminal id right right) = part.getD (.terminal id left left) ∧
      (part.getD (.terminal id left left)).left = left ∧
      (part.getD (.terminal id left left)).right = right := by
  cases part with
  | none =>
    cases h with
    | nothing => exact ⟨rfl, rfl, rfl⟩
  | some w => exact ⟨rfl, h.extents⟩

end

/-! ## Places of threads and callers -/

/-- A thread is before symbol `i` of a rule of its call, with what the rule has recognised. -/
structure Follows (p : Parser μ) (g : Grammar μ) (k : Nat) (r : Rule μ) (i : Nat)
    (symbols : List (Symbol μ)) (t : Thread) : Prop where
  /-- The rule is one of the grammar. -/
  rule : g.rules[k]? = some r
  /-- The slot is before symbol `i`, and `symbols` are left there. -/
  before : p.graph.Before g k r i t.slot symbols
  /-- The rule is one for the call. -/
  head : t.call.nonterminal = (ownerOf g k r).head
  /-- What was recognised goes from the start of the call to the position of the thread. -/
  part : p.Recognised g k r t.call.arguments t.call.position i t.position t.part
  /-- The thread is not before the start of its call. -/
  start_le : t.call.position ≤ t.position
  /-- The thread is not past the end of the text. -/
  le_length : t.position ≤ p.input.length

/-- A caller is before symbol `i` of a rule of its own call, which may stand for the call that it
waits for. -/
structure Awaiting (p : Parser μ) (g : Grammar μ) (k : Nat) (r : Rule μ) (i : Nat)
    (arguments : List Expr) (notes : Annotations μ) (key : Stack.Key) (c : Caller) : Prop where
  /-- The rule is one of the grammar. -/
  rule : g.rules[k]? = some r
  /-- The call is symbol `i` or a branch of it. -/
  symbol : ∃ s, r.body[i]? = some s ∧
    .call (p.graph.nonterminalName key.nonterminal) arguments notes ∈ s.branches
  /-- The slot is at symbol `i`. -/
  lies : p.graph.Lies (ownerOf g k r) i c.slot
  /-- The slot makes the call, and goes on behind symbol `i`. -/
  action : (p.graph.slot c.slot).action
    = .call key.nonterminal arguments notes (base g k + (i + 1))
  /-- The callee is a nonterminal of the graph. -/
  callee : key.nonterminal < p.graph.nonterminals.size
  /-- The rule is one for the call that the caller belongs to. -/
  head : c.call.nonterminal = (ownerOf g k r).head
  /-- What was recognised goes from the start of that call to the start of the new one. -/
  part : p.Recognised g k r c.call.arguments c.call.position i key.position c.part
  /-- The new call does not start before the one that makes it. -/
  start_le : c.call.position ≤ key.position
  /-- It does not start past the end of the text. -/
  le_length : key.position ≤ p.input.length

/-- The piece has a number of the graph, and it covers a stretch of the text. -/
structure Covering (p : Parser μ) (w : Piece) : Prop where
  /-- The graph has what the piece is labelled with. -/
  number : match w with
    | .terminal id _ _ => (p.graph.terminals.get? id).isSome
    | .nonterminal id _ _ _ => id < p.graph.nonterminals.size
    | .intermediate slot _ _ _ => slot < p.graph.slots.size
  /-- The extents are in order. -/
  le : w.left ≤ w.right
  /-- The piece does not end past the end of the text. -/
  le_length : w.right ≤ p.input.length

/-- A derivation joins a symbol to the part of the rule before it, or makes a whole rule of what
the rule has recognised. -/
inductive Formed (p : Parser μ) (g : Grammar μ) : Packing → Prop where
  | join {k i left pivot right : Nat} {r : Rule μ} {values : Option (List Value)}
      {s b : Symbol μ} {l w : Piece} :
      g.rules[k]? = some r → r.body[i]? = some s → b ∈ s.branches →
      p.Recognised g k r values left i pivot (some l) → p.Fits b pivot right w →
      left ≤ pivot → pivot ≤ right →
      Formed p g ⟨.intermediate (base g k + (i + 1)) values left right, base g k + (i + 1), pivot,
        some l, w⟩
  | whole {k left right : Nat} {r : Rule μ} {values : Option (List Value)}
      {part : Option Piece} :
      g.rules[k]? = some r → p.Recognised g k r values left r.body.length right part →
      Formed p g ⟨.nonterminal (ownerOf g k r).head values left right,
        base g k + r.body.length, left, none,
        part.getD (.terminal p.graph.epsilon left left)⟩

/-- Where the things are that a fact is about. -/
def Located (p : Parser μ) (g : Grammar μ) : Fact → Prop
  | .called key => key.nonterminal < p.graph.nonterminals.size ∧ key.position ≤ p.input.length
  | .posted t | .passed t => ∃ k r i symbols, p.Follows g k r i symbols t
  | .awaited key c => ∃ k r i arguments notes, p.Awaiting g k r i arguments notes key c
  | .result key right _ => key.position ≤ right ∧ right ≤ p.input.length
  | .piece w => p.Covering w
  | .packing d => p.Formed g d

/-- What a result that meets a caller leads to. -/
theorem Awaiting.goesOn {k i right : Nat} {r : Rule μ} {arguments : List Expr}
    {notes : Annotations μ} {key : Stack.Key} {c : Caller} {value : Option Value} {f : Fact}
    (hc : p.Awaiting g k r i arguments notes key c) (h : p.ResumesTo key c right value f) :
    f ∈ resumeFacts key c right (base g k + (i + 1)) (notes.bindReturn value right c.env) := by
  obtain ⟨env, hresumed, hf⟩ := (resumesTo_iff hc.action).mp h
  obtain ⟨rfl, -, -⟩ := resumed_eq_some_iff.mp hresumed
  exact hf

section

variable (hg : SlotGraph.ofGrammar g = .ok p.graph)

include hg

/-- What joining a symbol to the part before it adds is located. -/
theorem located_joinFacts {k i left middle right : Nat} {r : Rule μ}
    {values : Option (List Value)} {s b : Symbol μ} {part : Option Piece} {w : Piece} {f : Fact}
    (hr : g.rules[k]? = some r) (hs : r.body[i]? = some s) (hb : b ∈ s.branches)
    (hpart : p.Recognised g k r values left i middle part) (hw : p.Fits b middle right w)
    (hleft : left ≤ middle) (hmiddle : middle ≤ right) (hright : right ≤ p.input.length)
    (hf : f ∈ Piece.joinFacts (base g k + (i + 1)) values part w) : p.Located g f := by
  cases part with
  | none => exact absurd hf List.not_mem_nil
  | some l =>
    obtain ⟨hl, hl'⟩ := hpart.extents
    obtain ⟨-, hw'⟩ := hw.extents
    obtain ⟨hi, -⟩ := List.getElem?_eq_some_iff.mp hs
    simp only [Piece.joinFacts, List.mem_cons, List.not_mem_nil, or_false] at hf
    rcases hf with rfl | rfl
    · refine ⟨(before_base_graph hg hr hi).lies.lt, ?_, ?_⟩
      · show l.left ≤ w.right
        omega
      · show w.right ≤ p.input.length
        omega
    · have hformed := Formed.join hr hs hb hpart hw hleft hmiddle
      rw [← hl, ← hl', ← hw'] at hformed
      exact hformed

/-- What was recognised inside the text is a piece of the text. -/
theorem Recognised.covering {k i left right : Nat} {r : Rule μ} {values : Option (List Value)}
    {w : Piece} (h : p.Recognised g k r values left i right (some w)) (hr : g.rules[k]? = some r)
    (hi : i ≤ r.body.length) (hle : left ≤ right) (hright : right ≤ p.input.length) :
    p.Covering w := by
  obtain ⟨hleft, hend⟩ := h.extents
  refine ⟨?_, by omega, by omega⟩
  cases h with
  | first _ _ _ hw =>
    cases hw with
    | terminal hid => exact Option.isSome_iff_exists.mpr ⟨_, hid⟩
    | call hid => exact hid
  | part hj => exact (before_base_graph hg hr (Nat.le_trans hj hi)).lies.lt

/-- A symbol that is crossed leads to a thread in its place. -/
theorem Follows.next {k i middle right : Nat} {r : Rule μ} {s b : Symbol μ} {t : Thread}
    {w : Piece} {env : Environment} (hr : g.rules[k]? = some r) (hs : r.body[i]? = some s)
    (hb : b ∈ s.branches) (hhead : t.call.nonterminal = (ownerOf g k r).head)
    (hpart : p.Recognised g k r t.call.arguments t.call.position i middle t.part)
    (hw : p.Fits b middle right w) (hleft : t.call.position ≤ middle) (hmiddle : middle ≤ right)
    (hright : right ≤ p.input.length) :
    p.Follows g k r (i + 1) (r.body.drop (i + 1)) ⟨base g k + (i + 1), right, t.call,
      some (.join (base g k + (i + 1)) t.call.arguments t.part w), env⟩ := by
  obtain ⟨hi, -⟩ := List.getElem?_eq_some_iff.mp hs
  exact ⟨hr, before_base_graph hg hr hi, hhead, hpart.join hs hb hw,
    Nat.le_trans hleft hmiddle, hright⟩

/-- A complete rule is located. -/
theorem located_completeFacts {k i : Nat} {r : Rule μ} {symbols : List (Symbol μ)} {t : Thread}
    {value : Option Value} {f : Fact} (ht : p.Follows g k r i symbols t) (hi : i = r.body.length)
    (hslot : t.slot = base g k + i) (hf : f ∈ p.completeFacts t value) : p.Located g f := by
  have hpart := ht.part
  have hhead := ht.before.lies.head
  subst hi
  obtain ⟨hchild, hleft, -⟩ := hpart.child_eq p.graph.epsilon
  simp only [completeFacts, List.mem_cons, List.not_mem_nil, or_false] at hf
  rcases hf with rfl | rfl | rfl | rfl
  · exact ⟨ht.start_le, ht.le_length⟩
  · show p.Covering (p.child t)
    unfold child
    cases hw : t.part with
    | none => exact ⟨Option.isSome_iff_exists.mpr ⟨_, get?_epsilon hg⟩, Nat.le_refl _, ht.le_length⟩
    | some w =>
      rw [hw] at hpart
      exact hpart.covering hg ht.rule (Nat.le_refl _) ht.start_le ht.le_length
  · refine ⟨?_, ht.start_le, ht.le_length⟩
    show (p.graph.slot t.slot).head < p.graph.nonterminals.size
    rw [hhead]
    exact (nonterminalName_head hg ht.rule).1
  · have hformed := Formed.whole ht.rule hpart
    show p.Formed g _
    rw [whole, child, hhead, hchild, hleft, hslot]
    exact hformed

section

variable (hbounded : g.Bounded p.input)

include hbounded

/-- **A thread in its place leads to what has its place.** -/
theorem located_of_leadsTo {k i : Nat} {r : Rule μ} {symbols : List (Symbol μ)} {t : Thread}
    {f : Fact} (ht : p.Follows g k r i symbols t) (h : p.LeadsTo t f) : p.Located g f := by
  have hr := ht.rule
  cases finds_of_leadsTo hg hr ht.before h with
  | complete hi hslot _ hf => exact located_completeFacts hg ht hi hslot hf
  | @scan id right s terminal notes _ hs hb _ hid hmatch hf =>
    have hw : p.Fits (.terminal terminal notes) t.position right (.terminal id t.position right) :=
      .terminal hid hmatch
    obtain ⟨hle, hright⟩ := hbounded.matchAt (List.mem_of_getElem? hr) (List.mem_of_getElem? hs) hb
      ht.le_length hmatch
    simp only [scanFacts, List.mem_cons] at hf
    rcases hf with rfl | rfl | hf
    · exact ⟨k, r, i + 1, _, .next hg hr hs hb ht.head ht.part hw ht.start_le hle hright⟩
    · exact ⟨Option.isSome_iff_exists.mpr ⟨_, hid⟩, hle, hright⟩
    · exact located_joinFacts hg hr hs hb ht.part hw ht.start_le hle hright hf
  | @call s arguments notes key _ hs hb haction hcallee hposition _ hf =>
    unfold callFacts at hf
    split at hf
    · exact absurd hf List.not_mem_nil
    simp only [List.mem_cons, List.not_mem_nil, or_false] at hf
    rcases hf with rfl | rfl
    · exact ⟨hcallee, by rw [hposition]; exact ht.le_length⟩
    · refine ⟨k, r, i, arguments, notes, hr, ⟨s, hs, hb⟩, ht.before.lies, haction, hcallee,
        ht.head, ?_, ?_, ?_⟩
      · rw [hposition]
        exact ht.part
      · rw [hposition]
        exact ht.start_le
      · rw [hposition]
        exact ht.le_length
  | branch hi hbefore _ =>
    exact ⟨k, r, _, _, hr, hbefore, ht.head, ht.part.mono hi, ht.start_le, ht.le_length⟩

omit hbounded in
/-- A caller goes on in its place. -/
theorem located_of_resumesTo {k i right : Nat} {r : Rule μ} {arguments : List Expr}
    {notes : Annotations μ} {key : Stack.Key} {c : Caller} {value : Option Value} {f : Fact}
    (hc : p.Awaiting g k r i arguments notes key c) (hle : key.position ≤ right)
    (hright : right ≤ p.input.length) (h : p.ResumesTo key c right value f) : p.Located g f := by
  obtain ⟨s, hs, hb⟩ := hc.symbol
  have hf := hc.goesOn h
  have hw : p.Fits (.call (p.graph.nonterminalName key.nonterminal) arguments notes) key.position
      right (resultPiece key right) := .call hc.callee rfl
  simp only [resumeFacts, List.mem_cons] at hf
  rcases hf with rfl | hf
  · exact ⟨k, r, i + 1, _, .next (t := ⟨c.slot, key.position, c.call, c.part, c.env⟩) hg hc.rule hs
      hb hc.head hc.part hw hc.start_le hle hright⟩
  · exact located_joinFacts hg hc.rule hs hb hc.part hw hc.start_le hle hright hf

/-- **Everything has its place.** -/
theorem located_of_entails {f : Fact} (h : p.Entails f) : p.Located g f := by
  induction h with
  | start _ =>
    have hstart := (nonterminalName_start_eq hg).1
    exact ⟨hstart, Nat.zero_le _⟩
  | @opening key slot _ hslot hkey =>
    obtain ⟨hcallee, hposition⟩ := hkey
    obtain ⟨k, r, hr, hhead, rfl, -⟩ := (mem_openings_iff hg hcallee).mp hslot
    exact ⟨k, r, 0, _, hr, before_base_graph hg hr (Nat.zero_le _),
      head_eq_of_name hg hr hcallee hhead, .nothing, Nat.le_refl _, hposition⟩
  | delivered _ ht => exact ht
  | move _ hmove hf ht =>
    obtain ⟨k, r, i, symbols, ht⟩ := ht
    exact located_of_leadsTo hg hbounded ht ⟨_, hmove, hf⟩
  | resume _ _ hresume hf hc hresult =>
    obtain ⟨k, r, i, arguments, notes, hc⟩ := hc
    exact located_of_resumesTo hg hc hresult.1 hresult.2 ⟨_, hresume, hf⟩

end

end

end Parser

end GeneralLL
