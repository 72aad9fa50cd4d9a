import GeneralLL.Proofs.ForestFacts
import GeneralLL.Proofs.Recognition

/-!
# Parts of rules

A grammar is **simple** if it has neither arguments of calls nor conditional symbols. Then
a thread goes through its rule symbol by symbol, and what it has recognised is known from
where it is: nothing at the front, the piece of the first symbol behind it, and an
intermediate piece from then on (`PartOf`).

So everything in the forest has its place (`inPlace_of_entails`), and **a derivation is
known by its parent, its slot and its pivot** (`Placed.key_inj`). Of the derivations with
one key none is lost by storing only one of them.
-/

namespace GeneralLL

open SlotGraph

/-- A terminal, or a call without arguments. -/
def Symbol.IsSimple {μ : Type} : Symbol μ → Prop
  | .terminal .. => True
  | .call _ arguments _ => arguments = []
  | .ifThen .. | .ifThenElse .. => False

/-- No rule has arguments or conditional symbols. -/
def Grammar.IsSimple {μ : Type} (g : Grammar μ) : Prop := ∀ r ∈ g.rules, ∀ s ∈ r.body, s.IsSimple

/-- The piece belongs to a call without arguments. -/
def Piece.IsBare : Piece → Prop
  | .terminal .. => True
  | .nonterminal _ arguments _ _ | .intermediate _ arguments _ _ => arguments = none

namespace Parser

variable {μ : Type} [DecidableEq μ] [Matcher μ] {p : Parser μ} {g : Grammar μ}

/-! ## Places in a rule -/

/-- The piece of a symbol between two positions. -/
inductive Stands (p : Parser μ) : Symbol μ → Nat → Nat → Piece → Prop where
  | terminal {id : Nat} {t : Terminal μ} {notes : Annotations μ} {left right : Nat} :
      p.graph.terminals.get? id = some t → t.matchAt p.input left = some right →
      Stands p (.terminal t notes) left right (.terminal id left right)
  | call {id : Nat} {name : String} {arguments : List Expr} {notes : Annotations μ}
      {left right : Nat} :
      id < p.graph.nonterminals.size → p.graph.nonterminalName id = name →
      Stands p (.call name arguments notes) left right (.nonterminal id none left right)

/-- What a rule has recognised at a place, between two positions. -/
inductive PartOf (p : Parser μ) (g : Grammar μ) (k : Nat) (r : Rule μ) (left : Nat) :
    Nat → Nat → Option Piece → Prop where
  | front : PartOf p g k r left 0 left none
  | first {s : Symbol μ} {right : Nat} {w : Piece} :
      r.body[0]? = some s → p.Stands s left right w → PartOf p g k r left 1 right (some w)
  | later {i right : Nat} :
      PartOf p g k r left (i + 2) right
        (some (.intermediate (base g k + (i + 2)) none left right))

omit [DecidableEq μ] in
theorem Stands.extents {s : Symbol μ} {left right : Nat} {w : Piece}
    (h : p.Stands s left right w) : w.left = left ∧ w.right = right := by
  cases h with
  | terminal | call => exact ⟨rfl, rfl⟩

theorem PartOf.extents {k i left right : Nat} {r : Rule μ} {w : Piece}
    (h : p.PartOf g k r left i right (some w)) : w.left = left ∧ w.right = right := by
  cases h with
  | first _ hs => exact hs.extents
  | later => exact ⟨rfl, rfl⟩

/-- A whole rule starts where its call does, and an empty one ends there. -/
theorem PartOf.child_eq (id : Nat) {k i left right : Nat} {r : Rule μ} {part : Option Piece}
    (h : p.PartOf g k r left i right part) :
    part.getD (.terminal id right right) = part.getD (.terminal id left left) ∧
      (part.getD (.terminal id left left)).left = left := by
  cases h with
  | front => exact ⟨rfl, rfl⟩
  | first _ hw => exact ⟨rfl, hw.extents.1⟩
  | later => exact ⟨rfl, rfl⟩

/-- One more symbol. -/
theorem PartOf.join {k i left middle right : Nat} {r : Rule μ} {s : Symbol μ}
    {part : Option Piece} {w : Piece} (h : p.PartOf g k r left i middle part)
    (hs : r.body[i]? = some s) (hw : p.Stands s middle right w) :
    p.PartOf g k r left (i + 1) right
      (some (.join (base g k + (i + 1)) none part w)) := by
  obtain ⟨-, hright⟩ := hw.extents
  cases h with
  | front => exact .first hs hw
  | first _ hw' =>
    rw [Piece.join, hright, hw'.extents.1]
    exact .later
  | later =>
    rw [Piece.join, hright]
    exact .later

/-- A thread is at a place of its rule, with the part that belongs there. -/
def InRule (p : Parser μ) (g : Grammar μ) (t : Thread) : Prop :=
  t.call.arguments = none ∧ ∃ k r i, g.rules[k]? = some r ∧ i ≤ r.body.length ∧
    t.slot = base g k + i ∧ p.PartOf g k r t.call.position i t.position t.part

/-- A caller is before a symbol of its rule for which the results of the call stand. -/
def BeforeCall (p : Parser μ) (g : Grammar μ) (key : Stack.Key) (c : Caller) : Prop :=
  c.call.arguments = none ∧ ∃ k r i s, g.rules[k]? = some r ∧ r.body[i]? = some s ∧
    c.slot = base g k + i ∧ p.PartOf g k r c.call.position i key.position c.part ∧
    ∀ right, p.Stands s key.position right (resultPiece key right)

/-- A derivation joins a symbol to the part before it, or makes a whole rule of its last part. -/
inductive Placed (p : Parser μ) (g : Grammar μ) : Packing → Prop where
  | join {k i left pivot right : Nat} {r : Rule μ} {s : Symbol μ} {part : Option Piece}
      {w : Piece} :
      g.rules[k]? = some r → r.body[i]? = some s → 0 < i → p.PartOf g k r left i pivot part →
      p.Stands s pivot right w →
      Placed p g ⟨.intermediate (base g k + (i + 1)) none left right, base g k + (i + 1), pivot,
        part, w⟩
  | whole {k left right : Nat} {r : Rule μ} {part : Option Piece} :
      g.rules[k]? = some r → p.PartOf g k r left r.body.length right part →
      Placed p g ⟨.nonterminal (ownerOf g k r).head none left right,
        base g k + r.body.length, left, none,
        part.getD (.terminal p.graph.epsilon left left)⟩

/-- The fact is about places of rules and calls without arguments. -/
def InPlace (p : Parser μ) (g : Grammar μ) : Fact → Prop
  | .called key => key.arguments = none
  | .posted t | .passed t => p.InRule g t
  | .awaited key c => key.arguments = none ∧ p.BeforeCall g key c
  | .result key _ _ => key.arguments = none
  | .piece w => w.IsBare
  | .packing d => p.Placed g d

omit [DecidableEq μ] in
theorem Stands.isBare {s : Symbol μ} {left right : Nat} {w : Piece}
    (h : p.Stands s left right w) : w.IsBare := by
  cases h with
  | terminal => exact trivial
  | call => rfl

theorem PartOf.isBare {k i left right : Nat} {r : Rule μ} {w : Piece}
    (h : p.PartOf g k r left i right (some w)) : w.IsBare := by
  cases h with
  | first _ hw => exact hw.isBare
  | later => rfl

/-! ## Everything has its place -/

section

variable (hg : SlotGraph.ofGrammar g = .ok p.graph)

include hg

/-- The slot at a place of a rule knows the place. -/
theorem slot_at {k i : Nat} {r : Rule μ} (hr : g.rules[k]? = some r) (hi : i ≤ r.body.length) :
    (p.graph.slot (base g k + i)).head = (ownerOf g k r).head ∧
      (p.graph.slot (base g k + i)).rule = k ∧ (p.graph.slot (base g k + i)).position = i := by
  obtain ⟨action, hslot, -⟩ := body_slot hr hi
  rw [← compile_eq hg, slot_eq hslot]
  exact ⟨rfl, rfl, rfl⟩

/-- Places of rules have slots of their own. -/
theorem place_inj {k k' i i' : Nat} {r r' : Rule μ} (hr : g.rules[k]? = some r)
    (hr' : g.rules[k']? = some r') (hi : i ≤ r.body.length) (hi' : i' ≤ r'.body.length)
    (h : base g k + i = base g k' + i') : k = k' ∧ r = r' ∧ i = i' := by
  obtain ⟨-, hrule, hposition⟩ := slot_at hg hr hi
  obtain ⟨-, hrule', hposition'⟩ := slot_at hg hr' hi'
  rw [h] at hrule hposition
  obtain rfl := hrule.symm.trans hrule'
  exact ⟨rfl, Option.some.inj (hr.symm.trans hr'), hposition.symm.trans hposition'⟩

theorem action_end {k : Nat} {r : Rule μ} (hr : g.rules[k]? = some r) :
    (p.graph.slot (base g k + r.body.length)).action = .complete r.returns := by
  obtain ⟨action, hslot, hend, -⟩ := body_slot hr (Nat.le_refl _)
  rw [← compile_eq hg, slot_eq hslot, ← hend rfl]
  rfl

/-- Without parameters there are no arguments. -/
theorem arguments_eq_nil (hparameters : ∀ name, g.parametersOf name = []) {r : Rule μ}
    {name : String} {arguments : List Expr} {notes : Annotations μ} (hr : r ∈ g.rules)
    (hs : .call name arguments notes ∈ r.body) : arguments = [] := by
  have hlength := ((closed_of_ofGrammar hg).calls r hr _ hs (name, arguments)
    (List.mem_singleton_self _)).2
  rw [hparameters] at hlength
  exact List.length_eq_zero_iff.mp hlength.symm

/-- **The action before a symbol crosses the symbol.** -/
theorem action_cases (hsimple : g.IsSimple) {k i : Nat} {r : Rule μ} {s : Symbol μ}
    (hr : g.rules[k]? = some r) (hs : r.body[i]? = some s) :
    (∃ t notes id, s = .terminal t notes ∧ p.graph.terminals.get? id = some t ∧
        (p.graph.slot (base g k + i)).action = .scan id notes (base g k + (i + 1))) ∨
      ∃ name notes id, s = .call name [] notes ∧ id < p.graph.nonterminals.size ∧
        p.graph.nonterminalName id = name ∧ (p.graph.nonterminal id).parameters = [] ∧
        (p.graph.slot (base g k + i)).action = .call id [] notes (base g k + (i + 1)) := by
  have hrule := List.mem_of_getElem? hr
  have hmem := List.mem_of_getElem? hs
  have hclosed := closed_of_ofGrammar hg
  obtain ⟨hi, -⟩ := List.getElem?_eq_some_iff.mp hs
  obtain ⟨action, hslot, -, hsymbol⟩ := body_slot hr (Nat.le_of_lt hi)
  obtain ⟨next, haction, -⟩ := hsymbol s hs
  have hslotAction : (p.graph.slot (base g k + i)).action = action := by
    rw [← compile_eq hg, slot_eq hslot]
    rfl
  rw [hslotAction, haction]
  have hcover := cover_of_mem hclosed hrule hmem
  cases s with
  | terminal t notes =>
    refine Or.inl ⟨t, notes, _, rfl, ?_, rfl⟩
    rw [← compile_eq hg]
    exact get?_find?_getD (hcover.1 t (List.mem_singleton_self t))
  | call name arguments notes =>
    obtain rfl : arguments = [] := hsimple r hrule _ hmem
    have hname := nonterminalName_of_get?
      (get?_find?_getD (hcover.2 (name, []) (List.mem_singleton_self _)))
    rw [compile_eq hg] at hname
    refine Or.inr ⟨name, notes, _, rfl, hname.1, hname.2, ?_, rfl⟩
    have hlength := (hclosed.calls r hrule _ hmem (name, []) (List.mem_singleton_self _)).2
    rw [← parametersOf_nonterminalName hg hname.1, hname.2]
    exact List.length_eq_zero_iff.mp hlength
  | ifThen | ifThenElse => exact (hsimple r hrule _ hmem).elim

omit hg in
/-- What joining a symbol to a part adds has its place. -/
theorem inPlace_joinFacts {k i left middle right : Nat} {r : Rule μ} {s : Symbol μ}
    {part : Option Piece} {w : Piece} {f : Fact} (hr : g.rules[k]? = some r)
    (hs : r.body[i]? = some s) (hpart : p.PartOf g k r left i middle part)
    (hw : p.Stands s middle right w)
    (hf : f ∈ Piece.joinFacts (base g k + (i + 1)) none part w) : p.InPlace g f := by
  cases part with
  | none => exact absurd hf List.not_mem_nil
  | some l =>
    obtain ⟨hleft, hmiddle⟩ := hpart.extents
    have hi : 0 < i := by
      cases hpart with
      | first | later => omega
    simp only [Piece.joinFacts, List.mem_cons, List.not_mem_nil, or_false] at hf
    rcases hf with rfl | rfl
    · exact (hpart.join hs hw).isBare
    · have hplaced := Placed.join hr hs hi hpart hw
      rw [← hmiddle, ← hleft, ← hw.extents.2] at hplaced
      exact hplaced

section

variable (hsimple : g.IsSimple)

include hsimple

omit hsimple in
/-- A rule that is complete is in its place as a whole. -/
theorem inPlace_completeFacts {t : Thread} {k : Nat} {r : Rule μ} {value : Option Value} {f : Fact}
    (hnone : t.call.arguments = none) (hr : g.rules[k]? = some r)
    (hslot : t.slot = base g k + r.body.length)
    (hpart : p.PartOf g k r t.call.position r.body.length t.position t.part)
    (hf : f ∈ p.completeFacts t value) : p.InPlace g f := by
  have hhead := (slot_at hg hr (Nat.le_refl _)).1
  obtain ⟨hchild, hleft⟩ := hpart.child_eq p.graph.epsilon
  simp only [completeFacts, List.mem_cons, List.not_mem_nil, or_false] at hf
  rcases hf with rfl | rfl | rfl | rfl
  · exact hnone
  · show (p.child t).IsBare
    unfold child
    cases hw : t.part with
    | none => exact trivial
    | some w => exact (hw ▸ hpart).isBare
  · exact hnone
  · have hplaced := Placed.whole hr hpart
    show p.Placed g _
    rw [whole, child, hslot, hhead, hnone, hchild, hleft]
    exact hplaced

/-- **A thread in its place leads to what has its place.** -/
theorem inPlace_of_leadsTo {t : Thread} {f : Fact} (ht : p.InRule g t) (h : p.LeadsTo t f) :
    p.InPlace g f := by
  obtain ⟨hnone, k, r, i, hr, hi, hslot, hpart⟩ := ht
  rcases Nat.eq_or_lt_of_le hi with rfl | hlt
  · have haction := action_end hg hr
    rw [← hslot] at haction
    obtain ⟨value, -, hf⟩ := (leadsTo_complete_iff haction).mp h
    exact inPlace_completeFacts hg hnone hr hslot hpart hf
  · have hs := List.getElem?_eq_getElem hlt
    rcases action_cases hg hsimple hr hs with ⟨t', notes, id, hsymbol, hid, haction⟩ |
      ⟨name, notes, id, hsymbol, hid, hname, hparameters, haction⟩
    · rw [← hslot] at haction
      obtain ⟨⟨right, env⟩, hscanned, hf⟩ := (leadsTo_scan_iff haction).mp h
      obtain ⟨-, hmatch, -, -⟩ := scanned_eq_some_iff.mp hscanned
      rw [SlotGraph.terminal, hid] at hmatch
      have hw : p.Stands r.body[i] t.position right (.terminal id t.position right) :=
        hsymbol ▸ .terminal hid hmatch
      simp only [scanFacts, hnone, List.mem_cons] at hf
      rcases hf with rfl | rfl | hf
      · exact ⟨hnone, k, r, i + 1, hr, hlt, rfl, hpart.join hs hw⟩
      · exact trivial
      · exact inPlace_joinFacts hr hs hpart hw hf
    · rw [← hslot] at haction
      obtain ⟨⟨key, env⟩, hcalling, hf⟩ := (leadsTo_call_iff haction).mp h
      obtain ⟨-, -, rfl, hposition, hvalues⟩ := calling_eq_some_iff.mp hcalling
      rw [argumentsFor_eq_ok_iff, hparameters] at hvalues
      have hvalues : key.arguments = none := hvalues
      unfold callFacts at hf
      split at hf
      · exact absurd hf List.not_mem_nil
      simp only [List.mem_cons, List.not_mem_nil, or_false] at hf
      rcases hf with rfl | rfl
      · exact hvalues
      · refine ⟨hvalues, hnone, k, r, i, _, hr, hs, hslot, hposition ▸ hpart, fun right => ?_⟩
        rw [resultPiece, hvalues, hsymbol]
        exact .call hid hname

/-- A caller in its place goes on in its place. -/
theorem inPlace_of_resumesTo {key : Stack.Key} {c : Caller} {right : Nat} {value : Option Value}
    {f : Fact} (hc : p.BeforeCall g key c) (h : p.ResumesTo key c right value f) :
    p.InPlace g f := by
  obtain ⟨hnone, k, r, i, s, hr, hs, hslot, hpart, hstands⟩ := hc
  obtain ⟨hi, -⟩ := List.getElem?_eq_some_iff.mp hs
  rcases action_cases hg hsimple hr hs with ⟨t, notes, id, rfl, -, -⟩ |
    ⟨name, notes, id, -, -, -, -, haction⟩
  · cases hstands 0
  · rw [← hslot] at haction
    obtain ⟨env, -, hf⟩ := (resumesTo_iff haction).mp h
    simp only [resumeFacts, hnone, List.mem_cons] at hf
    rcases hf with rfl | hf
    · exact ⟨hnone, k, r, i + 1, hr, hi, rfl, hpart.join hs (hstands right)⟩
    · exact inPlace_joinFacts hr hs hpart (hstands right) hf

/-- **In a simple grammar everything has its place.** -/
theorem inPlace_of_entails {f : Fact} (h : p.Entails f) : p.InPlace g f := by
  induction h with
  | start _ => rfl
  | @opening key slot hcalled hslot hkey =>
    obtain ⟨k, r, hr, -, rfl, -⟩ := (mem_openings_iff hg (meant_of_entails hg hcalled)).mp hslot
    exact ⟨hkey, k, r, 0, hr, Nat.zero_le _, rfl, .front⟩
  | delivered _ ht => exact ht
  | move _ hmove hf ht => exact inPlace_of_leadsTo hg hsimple ht ⟨_, hmove, hf⟩
  | resume _ _ hresume hf hc _ => exact inPlace_of_resumesTo hg hsimple hc.2 ⟨_, hresume, hf⟩

end

/-! ## Derivations are known by their keys -/

theorem Stands.unique {s : Symbol μ} {left right : Nat} {w w' : Piece}
    (h : p.Stands s left right w) (h' : p.Stands s left right w') : w = w' := by
  cases h with
  | terminal hid =>
    cases h' with
    | terminal hid' => rw [Numbering.get?_inj hid hid']
  | call hid hname =>
    cases h' with
    | call hid' hname' =>
      have hgraph := compile_eq hg
      have hsame := nonterminalName_inj (hgraph ▸ hid) (hgraph ▸ hid')
        (by rw [hgraph, hname, hname'])
      rw [hsame]

theorem PartOf.unique {k i left right : Nat} {r : Rule μ} {part part' : Option Piece}
    (h : p.PartOf g k r left i right part) (h' : p.PartOf g k r left i right part') :
    part = part' := by
  cases h with
  | front =>
    cases h' with
    | front => rfl
  | first hs hw =>
    cases h' with
    | first hs' hw' =>
      obtain rfl := Option.some.inj (hs.symm.trans hs')
      rw [hw.unique hg hw']
  | later =>
    cases h' with
    | later => rfl

/-- **A derivation is known by its parent, its slot and its pivot.** -/
theorem Placed.key_inj {d d' : Packing} (h : p.Placed g d) (h' : p.Placed g d')
    (hkey : d.key = d'.key) : d = d' := by
  cases h with
  | join hr hs _ hpart hw =>
    cases h' with
    | join hr' hs' _ hpart' hw' =>
      obtain ⟨hi, -⟩ := List.getElem?_eq_some_iff.mp hs
      obtain ⟨hi', -⟩ := List.getElem?_eq_some_iff.mp hs'
      simp only [Packing.key, Prod.mk.injEq, Piece.intermediate.injEq] at hkey
      obtain ⟨⟨hslot, -, rfl, rfl⟩, -, rfl⟩ := hkey
      obtain ⟨rfl, rfl, hi⟩ := place_inj hg hr hr' hi hi' hslot
      obtain rfl := Nat.succ.inj hi
      obtain rfl := Option.some.inj (hs.symm.trans hs')
      rw [hpart.unique hg hpart', hw.unique hg hw']
    | whole => exact absurd (congrArg Prod.fst hkey) (by simp [Packing.key])
  | whole hr hpart =>
    cases h' with
    | join => exact absurd (congrArg Prod.fst hkey) (by simp [Packing.key])
    | whole hr' hpart' =>
      simp only [Packing.key, Prod.mk.injEq, Piece.nonterminal.injEq] at hkey
      obtain ⟨⟨-, -, rfl, rfl⟩, hslot, -⟩ := hkey
      obtain ⟨rfl, rfl, -⟩ := place_inj hg hr hr' (Nat.le_refl _) (Nat.le_refl _) hslot
      rw [hpart.unique hg hpart']

end

end Parser

end GeneralLL
