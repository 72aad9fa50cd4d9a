import GeneralLL.Proofs.Building
import GeneralLL.Proofs.Language
import GeneralLL.Proofs.Parts
import GeneralLL.Proofs.Places

/-!
# The shape of forests

Whatever the grammar and the text are, the forest is well formed in every state of a parse
(`forest_wellShaped`). The stores check none of this. A node has derivations because it is
made with one (`Forest.Founded`), and a derivation is what it should be because threads and
callers stay in their places (`located_of_entails`).
-/

namespace GeneralLL

open SlotGraph

/-- The symbol just before a slot. -/
def SlotGraph.symbolBefore? {μ : Type} (graph : SlotGraph μ) (id : Nat) : Option (Symbol μ) :=
  match (graph.slot id).position with
  | 0 => none
  | i + 1 => (graph.rule (graph.slot id).rule).body[i]?

namespace Forest

/-- The node reaches from one position to another. -/
def Spans (f : Forest) (id left right : Nat) : Prop :=
  ∃ n, f.nodes[id]? = some n ∧ n.span.left = left ∧ n.span.right = right

/-- The packed node is one of those that the node lists. -/
def HasPacked (f : Forest) (n : Node) (k : Packed) : Prop := ∃ i ∈ n.packed, f.packed[i]? = some k

theorem spans_of_piece? {f : Forest} {id : Nat} {w : Piece} (h : f.piece? id = some w) :
    f.Spans id w.left w.right := by
  obtain ⟨n, hn, -⟩ := piece?_eq_some_iff.mp h
  have hextents := extents_of_piece? h
  rw [get, hn] at hextents
  exact ⟨n, hn, hextents⟩

end Forest

namespace Parser

variable {μ : Type} [DecidableEq μ] [Matcher μ] {p : Parser μ} {g : Grammar μ}

/-- The node is a leaf of a terminal that matches there, or a node of a nonterminal, for which the
symbol may stand. -/
inductive SymbolNode (p : Parser μ) (f : Forest) (s : Symbol μ) (left right id : Nat) : Prop where
  | leaf {t : Nat} {terminal : Terminal μ} {notes : Annotations μ} {n : Forest.Node} :
      f.nodes[id]? = some n → n.span = ⟨.terminal t, left, right⟩ →
      p.graph.terminals.get? t = some terminal → .terminal terminal notes ∈ s.branches →
      terminal.matchAt p.input left = some right → SymbolNode p f s left right id
  | nonterminal {a : Nat} {arguments : Option Nat} {passed : List Expr} {notes : Annotations μ}
      {n : Forest.Node} :
      f.nodes[id]? = some n → n.span = ⟨.nonterminal a arguments, left, right⟩ →
      a < p.graph.nonterminals.size → .call (p.graph.nonterminalName a) passed notes ∈ s.branches →
      SymbolNode p f s left right id

/-- What a part of a rule has recognised before its last symbol: it starts where the part does, and
if it is a part itself, it is one up to an earlier place of the same rule in the same call. -/
def FrontNode (p : Parser μ) (f : Forest) (slot : Nat) (arguments : Option Nat)
    (left right id : Nat) : Prop :=
  ∃ n, f.nodes[id]? = some n ∧ n.span.left = left ∧ n.span.right = right ∧
    ∀ slot' arguments', n.span.label = .intermediate slot' arguments' →
      arguments' = arguments ∧ (p.graph.slot slot').rule = (p.graph.slot slot).rule ∧
        (p.graph.slot slot').position < (p.graph.slot slot).position

/-- **A well-formed forest.** Leaves are not derived, and all other nodes are. A derivation of a
nonterminal is a whole rule of it. A derivation of a part of a rule joins the last symbol of the
part to what was recognised before it. -/
structure WellShaped (p : Parser μ) (f : Forest) : Prop where
  /-- Terminals have no derivations. -/
  leaf : ∀ {id : Nat} {n : Forest.Node}, f.nodes[id]? = some n → n.span.label.isTerminal →
    n.packed = []
  /-- All other nodes have one. -/
  derived : ∀ {id : Nat} {n : Forest.Node}, f.nodes[id]? = some n →
    n.span.label.isTerminal = false → n.packed ≠ []
  /-- The numbers in a node are those of its own packed nodes. -/
  listed : ∀ {id i : Nat} {n : Forest.Node}, f.nodes[id]? = some n → i ∈ n.packed →
    ∃ k, f.packed[i]? = some k ∧ k.parent = id
  /-- A derivation of a nonterminal ends a rule of it, and has one part, of the same extent. -/
  whole : ∀ {id a : Nat} {arguments : Option Nat} {n : Forest.Node} {k : Forest.Packed},
    f.nodes[id]? = some n → n.span.label = .nonterminal a arguments → f.HasPacked n k →
    k.left = none ∧ (p.graph.slot k.slot).isEnd ∧ (p.graph.slot k.slot).head = a ∧
      k.pivot = n.span.left ∧ f.Spans k.right n.span.left n.span.right
  /-- A derivation of a part of a rule has two parts that meet at the pivot; the right one is a node
  of the symbol before the slot. -/
  part : ∀ {id slot : Nat} {arguments : Option Nat} {n : Forest.Node} {k : Forest.Packed},
    f.nodes[id]? = some n → n.span.label = .intermediate slot arguments → f.HasPacked n k →
    k.slot = slot ∧ n.span.left ≤ k.pivot ∧ k.pivot ≤ n.span.right ∧
      (∃ l, k.left = some l ∧ p.FrontNode f slot arguments n.span.left k.pivot l) ∧
      ∃ s, p.graph.symbolBefore? slot = some s ∧ p.SymbolNode f s k.pivot n.span.right k.right

section

variable (hg : SlotGraph.ofGrammar g = .ok p.graph)

include hg

theorem rule_eq {k : Nat} {r : Rule μ} (hr : g.rules[k]? = some r) : p.graph.rule k = r := by
  rw [← compile_eq hg]
  show (g.rules.toArray[k]?).getD _ = r
  rw [List.getElem?_toArray, hr, Option.getD_some]

/-- The symbol just before the slot at `base + (i + 1)` is symbol `i`. -/
theorem symbolBefore?_base {k i : Nat} {r : Rule μ} {s : Symbol μ} (hr : g.rules[k]? = some r)
    (hs : r.body[i]? = some s) : p.graph.symbolBefore? (base g k + (i + 1)) = some s := by
  obtain ⟨hi, -⟩ := List.getElem?_eq_some_iff.mp hs
  have hlies := (before_base_graph hg hr hi).lies
  rw [symbolBefore?, hlies.position]
  show (p.graph.rule (p.graph.slot (base g k + (i + 1))).rule).body[i]? = some s
  rw [hlies.rule, ownerOf, rule_eq hg hr]
  exact hs

omit hg [DecidableEq μ] in
/-- A node whose piece fits a symbol is one of those that the symbol may stand for. -/
theorem Fits.symbolNode {f : Forest} {s b : Symbol μ} {left right id : Nat} {w : Piece}
    (h : p.Fits b left right w) (hb : b ∈ s.branches) (hid : f.piece? id = some w) :
    p.SymbolNode f s left right id := by
  obtain ⟨n, hn, hspan⟩ := Forest.piece?_eq_some_iff.mp hid
  rw [Forest.pieceOf?_eq_some_iff] at hspan
  cases h with
  | terminal ht hmatch => exact .leaf hn hspan ht hb hmatch
  | call hcallee hname =>
    obtain ⟨a, -, hspan⟩ := hspan
    subst hname
    exact .nonterminal hn hspan hcallee hb

/-- A part that was recognised before symbol `i` is in front of the part behind it. -/
theorem Recognised.frontNode {f : Forest} {k i left right id : Nat} {r : Rule μ}
    {values : Option (List Value)} {arguments : Option Nat} {w : Piece}
    (h : p.Recognised g k r values left i right (some w)) (hr : g.rules[k]? = some r)
    (hi : i < r.body.length) (harguments : f.argumentsAt? arguments = some values)
    (hid : f.piece? id = some w) :
    p.FrontNode f (base g k + (i + 1)) arguments left right id := by
  obtain ⟨n, hn, hspan⟩ := Forest.piece?_eq_some_iff.mp hid
  obtain ⟨n', hn', hleft, hright⟩ := Forest.spans_of_piece? hid
  obtain rfl := Option.some.inj (hn.symm.trans hn')
  obtain ⟨hwleft, hwright⟩ := h.extents
  refine ⟨n, hn, hleft.trans hwleft, hright.trans hwright, fun slot' arguments' hlabel => ?_⟩
  rw [Forest.pieceOf?, hlabel] at hspan
  obtain ⟨values', hvalues', heq⟩ := Option.map_eq_some_iff.mp hspan
  subst heq
  cases h with
  | first _ _ _ hw => cases hw
  | @part j _ hj =>
    have hlies := (before_base_graph hg hr (Nat.le_trans hj (Nat.le_of_lt hi))).lies
    have hlies' := (before_base_graph hg hr hi).lies
    refine ⟨Forest.argumentsAt?_inj hvalues' harguments, ?_, ?_⟩
    · rw [hlies.rule, hlies'.rule]
    · rw [hlies.position, hlies'.position]
      omega

variable (hbounded : g.Bounded p.input)

include hbounded

/-- The derivations in the forest of a coherent state are formed as they should be. -/
theorem Coherent.formed {s : State} (hs : p.Coherent s) {id : Nat} {n : Forest.Node}
    {k : Forest.Packed} (hn : s.forest.nodes[id]? = some n) (hk : s.forest.HasPacked n k) :
    ∃ d, p.Formed g d ∧ s.forest.packing? k = some d ∧
      s.forest.pieceOf? n.span = some d.parent := by
  obtain ⟨i, hi, hk⟩ := hk
  obtain ⟨k', hk', hparent⟩ := ((hs.wf.forest.lists hn).2 i).mp hi
  obtain rfl := Option.some.inj (hk.symm.trans hk')
  obtain ⟨d, hd⟩ := hs.wf.forest.packings hk
  have hentails : p.Entails (.packing d) := hs.sound ⟨i, k, hk, hd⟩
  obtain ⟨n', hn', hspan⟩ :=
    Forest.piece?_eq_some_iff.mp (Forest.packing?_eq_some_iff.mp hd).1
  rw [hparent] at hn'
  obtain rfl := Option.some.inj (hn.symm.trans hn')
  exact ⟨d, located_of_entails hg hbounded hentails, hd, hspan⟩

/-- The forest of a coherent state whose forest was built as forests are is well formed. -/
theorem Coherent.wellShaped {s : State} (hs : p.Coherent s) (hground : s.Grounded) :
    p.WellShaped s.forest := by
  have hfounded := hground.built.founded
  refine ⟨hfounded.leaves, fun {id n} hn hinner => ?_, fun {id i n} hn hi => ?_,
    fun {id a arguments n k} hn hlabel hk => ?_, fun {id slot arguments n k} hn hlabel hk => ?_⟩
  · obtain ⟨i, rest, k, hpacked, -⟩ := hfounded.first hn hinner
    rw [hpacked]
    exact List.cons_ne_nil i rest
  · exact ((hs.wf.forest.lists hn).2 i).mp hi
  · obtain ⟨d, hformed, hd, hspan⟩ := hs.formed hg hbounded hn hk
    obtain ⟨-, hslot, hpivot, hleft, hright⟩ := Forest.packing?_eq_some_iff.mp hd
    cases hformed with
    | join =>
      obtain ⟨_, -, heq⟩ := Forest.pieceOf?_eq_some_iff.mp hspan
      rw [heq] at hlabel
      exact absurd hlabel (by simp)
    | @whole k' left right r values part hr hpart =>
      obtain ⟨_, -, heq⟩ := Forest.pieceOf?_eq_some_iff.mp hspan
      rw [heq] at hlabel
      obtain ⟨rfl, -⟩ := Forest.Label.nonterminal.inj hlabel
      have hspans := Forest.spans_of_piece? hright
      obtain ⟨-, hl, hr'⟩ := hpart.child_eq p.graph.epsilon
      rw [hl, hr'] at hspans
      have hnone : k.left = none := by
        rcases Forest.part?_eq_some_iff.mp hleft with ⟨hnone, -⟩ | ⟨_, _, -, hsome, -⟩
        · exact hnone
        · exact absurd hsome (by simp)
      have haction := action_end hg hr
      rw [heq, hslot, hpivot]
      refine ⟨hnone, ?_, (slot_at hg hr (Nat.le_refl _)).1, rfl, hspans⟩
      rw [Slot.isEnd, haction]
  · obtain ⟨d, hformed, hd, hspan⟩ := hs.formed hg hbounded hn hk
    obtain ⟨-, hslot, hpivot, hleft, hright⟩ := Forest.packing?_eq_some_iff.mp hd
    cases hformed with
    | whole =>
      obtain ⟨_, -, heq⟩ := Forest.pieceOf?_eq_some_iff.mp hspan
      rw [heq] at hlabel
      exact absurd hlabel (by simp)
    | @join k' i left pivot right r values symbol b l w hr hsymbol hb hpart hw hle hle' =>
      obtain ⟨a, harguments, heq⟩ := Forest.pieceOf?_eq_some_iff.mp hspan
      rw [heq] at hlabel
      obtain ⟨rfl, rfl⟩ := Forest.Label.intermediate.inj hlabel
      obtain ⟨hi, -⟩ := List.getElem?_eq_some_iff.mp hsymbol
      rcases Forest.part?_eq_some_iff.mp hleft with ⟨-, hnone⟩ | ⟨lid, l', hlid, hsome, hl⟩
      · exact absurd hnone (by simp)
      obtain rfl := Option.some.inj hsome
      rw [heq, hslot, hpivot]
      exact ⟨rfl, hle, hle', ⟨lid, hlid, hpart.frontNode hg hr hi harguments hl⟩, symbol,
        symbolBefore?_base hg hr hsymbol, hw.symbolNode hb hright⟩

/-- **Every forest is well formed,** in all states of a parse and in its answer. -/
theorem forest_wellShaped :
    (∀ log s, p.Reaches log s → p.WellShaped s.forest) ∧
      ∀ fuel root f, (p.parse fuel).verdict = .ok (.success root f) → p.WellShaped f := by
  have hreaches {log : List Descriptor} {s : State} (h : p.Reaches log s) :
      p.WellShaped s.forest := by
    obtain ⟨ran, hreached⟩ := h.reached hg
    exact hreached.coherent.wellShaped hg hbounded (h.grounded hg)
  refine ⟨fun log s h => hreaches h, fun fuel root f h => ?_⟩
  obtain ⟨log, s, hends, -, rfl⟩ := endsIn_of_success hg h
  exact hreaches hends.reaches

end

end Parser

/-- The forest of a word that is echoed is well formed. -/
theorem forest_wellShaped_echoes :
    SlotGraph.ofGrammar echoes = .ok (echoParser "ab,ab").graph ∧
      echoes.Bounded (echoParser "ab,ab").input ∧
      ∃ root f, ((echoParser "ab,ab").parse 200).verdict = .ok (.success root f) ∧
        (echoParser "ab,ab").WellShaped f := by
  have hg : SlotGraph.ofGrammar echoes = .ok (echoParser "ab,ab").graph :=
    SlotGraph.ofGrammar_eq_ok_iff.mpr ⟨by decide +kernel, rfl⟩
  have hbounded : echoes.Bounded (echoParser "ab,ab").input := fun m _ => m.bounded _
  obtain ⟨root, f, hv⟩ : ∃ root f,
      ((echoParser "ab,ab").parse 200).verdict = .ok (.success root f) :=
    Verdict.exists_success (by decide +kernel)
  exact ⟨hg, hbounded, root, f, hv, (Parser.forest_wellShaped hg hbounded).2 200 root f hv⟩

end GeneralLL
