import GeneralLL.Proofs.Order
import GeneralLL.Proofs.Universe
import Mathlib.Algebra.BigOperators.Intervals
import Mathlib.Data.Finset.Sigma
import Mathlib.Data.Finset.Sum
import Mathlib.Tactic.Ring

/-!
# How much a parse builds

Without labels, arguments, values and conditional symbols a parse builds little, however
many derivations its text has (`statistics_within`): the calls are linear in the length of
the text, the derivations cubic, and all else is quadratic.

* **Where a thread is says all about it** (`thread_unique`): what it has recognised follows
  from its slot, its position and the start of its call, and it binds nothing. The same is
  true of callers (`caller_unique`).
* A derivation is known by its slot and the positions that it joins (`packing_unique`).
* So each count is at most the number of such places, for these positions are in order
  (`stretches`, `cuts`).
-/

namespace GeneralLL

open SlotGraph

/-! ## Positions in order -/

/-- The stretches of a text, each as its end and its start. -/
def stretches (n : Nat) : Finset (Σ _ : Nat, Nat) :=
  (Finset.range (n + 1)).sigma fun right => Finset.range (right + 1)

/-- The stretches of a text that are cut in two, each as its end and the stretch before the cut. -/
def cuts (n : Nat) : Finset (Σ _ : Nat, Σ _ : Nat, Nat) := (Finset.range (n + 1)).sigma stretches

theorem mem_stretches {n left right : Nat} (hle : left ≤ right) (hright : right ≤ n) :
    ⟨right, left⟩ ∈ stretches n :=
  Finset.mem_sigma.mpr ⟨Finset.mem_range.mpr (Nat.lt_succ_of_le hright),
    Finset.mem_range.mpr (Nat.lt_succ_of_le hle)⟩

theorem mem_cuts {n left pivot right : Nat} (hle : left ≤ pivot) (hle' : pivot ≤ right)
    (hright : right ≤ n) : ⟨right, pivot, left⟩ ∈ cuts n :=
  Finset.mem_sigma.mpr ⟨Finset.mem_range.mpr (Nat.lt_succ_of_le hright), mem_stretches hle hle'⟩

theorem two_mul_card_stretches (n : Nat) : 2 * (stretches n).card = (n + 1) * (n + 2) := by
  rw [stretches, Finset.card_sigma]
  simp only [Finset.card_range]
  induction n with
  | zero => rfl
  | succ n ih =>
    rw [Finset.sum_range_succ, Nat.mul_add, ih]
    ring

theorem six_mul_card_cuts (n : Nat) : 6 * (cuts n).card = (n + 1) * (n + 2) * (n + 3) := by
  rw [cuts, Finset.card_sigma]
  induction n with
  | zero => rfl
  | succ n ih =>
    have hlast := two_mul_card_stretches (n + 1)
    calc 6 * ∑ right ∈ Finset.range (n + 1 + 1), (stretches right).card
        = (n + 1) * (n + 2) * (n + 3) + 3 * (2 * (stretches (n + 1)).card) := by
          rw [Finset.sum_range_succ, Nat.mul_add, ih]
          ring
      _ = (n + 1 + 1) * (n + 1 + 2) * (n + 1 + 3) := by
          rw [hlast]
          ring

theorem card_stretches (n : Nat) : (stretches n).card = (n + 1) * (n + 2) / 2 :=
  (Nat.div_eq_of_eq_mul_right (by decide) (two_mul_card_stretches n).symm).symm

theorem card_cuts (n : Nat) : (cuts n).card = (n + 1) * (n + 2) * (n + 3) / 6 :=
  (Nat.div_eq_of_eq_mul_right (by decide) (six_mul_card_cuts n).symm).symm

/-! ## Grammars without labels -/

/-- A terminal or a call without a label. -/
def Symbol.IsUnlabelled {μ : Type} : Symbol μ → Prop
  | .terminal _ notes | .call _ _ notes => notes.label = none
  | .ifThen .. | .ifThenElse .. => False

/-- A grammar without labels, parameters, return values and conditional symbols. -/
structure Grammar.IsUnlabelled {μ : Type} (g : Grammar μ) : Prop where
  /-- Calls have neither arguments nor values. -/
  valueless : g.IsValueless
  /-- The symbols bind nothing and choose nothing. -/
  symbols : ∀ r ∈ g.rules, ∀ s ∈ r.body, s.IsUnlabelled

/-- The counts are bounded in terms of the numbers of slots and nonterminals and of the length of
the text. -/
structure Statistics.Within (c : Statistics) (slots nonterminals n : Nat) : Prop where
  /-- At most one call for each nonterminal and position. -/
  stackNodes : c.stackNodes ≤ nonterminals * (n + 1)
  /-- At most one descriptor for each slot and stretch of the text. -/
  descriptors : c.descriptors ≤ slots * ((n + 1) * (n + 2) / 2)
  /-- At most one edge for each slot and stretch. -/
  stackEdges : c.stackEdges ≤ slots * ((n + 1) * (n + 2) / 2)
  /-- At most one node for each nonterminal and stretch. -/
  nonterminalNodes : c.nonterminalNodes ≤ nonterminals * ((n + 1) * (n + 2) / 2)
  /-- At most one node for each slot and stretch. -/
  intermediateNodes : c.intermediateNodes ≤ slots * ((n + 1) * (n + 2) / 2)
  /-- At most one packed node for each slot and each stretch with a cut in it, and one more for each
  slot and stretch. -/
  packedNodes : c.packedNodes ≤
    slots * ((n + 1) * (n + 2) * (n + 3) / 6 + (n + 1) * (n + 2) / 2)

theorem Grammar.IsUnlabelled.label_eq {μ : Type} {g : Grammar μ} (h : g.IsUnlabelled)
    {notes : Annotations μ} (hnotes : notes ∈ g.annotations) : notes.label = none := by
  obtain ⟨r, hr, hnotes⟩ := List.mem_flatMap.mp hnotes
  obtain ⟨s, hs, hnotes⟩ := List.mem_flatMap.mp hnotes
  have hunlabelled := h.symbols r hr s hs
  cases s with
  | terminal | call =>
    obtain ⟨b, hb, rfl⟩ := List.mem_map.mp hnotes
    obtain rfl := List.mem_singleton.mp hb
    exact hunlabelled
  | ifThen | ifThenElse => exact hunlabelled.elim

namespace Parser

variable {μ : Type} {p : Parser μ} {g : Grammar μ}

/-- Without labels no rule changes its environment. -/
theorem eq_of_mem_environments (hunlabelled : g.IsUnlabelled) {i : Nat} {env : Environment}
    (h : env ∈ p.environments g i) : env = .empty p.config.environment := by
  induction i generalizing env with
  | zero => exact List.mem_singleton.mp h
  | succ i ih =>
    rcases List.mem_append.mp h with h | h
    · exact ih h
    · obtain ⟨env', henv', h⟩ := List.mem_flatMap.mp h
      obtain ⟨notes, hnotes, h⟩ := List.mem_flatMap.mp h
      obtain ⟨left, -, h⟩ := List.mem_flatMap.mp h
      obtain ⟨right, -, h⟩ := List.mem_flatMap.mp h
      have hlabel := hunlabelled.label_eq hnotes
      rw [← ih henv']
      simpa [Annotations.bindScan, Annotations.bindReturn, Annotations.bindCall, hlabel] using h

variable [DecidableEq μ] [Matcher μ]

section

variable (hg : SlotGraph.ofGrammar g = .ok p.graph) (hunlabelled : g.IsUnlabelled)
  (hbounded : g.Bounded p.input)

include hg hunlabelled

theorem isSimple_of_isUnlabelled : g.IsSimple := by
  intro r hr s hs
  have hsymbol := hunlabelled.symbols r hr s hs
  cases s with
  | terminal => exact trivial
  | call => exact arguments_eq_nil hg hunlabelled.valueless.parameters hr hs
  | ifThen | ifThenElse => exact hsymbol.elim

include hbounded

/-- What a thread belongs to follows from its slot, and it binds nothing. -/
theorem call_eq_of_entails {t : Thread} (h : p.Entails (.posted t)) :
    t.call = ⟨(p.graph.slot t.slot).head, t.call.position, none⟩ ∧
      t.env = .empty p.config.environment := by
  obtain ⟨k, r, i, symbols, hfollows⟩ := located_of_entails hg hbounded h
  obtain ⟨hnone, -, hmade⟩ := tame_of_entails hg hunlabelled.valueless hbounded h
  refine ⟨?_, eq_of_mem_environments hunlabelled hmade⟩
  rw [hfollows.before.lies.head, ← hfollows.head, ← hnone]

/-- **A thread is known by where it is:** by its slot, the start of its call and its position. -/
theorem thread_unique {t t' : Thread} (h : p.Entails (.posted t)) (h' : p.Entails (.posted t'))
    (hslot : t.slot = t'.slot) (hstart : t.call.position = t'.call.position)
    (hposition : t.position = t'.position) : t = t' := by
  obtain ⟨hcall, henv⟩ := call_eq_of_entails hg hunlabelled hbounded h
  obtain ⟨hcall', henv'⟩ := call_eq_of_entails hg hunlabelled hbounded h'
  have hsimple := isSimple_of_isUnlabelled hg hunlabelled
  obtain ⟨-, k, r, i, hr, hi, hbase, hpart⟩ := inPlace_of_entails hg hsimple h
  obtain ⟨-, k', r', i', hr', hi', hbase', hpart'⟩ := inPlace_of_entails hg hsimple h'
  obtain ⟨rfl, rfl, rfl⟩ := place_inj hg hr hr' hi hi' (by rw [← hbase, hslot, hbase'])
  rw [← hstart, ← hposition] at hpart'
  have hparts := hpart.unique hg hpart'
  have hcalls : t.call = t'.call := by rw [hcall, hcall', hslot, hstart]
  cases t
  cases t'
  rw [Thread.mk.injEq]
  exact ⟨hslot, hposition, hcalls, hparts, henv.trans henv'.symm⟩

/-- What a caller belongs to and what it has called follow from its slot, and it binds nothing. -/
theorem caller_eq_of_entails {key : Stack.Key} {c : Caller} (h : p.Entails (.awaited key c)) :
    c.call = ⟨(p.graph.slot c.slot).head, c.call.position, none⟩ ∧
      c.env = .empty p.config.environment ∧ key.arguments = none ∧
      ∃ arguments notes dest,
        (p.graph.slot c.slot).action = .call key.nonterminal arguments notes dest := by
  obtain ⟨k, r, i, arguments, notes, hawaiting⟩ := located_of_entails hg hbounded h
  obtain ⟨hkey, hnone, -, callee, arguments', notes', dest, haction, env, hmade, henv⟩ :=
    tame_of_entails hg hunlabelled.valueless hbounded h
  obtain ⟨s, hs, hb⟩ := hawaiting.symbol
  have hlabel := hunlabelled.label_eq (Grammar.mem_annotations
    (List.mem_of_getElem? hawaiting.rule) (List.mem_of_getElem? hs) hb)
  obtain ⟨-, -, rfl, -⟩ := Action.call.inj (hawaiting.action.symm.trans haction)
  refine ⟨?_, ?_, hkey, _, _, _, hawaiting.action⟩
  · rw [hawaiting.lies.head, ← hawaiting.head, ← hnone]
  · rw [henv, ← eq_of_mem_environments hunlabelled hmade]
    show Annotations.bindCall notes key.position env = env
    rw [Annotations.bindCall, show notes.label = none from hlabel]

/-- **A caller and its call are known by where they are:** by the slot, the start of the caller's
own call and the position. -/
theorem caller_unique {key key' : Stack.Key} {c c' : Caller} (h : p.Entails (.awaited key c))
    (h' : p.Entails (.awaited key' c')) (hslot : c.slot = c'.slot)
    (hstart : c.call.position = c'.call.position) (hposition : key.position = key'.position) :
    key = key' ∧ c = c' := by
  obtain ⟨hcall, henv, hkey, _, _, _, haction⟩ := caller_eq_of_entails hg hunlabelled hbounded h
  obtain ⟨hcall', henv', hkey', _, _, _, haction'⟩ :=
    caller_eq_of_entails hg hunlabelled hbounded h'
  have hsimple := isSimple_of_isUnlabelled hg hunlabelled
  obtain ⟨-, -, k, r, i, s, hr, hs, hbase, hpart, -⟩ := inPlace_of_entails hg hsimple h
  obtain ⟨-, -, k', r', i', s', hr', hs', hbase', hpart', -⟩ := inPlace_of_entails hg hsimple h'
  obtain ⟨hi, -⟩ := List.getElem?_eq_some_iff.mp hs
  obtain ⟨hi', -⟩ := List.getElem?_eq_some_iff.mp hs'
  obtain ⟨rfl, rfl, rfl⟩ := place_inj hg hr hr' (Nat.le_of_lt hi) (Nat.le_of_lt hi')
    (by rw [← hbase, hslot, hbase'])
  rw [← hstart, ← hposition] at hpart'
  have hparts := hpart.unique hg hpart'
  have hcalls : c.call = c'.call := by rw [hcall, hcall', hslot, hstart]
  rw [hslot] at haction
  obtain ⟨hcallee, -⟩ := Action.call.inj (haction.symm.trans haction')
  constructor
  · cases key
    cases key'
    rw [Stack.Key.mk.injEq]
    exact ⟨hcallee, hposition, hkey.trans hkey'.symm⟩
  · cases c
    cases c'
    rw [Caller.mk.injEq]
    exact ⟨hcalls, hslot, hparts, henv.trans henv'.symm⟩

/-! ## Counts -/

/-- The number in the label of a piece. -/
def numberOf : Piece → Nat
  | .terminal id _ _ | .nonterminal id _ _ _ | .intermediate id _ _ _ => id

/-- What is left of a derivation: its slot and the positions that it is about. Parts of rules are
joined at a cut, and a whole rule covers a stretch. -/
def joiningOf (key : Piece × Nat × Nat) : Nat × ((Σ _ : Nat, Σ _ : Nat, Nat) ⊕ (Σ _ : Nat, Nat)) :=
  match key with
  | (.intermediate _ _ left right, slot, pivot) => (slot, .inl ⟨right, pivot, left⟩)
  | (w, slot, _) => (slot, .inr ⟨w.right, w.left⟩)

omit hg hunlabelled hbounded in
/-- The pivot of a derivation lies inside its piece. -/
theorem Formed.pivot {d : Packing} (h : p.Formed g d) (hle : d.parent.left ≤ d.parent.right) :
    d.parent.left ≤ d.pivot ∧ d.pivot ≤ d.parent.right := by
  cases h with
  | join _ _ _ _ _ hleft hright => exact ⟨hleft, hright⟩
  | whole => exact ⟨Nat.le_refl _, hle⟩

omit hunlabelled hbounded in
/-- **A derivation's key is known by its slot and the positions that it is about.** -/
theorem key_eq_of_joiningOf_eq {d d' : Packing} (h : p.Placed g d) (h' : p.Placed g d')
    (heq : joiningOf d.key = joiningOf d'.key) : d.key = d'.key := by
  cases h with
  | join =>
    cases h' with
    | join =>
      simp only [Packing.key, joiningOf, Prod.mk.injEq, Sum.inl.injEq, Sigma.mk.injEq,
        heq_eq_eq] at heq
      obtain ⟨hslot, rfl, rfl, rfl⟩ := heq
      rw [Packing.key, Packing.key, hslot]
    | whole => exact absurd (congrArg Prod.snd heq) (by simp [Packing.key, joiningOf])
  | whole hr =>
    cases h' with
    | join => exact absurd (congrArg Prod.snd heq) (by simp [Packing.key, joiningOf])
    | whole hr' =>
      simp only [Packing.key, joiningOf, Piece.left, Piece.right, Prod.mk.injEq, Sum.inr.injEq,
        Sigma.mk.injEq, heq_eq_eq] at heq
      obtain ⟨hslot, rfl, rfl⟩ := heq
      obtain ⟨rfl, rfl, -⟩ := place_inj hg hr hr' (Nat.le_refl _) (Nat.le_refl _) hslot
      rfl

omit hunlabelled hbounded in
/-- A derivation of a piece of the text has its code among those of cuts and stretches. -/
theorem joiningOf_mem {d : Packing} (hplaced : p.Placed g d) (hformed : p.Formed g d)
    (hparent : p.Covering d.parent) :
    joiningOf d.key ∈ Finset.range p.graph.slots.size ×ˢ
      (cuts p.input.length).disjSum (stretches p.input.length) := by
  obtain ⟨hleft, hright⟩ := hformed.pivot hparent.le
  cases hplaced with
  | join hr hs =>
    obtain ⟨hi, -⟩ := List.getElem?_eq_some_iff.mp hs
    exact Finset.mem_product.mpr ⟨Finset.mem_range.mpr (before_base_graph hg hr hi).lies.lt,
      Finset.inl_mem_disjSum.mpr (mem_cuts hleft hright hparent.le_length)⟩
  | whole hr =>
    exact Finset.mem_product.mpr
      ⟨Finset.mem_range.mpr (before_base_graph hg hr (Nat.le_refl _)).lies.lt,
        Finset.inr_mem_disjSum.mpr (mem_stretches hparent.le hparent.le_length)⟩

section

variable {s : State} (hs : p.Coherent s)

include hs

theorem size_stack_le : s.stack.size ≤ p.graph.nonterminals.size * (p.input.length + 1) := by
  have hle := hs.wf.settled.lists_stackNodes.length_le
    (fun key => (key.nonterminal, key.position))
    (Finset.range p.graph.nonterminals.size ×ˢ Finset.range (p.input.length + 1)) ?_ ?_
  · rwa [List.length_range, Finset.card_product, Finset.card_range, Finset.card_range] at hle
  · intro key hkey
    obtain ⟨hcallee, hposition⟩ := located_of_entails hg hbounded (hs.sound hkey)
    exact Finset.mem_product.mpr ⟨Finset.mem_range.mpr hcallee,
      Finset.mem_range.mpr (Nat.lt_succ_of_le hposition)⟩
  · intro key key' hkey hkey' heq
    have hnone := tame_of_entails hg hunlabelled.valueless hbounded (hs.sound hkey)
    have hnone' := tame_of_entails hg hunlabelled.valueless hbounded (hs.sound hkey')
    obtain ⟨hcallee, hposition⟩ := Prod.mk.inj heq
    cases key
    cases key'
    rw [Stack.Key.mk.injEq]
    exact ⟨hcallee, hposition, hnone.trans hnone'.symm⟩

theorem seenCount_le : s.agenda.seenCount ≤
    p.graph.slots.size * ((p.input.length + 1) * (p.input.length + 2) / 2) := by
  have hle := hs.wf.settled.lists_descriptors.length_le
    (fun t => (t.slot, (⟨t.position, t.call.position⟩ : Σ _ : Nat, Nat)))
    (Finset.range p.graph.slots.size ×ˢ stretches p.input.length) ?_ ?_
  · rwa [Finset.card_product, Finset.card_range, card_stretches] at hle
  · intro t ht
    obtain ⟨k, r, i, symbols, hfollows⟩ := located_of_entails hg hbounded (hs.sound ht)
    exact Finset.mem_product.mpr ⟨Finset.mem_range.mpr hfollows.before.lies.lt,
      mem_stretches hfollows.start_le hfollows.le_length⟩
  · intro t t' ht ht' heq
    simp only [Prod.mk.injEq, Sigma.mk.injEq, heq_eq_eq] at heq
    obtain ⟨hslot, hposition, hstart⟩ := heq
    exact thread_unique hg hunlabelled hbounded (hs.sound ht) (hs.sound ht') hslot hstart hposition

theorem edgeCount_le : s.stack.edgeCount ≤
    p.graph.slots.size * ((p.input.length + 1) * (p.input.length + 2) / 2) := by
  have hle := hs.wf.settled.lists_edges.length_le
    (fun x => (x.2.slot, (⟨x.1.position, x.2.call.position⟩ : Σ _ : Nat, Nat)))
    (Finset.range p.graph.slots.size ×ˢ stretches p.input.length) ?_ ?_
  · rwa [State.Settled.length_edgesOf, Finset.card_product, Finset.card_range, card_stretches]
      at hle
  · intro x hx
    obtain ⟨k, r, i, arguments, notes, hawaiting⟩ := located_of_entails hg hbounded (hs.sound hx)
    exact Finset.mem_product.mpr ⟨Finset.mem_range.mpr hawaiting.lies.lt,
      mem_stretches hawaiting.start_le hawaiting.le_length⟩
  · intro x x' hx hx' heq
    simp only [Prod.mk.injEq, Sigma.mk.injEq, heq_eq_eq] at heq
    obtain ⟨hslot, hposition, hstart⟩ := heq
    obtain ⟨hkey, hcaller⟩ :=
      caller_unique hg hunlabelled hbounded (hs.sound hx) (hs.sound hx') hslot hstart hposition
    exact Prod.ext hkey hcaller

/-- Nodes of a sort are told apart by numbers and stretches, if the label has nothing else. -/
theorem count_le {test : Forest.Label → Bool} {numbers : Nat} (make : Nat → Nat → Nat → Piece)
    (hnonterminal : ∀ id a, test (.nonterminal id a) = test (.nonterminal id none))
    (hintermediate : ∀ slot a, test (.intermediate slot a) = test (.intermediate slot none))
    (hmake : ∀ w, p.Covering w → w.IsBare → w.isOf test →
      numberOf w < numbers ∧ w = make (numberOf w) w.left w.right) :
    s.forest.count test ≤ numbers * ((p.input.length + 1) * (p.input.length + 2) / 2) := by
  have hmade {w : Piece} (hw : s.Shows (.piece w)) (htest : w.isOf test) :
      numberOf w < numbers ∧ w = make (numberOf w) w.left w.right :=
    hmake w (located_of_entails hg hbounded (hs.sound hw))
      (tame_of_entails hg hunlabelled.valueless hbounded (hs.sound hw)) htest
  have hle := (hs.wf.settled.lists_nodes (Forest.isOf_eq hnonterminal hintermediate)).length_le
    (fun w => (numberOf w, (⟨w.right, w.left⟩ : Σ _ : Nat, Nat)))
    (Finset.range numbers ×ˢ stretches p.input.length) ?_ ?_
  · rwa [Finset.card_product, Finset.card_range, card_stretches, State.Settled.nodesOf,
      ← List.countP_eq_length_filter] at hle
  · intro w hw
    have hcovering := located_of_entails hg hbounded (hs.sound hw.1)
    exact Finset.mem_product.mpr ⟨Finset.mem_range.mpr (hmade hw.1 hw.2).1,
      mem_stretches hcovering.le hcovering.le_length⟩
  · intro w w' hw hw' heq
    simp only [Prod.mk.injEq, Sigma.mk.injEq, heq_eq_eq] at heq
    obtain ⟨hnumber, hright, hleft⟩ := heq
    rw [(hmade hw.1 hw.2).2, (hmade hw'.1 hw'.2).2, hnumber, hleft, hright]

theorem packedCount_le : s.forest.packedCount ≤ p.graph.slots.size *
    ((p.input.length + 1) * (p.input.length + 2) * (p.input.length + 3) / 6 +
      (p.input.length + 1) * (p.input.length + 2) / 2) := by
  have hsimple := isSimple_of_isUnlabelled hg hunlabelled
  have hle := hs.wf.settled.lists_packed.length_le joiningOf
    (Finset.range p.graph.slots.size ×ˢ
      (cuts p.input.length).disjSum (stretches p.input.length)) ?_ ?_
  · rwa [List.length_range, Finset.card_product, Finset.card_range, Finset.card_disjSum, card_cuts,
      card_stretches] at hle
  · intro key hkey
    obtain ⟨d, hd, rfl⟩ := hkey
    have hentails := hs.sound hd
    obtain ⟨i, k, hk, hread⟩ := hd
    have hparent := (Forest.packing?_eq_some_iff.mp hread).1
    exact joiningOf_mem hg (inPlace_of_entails hg hsimple hentails)
      (located_of_entails hg hbounded hentails)
      (located_of_entails hg hbounded (hs.sound (f := .piece d.parent) ⟨_, hparent⟩))
  · intro key key' hkey hkey' heq
    obtain ⟨d, hd, rfl⟩ := hkey
    obtain ⟨d', hd', rfl⟩ := hkey'
    exact key_eq_of_joiningOf_eq hg (inPlace_of_entails hg hsimple (hs.sound hd))
      (inPlace_of_entails hg hsimple (hs.sound hd')) heq

/-- What a coherent state has built is within the bounds. -/
theorem within_ofState :
    (Statistics.ofState s).Within p.graph.slots.size p.graph.nonterminals.size p.input.length where
  stackNodes := size_stack_le hg hunlabelled hbounded hs
  descriptors := seenCount_le hg hunlabelled hbounded hs
  stackEdges := edgeCount_le hg hunlabelled hbounded hs
  nonterminalNodes := by
    refine count_le hg hunlabelled hbounded hs (.nonterminal · none) (fun _ _ => rfl)
      (fun _ _ => rfl) fun w hw hbare htest => ?_
    cases w with
    | nonterminal id arguments left right =>
      obtain rfl : arguments = none := hbare
      exact ⟨hw.number, rfl⟩
    | terminal | intermediate => exact absurd htest Bool.false_ne_true
  intermediateNodes := by
    refine count_le hg hunlabelled hbounded hs (.intermediate · none) (fun _ _ => rfl)
      (fun _ _ => rfl) fun w hw hbare htest => ?_
    cases w with
    | intermediate slot arguments left right =>
      obtain rfl : arguments = none := hbare
      exact ⟨hw.number, rfl⟩
    | terminal | nonterminal => exact absurd htest Bool.false_ne_true
  packedNodes := packedCount_le hg hunlabelled hbounded hs

end

/-- **A parse builds no more than cubically much,** whether or not it has come to rest: its counts
are within the bounds, however many derivations the text has. -/
theorem statistics_within {fuel : Nat} {v : Verdict} (h : (p.parse fuel).verdict = .ok v) :
    (p.parse fuel).statistics.Within p.graph.slots.size p.graph.nonterminals.size
      p.input.length := by
  obtain ⟨log, s, hreaches, hstatistics⟩ := reaches_of_verdict_eq_ok hg h
  obtain ⟨ran, hreached⟩ := hreaches.reached hg
  rw [hstatistics]
  exact within_ofState hg hunlabelled hbounded hreached.coherent

end

end Parser

/-- Though a text has infinitely many derivations as a chain, little is built for it. -/
theorem statistics_within_chains :
    SlotGraph.ofGrammar chains = .ok (chainParser "aa" {}).graph ∧ chains.IsUnlabelled ∧
      chains.Bounded (chainParser "aa" {}).input ∧
      ∃ root f, ((chainParser "aa" {}).parse 100).verdict = .ok (.success root f) ∧
        ((chainParser "aa" {}).parse 100).statistics.Within (chainParser "aa" {}).graph.slots.size
          (chainParser "aa" {}).graph.nonterminals.size 2 := by
  have hg := ofGrammar_chains "aa" {}
  have hunlabelled : chains.IsUnlabelled := by
    refine ⟨⟨fun _ => rfl, ?_⟩, ?_⟩ <;> simp [chains, Symbol.IsUnlabelled]
  have hbounded : chains.Bounded (chainParser "aa" {}).input := fun m _ => m.bounded _
  obtain ⟨root, f, h⟩ : ∃ root f,
      ((chainParser "aa" {}).parse 100).verdict = .ok (.success root f) :=
    Verdict.exists_success (by decide +kernel)
  exact ⟨hg, hunlabelled, hbounded, root, f, h,
    Parser.statistics_within hg hunlabelled hbounded h⟩

end GeneralLL
