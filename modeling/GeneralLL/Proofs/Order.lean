import GeneralLL.Proofs.Parts
import GeneralLL.Proofs.Run
import Mathlib.Data.Finset.Card
import Mathlib.Data.List.Nodup
import Mathlib.Data.Set.Function

/-!
# The order of work does not matter

A parse that has come to rest knows exactly the facts that it is entitled to
(`Reached.settled`), and which these are does not depend on the order in which descriptors
are delivered (`entails_withConfig`). Two such parses may differ in numbers only. So
**they agree in whether they end with an error, in success, and in all counts**
(`parse_independent`): each count is the length of a list that reads off certain facts,
every one once (`Lists`).

In a simple grammar a derivation is known by its key, so the two forests have the same
nodes and the same packed nodes, up to a renaming of numbers (`Forest.Renames`).
-/

namespace GeneralLL

/-! ## Lists that read off the same things -/

/-- The list reads off exactly the things that `P` says, each of them once. -/
structure Lists {α β : Type} (l : List α) (read : α → Option β) (P : β → Prop) : Prop where
  /-- Nothing is listed twice. -/
  nodup : l.Nodup
  /-- What is listed can be read, as something that `P` says. -/
  sound : ∀ a ∈ l, ∃ b, read a = some b ∧ P b
  /-- Whatever `P` says is listed. -/
  complete : ∀ b, P b → ∃ a ∈ l, read a = some b
  /-- No two members are read alike. -/
  inj : ∀ a ∈ l, ∀ a' ∈ l, ∀ b, read a = some b → read a' = some b → a = a'

theorem Lists.congr {α β : Type} {l : List α} {read : α → Option β} {P Q : β → Prop}
    (h : Lists l read P) (hPQ : ∀ b, P b ↔ Q b) : Lists l read Q :=
  (funext fun b => propext (hPQ b) : P = Q) ▸ h

theorem Lists.nodup_map {α β : Type} {l : List α} {read : α → Option β} {P : β → Prop}
    (h : Lists l read P) : (l.map read).Nodup := by
  refine h.nodup.map_on fun a ha a' ha' heq => ?_
  obtain ⟨b, hb, -⟩ := h.sound a ha
  exact h.inj a ha a' ha' b hb (heq ▸ hb)

/-- **A list that reads off images of what another one does is no longer.** -/
theorem Lists.length_le_of_image {α α' β β' : Type} {l : List α} {l' : List α'}
    {read : α → Option β} {read' : α' → Option β'} {P : β → Prop} {P' : β' → Prop}
    (h : Lists l read P) (h' : Lists l' read' P') (image : β → β')
    (himage : ∀ b', P' b' → ∃ b, P b ∧ image b = b') : l'.length ≤ l.length := by
  have hsub : l'.map read' ⊆ l.map fun a => (read a).map image := by
    intro o ho
    obtain ⟨a', ha', rfl⟩ := List.mem_map.mp ho
    obtain ⟨b', hb', hP'⟩ := h'.sound a' ha'
    obtain ⟨b, hP, rfl⟩ := himage b' hP'
    obtain ⟨a, ha, hb⟩ := h.complete b hP
    exact List.mem_map.mpr ⟨a, ha, by rw [hb, hb', Option.map_some]⟩
  have hlength := (List.subperm_of_subset h'.nodup_map hsub).length_le
  rwa [List.length_map, List.length_map] at hlength

/-- **Lists that read off the same things are equally long.** -/
theorem Lists.length_eq {α α' β : Type} {l : List α} {l' : List α'} {read : α → Option β}
    {read' : α' → Option β} {P : β → Prop} (h : Lists l read P) (h' : Lists l' read' P) :
    l.length = l'.length :=
  Nat.le_antisymm (h'.length_le_of_image h id fun b hb => ⟨b, hb, rfl⟩)
    (h.length_le_of_image h' id fun b hb => ⟨b, hb, rfl⟩)

/-- The list also reads off images, if they are told apart. -/
theorem Lists.map {α β β' : Type} {l : List α} {read : α → Option β} {P : β → Prop}
    {P' : β' → Prop} (h : Lists l read P) (image : β → β') (hmem : ∀ b, P b → P' (image b))
    (himage : ∀ b', P' b' → ∃ b, P b ∧ image b = b')
    (hinj : ∀ b b', P b → P b' → image b = image b' → b = b') :
    Lists l (fun a => (read a).map image) P' := by
  refine ⟨h.nodup, fun a ha => ?_, fun b' hb' => ?_, fun a ha a' ha' b₁ hread hread' => ?_⟩
  · obtain ⟨b, hb, hP⟩ := h.sound a ha
    exact ⟨image b, by rw [hb, Option.map_some], hmem b hP⟩
  · obtain ⟨b, hP, rfl⟩ := himage b' hb'
    obtain ⟨a, ha, hb⟩ := h.complete b hP
    exact ⟨a, ha, by rw [hb, Option.map_some]⟩
  · obtain ⟨b, hb, hP⟩ := h.sound a ha
    obtain ⟨b', hb', hP'⟩ := h.sound a' ha'
    rw [hb, Option.map_some, Option.some.injEq] at hread
    rw [hb', Option.map_some, Option.some.injEq] at hread'
    obtain rfl := hinj b b' hP hP' (hread.trans hread'.symm)
    exact h.inj a ha a' ha' b hb hb'

/-- **A list is no longer than the things it reads off are many,** if they are told apart by codes
from a finite set. -/
theorem Lists.length_le {α β γ : Type} {l : List α} {read : α → Option β} {P : β → Prop}
    (h : Lists l read P) (code : β → γ) (codes : Finset γ) (hmem : ∀ b, P b → code b ∈ codes)
    (hinj : ∀ b b', P b → P b' → code b = code b' → b = b') : l.length ≤ codes.card := by
  have hnodup : (l.map fun a => (read a).map code).Nodup := by
    refine h.nodup.map_on fun a ha a' ha' heq => ?_
    obtain ⟨b, hb, hP⟩ := h.sound a ha
    obtain ⟨b', hb', hP'⟩ := h.sound a' ha'
    rw [hb, hb'] at heq
    obtain rfl := hinj b b' hP hP' (Option.some.inj heq)
    exact h.inj a ha a' ha' b hb hb'
  have hsub : (l.map fun a => (read a).map code) ⊆ codes.toList.map some := by
    intro o ho
    obtain ⟨a, ha, rfl⟩ := List.mem_map.mp ho
    obtain ⟨b, hb, hP⟩ := h.sound a ha
    rw [hb]
    exact List.mem_map_of_mem (Finset.mem_toList.mpr (hmem b hP))
  have hlength := (List.subperm_of_subset hnodup hsub).length_le
  rw [List.length_map, List.length_map, Finset.length_toList] at hlength
  exact hlength

/-! ## Counts -/

/-- Is the piece of a sort of labels? -/
def Piece.isOf (test : Forest.Label → Bool) : Piece → Bool
  | .terminal id _ _ => test (.terminal id)
  | .nonterminal id _ _ _ => test (.nonterminal id none)
  | .intermediate slot _ _ _ => test (.intermediate slot none)

/-- Sorts of labels do not depend on arguments, so a node and its piece are of the same sort. -/
theorem Forest.isOf_eq {f : Forest} {span : Forest.Span} {w : Piece} {test : Forest.Label → Bool}
    (hnonterminal : ∀ id a, test (.nonterminal id a) = test (.nonterminal id none))
    (hintermediate : ∀ slot a, test (.intermediate slot a) = test (.intermediate slot none))
    (hw : f.pieceOf? span = some w) : test span.label = w.isOf test := by
  rw [Forest.pieceOf?_eq_some_iff] at hw
  cases w with
  | terminal => rw [hw, Piece.isOf]
  | nonterminal =>
    obtain ⟨a, -, rfl⟩ := hw
    exact hnonterminal _ a
  | intermediate =>
    obtain ⟨a, -, rfl⟩ := hw
    exact hintermediate _ a

namespace Parser

namespace State

/-- The state knows exactly these facts, those about running threads apart. -/
structure Settled (s : State) (facts : Fact → Prop) : Prop where
  /-- Everything in the state can be read. -/
  wf : s.Wf
  /-- The state knows nothing but the facts. -/
  sound : ∀ {f : Fact}, s.Shows f → facts f
  /-- The state knows every fact, unless it is one about a running thread. -/
  complete : ∀ {f : Fact}, facts f → (∀ t, f ≠ .passed t) → s.Covers f

/-- A well-formed state knows exactly the facts that it shows. -/
theorem Wf.settled {s : State} (h : s.Wf) : s.Settled s.Shows :=
  ⟨h, fun hf => hf, fun hf _ => Or.inl hf⟩

namespace Settled

variable {s s' : State} {facts : Fact → Prop}

theorem shows (h : s.Settled facts) {f : Fact} (hf : facts f) (hpassed : ∀ t, f ≠ .passed t)
    (hpacking : ∀ d, f ≠ .packing d) : s.Shows f := (h.complete hf hpassed).shows hpacking

theorem piece_of_node (h : s.Settled facts) {id : Nat} {w : Piece}
    (hid : s.forest.piece? id = some w) : facts (.piece w) := h.sound ⟨id, hid⟩

theorem node_of_piece (h : s.Settled facts) {w : Piece} (hw : facts (.piece w)) :
    ∃ id, s.forest.piece? id = some w := h.shows hw (by simp) (by simp)

theorem packing_of_packed (h : s.Settled facts) {i : Nat} {k : Forest.Packed} {d : Packing}
    (hk : s.forest.packed[i]? = some k) (hd : s.forest.packing? k = some d) :
    facts (.packing d) := h.sound ⟨i, k, hk, hd⟩

theorem lists_descriptors (h : s.Settled facts) :
    Lists s.agenda.seen.toList s.thread? fun t => facts (.posted t) := by
  refine ⟨s.agenda.seen.nodup, fun d hd => ?_, fun t ht => ?_,
    fun d _ d' _ t ht ht' => h.wf.thread?_inj ht ht'⟩
  · obtain ⟨t, ht, -⟩ := h.wf.seen hd
    exact ⟨t, ht, h.sound ⟨d, hd, ht⟩⟩
  · exact h.shows ht (by simp) (by simp)

theorem lists_stackNodes (h : s.Settled facts) :
    Lists (List.range s.stack.size) s.stack.call? fun key => facts (.called key) := by
  refine ⟨List.nodup_range, fun id hid => ?_, fun key hkey => ?_,
    fun i _ j _ key hi hj => h.wf.stack.keys hi hj⟩
  · have hn := Array.getElem?_eq_getElem (List.mem_range.mp hid)
    have hcall := Stack.call?_eq_some_iff.mpr ⟨_, hn, rfl⟩
    exact ⟨_, hcall, h.sound ⟨id, hcall⟩⟩
  · obtain ⟨id, hid⟩ := h.shows hkey (by simp) (by simp)
    obtain ⟨n, hn, -⟩ := Stack.call?_eq_some_iff.mp hid
    exact ⟨id, List.mem_range.mpr (Array.getElem?_eq_some_iff.mp hn).1, hid⟩

/-- The edges of all nodes, each with the call it leads from. -/
def edgesOf (st : Stack) : List (Stack.Key × Stack.Edge) :=
  st.nodes.toList.flatMap fun n => n.edges.map (n.key, ·)

theorem mem_edgesOf {st : Stack} {key : Stack.Key} {e : Stack.Edge} :
    (key, e) ∈ edgesOf st ↔ st.HasEdge key e := by
  unfold edgesOf Stack.HasEdge
  rw [List.mem_flatMap]
  constructor
  · intro h
    obtain ⟨n, hn, he⟩ := h
    obtain ⟨id, hid⟩ := Array.mem_iff_getElem?.mp (Array.mem_toList_iff.mp hn)
    obtain ⟨e', he', heq⟩ := List.mem_map.mp he
    obtain ⟨rfl, rfl⟩ := Prod.mk.inj heq
    exact ⟨id, n, hid, rfl, he'⟩
  · intro h
    obtain ⟨id, n, hn, rfl, he⟩ := h
    exact ⟨n, Array.mem_toList_iff.mpr (Array.mem_of_getElem? hn), List.mem_map_of_mem he⟩

theorem nodup_edgesOf {st : Stack} (hst : st.Wf) : (edgesOf st).Nodup := by
  have hget {i : Nat} (hi : i < st.nodes.toList.length) :
      st.nodes[i]? = some (st.nodes.toList[i]) := by
    rw [← Array.getElem?_toList, List.getElem?_eq_getElem hi]
  refine List.nodup_flatMap.mpr ⟨fun n hn => ?_, List.pairwise_iff_getElem.mpr ?_⟩
  · obtain ⟨id, hid⟩ := Array.mem_iff_getElem?.mp (Array.mem_toList_iff.mp hn)
    exact (hst.edges hid).map fun e e' heq => (Prod.mk.inj heq).2
  · intro i j hi hj hlt x hmem hmem'
    obtain ⟨key, e⟩ := x
    obtain ⟨_, -, heq⟩ := List.mem_map.mp hmem
    obtain ⟨_, -, heq'⟩ := List.mem_map.mp hmem'
    have hsame := hst.keys
      (Stack.call?_eq_some_iff.mpr ⟨_, hget hi, (Prod.mk.inj heq).1⟩)
      (Stack.call?_eq_some_iff.mpr ⟨_, hget hj, (Prod.mk.inj heq').1⟩)
    omega

theorem length_edgesOf (st : Stack) : (edgesOf st).length = st.edgeCount := by
  simp [edgesOf, Stack.edgeCount, List.length_flatMap]

theorem lists_edges (h : s.Settled facts) :
    Lists (edgesOf s.stack) (fun x => (s.caller? x.2).map (x.1, ·))
      fun x => facts (.awaited x.1 x.2) := by
  refine ⟨nodup_edgesOf h.wf.stack, ?_, ?_, ?_⟩
  · intro x hmem
    obtain ⟨key, e⟩ := x
    have he := mem_edgesOf.mp hmem
    obtain ⟨c, hc⟩ := h.wf.callers he
    exact ⟨(key, c), by rw [hc, Option.map_some], h.sound ⟨e, he, hc⟩⟩
  · intro y hc
    obtain ⟨key, c⟩ := y
    obtain ⟨e, he, hc⟩ := h.shows hc (by simp) (by simp)
    exact ⟨(key, e), mem_edgesOf.mpr he, by rw [hc, Option.map_some]⟩
  · intro a _ b _ x hx hx'
    obtain ⟨key, e⟩ := a
    obtain ⟨key', e'⟩ := b
    obtain ⟨c, hc, rfl⟩ := Option.map_eq_some_iff.mp hx
    obtain ⟨c', hc', heq⟩ := Option.map_eq_some_iff.mp hx'
    obtain ⟨hkey, rfl⟩ := Prod.mk.inj heq
    obtain rfl : e = e' := h.wf.caller?_inj hc hc'
    exact Prod.ext hkey.symm rfl

/-- The nodes with a label of a certain sort. -/
def nodesOf (f : Forest) (test : Forest.Label → Bool) : List Forest.Node :=
  f.nodes.toList.filter fun n => test n.span.label

theorem lists_nodes (h : s.Settled facts) {test : Forest.Label → Bool}
    (htest : ∀ {span : Forest.Span} {w : Piece}, s.forest.pieceOf? span = some w →
      test span.label = w.isOf test) :
    Lists (nodesOf s.forest test) (fun n => s.forest.pieceOf? n.span)
      fun w => facts (.piece w) ∧ w.isOf test := by
  have hget {n : Forest.Node} : n ∈ nodesOf s.forest test ↔
      (∃ id : Nat, s.forest.nodes[id]? = some n) ∧ test n.span.label := by
    rw [nodesOf, List.mem_filter, Array.mem_toList_iff, Array.mem_iff_getElem?]
  refine ⟨List.Nodup.filter _ (List.pairwise_iff_getElem.mpr fun i j hi hj hlt heq => ?_),
    fun n hn => ?_, fun w hw => ?_, fun n hn n' hn' w hw hw' => ?_⟩
  · rw [Array.getElem_toList, Array.getElem_toList] at heq
    have hsame := h.wf.forest.spans (Array.getElem?_eq_getElem hi) (Array.getElem?_eq_getElem hj)
      (by rw [heq])
    omega
  · obtain ⟨⟨id, hid⟩, htested⟩ := hget.mp hn
    obtain ⟨w, hw⟩ := h.wf.forest.pieces hid
    have hpiece := Forest.piece?_eq_some_iff.mpr ⟨n, hid, hw⟩
    exact ⟨w, hw, h.piece_of_node hpiece, htest hw ▸ htested⟩
  · obtain ⟨id, hid⟩ := h.node_of_piece hw.1
    obtain ⟨n, hn, hpiece⟩ := Forest.piece?_eq_some_iff.mp hid
    exact ⟨n, hget.mpr ⟨⟨id, hn⟩, (htest hpiece).trans hw.2⟩, hpiece⟩
  · obtain ⟨⟨id, hid⟩, -⟩ := hget.mp hn
    obtain ⟨⟨id', hid'⟩, -⟩ := hget.mp hn'
    obtain rfl := h.wf.forest.spans hid hid' (Forest.pieceOf?_inj hw hw')
    exact Option.some.inj (hid.symm.trans hid')

/-- Two derivations with different keys of one piece. -/
def Ambiguous (facts : Fact → Prop) (w : Piece) : Prop :=
  ∃ d d', facts (.packing d) ∧ facts (.packing d') ∧ d.parent = w ∧ d'.parent = w ∧ d.key ≠ d'.key

/-- Of a derivation one with the same key is stored. -/
theorem exists_packed (h : s.Settled facts) {d : Packing} (hd : facts (.packing d)) :
    ∃ (i : Nat) (k : Forest.Packed) (d' : Packing), s.forest.packed[i]? = some k ∧
      s.forest.packing? k = some d' ∧ d'.key = d.key := by
  rcases h.complete hd (by simp) with ⟨i, k, hk, hread⟩ | ⟨d₀, d', heq, hkey, i, k, hk, hread⟩
  · exact ⟨i, k, d, hk, hread, rfl⟩
  · obtain rfl := Fact.packing.inj heq
    exact ⟨i, k, d', hk, hread, hkey⟩

/-- Where derivations are known by their keys, none is lost. -/
theorem exists_packed_of_key_inj (h : s.Settled facts)
    (hkeys : ∀ {d d' : Packing}, facts (.packing d) → facts (.packing d') → d.key = d'.key → d = d')
    {d : Packing} (hd : facts (.packing d)) :
    ∃ (i : Nat) (k : Forest.Packed), s.forest.packed[i]? = some k ∧
      s.forest.packing? k = some d := by
  obtain ⟨i, k, d', hk, hd', hkey⟩ := h.exists_packed hd
  obtain rfl := hkeys (h.packing_of_packed hk hd') hd hkey
  exact ⟨i, k, hk, hd'⟩

/-- Packed nodes with one key are one. -/
theorem packed_inj (h : s.Settled facts) {i j : Nat} {k k' : Forest.Packed} {d d' : Packing}
    (hk : s.forest.packed[i]? = some k) (hk' : s.forest.packed[j]? = some k')
    (hd : s.forest.packing? k = some d) (hd' : s.forest.packing? k' = some d')
    (hkey : d.key = d'.key) : i = j := by
  obtain ⟨hparent, hslot, hpivot, -, -⟩ := Forest.packing?_eq_some_iff.mp hd
  obtain ⟨hparent', hslot', hpivot', -, -⟩ := Forest.packing?_eq_some_iff.mp hd'
  simp only [Packing.key, Prod.mk.injEq] at hkey
  refine h.wf.forest.keys hk hk' (h.wf.forest.piece?_inj (hkey.1 ▸ hparent) hparent') ?_ ?_
  · rw [hslot, hslot', hkey.2.1]
  · rw [hpivot, hpivot', hkey.2.2]

theorem lists_packed (h : s.Settled facts) :
    Lists (List.range s.forest.packed.size)
      (fun i => s.forest.packed[i]?.bind fun k => (s.forest.packing? k).map Packing.key)
      fun key => ∃ d, facts (.packing d) ∧ d.key = key := by
  refine ⟨List.nodup_range, fun i hi => ?_, ?_, fun i _ j _ key hi hj => ?_⟩
  · have hk := Array.getElem?_eq_getElem (List.mem_range.mp hi)
    obtain ⟨d, hd⟩ := h.wf.forest.packings hk
    exact ⟨d.key, by rw [hk, Option.bind_some, hd, Option.map_some], d,
      h.packing_of_packed hk hd, rfl⟩
  · intro _ hkey
    obtain ⟨d, hd, rfl⟩ := hkey
    obtain ⟨i, k, d', hk, hd', hkey⟩ := h.exists_packed hd
    refine ⟨i, List.mem_range.mpr (Array.getElem?_eq_some_iff.mp hk).1, ?_⟩
    rw [hk, Option.bind_some, hd', Option.map_some, hkey]
  · obtain ⟨k, hk, hk'⟩ := Option.bind_eq_some_iff.mp hi
    obtain ⟨d, hd, hkey⟩ := Option.map_eq_some_iff.mp hk'
    obtain ⟨l, hl, hl'⟩ := Option.bind_eq_some_iff.mp hj
    obtain ⟨e, he, hkey'⟩ := Option.map_eq_some_iff.mp hl'
    exact h.packed_inj hk hl hd he (hkey.trans hkey'.symm)

theorem one_lt_length_iff {l : List Nat} (h : l.Nodup) :
    1 < l.length ↔ ∃ i ∈ l, ∃ j ∈ l, i ≠ j := by
  rw [← List.toFinset_card_of_nodup h, Finset.one_lt_card]
  simp

/-- A packed node that a node lists is a derivation of the piece of the node. -/
theorem exists_packing_of_listed (h : s.Settled facts) {id i : Nat} {n : Forest.Node} {w : Piece}
    (hn : s.forest.nodes[id]? = some n) (hw : s.forest.pieceOf? n.span = some w)
    (hi : i ∈ n.packed) :
    ∃ k d, s.forest.packed[i]? = some k ∧ s.forest.packing? k = some d ∧ facts (.packing d) ∧
      d.parent = w := by
  obtain ⟨k, hk, rfl⟩ := ((h.wf.forest.lists hn).2 i).mp hi
  obtain ⟨d, hd⟩ := h.wf.forest.packings hk
  have hparent := (Forest.packing?_eq_some_iff.mp hd).1
  have hpiece := Forest.piece?_eq_some_iff.mpr ⟨n, hn, hw⟩
  exact ⟨k, d, hk, hd, h.packing_of_packed hk hd, Option.some.inj (hparent.symm.trans hpiece)⟩

/-- A choice among the packed nodes of a node is a derivation of what the node stands for. -/
theorem exists_packing_of_chosen (h : s.Settled facts) {id i : Nat} {n : Forest.Node}
    {k : Forest.Packed} {part : Option Piece} (hn : s.forest.nodes[id]? = some n)
    (hi : i ∈ n.packed) (hk : s.forest.packed[i]? = some k)
    (hpart : s.forest.part? (some id) = some part) :
    ∃ d, part = some d.parent ∧ facts (.packing d) ∧ k.slot = d.slot ∧
      s.forest.part? k.left = some d.left ∧ s.forest.part? (some k.right) = some (some d.right) ∧
      s.forest.pieceOf? n.span = some d.parent := by
  obtain ⟨w, hw⟩ := h.wf.forest.pieces hn
  obtain ⟨k', d, hk', hread, hd, rfl⟩ := h.exists_packing_of_listed hn hw hi
  obtain rfl := Option.some.inj (hk.symm.trans hk')
  obtain ⟨-, hslot, -, hleft, hright⟩ := Forest.packing?_eq_some_iff.mp hread
  rw [Forest.part?, Forest.piece?_eq_some_iff.mpr ⟨n, hn, hw⟩] at hpart
  rw [Forest.part?, hright]
  exact ⟨d, (Option.some.inj hpart).symm, hd, hslot, hleft, rfl, hw⟩

theorem lists_ambiguous (h : s.Settled facts) :
    Lists s.forest.ambiguousNodes s.forest.piece? (Ambiguous facts) := by
  refine ⟨List.nodup_range.filter _, fun id hid => ?_, ?_,
    fun i _ j _ w hi hj => h.wf.forest.piece?_inj hi hj⟩
  · obtain ⟨n, hn, hlength⟩ := Forest.mem_ambiguousNodes_iff.mp hid
    obtain ⟨w, hw⟩ := h.wf.forest.pieces hn
    -- two packed nodes of the list have different keys
    obtain ⟨i, hi, j, hj, hne⟩ := (one_lt_length_iff (h.wf.forest.lists hn).1).mp hlength
    obtain ⟨k, d, hk, hread, hd, hparent⟩ := h.exists_packing_of_listed hn hw hi
    obtain ⟨k', d', hk', hread', hd', hparent'⟩ := h.exists_packing_of_listed hn hw hj
    exact ⟨w, Forest.piece?_eq_some_iff.mpr ⟨n, hn, hw⟩, d, d', hd, hd', hparent, hparent',
      fun hkey => hne (h.packed_inj hk hk' hread hread' hkey)⟩
  · intro _ htwo
    obtain ⟨d, d', hd, hd', rfl, hsame, hne⟩ := htwo
    -- what is stored has the keys, if not the derivations themselves
    obtain ⟨i, k, e, hk, he, hkey⟩ := h.exists_packed hd
    obtain ⟨j, k', e', hk', he', hkey'⟩ := h.exists_packed hd'
    have hparent : e.parent = d.parent := congrArg Prod.fst hkey
    have hparent' : e'.parent = d'.parent := congrArg Prod.fst hkey'
    have hpiece := (Forest.packing?_eq_some_iff.mp he).1
    have hpiece' := (Forest.packing?_eq_some_iff.mp he').1
    rw [hparent] at hpiece
    rw [hparent', hsame] at hpiece'
    obtain ⟨n, hn, -⟩ := Forest.piece?_eq_some_iff.mp hpiece
    have hids : k'.parent = k.parent := h.wf.forest.piece?_inj hpiece' hpiece
    have hij : i ≠ j := by
      intro hij
      subst hij
      obtain rfl := Option.some.inj (hk.symm.trans hk')
      obtain rfl := Option.some.inj (he.symm.trans he')
      exact hne (hkey.symm.trans hkey')
    obtain ⟨hnodup, hmem⟩ := h.wf.forest.lists hn
    have hi := (hmem i).mpr ⟨k, hk, rfl⟩
    have hj := (hmem j).mpr ⟨k', hk', hids⟩
    have hseveral := (one_lt_length_iff hnodup).mpr ⟨i, hi, j, hj, hij⟩
    exact ⟨k.parent, Forest.mem_ambiguousNodes_iff.mpr ⟨n, hn, hseveral⟩, hpiece⟩

/-- **States that know the same calls and the same of the forest** have the same counts of them. -/
theorem statistics_eq_of_forest {facts' : Fact → Prop} (h : s.Settled facts)
    (h' : s'.Settled facts') (hcalled : ∀ key, facts (.called key) ↔ facts' (.called key))
    (hforest : ∀ f : Fact, f.OfForest → (facts f ↔ facts' f)) :
    Statistics.ofState s = { Statistics.ofState s' with
      descriptors := s.agenda.seenCount, stackEdges := s.stack.edgeCount } := by
  have hnodes (test : Forest.Label → Bool)
      (hnonterminal : ∀ id a, test (.nonterminal id a) = test (.nonterminal id none))
      (hintermediate : ∀ slot a, test (.intermediate slot a) = test (.intermediate slot none)) :
      s.forest.count test = s'.forest.count test := by
    rw [Forest.count, Forest.count, List.countP_eq_length_filter, List.countP_eq_length_filter]
    exact ((h.lists_nodes (Forest.isOf_eq hnonterminal hintermediate)).congr fun w =>
      and_congr_left fun _ => hforest _ trivial).length_eq
      (h'.lists_nodes (Forest.isOf_eq hnonterminal hintermediate))
  have hpackings (d : Packing) : facts (.packing d) ↔ facts' (.packing d) := hforest _ trivial
  have hstack := (h.lists_stackNodes.congr hcalled).length_eq h'.lists_stackNodes
  have hpacked := (h.lists_packed.congr fun key => exists_congr fun d =>
    and_congr_left fun _ => hpackings d).length_eq h'.lists_packed
  have hambiguous := (h.lists_ambiguous.congr fun w => exists_congr fun d => exists_congr fun d' =>
    and_congr (hpackings d) (and_congr_left fun _ => hpackings d')).length_eq h'.lists_ambiguous
  rw [List.length_range, List.length_range] at hstack hpacked
  unfold Statistics.ofState
  rw [Statistics.mk.injEq]
  exact ⟨rfl, hstack, rfl, hnodes _ (fun _ _ => rfl) fun _ _ => rfl,
    hnodes _ (fun _ _ => rfl) fun _ _ => rfl, hnodes _ (fun _ _ => rfl) fun _ _ => rfl, hpacked,
    hambiguous⟩

/-- **States that know the same facts have the same counts.** -/
theorem statistics_eq (h : s.Settled facts) (h' : s'.Settled facts) :
    Statistics.ofState s = Statistics.ofState s' := by
  have hdescriptors : s.agenda.seenCount = s'.agenda.seenCount :=
    h.lists_descriptors.length_eq h'.lists_descriptors
  have hedges := h.lists_edges.length_eq h'.lists_edges
  rw [length_edgesOf, length_edgesOf] at hedges
  rw [h.statistics_eq_of_forest h' (fun _ => Iff.rfl) fun _ _ => Iff.rfl, hdescriptors, hedges]
  rfl

end Settled

end State

end Parser

/-! ## Renamings -/

namespace Forest

/-- A packed node with other numbers for its nodes. -/
def Packed.renamed (rename : Nat → Nat) (k : Packed) : Packed :=
  { k with parent := rename k.parent, left := k.left.map rename, right := rename k.right }

/-- **Two forests are the same up to the numbers of their nodes:** they have the same labels and
extents, and the same packed nodes. -/
structure Renames (f f' : Forest) (rename : Nat → Nat) : Prop where
  /-- The nodes of one forest are taken to those of the other, one to one. -/
  bijOn : Set.BijOn rename {id | id < f.size} {id | id < f'.size}
  /-- Counterparts agree in label and extents. -/
  spans : ∀ id < f.size, (f'.get (rename id)).span = (f.get id).span
  /-- The packed nodes are the same, up to the numbers in them. -/
  packed : ∀ k', k' ∈ f'.packed ↔ ∃ k ∈ f.packed, k.renamed rename = k'

/-- A label without arguments is read alike in all forests. -/
theorem pieceOf?_of_isBare {f : Forest} (f' : Forest) {span : Span} {w : Piece} (hw : w.IsBare)
    (h : f.pieceOf? span = some w) : f'.pieceOf? span = some w := by
  rw [pieceOf?_eq_some_iff] at h ⊢
  cases w with
  | terminal => exact h
  | nonterminal | intermediate =>
    obtain ⟨a, ha, rfl⟩ := h
    obtain rfl := hw
    have hnone : f.argumentsAt? none = some none := rfl
    exact ⟨none, rfl, by rw [argumentsAt?_inj ha hnone]⟩

end Forest

namespace Parser

namespace State

variable {s s' : State} {facts : Fact → Prop}

/-- The node of one forest that has the span of a node of another. -/
def renumber (f f' : Forest) (id : Nat) : Nat := (f'.lookup (f.get id).span).getD 0

section

variable (h : s.Settled facts) (h' : s'.Settled facts)
  (hbare : ∀ {w : Piece}, facts (.piece w) → w.IsBare)

include h h' hbare

theorem piece?_renumber {id : Nat} {w : Piece} (hid : s.forest.piece? id = some w) :
    s'.forest.piece? (renumber s.forest s'.forest id) = some w := by
  have hw := h.piece_of_node hid
  obtain ⟨n, hn, hspan⟩ := Forest.piece?_eq_some_iff.mp hid
  obtain ⟨id', hid'⟩ := h'.node_of_piece hw
  have hlookup := (h'.wf.forest.lookup_of_piece?
    (Forest.pieceOf?_of_isBare s'.forest (hbare hw) hspan)).mpr hid'
  rw [renumber, Forest.get, hn, Option.getD_some, hlookup, Option.getD_some]
  exact hid'

theorem packing?_renumber {k : Forest.Packed} {d : Packing} (hd : s.forest.packing? k = some d) :
    s'.forest.packing? (k.renamed (renumber s.forest s'.forest)) = some d := by
  obtain ⟨hparent, hslot, hpivot, hleft, hright⟩ := Forest.packing?_eq_some_iff.mp hd
  refine Forest.packing?_eq_some_iff.mpr ⟨piece?_renumber h h' hbare hparent, hslot, hpivot, ?_,
    piece?_renumber h h' hbare hright⟩
  rcases Forest.part?_eq_some_iff.mp hleft with ⟨hnone, hpart⟩ | ⟨id, w, hsome, hpart, hid⟩
  · exact Forest.part?_eq_some_iff.mpr (Or.inl ⟨by simp [Forest.Packed.renamed, hnone], hpart⟩)
  · refine Forest.part?_eq_some_iff.mpr (Or.inr ⟨_, w, ?_, hpart, piece?_renumber h h' hbare hid⟩)
    simp [Forest.Packed.renamed, hsome]

/-- **States that know the same facts have the same forest,** if nothing depends on arguments and
derivations are known by their keys. -/
theorem Settled.renames
    (hkeys : ∀ {d d' : Packing}, facts (.packing d) → facts (.packing d') →
      d.key = d'.key → d = d') :
    s.forest.Renames s'.forest (renumber s.forest s'.forest) := by
  -- each of the two states stores exactly the derivations among the facts
  have hstored {s : State} (h : s.Settled facts) {d : Packing} (hd : facts (.packing d)) :
      ∃ k ∈ s.forest.packed, s.forest.packing? k = some d := by
    obtain ⟨i, k, hk, hread⟩ := h.exists_packed_of_key_inj hkeys hd
    exact ⟨k, Array.mem_of_getElem? hk, hread⟩
  have hknown {s : State} (h : s.Settled facts) {k : Forest.Packed} (hk : k ∈ s.forest.packed) :
      ∃ d, s.forest.packing? k = some d ∧ facts (.packing d) := by
    obtain ⟨i, hi⟩ := Array.mem_iff_getElem?.mp hk
    obtain ⟨d, hd⟩ := h.wf.forest.packings hi
    exact ⟨d, hd, h.packing_of_packed hi hd⟩
  refine ⟨⟨fun id hid => ?_, fun i hi j hj heq => ?_, fun id' hid' => ?_⟩, fun id hid => ?_,
    fun k' => ⟨fun hk' => ?_, ?_⟩⟩
  · obtain ⟨n, w, -, -, hw⟩ := h.wf.forest.exists_piece hid
    exact Forest.lt_size_of_piece? (piece?_renumber h h' hbare hw)
  · obtain ⟨-, w, -, -, hw⟩ := h.wf.forest.exists_piece hi
    obtain ⟨-, w', -, -, hw'⟩ := h.wf.forest.exists_piece hj
    have hsame := piece?_renumber h h' hbare hw
    rw [heq, piece?_renumber h h' hbare hw'] at hsame
    obtain rfl := Option.some.inj hsame
    exact h.wf.forest.piece?_inj hw hw'
  · obtain ⟨-, w, -, -, hw⟩ := h'.wf.forest.exists_piece hid'
    obtain ⟨id, hid⟩ := h.node_of_piece (h'.piece_of_node hw)
    exact ⟨id, Forest.lt_size_of_piece? hid,
      h'.wf.forest.piece?_inj (piece?_renumber h h' hbare hid) hw⟩
  · obtain ⟨n, w, hn, hspan, hw⟩ := h.wf.forest.exists_piece hid
    obtain ⟨n', hn', hspan'⟩ :=
      Forest.piece?_eq_some_iff.mp (piece?_renumber h h' hbare hw)
    rw [Forest.get, hn', Forest.get, hn]
    exact Forest.pieceOf?_inj hspan'
      (Forest.pieceOf?_of_isBare s'.forest (hbare (h.piece_of_node hw)) hspan)
  · obtain ⟨d, hd, hfact⟩ := hknown h' hk'
    obtain ⟨k, hk, hread⟩ := hstored h hfact
    exact ⟨k, hk, h'.wf.forest.packing?_inj (packing?_renumber h h' hbare hread) hd⟩
  · intro hpacked
    obtain ⟨k, hk, rfl⟩ := hpacked
    obtain ⟨d, hd, hfact⟩ := hknown h hk
    obtain ⟨k', hk', hread⟩ := hstored h' hfact
    rw [h'.wf.forest.packing?_inj (packing?_renumber h h' hbare hd) hread]
    exact hk'

end

end State

/-! ## Two parses of one text -/

variable {μ : Type} [Matcher μ] {p : Parser μ} {g : Grammar μ} {c : Configuration}

omit [Matcher μ] in
theorem opening_withConfig (hc : c.environment = p.config.environment) (key : Stack.Key)
    (slot : Nat) : ({ p with config := c } : Parser μ).opening key slot = p.opening key slot := by
  unfold opening calleeEnvironment
  dsimp only
  rw [hc]

/-- Only the representation of environments has to do with what a parse finds out. -/
theorem Entails.withConfig (hc : c.environment = p.config.environment) {f : Fact}
    (h : p.Entails f) : ({ p with config := c } : Parser μ).Entails f := by
  induction h with
  | start hne => exact .start hne
  | opening _ hslot ih =>
    rw [← opening_withConfig hc]
    exact .opening ih hslot
  | delivered _ ih => exact .delivered ih
  | move _ hmove hf ih => exact .move ih hmove hf
  | resume _ _ hresume hf ihc ihr => exact .resume ihc ihr hresume hf

/-- **What a parse is entitled to does not depend on the order of work.** -/
theorem entails_withConfig (hc : c.environment = p.config.environment) :
    ({ p with config := c } : Parser μ).Entails = p.Entails := by
  funext f
  exact propext ⟨fun h => h.withConfig (c := p.config) hc.symm, fun h => h.withConfig hc⟩

theorem faulty_withConfig (hc : c.environment = p.config.environment) :
    ({ p with config := c } : Parser μ).Faulty ↔ p.Faulty := by
  have hfaulty {p : Parser μ} {c : Configuration} (hc : c.environment = p.config.environment)
      (h : p.Faulty) : ({ p with config := c } : Parser μ).Faulty := by
    cases h with
    | move ht hmove => exact .move (ht.withConfig hc) hmove
    | resume hc' hr hresume => exact .resume (hc'.withConfig hc) (hr.withConfig hc) hresume
  exact ⟨fun h => hfaulty (p := { p with config := c }) (c := p.config) hc.symm h, hfaulty hc⟩

/-- A parse at rest knows exactly what it is entitled to. -/
theorem Reached.settled {ran : Thread → Prop} {log : List Descriptor} {s : State}
    (h : p.Reached ran log s) (hrest : s.AtRest) : s.Settled p.Entails := by
  refine ⟨h.coherent.wf, h.coherent.sound, fun hf hpassed => ?_⟩
  rcases h.knows hrest hf with hcovers | ⟨t, ht, -⟩
  · exact hcovers
  · exact absurd ht (hpassed t)

variable [DecidableEq μ]

/-- A parse that ends without an error has come to rest, and so it knows what it is entitled to. -/
theorem EndsIn.settled (hg : SlotGraph.ofGrammar g = .ok p.graph) {fuel : Nat}
    {log : List Descriptor} {s : State} (h : p.EndsIn fuel log s) : s.Settled p.Entails := by
  obtain ⟨ran, hreached⟩ := h.reaches.reached hg
  exact hreached.settled h.atRest

/-- It has met no expression without an answer. -/
theorem EndsIn.not_faulty (hg : SlotGraph.ofGrammar g = .ok p.graph) {fuel : Nat}
    {log : List Descriptor} {s : State} (h : p.EndsIn fuel log s) : ¬p.Faulty := by
  obtain ⟨ran, hreached⟩ := h.reaches.reached hg
  exact hreached.not_faulty h.atRest

/-- A parse that succeeds comes to rest, with a node for the start symbol and the whole text. -/
theorem exists_settled_of_success (hg : SlotGraph.ofGrammar g = .ok p.graph) {fuel root : Nat}
    {f : Forest} (h : (p.parse fuel).verdict = .ok (.success root f)) :
    ∃ log s, p.EndsIn fuel log s ∧ s.Settled p.Entails ∧ s.forest = f ∧
      f.piece? root = some (.nonterminal p.graph.start none 0 p.input.length) := by
  obtain ⟨log, s, hends, hlookup, rfl⟩ := endsIn_of_success hg h
  have hs := hends.settled hg
  have hspan : s.forest.pieceOf? p.rootSpan
      = some (.nonterminal p.graph.start none 0 p.input.length) := rfl
  exact ⟨log, s, hends, hs, rfl, (hs.wf.forest.lookup_of_piece? hspan).mp hlookup⟩

/-- Parses that finish both end with an error or both come to rest, if an expression without an
answer is met in both or in neither. -/
theorem ends_together {p' : Parser μ} {g' : Grammar μ} (hg : SlotGraph.ofGrammar g = .ok p.graph)
    (hg' : SlotGraph.ofGrammar g' = .ok p'.graph) (hfaulty : p'.Faulty ↔ p.Faulty)
    {fuel fuel' : Nat} (h : (p.parse fuel).verdict ≠ .ok .unfinished)
    (h' : (p'.parse fuel').verdict ≠ .ok .unfinished) :
    ((∃ e, (p.parse fuel).verdict = .error e) ∧ ∃ e, (p'.parse fuel').verdict = .error e) ∨
      ∃ log log' s s', p.EndsIn fuel log s ∧ p'.EndsIn fuel' log' s' ∧ s.Settled p.Entails ∧
        s'.Settled p'.Entails := by
  rcases parse_cases hg fuel with ⟨log, s, hends⟩ | hunfinished | ⟨e, he, hfault⟩
  · rcases parse_cases hg' fuel' with ⟨log', s', hends'⟩ | hunfinished | ⟨e, -, hfault⟩
    · exact Or.inr ⟨log, log', s, s', hends, hends', hends.settled hg, hends'.settled hg'⟩
    · exact absurd hunfinished h'
    · exact absurd (hfaulty.mp hfault) (hends.not_faulty hg)
  · exact absurd hunfinished h
  · rcases parse_cases hg' fuel' with ⟨log', s', hends'⟩ | hunfinished | ⟨e', he', -⟩
    · exact absurd (hfaulty.mpr hfault) (hends'.not_faulty hg')
    · exact absurd hunfinished h'
    · exact Or.inl ⟨⟨e, he⟩, e', he'⟩

/-- Two configurations of a parser that come to rest agree in success if they are entitled to the
root in both or in neither. -/
theorem isSuccess_eq_of_settled {s s' : State} (hs : s.Settled p.Entails)
    (hs' : s'.Settled ({ p with config := c } : Parser μ).Entails)
    (hroot : p.Entails (.piece (.nonterminal p.graph.start none 0 p.input.length)) ↔
      ({ p with config := c } : Parser μ).Entails
        (.piece (.nonterminal p.graph.start none 0 p.input.length))) :
    (p.verdict s).isSuccess = (({ p with config := c } : Parser μ).verdict s').isSuccess := by
  rw [Bool.eq_iff_iff, isSuccess_verdict_iff hs.wf, isSuccess_verdict_iff hs'.wf]
  exact ⟨fun h => hs'.shows (hroot.mp (hs.sound h)) (by simp) (by simp),
    fun h => hs.shows (hroot.mpr (hs'.sound h)) (by simp) (by simp)⟩

/-- **What a parse answers does not depend on the order of work.** Two finished parses of one text
both end with an error, or they agree in success and in all counts; in a simple grammar they also
have the same forest, up to a renaming of numbers. -/
theorem parse_independent (hg : SlotGraph.ofGrammar g = .ok p.graph)
    (hc : c.environment = p.config.environment) {fuel fuel' : Nat}
    (h : (p.parse fuel).verdict ≠ .ok .unfinished)
    (h' : (({ p with config := c } : Parser μ).parse fuel').verdict ≠ .ok .unfinished) :
    ((∃ e, (p.parse fuel).verdict = .error e) ∧
      ∃ e, (({ p with config := c } : Parser μ).parse fuel').verdict = .error e) ∨
    ∃ log log' s s', p.EndsIn fuel log s ∧
      ({ p with config := c } : Parser μ).EndsIn fuel' log' s' ∧
      (p.verdict s).isSuccess = (({ p with config := c } : Parser μ).verdict s').isSuccess ∧
      Statistics.ofState s = Statistics.ofState s' ∧
      (g.IsSimple → ∃ rename, s.forest.Renames s'.forest rename) := by
  have hg' : SlotGraph.ofGrammar g = .ok ({ p with config := c } : Parser μ).graph := hg
  rcases ends_together hg hg' (faulty_withConfig hc) h h' with herror |
    ⟨log, log', s, s', hends, hends', hs, hs'⟩
  · exact Or.inl herror
  · have hsuccess := isSuccess_eq_of_settled hs hs' (by rw [entails_withConfig hc])
    rw [entails_withConfig hc] at hs'
    exact Or.inr ⟨log, log', s, s', hends, hends', hsuccess, hs.statistics_eq hs', fun hsimple =>
      ⟨_, State.Settled.renames hs hs' (fun hw => inPlace_of_entails hg hsimple hw)
        fun hd hd' => Placed.key_inj hg (inPlace_of_entails hg hsimple hd)
          (inPlace_of_entails hg hsimple hd')⟩⟩

end Parser

/-- Whether the oldest or the newest descriptor is delivered first, two letters are recognised in
the same way. -/
theorem parse_independent_chains :
    SlotGraph.ofGrammar chains = .ok (chainParser "aa" {}).graph ∧
      ((chainParser "aa" {}).parse 100).verdict ≠ .ok .unfinished ∧
      ((chainParser "aa" ⟨.frames, .lifo, false⟩).parse 100).verdict ≠ .ok .unfinished ∧
      ∃ log log' s s', (chainParser "aa" {}).EndsIn 100 log s ∧
        (chainParser "aa" ⟨.frames, .lifo, false⟩).EndsIn 100 log' s' ∧
        Statistics.ofState s = Statistics.ofState s' ∧
        ∃ rename, s.forest.Renames s'.forest rename := by
  have hg := ofGrammar_chains "aa" {}
  obtain ⟨root, forest, h⟩ : ∃ root forest,
      ((chainParser "aa" {}).parse 100).verdict = .ok (.success root forest) :=
    Verdict.exists_success (by decide +kernel)
  obtain ⟨root', forest', h'⟩ : ∃ root forest,
      ((chainParser "aa" ⟨.frames, .lifo, false⟩).parse 100).verdict
        = .ok (.success root forest) :=
    Verdict.exists_success (by decide +kernel)
  have hfinished : ((chainParser "aa" {}).parse 100).verdict ≠ .ok .unfinished := by simp [h]
  have hfinished' : ((chainParser "aa" ⟨.frames, .lifo, false⟩).parse 100).verdict
      ≠ .ok .unfinished := by simp [h']
  have hsimple : chains.IsSimple := by
    simp [Grammar.IsSimple, chains, Symbol.IsSimple]
  rcases Parser.parse_independent hg (c := ⟨.frames, .lifo, false⟩) rfl hfinished hfinished' with
    ⟨⟨e, he⟩, -⟩ | ⟨log, log', s, s', hends, hends', -, hstatistics, hforest⟩
  · exact absurd (h.symm.trans he) (by simp)
  · exact ⟨hg, hfinished, hfinished', log, log', s, s', hends, hends', hstatistics,
      hforest hsimple⟩

end GeneralLL
