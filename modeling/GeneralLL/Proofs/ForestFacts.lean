import GeneralLL.Forest
import GeneralLL.Proofs.Fact
import GeneralLL.Proofs.Numbering

/-!
# The facts in a forest

A forest numbers its nodes and the arguments of calls. `piece?` reads a number back as
the piece it stands for, and `packing?` does the same for a derivation, so a forest
shows facts (`Shows`).

Every change of a forest adds certain facts to those that it shows and nothing else
(`Adds`): what could be read stays readable, and a forest stays well formed. A derivation
that has the same parent, slot and pivot as another one is not stored again, so of a
derivation only these are sure to be found (`Covers`).
-/

namespace GeneralLL

namespace Piece

/-- Where two parts meet. -/
def pivot (left : Option Piece) (right : Piece) : Nat := left.elim right.left Piece.right

end Piece

/-- What tells derivations apart. -/
def Packing.key (k : Packing) : Piece × Nat × Nat := (k.parent, k.slot, k.pivot)

/-! ## Arrays that grow -/

theorem exists_of_findIdx? {α : Type} {xs : Array α} {test : α → Bool} {i : Nat}
    (h : xs.findIdx? test = some i) : ∃ a, xs[i]? = some a ∧ test a := by
  obtain ⟨hi, htest, -⟩ := Array.findIdx?_eq_some_iff_getElem.mp h
  exact ⟨xs[i], Array.getElem?_eq_getElem hi, htest⟩

theorem findIdx?_ne_none_of_getElem? {α : Type} {xs : Array α} (test : α → Bool) {i : Nat} {a : α}
    (h : xs[i]? = some a) (ha : test a) : ∃ j b, xs.findIdx? test = some j ∧ xs[j]? = some b ∧
      test b := by
  cases hj : xs.findIdx? test with
  | none =>
    have hnone := Array.findIdx?_eq_none_iff.mp hj a (Array.mem_of_getElem? h)
    rw [ha] at hnone
    exact absurd hnone (by simp)
  | some j =>
    obtain ⟨b, hb, htest⟩ := exists_of_findIdx? hj
    exact ⟨j, b, rfl, hb, htest⟩

theorem getElem?_push_cases {α : Type} {xs : Array α} {a b : α} {i : Nat}
    (h : (xs.push a)[i]? = some b) : xs[i]? = some b ∨ i = xs.size ∧ b = a := by
  rw [Array.getElem?_push] at h
  split at h
  · rename_i hi
    exact Or.inr ⟨hi, (Option.some.inj h).symm⟩
  · exact Or.inl h

theorem getElem?_push_old {α : Type} {xs : Array α} {a b : α} {i : Nat} (h : xs[i]? = some b) :
    (xs.push a)[i]? = some b := by
  have hi := (Array.getElem?_eq_some_iff.mp h).1
  rw [Array.getElem?_push, if_neg (by omega), h]

theorem getElem?_modify_cases {α : Type} {xs : Array α} {change : α → α} {i j : Nat} {b : α}
    (h : (xs.modify i change)[j]? = some b) :
    ∃ a, xs[j]? = some a ∧ b = if i = j then change a else a := by
  rw [Array.getElem?_modify] at h
  split at h
  · obtain ⟨a, ha, rfl⟩ := Option.map_eq_some_iff.mp h
    rename_i hij
    exact ⟨a, ha, by rw [if_pos hij]⟩
  · rename_i hij
    exact ⟨b, h, by rw [if_neg hij]⟩

theorem getElem?_modify_old {α : Type} {xs : Array α} {change : α → α} {i j : Nat} {a : α}
    (h : xs[j]? = some a) : (xs.modify i change)[j]? = some (if i = j then change a else a) := by
  rw [Array.getElem?_modify, h]
  split <;> rfl

namespace Forest

/-! ## Reading numbers -/

/-- The arguments behind an optional number. -/
def argumentsAt? (f : Forest) : Option Nat → Option (Option (List Value))
  | none => some none
  | some a => (f.arguments.get? a).map some

/-- What a node with this label and these extents stands for. -/
def pieceOf? (f : Forest) (s : Span) : Option Piece :=
  match s.label with
  | .terminal id => some (.terminal id s.left s.right)
  | .nonterminal id a => (f.argumentsAt? a).map (.nonterminal id · s.left s.right)
  | .intermediate slot a => (f.argumentsAt? a).map (.intermediate slot · s.left s.right)

/-- What a node stands for. -/
def piece? (f : Forest) (id : Nat) : Option Piece := f.nodes[id]?.bind fun n => f.pieceOf? n.span

/-- What an optional node stands for. -/
def part? (f : Forest) : Option Nat → Option (Option Piece)
  | none => some none
  | some id => (f.piece? id).map some

/-- The derivation behind a packed node. -/
def packing? (f : Forest) (k : Packed) : Option Packing := do
  let parent ← f.piece? k.parent
  let left ← f.part? k.left
  let right ← f.piece? k.right
  return ⟨parent, k.slot, k.pivot, left, right⟩

theorem map_argumentsOf {f : Forest} {a : Option Nat} {values : Option (List Value)}
    (h : f.argumentsAt? a = some values) : a.map f.argumentsOf = values := by
  cases a with
  | none => exact Option.some.inj h
  | some a =>
    obtain ⟨vs, hvs, rfl⟩ := Option.map_eq_some_iff.mp h
    rw [Option.map_some, argumentsOf, hvs, Option.getD_some]

theorem pieceOf?_eq_some_iff {f : Forest} {s : Span} {w : Piece} :
    f.pieceOf? s = some w ↔
      match w with
      | .terminal id left right => s = ⟨.terminal id, left, right⟩
      | .nonterminal id values left right =>
        ∃ a, f.argumentsAt? a = some values ∧ s = ⟨.nonterminal id a, left, right⟩
      | .intermediate slot values left right =>
        ∃ a, f.argumentsAt? a = some values ∧ s = ⟨.intermediate slot a, left, right⟩ := by
  obtain ⟨label, left, right⟩ := s
  unfold pieceOf?
  cases label <;> cases w <;> simp [Option.map_eq_some_iff, and_assoc]

theorem piece?_eq_some_iff {f : Forest} {id : Nat} {w : Piece} :
    f.piece? id = some w ↔ ∃ n, f.nodes[id]? = some n ∧ f.pieceOf? n.span = some w :=
  Option.bind_eq_some_iff

theorem lt_size_of_piece? {f : Forest} {id : Nat} {w : Piece} (h : f.piece? id = some w) :
    id < f.size := by
  obtain ⟨n, hn, -⟩ := piece?_eq_some_iff.mp h
  exact (Array.getElem?_eq_some_iff.mp hn).1

theorem part?_eq_some_iff {f : Forest} {o : Option Nat} {part : Option Piece} :
    f.part? o = some part ↔
      o = none ∧ part = none ∨ ∃ id w, o = some id ∧ part = some w ∧ f.piece? id = some w := by
  cases o with
  | none => simp [part?, eq_comm]
  | some id =>
    rw [part?, Option.map_eq_some_iff]
    simp [eq_comm, and_comm]

theorem part?_of_piece? {f : Forest} {id : Nat} {w : Piece} (h : f.piece? id = some w) :
    f.part? (some id) = some (some w) := by rw [part?, h, Option.map_some]

theorem packing?_eq_some_iff {f : Forest} {k : Packed} {d : Packing} :
    f.packing? k = some d ↔ f.piece? k.parent = some d.parent ∧ k.slot = d.slot ∧
      k.pivot = d.pivot ∧ f.part? k.left = some d.left ∧ f.piece? k.right = some d.right := by
  obtain ⟨parent, slot, pivot, left, right⟩ := d
  simp only [packing?, bind, Option.bind_eq_some_iff, pure, Option.some.injEq, Packing.mk.injEq]
  constructor
  · intro h
    obtain ⟨_, hparent, _, hleft, _, hright, rfl, rfl, rfl, rfl, rfl⟩ := h
    exact ⟨hparent, rfl, rfl, hleft, hright⟩
  · intro h
    obtain ⟨hparent, rfl, rfl, hleft, hright⟩ := h
    exact ⟨_, hparent, _, hleft, _, hright, rfl, rfl, rfl, rfl, rfl⟩

/-- The extents of a node are those of its piece. -/
theorem extents_of_piece? {f : Forest} {id : Nat} {w : Piece} (h : f.piece? id = some w) :
    (f.get id).span.left = w.left ∧ (f.get id).span.right = w.right := by
  obtain ⟨⟨⟨label, left, right⟩, packed⟩, hn, hw⟩ := piece?_eq_some_iff.mp h
  rw [get, hn]
  unfold pieceOf? at hw
  cases label with
  | terminal id =>
    obtain rfl := Option.some.inj hw
    exact ⟨rfl, rfl⟩
  | nonterminal id a | intermediate slot a =>
    obtain ⟨_, _, rfl⟩ := Option.map_eq_some_iff.mp hw
    exact ⟨rfl, rfl⟩

theorem pivot_eq {f : Forest} {left : Option Nat} {right : Nat} {l : Option Piece} {r : Piece}
    (hl : f.part? left = some l) (hr : f.piece? right = some r) :
    f.pivot left right = Piece.pivot l r := by
  rcases part?_eq_some_iff.mp hl with ⟨rfl, rfl⟩ | ⟨id, w, rfl, rfl, hw⟩
  · exact (extents_of_piece? hr).1
  · exact (extents_of_piece? hw).2

/-! ## Well-formed forests -/

/-- Everything in a forest can be read, and nothing is in it twice. -/
structure Wf (f : Forest) : Prop where
  /-- No two nodes agree in label and extents. -/
  spans : ∀ {i j : Nat} {n m : Node}, f.nodes[i]? = some n → f.nodes[j]? = some m →
    n.span = m.span → i = j
  /-- Every node can be read: the arguments in its label have a list. -/
  pieces : ∀ {i : Nat} {n : Node}, f.nodes[i]? = some n → ∃ w, f.pieceOf? n.span = some w
  /-- No two packed nodes agree in parent, slot and pivot. -/
  keys : ∀ {i j : Nat} {k l : Packed}, f.packed[i]? = some k → f.packed[j]? = some l →
    k.parent = l.parent → k.slot = l.slot → k.pivot = l.pivot → i = j
  /-- Every packed node can be read: its parent and its parts are nodes. -/
  packings : ∀ {i : Nat} {k : Packed}, f.packed[i]? = some k → ∃ d, f.packing? k = some d
  /-- A node lists its packed nodes. -/
  lists : ∀ {id : Nat} {n : Node}, f.nodes[id]? = some n →
    n.packed.Nodup ∧ ∀ i, i ∈ n.packed ↔ ∃ k, f.packed[i]? = some k ∧ k.parent = id

/-- Every number below the size is a node, and every node has a piece. -/
theorem Wf.exists_piece {f : Forest} (hf : f.Wf) {id : Nat} (hid : id < f.size) :
    ∃ n w, f.nodes[id]? = some n ∧ f.pieceOf? n.span = some w ∧ f.piece? id = some w := by
  have hn := Array.getElem?_eq_getElem hid
  obtain ⟨w, hw⟩ := hf.pieces hn
  exact ⟨_, w, hn, hw, piece?_eq_some_iff.mpr ⟨_, hn, hw⟩⟩

theorem wf_empty : Wf empty := by
  have hnodes {i : Nat} {n : Node} (h : empty.nodes[i]? = some n) : False := by simp [empty] at h
  have hpacked {i : Nat} {k : Packed} (h : empty.packed[i]? = some k) : False := by
    simp [empty] at h
  exact ⟨fun h => (hnodes h).elim, fun h => (hnodes h).elim, fun h => (hpacked h).elim,
    fun h => (hpacked h).elim, fun h => (hnodes h).elim⟩

/-- Numbers that can be read in `f` are read alike in `f'`. -/
structure Extends (f f' : Forest) : Prop where
  /-- Nodes keep their numbers, labels and extents; they may be derived in more ways. -/
  nodes : ∀ {id : Nat} {n : Node}, f.nodes[id]? = some n →
    ∃ n', f'.nodes[id]? = some n' ∧ n'.span = n.span
  /-- Lists of arguments keep their numbers. -/
  arguments : ∀ {a : Nat} {values : List Value}, f.arguments.get? a = some values →
    f'.arguments.get? a = some values
  /-- Packed nodes keep their numbers, and stay as they are. -/
  packed : ∀ {i : Nat} {k : Packed}, f.packed[i]? = some k → f'.packed[i]? = some k

namespace Extends

variable {f f' f'' : Forest}

theorem refl (f : Forest) : f.Extends f := ⟨fun h => ⟨_, h, rfl⟩, id, id⟩

theorem trans (h : f.Extends f') (h' : f'.Extends f'') : f.Extends f'' := by
  refine ⟨fun hn => ?_, h'.arguments ∘ h.arguments, h'.packed ∘ h.packed⟩
  obtain ⟨n', hn', hspan⟩ := h.nodes hn
  obtain ⟨n'', hn'', hspan'⟩ := h'.nodes hn'
  exact ⟨n'', hn'', hspan'.trans hspan⟩

theorem argumentsAt? (h : f.Extends f') {a : Option Nat} {values : Option (List Value)}
    (ha : f.argumentsAt? a = some values) : f'.argumentsAt? a = some values := by
  cases a with
  | none => exact ha
  | some a =>
    obtain ⟨vs, hvs, rfl⟩ := Option.map_eq_some_iff.mp ha
    exact Option.map_eq_some_iff.mpr ⟨vs, h.arguments hvs, rfl⟩

theorem pieceOf? (h : f.Extends f') {s : Span} {w : Piece} (hw : f.pieceOf? s = some w) :
    f'.pieceOf? s = some w := by
  obtain ⟨label, left, right⟩ := s
  cases label with
  | terminal id => exact hw
  | nonterminal id a | intermediate slot a =>
    obtain ⟨values, ha, rfl⟩ := Option.map_eq_some_iff.mp hw
    exact Option.map_eq_some_iff.mpr ⟨values, h.argumentsAt? ha, rfl⟩

theorem piece? (h : f.Extends f') {id : Nat} {w : Piece} (hw : f.piece? id = some w) :
    f'.piece? id = some w := by
  obtain ⟨n, hn, hspan⟩ := piece?_eq_some_iff.mp hw
  obtain ⟨n', hn', hsame⟩ := h.nodes hn
  exact piece?_eq_some_iff.mpr ⟨n', hn', hsame ▸ h.pieceOf? hspan⟩

theorem part? (h : f.Extends f') {o : Option Nat} {part : Option Piece}
    (hpart : f.part? o = some part) : f'.part? o = some part := by
  rcases part?_eq_some_iff.mp hpart with ⟨rfl, rfl⟩ | ⟨id, w, rfl, rfl, hw⟩
  · rfl
  · exact part?_eq_some_iff.mpr (Or.inr ⟨id, w, rfl, rfl, h.piece? hw⟩)

theorem packing? (h : f.Extends f') {k : Packed} {d : Packing} (hd : f.packing? k = some d) :
    f'.packing? k = some d := by
  obtain ⟨hparent, hslot, hpivot, hleft, hright⟩ := packing?_eq_some_iff.mp hd
  exact packing?_eq_some_iff.mpr
    ⟨h.piece? hparent, hslot, hpivot, h.part? hleft, h.piece? hright⟩

end Extends

/-! ## Numbers are unique -/

theorem argumentsAt?_inj {f : Forest} {a b : Option Nat} {values : Option (List Value)}
    (ha : f.argumentsAt? a = some values) (hb : f.argumentsAt? b = some values) : a = b := by
  cases a with
  | none =>
    cases b with
    | none => rfl
    | some b =>
      obtain ⟨vs, -, rfl⟩ := Option.map_eq_some_iff.mp hb
      exact absurd ha (by simp [argumentsAt?])
  | some a =>
    obtain ⟨vs, hvs, rfl⟩ := Option.map_eq_some_iff.mp ha
    cases b with
    | none => exact absurd hb (by simp [argumentsAt?])
    | some b =>
      obtain ⟨vs', hvs', heq⟩ := Option.map_eq_some_iff.mp hb
      obtain rfl := Option.some.inj heq
      rw [Numbering.get?_inj hvs hvs']

theorem pieceOf?_inj {f : Forest} {s s' : Span} {w : Piece} (h : f.pieceOf? s = some w)
    (h' : f.pieceOf? s' = some w) : s = s' := by
  rw [pieceOf?_eq_some_iff] at h h'
  cases w with
  | terminal id left right => exact h.trans h'.symm
  | nonterminal id values left right | intermediate slot values left right =>
    obtain ⟨a, ha, rfl⟩ := h
    obtain ⟨b, hb, rfl⟩ := h'
    rw [argumentsAt?_inj ha hb]

/-- In a well-formed forest a piece has one number. -/
theorem Wf.piece?_inj {f : Forest} (hf : f.Wf) {i j : Nat} {w : Piece}
    (hi : f.piece? i = some w) (hj : f.piece? j = some w) : i = j := by
  obtain ⟨n, hn, hspan⟩ := piece?_eq_some_iff.mp hi
  obtain ⟨m, hm, hspan'⟩ := piece?_eq_some_iff.mp hj
  exact hf.spans hn hm (pieceOf?_inj hspan hspan')

theorem Wf.part?_inj {f : Forest} (hf : f.Wf) {a b : Option Nat} {part : Option Piece}
    (ha : f.part? a = some part) (hb : f.part? b = some part) : a = b := by
  rcases part?_eq_some_iff.mp ha with ⟨rfl, rfl⟩ | ⟨i, w, rfl, rfl, hi⟩
  · rcases part?_eq_some_iff.mp hb with ⟨rfl, -⟩ | ⟨j, w, -, h, -⟩
    · rfl
    · exact absurd h (by simp)
  · rcases part?_eq_some_iff.mp hb with ⟨-, h⟩ | ⟨j, w', rfl, h, hj⟩
    · exact absurd h (by simp)
    · obtain rfl := Option.some.inj h
      rw [hf.piece?_inj hi hj]

/-- A derivation has one packed node. -/
theorem Wf.packing?_inj {f : Forest} (hf : f.Wf) {k k' : Packed} {d : Packing}
    (h : f.packing? k = some d) (h' : f.packing? k' = some d) : k = k' := by
  obtain ⟨parent, slot, pivot, left, right⟩ := k
  obtain ⟨parent', slot', pivot', left', right'⟩ := k'
  obtain ⟨hparent, rfl, rfl, hleft, hright⟩ := packing?_eq_some_iff.mp h
  obtain ⟨hparent', rfl, rfl, hleft', hright'⟩ := packing?_eq_some_iff.mp h'
  obtain rfl : parent = parent' := hf.piece?_inj hparent hparent'
  obtain rfl : left = left' := hf.part?_inj hleft hleft'
  obtain rfl : right = right' := hf.piece?_inj hright hright'
  rfl

/-- A node is found by its span. -/
theorem lookup_eq_some {f : Forest} {span : Span} {id : Nat} (h : f.lookup span = some id) :
    ∃ n, f.nodes[id]? = some n ∧ n.span = span := by
  obtain ⟨n, hn, hspan⟩ := exists_of_findIdx? h
  exact ⟨n, hn, by simpa using hspan⟩

theorem lookup_eq_none {f : Forest} {span : Span} (h : f.lookup span = none) {id : Nat} {n : Node}
    (hn : f.nodes[id]? = some n) : n.span ≠ span := by
  have hnone := Array.findIdx?_eq_none_iff.mp h n (Array.mem_of_getElem? hn)
  simpa using hnone

theorem Wf.lookup_span {f : Forest} (hf : f.Wf) {id : Nat} {n : Node}
    (hn : f.nodes[id]? = some n) : f.lookup n.span = some id := by
  obtain ⟨j, m, hj, hm, hspan⟩ :=
    findIdx?_ne_none_of_getElem? (fun m => decide (m.span = n.span)) hn (by simp)
  exact hj.trans (by rw [hf.spans hm hn (by simpa using hspan)])

/-- A piece is looked up by the span that it has. -/
theorem Wf.lookup_of_piece? {f : Forest} (hf : f.Wf) {span : Span} {id : Nat} {w : Piece}
    (hspan : f.pieceOf? span = some w) : f.lookup span = some id ↔ f.piece? id = some w := by
  constructor
  · intro h
    obtain ⟨n, hn, rfl⟩ := lookup_eq_some h
    exact piece?_eq_some_iff.mpr ⟨n, hn, hspan⟩
  · intro h
    obtain ⟨n, hn, hw⟩ := piece?_eq_some_iff.mp h
    rw [pieceOf?_inj hspan hw]
    exact hf.lookup_span hn

/-! ## The facts that a forest shows -/

/-- The forest has the piece, or stores the derivation. -/
def Shows (f : Forest) : Fact → Prop
  | .piece w => ∃ id, f.piece? id = some w
  | .packing d => ∃ (i : Nat) (k : Packed), f.packed[i]? = some k ∧ f.packing? k = some d
  | _ => False

/-- The forest shows the fact; of a derivation it may store another one with the same key. -/
def Covers (f : Forest) (fact : Fact) : Prop :=
  f.Shows fact ∨ ∃ d d', fact = .packing d ∧ d'.key = d.key ∧ f.Shows (.packing d')

theorem Extends.shows {f f' : Forest} (h : f.Extends f') {fact : Fact} (hs : f.Shows fact) :
    f'.Shows fact := by
  cases fact with
  | piece w =>
    obtain ⟨id, hid⟩ := hs
    exact ⟨id, h.piece? hid⟩
  | packing d =>
    obtain ⟨i, k, hk, hd⟩ := hs
    exact ⟨i, k, h.packed hk, h.packing? hd⟩
  | called _ | posted _ | passed _ | awaited _ _ | result _ _ _ => exact False.elim hs

theorem Extends.covers {f f' : Forest} (h : f.Extends f') {fact : Fact} (hc : f.Covers fact) :
    f'.Covers fact := by
  rcases hc with hs | ⟨d, d', rfl, hkey, hs⟩
  · exact Or.inl (h.shows hs)
  · exact Or.inr ⟨d, d', rfl, hkey, h.shows hs⟩

/-- **A change that adds facts,** and nothing else. -/
structure Adds (f f' : Forest) (facts : List Fact) : Prop where
  /-- The forest can be read after the change as well. -/
  wf : f'.Wf
  /-- What could be read before is read as it was. -/
  extend : f.Extends f'
  /-- Nothing is known that was not known before or added. -/
  sound : ∀ {fact : Fact}, f'.Shows fact → f.Shows fact ∨ fact ∈ facts
  /-- Whatever was added is known. -/
  complete : ∀ {fact : Fact}, fact ∈ facts → f'.Covers fact

theorem Wf.adds_nil {f : Forest} (hf : f.Wf) : f.Adds f [] :=
  ⟨hf, .refl f, Or.inl, fun h => absurd h List.not_mem_nil⟩

theorem Adds.trans {f f' f'' : Forest} {facts facts' : List Fact} (h : f.Adds f' facts)
    (h' : f'.Adds f'' facts') : f.Adds f'' (facts ++ facts') := by
  refine ⟨h'.wf, h.extend.trans h'.extend, fun hs => ?_, fun hmem => ?_⟩
  · rcases h'.sound hs with hs | hmem
    · exact (h.sound hs).imp_right (List.mem_append_left _)
    · exact Or.inr (List.mem_append_right _ hmem)
  · rcases List.mem_append.mp hmem with hmem | hmem
    · exact h'.extend.covers (h.complete hmem)
    · exact h'.complete hmem

/-! ## Changes -/

theorem argumentsAt?_internArguments (f : Forest) (values : List Value) :
    (f.internArguments values).2.argumentsAt? (some (f.internArguments values).1)
      = some (some values) := by
  rw [argumentsAt?, internArguments]
  dsimp only
  rw [Numbering.get?_insert_self, Option.map_some]

/-- What an extended forest reads at an old number was read there before. -/
theorem Extends.piece?_old {f f' : Forest} (h : f.Extends f') (hf : f.Wf) {id : Nat} {n : Node}
    {w : Piece} (hn : f.nodes[id]? = some n) (hw : f'.piece? id = some w) :
    f.piece? id = some w := by
  obtain ⟨w', hspan⟩ := hf.pieces hn
  have hw' : f.piece? id = some w' := piece?_eq_some_iff.mpr ⟨n, hn, hspan⟩
  rw [hw', ← Option.some.inj ((h.piece? hw').symm.trans hw)]

theorem Extends.packing?_old {f f' : Forest} (h : f.Extends f') (hf : f.Wf) {i : Nat} {k : Packed}
    {d : Packing} (hk : f.packed[i]? = some k) (hd : f'.packing? k = some d) :
    f.packing? k = some d := by
  obtain ⟨d', hd'⟩ := hf.packings hk
  rw [hd', ← Option.some.inj ((h.packing? hd').symm.trans hd)]

theorem Wf.adds_internArguments {f : Forest} (hf : f.Wf) (values : List Value) :
    f.Adds (f.internArguments values).2 [] := by
  have hextend : f.Extends (f.internArguments values).2 :=
    ⟨fun h => ⟨_, h, rfl⟩, Numbering.get?_insert_of_get?, id⟩
  refine ⟨⟨hf.spans, fun hn => ?_, hf.keys, fun hk => ?_, hf.lists⟩, hextend, fun {fact} hs => ?_,
    fun h => absurd h List.not_mem_nil⟩
  · obtain ⟨w, hw⟩ := hf.pieces hn
    exact ⟨w, hextend.pieceOf? hw⟩
  · obtain ⟨d, hd⟩ := hf.packings hk
    exact ⟨d, hextend.packing? hd⟩
  · refine Or.inl ?_
    cases fact with
    | piece w =>
      obtain ⟨id, hid⟩ := hs
      obtain ⟨n, hn, -⟩ := piece?_eq_some_iff.mp hid
      exact ⟨id, hextend.piece?_old hf hn hid⟩
    | packing d =>
      obtain ⟨i, k, hk, hd⟩ := hs
      exact ⟨i, k, hk, hextend.packing?_old hf hk hd⟩
    | called _ | posted _ | passed _ | awaited _ _ | result _ _ _ => exact False.elim hs

/-- Well-formedness and soundness of a new node. -/
theorem Wf.adds_push {f : Forest} (hf : f.Wf) {span : Span} {w : Piece}
    (hw : f.pieceOf? span = some w) (hlookup : f.lookup span = none) :
    f.Adds { f with nodes := f.nodes.push { span } } [.piece w] := by
  have hextend : f.Extends { f with nodes := f.nodes.push { span } } :=
    ⟨fun h => ⟨_, getElem?_push_old h, rfl⟩, id, id⟩
  refine ⟨⟨fun hn hm hspan => ?_, fun hn => ?_, hf.keys, fun hk => ?_, fun {id n} hn => ?_⟩, hextend,
    fun {fact} hs => ?_, fun h => ?_⟩
  · rcases getElem?_push_cases hn with hn | ⟨rfl, rfl⟩ <;>
      rcases getElem?_push_cases hm with hm | ⟨rfl, rfl⟩
    · exact hf.spans hn hm hspan
    · exact absurd hspan (lookup_eq_none hlookup hn)
    · exact absurd hspan.symm (lookup_eq_none hlookup hm)
    · rfl
  · rcases getElem?_push_cases hn with hn | ⟨rfl, rfl⟩
    · obtain ⟨w', hw'⟩ := hf.pieces hn
      exact ⟨w', hextend.pieceOf? hw'⟩
    · exact ⟨w, hextend.pieceOf? hw⟩
  · obtain ⟨d, hd⟩ := hf.packings hk
    exact ⟨d, hextend.packing? hd⟩
  · rcases getElem?_push_cases hn with hn | ⟨rfl, rfl⟩
    · exact hf.lists hn
    · -- no derivation has a parent that is not there yet
      refine ⟨List.nodup_nil, fun i => ⟨fun h => absurd h List.not_mem_nil, ?_⟩⟩
      intro hlisted
      obtain ⟨k, hk, hparent⟩ := hlisted
      obtain ⟨d, hd⟩ := hf.packings hk
      obtain ⟨m, hm, -⟩ := piece?_eq_some_iff.mp (packing?_eq_some_iff.mp hd).1
      rw [hparent] at hm
      exact absurd hm (by simp)
  · cases fact with
    | piece w' =>
      obtain ⟨id, hid⟩ := hs
      obtain ⟨n, hn, hspan⟩ := piece?_eq_some_iff.mp hid
      rcases getElem?_push_cases hn with hn | ⟨rfl, rfl⟩
      · exact Or.inl ⟨id, hextend.piece?_old hf hn hid⟩
      · rw [← Option.some.inj ((hextend.pieceOf? hw).symm.trans hspan)]
        exact Or.inr (List.mem_singleton_self _)
    | packing d =>
      obtain ⟨i, k, hk, hd⟩ := hs
      exact Or.inl ⟨i, k, hk, hextend.packing?_old hf hk hd⟩
    | called _ | posted _ | passed _ | awaited _ _ | result _ _ _ => exact False.elim hs
  · obtain rfl := List.mem_singleton.mp h
    exact Or.inl ⟨f.nodes.size, piece?_eq_some_iff.mpr
      ⟨{ span }, Array.getElem?_push_size, hextend.pieceOf? hw⟩⟩

/-- **The node of a piece is found or made.** -/
theorem Wf.adds_find {f : Forest} (hf : f.Wf) {span : Span} {w : Piece}
    (hw : f.pieceOf? span = some w) :
    f.Adds (f.find span).2 [.piece w] ∧ (f.find span).2.piece? (f.find span).1 = some w := by
  unfold find
  cases hlookup : f.lookup span with
  | some id =>
    have hid := (hf.lookup_of_piece? hw).mp hlookup
    refine ⟨⟨hf, .refl f, Or.inl, fun h => ?_⟩, hid⟩
    obtain rfl := List.mem_singleton.mp h
    exact Or.inl ⟨id, hid⟩
  | none =>
    have hadds := hf.adds_push hw hlookup
    exact ⟨hadds, piece?_eq_some_iff.mpr
      ⟨{ span }, Array.getElem?_push_size, hadds.extend.pieceOf? hw⟩⟩

/-- The forest with one more packed node. -/
def pushPacked (f : Forest) (k : Packed) : Forest :=
  { f with
    packed := f.packed.push k
    nodes := f.nodes.modify k.parent fun n => { n with packed := n.packed ++ [f.packed.size] } }

theorem extends_pushPacked (f : Forest) (k : Packed) : f.Extends (f.pushPacked k) := by
  refine ⟨fun hn => ⟨_, getElem?_modify_old hn, ?_⟩, id, getElem?_push_old⟩
  split <;> rfl

/-- The nodes of a forest with one more packed node are the old ones. -/
theorem pushPacked_node {f : Forest} {k : Packed} {id : Nat} {n : Node}
    (h : (f.pushPacked k).nodes[id]? = some n) :
    ∃ m, f.nodes[id]? = some m ∧ n.span = m.span ∧
      n.packed = if k.parent = id then m.packed ++ [f.packed.size] else m.packed := by
  obtain ⟨m, hm, rfl⟩ := getElem?_modify_cases h
  refine ⟨m, hm, ?_, ?_⟩ <;> split <;> rfl

/-- The parent of the new packed node lists it, behind those that it has. -/
theorem Wf.lists_pushPacked {f : Forest} (hf : f.Wf) {k : Packed} {id : Nat} {n : Node}
    (hn : (f.pushPacked k).nodes[id]? = some n) :
    n.packed.Nodup ∧
      ∀ i, i ∈ n.packed ↔ ∃ l, (f.pushPacked k).packed[i]? = some l ∧ l.parent = id := by
  obtain ⟨m, hm, -, hpacked⟩ := pushPacked_node hn
  obtain ⟨hnodup, hlist⟩ := hf.lists hm
  -- a list has numbers of packed nodes only, and the new one has none yet
  have hfresh : f.packed.size ∉ m.packed := by
    intro h
    obtain ⟨l, hl, -⟩ := (hlist _).mp h
    exact absurd hl (by simp)
  have hmem (i : Nat) : (∃ l, (f.packed.push k)[i]? = some l ∧ l.parent = id) ↔
      i ∈ m.packed ∨ i = f.packed.size ∧ k.parent = id := by
    rw [hlist]
    constructor
    · intro hlisted
      obtain ⟨l, hl, hparent⟩ := hlisted
      rcases getElem?_push_cases hl with hl | ⟨hi, rfl⟩
      · exact Or.inl ⟨l, hl, hparent⟩
      · exact Or.inr ⟨hi, hparent⟩
    · intro hlisted
      rcases hlisted with ⟨l, hl, hparent⟩ | ⟨rfl, hparent⟩
      · exact ⟨l, getElem?_push_old hl, hparent⟩
      · exact ⟨k, Array.getElem?_push_size, hparent⟩
  by_cases hid : k.parent = id
  · rw [if_pos hid] at hpacked
    rw [hpacked]
    refine ⟨(List.perm_append_singleton _ _).nodup_iff.mpr (List.nodup_cons.mpr ⟨hfresh, hnodup⟩),
      fun i => ?_⟩
    rw [List.mem_append, List.mem_singleton]
    exact (Iff.trans (by simp [hid]) (hmem i).symm)
  · rw [if_neg hid] at hpacked
    rw [hpacked]
    exact ⟨hnodup, fun i => Iff.trans (by simp [hid]) (hmem i).symm⟩

theorem Wf.adds_pushPacked {f : Forest} (hf : f.Wf) {k : Packed} {d : Packing}
    (hd : f.packing? k = some d)
    (hnew : ∀ {i : Nat} {l : Packed}, f.packed[i]? = some l → l.parent = k.parent →
      l.slot = k.slot → l.pivot ≠ k.pivot) :
    f.Adds (f.pushPacked k) [.packing d] := by
  have hextend := extends_pushPacked f k
  refine ⟨⟨fun hn hm hspan => ?_, fun hn => ?_, fun hk hl hparent hslot hpivot => ?_,
    fun hk => ?_, fun hn => ?_⟩, hextend, fun {fact} hs => ?_, fun h => ?_⟩
  · obtain ⟨n', hn', hn, -⟩ := pushPacked_node hn
    obtain ⟨m', hm', hm, -⟩ := pushPacked_node hm
    exact hf.spans hn' hm' (by rw [← hn, ← hm, hspan])
  · obtain ⟨n', hn', hn, -⟩ := pushPacked_node hn
    obtain ⟨w, hw⟩ := hf.pieces hn'
    exact ⟨w, hn ▸ hextend.pieceOf? hw⟩
  · rcases getElem?_push_cases hk with hk' | ⟨rfl, rfl⟩ <;>
      rcases getElem?_push_cases hl with hl' | ⟨rfl, rfl⟩
    · exact hf.keys hk' hl' hparent hslot hpivot
    · exact absurd hpivot (hnew hk' hparent hslot)
    · exact absurd hpivot.symm (hnew hl' hparent.symm hslot.symm)
    · rfl
  · rcases getElem?_push_cases hk with hk | ⟨rfl, rfl⟩
    · obtain ⟨d', hd'⟩ := hf.packings hk
      exact ⟨d', hextend.packing? hd'⟩
    · exact ⟨d, hextend.packing? hd⟩
  · exact hf.lists_pushPacked hn
  · cases fact with
    | piece w =>
      obtain ⟨id, hid⟩ := hs
      obtain ⟨n, hn, -⟩ := piece?_eq_some_iff.mp hid
      obtain ⟨m, hm, -⟩ := pushPacked_node hn
      exact Or.inl ⟨id, hextend.piece?_old hf hm hid⟩
    | packing d' =>
      obtain ⟨i, l, hl, hd'⟩ := hs
      rcases getElem?_push_cases hl with hl | ⟨rfl, rfl⟩
      · exact Or.inl ⟨i, l, hl, hextend.packing?_old hf hl hd'⟩
      · rw [← Option.some.inj ((hextend.packing? hd).symm.trans hd')]
        exact Or.inr (List.mem_singleton_self _)
    | called _ | posted _ | passed _ | awaited _ _ | result _ _ _ => exact False.elim hs
  · obtain rfl := List.mem_singleton.mp h
    exact Or.inl ⟨f.packed.size, k, Array.getElem?_push_size, hextend.packing? hd⟩

/-- The packed node with this parent, slot and pivot. -/
def findPacked (f : Forest) (parent slot pivot : Nat) : Option Nat :=
  f.packed.findIdx? fun p => p.parent = parent ∧ p.slot = slot ∧ p.pivot = pivot

theorem findPacked_eq_some {f : Forest} {parent slot pivot i : Nat}
    (h : f.findPacked parent slot pivot = some i) :
    ∃ k, f.packed[i]? = some k ∧ k.parent = parent ∧ k.slot = slot ∧ k.pivot = pivot := by
  obtain ⟨k, hk, htest⟩ := exists_of_findIdx? h
  exact ⟨k, hk, by simpa using htest⟩

/-- **A derivation is not stored** if the node has one by the same slot with the same pivot. -/
theorem addPacked_cases (f : Forest) (parent slot : Nat) (left : Option Nat) (right : Nat) :
    (∃ (i : Nat) (k : Packed), f.packed[i]? = some k ∧ k.parent = parent ∧ k.slot = slot ∧
        k.pivot = f.pivot left right ∧ f.addPacked parent slot left right = ((i, false), f)) ∨
      (∀ {i : Nat} {k : Packed}, f.packed[i]? = some k → k.parent = parent → k.slot = slot →
        k.pivot ≠ f.pivot left right) ∧
        f.addPacked parent slot left right = ((f.packed.size, true),
          f.pushPacked ⟨parent, slot, f.pivot left right, left, right⟩) := by
  unfold addPacked
  dsimp only
  rw [← findPacked]
  cases hfind : f.findPacked parent slot (f.pivot left right) with
  | some i =>
    obtain ⟨k, hk, hparent, hslot, hpivot⟩ := findPacked_eq_some hfind
    exact Or.inl ⟨i, k, hk, hparent, hslot, hpivot, rfl⟩
  | none =>
    -- the search has seen all packed nodes
    refine Or.inr ⟨fun {i k} hk hparent hslot => ?_, rfl⟩
    have h := Array.findIdx?_eq_none_iff.mp hfind k (Array.mem_of_getElem? hk)
    simpa [hparent, hslot] using h

/-- **A derivation is stored** unless the node has one with the same slot and pivot. -/
theorem Wf.adds_addPacked {f : Forest} (hf : f.Wf) (slot : Nat) {parent right : Nat}
    {left : Option Nat} {w r : Piece} {l : Option Piece} (hparent : f.piece? parent = some w)
    (hleft : f.part? left = some l) (hright : f.piece? right = some r) :
    f.Adds (f.addPacked parent slot left right).2 [.packing ⟨w, slot, Piece.pivot l r, l, r⟩] := by
  rcases f.addPacked_cases parent slot left right with
    ⟨i, k, hk, rfl, rfl, hpivot, hadd⟩ | ⟨hnew, hadd⟩ <;> rw [hadd]
  · obtain ⟨d, hd⟩ := hf.packings hk
    obtain ⟨hw, hslot, hp, -, -⟩ := packing?_eq_some_iff.mp hd
    refine ⟨hf, .refl f, Or.inl, fun h => ?_⟩
    obtain rfl := List.mem_singleton.mp h
    refine Or.inr ⟨_, d, rfl, ?_, i, k, hk, hd⟩
    rw [Packing.key, Packing.key, ← Option.some.inj (hparent.symm.trans hw), ← hslot, ← hp, hpivot,
      pivot_eq hleft hright]
  · rw [pivot_eq hleft hright] at hnew ⊢
    exact hf.adds_pushPacked (packing?_eq_some_iff.mpr ⟨hparent, rfl, rfl, hleft, hright⟩) hnew

/-- **The node of two parts is found or made,** with its derivation. -/
theorem Wf.adds_getNode {f : Forest} (hf : f.Wf) (slot : Nat) {arguments left : Option Nat}
    {right : Nat} {values : Option (List Value)} {l : Option Piece} {r : Piece}
    (harguments : f.argumentsAt? arguments = some values) (hleft : f.part? left = some l)
    (hright : f.piece? right = some r) :
    f.Adds (f.getNode slot arguments left right).2 (Piece.joinFacts slot values l r) ∧
      (f.getNode slot arguments left right).2.piece? (f.getNode slot arguments left right).1
        = some (.join slot values l r) := by
  rcases part?_eq_some_iff.mp hleft with ⟨rfl, rfl⟩ | ⟨id, w, rfl, rfl, hid⟩
  · exact ⟨hf.adds_nil, hright⟩
  · have hspan : f.pieceOf? ⟨.intermediate slot arguments, (f.get id).span.left,
        (f.get right).span.right⟩ = some (.join slot values (some w) r) := by
      refine pieceOf?_eq_some_iff.mpr ⟨arguments, harguments, ?_⟩
      rw [(extents_of_piece? hid).1, (extents_of_piece? hright).2]
    obtain ⟨hfind, hnode⟩ := hf.adds_find hspan
    have hpacked := hfind.wf.adds_addPacked slot hnode (hfind.extend.part? hleft)
      (hfind.extend.piece? hright)
    exact ⟨hfind.trans hpacked, hpacked.extend.piece? hnode⟩

/-- A node is ambiguous if it lists two packed nodes. -/
theorem mem_ambiguousNodes_iff {f : Forest} {id : Nat} :
    id ∈ f.ambiguousNodes ↔ ∃ n, f.nodes[id]? = some n ∧ 1 < n.packed.length := by
  rw [ambiguousNodes, List.mem_filter, List.mem_range, get]
  constructor
  · intro hlisted
    obtain ⟨hid, hambiguous⟩ := hlisted
    rw [Array.getElem?_eq_getElem hid] at hambiguous
    exact ⟨_, Array.getElem?_eq_getElem hid, of_decide_eq_true hambiguous⟩
  · intro hnode
    obtain ⟨n, hn, hlength⟩ := hnode
    rw [hn]
    exact ⟨(Array.getElem?_eq_some_iff.mp hn).1, decide_eq_true hlength⟩

end Forest

end GeneralLL
