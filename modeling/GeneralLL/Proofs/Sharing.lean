import GeneralLL.Proofs.Building
import GeneralLL.Proofs.Stores
import Mathlib.Data.List.Sort

/-!
# What a forest shares

A forest has each node once, each list of arguments once, and each derivation of a node once, and
everything in it is referred to by number. So it matters that its three collections agree and that
nothing that was handed out ever changes.

However a forest is used (`Forest.Call`), in whatever order, **what it shares stays shared**
(`sharing_exact`):

* nodes differ in label or extents, and are looked up by them;
* lists of arguments have the numbers in whose order they first came;
* derivations differ in parent, slot or pivot, and every node lists its own, oldest first;
* what a node is and what it lists stays, and more comes behind it only.
-/

namespace GeneralLL

namespace Forest

/-! ## Using a forest -/

/-- One use of a forest. -/
inductive Call where
  | internArguments (values : List Value)
  | terminal (id left right : Nat)
  | nonterminal (id : Nat) (arguments : Option Nat) (left right : Nat)
  | intermediate (slot : Nat) (arguments : Option Nat) (left right : Nat)
  | addPacked (parent slot : Nat) (left : Option Nat) (right : Nat)
  | getNode (slot : Nat) (arguments left : Option Nat) (right : Nat)

namespace Call

/-- The nodes and the lists of arguments that are referred to are there. -/
def Valid (f : Forest) : Call → Prop
  | internArguments _ | terminal _ _ _ => True
  | nonterminal _ arguments _ _ | intermediate _ arguments _ _ =>
    ∀ a ∈ arguments, a < f.arguments.size
  | addPacked parent _ left right => parent < f.size ∧ (∀ l ∈ left, l < f.size) ∧ right < f.size
  | getNode _ arguments left right =>
    (∀ a ∈ arguments, a < f.arguments.size) ∧ (∀ l ∈ left, l < f.size) ∧ right < f.size

instance (f : Forest) (c : Call) : Decidable (c.Valid f) :=
  match c with
  | internArguments _ | terminal _ _ _ => inferInstanceAs (Decidable True)
  | nonterminal _ arguments _ _ | intermediate _ arguments _ _ =>
    inferInstanceAs (Decidable (∀ a ∈ arguments, a < f.arguments.size))
  | addPacked parent _ left right =>
    inferInstanceAs (Decidable (parent < f.size ∧ (∀ l ∈ left, l < f.size) ∧ right < f.size))
  | getNode _ arguments left right =>
    inferInstanceAs (Decidable ((∀ a ∈ arguments, a < f.arguments.size) ∧
      (∀ l ∈ left, l < f.size) ∧ right < f.size))

/-- The list of arguments that is numbered. -/
def interned? : Call → Option (List Value)
  | internArguments values => some values
  | _ => none

end Call

/-- The forest after a call of one of its functions. -/
def perform (f : Forest) : Call → Forest
  | .internArguments values => (f.internArguments values).2
  | .terminal id left right => (f.terminal id left right).2
  | .nonterminal id arguments left right => (f.nonterminal id arguments left right).2
  | .intermediate slot arguments left right => (f.intermediate slot arguments left right).2
  | .addPacked parent slot left right => (f.addPacked parent slot left right).2
  | .getNode slot arguments left right => (f.getNode slot arguments left right).2

/-- The lists of arguments that were numbered, as often as they were. -/
def interned (calls : List Call) : List (List Value) := calls.filterMap Call.interned?

/-- What tells packed nodes apart. -/
def Packed.key (k : Packed) : Nat × Nat × Nat := (k.parent, k.slot, k.pivot)

/-! ## Forests in order -/

/-- **A forest is in order** if it is well formed, its nodes list the older packed nodes first, and
the pivots are where the parts meet. -/
structure InOrder (f : Forest) : Prop where
  /-- Everything can be read, and nothing is there twice. -/
  wf : f.Wf
  /-- Nodes list their packed nodes by number. -/
  sorted : ∀ {id : Nat} {n : Node}, f.nodes[id]? = some n → n.packed.Pairwise (· < ·)
  /-- The pivot of a packed node is where its parts meet. -/
  pivots : ∀ {i : Nat} {k : Packed}, f.packed[i]? = some k → k.pivot = f.pivot k.left k.right

theorem inOrder_empty : InOrder empty :=
  ⟨wf_empty, fun h => absurd h (by simp [empty]), fun h => absurd h (by simp [empty])⟩

section

variable {f f' f'' : Forest}

/-- The parts of packed nodes are there. -/
theorem Wf.packed_lt (hf : f.Wf) {i : Nat} {k : Packed} (hk : f.packed[i]? = some k) :
    k.parent < f.size ∧ (∀ l ∈ k.left, l < f.size) ∧ k.right < f.size := by
  obtain ⟨d, hd⟩ := hf.packings hk
  obtain ⟨hparent, -, -, hleft, hright⟩ := packing?_eq_some_iff.mp hd
  refine ⟨lt_size_of_piece? hparent, fun l hl => ?_, lt_size_of_piece? hright⟩
  rw [hl] at hleft
  obtain ⟨w, hw, -⟩ := Option.map_eq_some_iff.mp hleft
  exact lt_size_of_piece? hw

theorem Wf.mem_packed_iff (hf : f.Wf) {id i : Nat} :
    i ∈ (f.get id).packed ↔ ∃ k, f.packed[i]? = some k ∧ k.parent = id := by
  cases hn : f.nodes[id]? with
  | some n =>
    rw [get, hn, Option.getD_some]
    exact (hf.lists hn).2 i
  | none =>
    rw [get, hn, Option.getD_none]
    refine ⟨fun h => absurd h List.not_mem_nil, fun h => ?_⟩
    obtain ⟨k, hk, rfl⟩ := h
    exact absurd (hf.packed_lt hk).1 (Nat.not_lt.mpr (Array.getElem?_eq_none_iff.mp hn))

/-- **A node lists its packed nodes in the order in which they were made.** -/
theorem InOrder.packed_eq (hf : f.InOrder) {id : Nat} (hid : id < f.size) :
    (f.get id).packed
      = (List.range f.packedCount).filter fun i => (f.getPacked i).parent = id := by
  have hn := Array.getElem?_eq_getElem hid
  have hsorted : (f.get id).packed.Pairwise (· < ·) := by
    rw [get, hn, Option.getD_some]
    exact hf.sorted hn
  refine hsorted.eq_of_mem_iff (List.pairwise_lt_range.filter _) fun i => ?_
  rw [hf.wf.mem_packed_iff, List.mem_filter, List.mem_range, getPacked, packedCount]
  constructor
  · intro h
    obtain ⟨k, hk, hparent⟩ := h
    rw [hk]
    exact ⟨(Array.getElem?_eq_some_iff.mp hk).1, decide_eq_true hparent⟩
  · intro h
    obtain ⟨hi, hparent⟩ := h
    rw [Array.getElem?_eq_getElem hi] at hparent
    exact ⟨_, Array.getElem?_eq_getElem hi, of_decide_eq_true hparent⟩

/-- **The packed nodes are counted by the nodes that list them.** -/
theorem Wf.packedCount_eq (hf : f.Wf) :
    f.packedCount = ((List.range f.size).map fun id => (f.get id).packed.length).sum := by
  have hrange : (List.range f.packedCount).Nodup := List.nodup_range
  rw [← length_eq_sum_parts f.size (fun id => (f.get id).packed) hrange (fun id hid => ?_)
    (fun {i j a} hi hj => ?_) fun i => ?_, List.length_range]
  · have hn := Array.getElem?_eq_getElem hid
    rw [get, hn, Option.getD_some]
    exact (hf.lists hn).1
  · obtain ⟨k, hk, rfl⟩ := hf.mem_packed_iff.mp hi
    obtain ⟨k', hk', rfl⟩ := hf.mem_packed_iff.mp hj
    rw [Option.some.inj (hk.symm.trans hk')]
  · rw [List.mem_range]
    constructor
    · intro hi
      have hk := Array.getElem?_eq_getElem hi
      exact ⟨_, (hf.packed_lt hk).1, hf.mem_packed_iff.mpr ⟨_, hk, rfl⟩⟩
    · intro hi
      obtain ⟨id, -, hmem⟩ := hi
      obtain ⟨k, hk, -⟩ := hf.mem_packed_iff.mp hmem
      exact (Array.getElem?_eq_some_iff.mp hk).1

/-- Every node is of one of the three sorts. -/
theorem count_sorts (f : Forest) :
    f.count Label.isTerminal + f.count Label.isNonterminal + f.count Label.isIntermediate
      = f.size := by
  have hsort (label : Label) : (if label.isTerminal then 1 else 0)
      + (if label.isNonterminal then 1 else 0) + (if label.isIntermediate then 1 else 0) = 1 := by
    cases label <;> rfl
  have hsorts (l : List Node) : (l.countP fun n => n.span.label.isTerminal)
      + (l.countP fun n => n.span.label.isNonterminal)
      + (l.countP fun n => n.span.label.isIntermediate) = l.length := by
    induction l with
    | nil => rfl
    | cons n rest ih =>
      have hn := hsort n.span.label
      rw [List.countP_cons, List.countP_cons, List.countP_cons, List.length_cons]
      omega
  rw [count, count, count, hsorts, Array.length_toList]
  rfl

/-! ## Growth -/

/-- **A forest grows in order:** what it has stays as it is, and nodes list new packed nodes behind
those that they have. -/
structure Grows (f f' : Forest) : Prop where
  /-- The new forest is in order. -/
  inOrder : f'.InOrder
  /-- What could be read before is read as it was. -/
  extend : f.Extends f'
  /-- Nodes list new packed nodes last. -/
  lists : ∀ {id : Nat} {n n' : Node}, f.nodes[id]? = some n → f'.nodes[id]? = some n' →
    n.packed <+: n'.packed

theorem InOrder.grows_self (hf : f.InOrder) : f.Grows f :=
  ⟨hf, .refl f, fun hn hn' => Option.some.inj (hn.symm.trans hn') ▸ List.prefix_rfl⟩

theorem Grows.trans (h : f.Grows f') (h' : f'.Grows f'') : f.Grows f'' := by
  refine ⟨h'.inOrder, h.extend.trans h'.extend, fun hn hn'' => ?_⟩
  obtain ⟨n', hn', -⟩ := h.extend.nodes hn
  exact (h.lists hn hn').trans (h'.lists hn' hn'')

theorem Wf.exists_part (hf : f.Wf) {left : Option Nat} (hleft : ∀ l ∈ left, l < f.size) :
    ∃ l, f.part? left = some l := by
  cases left with
  | none => exact ⟨none, rfl⟩
  | some id =>
    obtain ⟨-, w, -, -, hw⟩ := hf.exists_piece (hleft id rfl)
    exact ⟨some w, part?_of_piece? hw⟩

theorem exists_argumentsAt? {arguments : Option Nat}
    (h : ∀ a ∈ arguments, a < f.arguments.size) :
    ∃ values, f.argumentsAt? arguments = some values := by
  cases arguments with
  | none => exact ⟨none, rfl⟩
  | some a =>
    obtain ⟨values, hvalues⟩ : ∃ values, f.arguments.get? a = some values :=
      ⟨_, Array.getElem?_eq_getElem (h a rfl)⟩
    exact ⟨some values, by rw [argumentsAt?, hvalues, Option.map_some]⟩

/-- Where two parts meet does not change. -/
theorem Extends.pivot_eq (h : f.Extends f') (hf : f.Wf) {left : Option Nat} {right : Nat}
    (hleft : ∀ l ∈ left, l < f.size) (hright : right < f.size) :
    f'.pivot left right = f.pivot left right := by
  obtain ⟨l, hl⟩ := hf.exists_part hleft
  obtain ⟨-, r, -, -, hr⟩ := hf.exists_piece hright
  rw [Forest.pivot_eq hl hr, Forest.pivot_eq (h.part? hl) (h.piece? hr)]

theorem InOrder.pivot_eq_of_extends (hf : f.InOrder) (h : f.Extends f') {i : Nat} {k : Packed}
    (hk : f.packed[i]? = some k) : k.pivot = f'.pivot k.left k.right := by
  obtain ⟨-, hleft, hright⟩ := hf.wf.packed_lt hk
  rw [h.pivot_eq hf.wf hleft hright]
  exact hf.pivots hk

theorem InOrder.grows_internArguments (hf : f.InOrder) (values : List Value) :
    f.Grows (f.internArguments values).2 := by
  have hadds := hf.wf.adds_internArguments values
  exact ⟨⟨hadds.wf, hf.sorted, hf.pivots⟩, hadds.extend, hf.grows_self.lists⟩

/-- A node that is new lists nothing. -/
theorem InOrder.grows_find (hf : f.InOrder) {span : Span} {w : Piece}
    (hw : f.pieceOf? span = some w) : f.Grows (f.find span).2 := by
  obtain ⟨hadds, -⟩ := hf.wf.adds_find hw
  unfold find at hadds ⊢
  cases hlookup : f.lookup span with
  | some id => exact hf.grows_self
  | none =>
    rw [hlookup] at hadds
    refine ⟨⟨hadds.wf, fun hn => ?_, hf.pivot_eq_of_extends hadds.extend⟩, hadds.extend,
      fun hn hn' => ?_⟩
    · rcases getElem?_push_cases hn with hn | ⟨-, rfl⟩
      · exact hf.sorted hn
      · exact List.Pairwise.nil
    · exact hf.grows_self.lists hn (hn'.symm.trans (getElem?_push_old hn) ▸ hn)

/-- A packed node that is new is listed last. -/
theorem InOrder.grows_addPacked (hf : f.InOrder) {parent right : Nat} (slot : Nat)
    {left : Option Nat} (hparent : parent < f.size) (hleft : ∀ l ∈ left, l < f.size)
    (hright : right < f.size) : f.Grows (f.addPacked parent slot left right).2 := by
  obtain ⟨-, w, -, -, hw⟩ := hf.wf.exists_piece hparent
  obtain ⟨l, hl⟩ := hf.wf.exists_part hleft
  obtain ⟨-, r, -, -, hr⟩ := hf.wf.exists_piece hright
  have hadds := hf.wf.adds_addPacked slot hw hl hr
  rcases f.addPacked_cases parent slot left right with ⟨i, -, -, -, -, -, h⟩ | ⟨-, h⟩
  · rw [h]
    exact hf.grows_self
  · rw [h] at hadds ⊢
    have hextend := hadds.extend
    refine ⟨⟨hadds.wf, fun hn => ?_, fun hk => ?_⟩, hextend, fun hn hn' => ?_⟩
    · obtain ⟨m, hm, -, hpacked⟩ := pushPacked_node hn
      rw [hpacked]
      split
      · refine List.pairwise_append.mpr ⟨hf.sorted hm, List.pairwise_singleton _ _, ?_⟩
        intro i hi j hj
        obtain ⟨k, hk, -⟩ := ((hf.wf.lists hm).2 i).mp hi
        rw [List.mem_singleton.mp hj]
        exact (Array.getElem?_eq_some_iff.mp hk).1
      · exact hf.sorted hm
    · rcases getElem?_push_cases hk with hk | ⟨-, rfl⟩
      · exact hf.pivot_eq_of_extends hextend hk
      · exact (hextend.pivot_eq hf.wf hleft hright).symm
    · obtain ⟨m, hm, -, hpacked⟩ := pushPacked_node hn'
      rw [hpacked, Option.some.inj (hn.symm.trans hm)]
      split
      · exact List.prefix_append _ _
      · exact List.prefix_rfl

theorem InOrder.grows_getNode (hf : f.InOrder) (slot : Nat) {arguments left : Option Nat}
    {right : Nat} (harguments : ∀ a ∈ arguments, a < f.arguments.size)
    (hleft : ∀ l ∈ left, l < f.size) (hright : right < f.size) :
    f.Grows (f.getNode slot arguments left right).2 := by
  cases left with
  | none => exact hf.grows_self
  | some l =>
    obtain ⟨values, hvalues⟩ := exists_argumentsAt? harguments
    let span : Span := ⟨.intermediate slot arguments, (f.get l).span.left, (f.get right).span.right⟩
    have hfind : f.Grows (f.find span).2 :=
      hf.grows_find (pieceOf?_eq_some_iff (w := .intermediate slot values _ _).mpr
        ⟨arguments, hvalues, rfl⟩)
    have hsize := f.size_le_find span
    exact hfind.trans (hfind.inOrder.grows_addPacked slot (f.find_lt_size span)
      (fun l hl => Nat.lt_of_lt_of_le (hleft l hl) hsize) (Nat.lt_of_lt_of_le hright hsize))

/-- **A valid call lets a forest grow in order.** -/
theorem InOrder.grows_perform (hf : f.InOrder) {c : Call} (hc : c.Valid f) :
    f.Grows (f.perform c) := by
  cases c with
  | internArguments values => exact hf.grows_internArguments values
  | terminal id left right => exact hf.grows_find rfl
  | nonterminal id arguments left right =>
    obtain ⟨values, hvalues⟩ := exists_argumentsAt? hc
    exact hf.grows_find (pieceOf?_eq_some_iff (w := .nonterminal id values left right).mpr
      ⟨arguments, hvalues, rfl⟩)
  | intermediate slot arguments left right =>
    obtain ⟨values, hvalues⟩ := exists_argumentsAt? hc
    exact hf.grows_find (pieceOf?_eq_some_iff (w := .intermediate slot values left right).mpr
      ⟨arguments, hvalues, rfl⟩)
  | addPacked parent slot left right =>
    obtain ⟨hparent, hleft, hright⟩ := hc
    exact hf.grows_addPacked slot hparent hleft hright
  | getNode slot arguments left right =>
    obtain ⟨harguments, hleft, hright⟩ := hc
    exact hf.grows_getNode slot harguments hleft hright

/-- **So do all calls together.** -/
theorem InOrder.grows_of_performs (hf : f.InOrder) {calls : List Call}
    (h : Performs Call.Valid perform f calls f') : f.Grows f' :=
  h.keeps hf.grows_self fun hgrows hc => hgrows.trans (hgrows.inOrder.grows_perform hc)

/-! ## Lists of arguments -/

theorem arguments_find (f : Forest) (span : Span) : (f.find span).2.arguments = f.arguments := by
  unfold find
  cases f.lookup span <;> rfl

theorem arguments_addPacked (f : Forest) (parent slot : Nat) (left : Option Nat) (right : Nat) :
    (f.addPacked parent slot left right).2.arguments = f.arguments := by
  rcases f.addPacked_cases parent slot left right with ⟨i, -, -, -, -, -, h⟩ | ⟨-, h⟩ <;> rw [h]
  rfl

theorem arguments_getNode (f : Forest) (slot : Nat) (arguments left : Option Nat) (right : Nat) :
    (f.getNode slot arguments left right).2.arguments = f.arguments := by
  cases left with
  | none => rfl
  | some l => exact (arguments_addPacked ..).trans (f.arguments_find _)

theorem arguments_perform (f : Forest) (c : Call) :
    (f.perform c).arguments = match c.interned? with
      | some values => (f.arguments.insert values).2
      | none => f.arguments := by
  cases c with
  | internArguments values => rfl
  | terminal id left right | nonterminal id arguments left right
  | intermediate slot arguments left right => exact f.arguments_find _
  | addPacked parent slot left right => exact f.arguments_addPacked parent slot left right
  | getNode slot arguments left right => exact f.arguments_getNode slot arguments left right

/-- **Lists of arguments are numbered in the order in which they first came.** -/
theorem arguments_of_performs {calls : List Call}
    (h : Performs Call.Valid perform empty calls f) :
    f.arguments.toList = (interned calls).eraseDups := by
  induction h with
  | nothing => rfl
  | @call calls f c _ _ ih =>
    rw [interned, filterMap_concat, arguments_perform]
    cases c.interned? with
    | none =>
      rw [Option.toList_none, List.append_nil]
      exact ih
    | some values => exact Numbering.toList_insert_of_eraseDups ih values

/-! ## Answers -/

/-- What is found or made is looked up from then on. -/
theorem lookup_find (f : Forest) (span : Span) :
    (f.find span).2.lookup span = some (f.find span).1 := by
  unfold find
  cases hlookup : f.lookup span with
  | some id => exact hlookup
  | none =>
    unfold lookup at hlookup ⊢
    rw [Array.findIdx?_push, hlookup]
    simp [size]

theorem Wf.lookup_eq_some_iff (hf : f.Wf) {span : Span} {id : Nat} :
    f.lookup span = some id ↔ ∃ n, f.nodes[id]? = some n ∧ n.span = span := by
  constructor
  · exact lookup_eq_some
  · intro h
    obtain ⟨n, hn, rfl⟩ := h
    exact hf.lookup_span hn

/-- **A packed node is new if there was none with its key,** and it is there from then on. -/
theorem addPacked_answer (f : Forest) (parent slot : Nat) (left : Option Nat) (right : Nat) :
    ((f.addPacked parent slot left right).1.2 = true ↔
        ∀ k ∈ f.packed, k.key ≠ (parent, slot, f.pivot left right)) ∧
      ∃ k, (f.addPacked parent slot left right).2.packed[(f.addPacked parent slot left right).1.1]?
          = some k ∧ k.key = (parent, slot, f.pivot left right) := by
  rcases f.addPacked_cases parent slot left right with
    ⟨i, k, hk, hparent, hslot, hpivot, h⟩ | ⟨hnew, h⟩ <;> rw [h]
  · have hkey : k.key = (parent, slot, f.pivot left right) := by
      rw [Packed.key, hparent, hslot, hpivot]
    exact ⟨⟨fun h => absurd h (by simp), fun h => absurd hkey (h k (Array.mem_of_getElem? hk))⟩,
      k, hk, hkey⟩
  · refine ⟨⟨fun _ k hk hkey => ?_, fun _ => rfl⟩, _, Array.getElem?_push_size, rfl⟩
    obtain ⟨i, hi⟩ := Array.mem_iff_getElem?.mp hk
    obtain ⟨hparent, hslot, hpivot⟩ : k.parent = parent ∧ k.slot = slot ∧
        k.pivot = f.pivot left right := by simpa [Packed.key] using hkey
    exact hnew hi hparent hslot hpivot

/-- **What a forest shares stays shared.** -/
theorem sharing_exact {calls more : List Call}
    (h : Performs Call.Valid perform empty calls f) (hmore : Performs Call.Valid perform f more f') :
    -- A node is known by its label and its extents.
    (f.nodes.toList.map Node.span).Nodup ∧
      (∀ span id, f.lookup span = some id ↔ ∃ n, f.nodes[id]? = some n ∧ n.span = span) ∧
      (∀ span, (f.find span).2.lookup span = some (f.find span).1) ∧
      -- A list of arguments is known by its number, and the number by the list.
      f.arguments.toList = (interned calls).eraseDups ∧
      (∀ values a, f.arguments.find? values = some a ↔ f.arguments.get? a = some values) ∧
      (∀ values, (f.internArguments values).2.arguments.get? (f.internArguments values).1
        = some values) ∧
      -- A packed node is known by its parent, its slot and its pivot.
      (f.packed.toList.map Packed.key).Nodup ∧
      (∀ k ∈ f.packed, k.parent < f.size ∧ (∀ l ∈ k.left, l < f.size) ∧ k.right < f.size ∧
        k.pivot = f.pivot k.left k.right) ∧
      (∀ parent slot left right,
        ((f.addPacked parent slot left right).1.2 = true ↔
          ∀ k ∈ f.packed, k.key ≠ (parent, slot, f.pivot left right)) ∧
        ∃ k, (f.addPacked parent slot left right).2.packed[
            (f.addPacked parent slot left right).1.1]? = some k ∧
          k.key = (parent, slot, f.pivot left right)) ∧
      -- It is listed by its parent only, in the order in which packed nodes were made.
      (∀ id < f.size, (f.get id).packed
        = (List.range f.packedCount).filter fun i => (f.getPacked i).parent = id) ∧
      f.packedCount = ((List.range f.size).map fun id => (f.get id).packed.length).sum ∧
      f.count Label.isTerminal + f.count Label.isNonterminal + f.count Label.isIntermediate
        = f.size ∧
      -- Numbers stay valid.
      f.size ≤ f'.size ∧
      (∀ id < f.size, (f'.get id).span = (f.get id).span ∧
        (f.get id).packed <+: (f'.get id).packed) ∧
      f.packed.toList <+: f'.packed.toList ∧
      f.arguments.toList <+: f'.arguments.toList ∧
      ∀ id ∈ f.ambiguousNodes, id ∈ f'.ambiguousNodes := by
  have hf := (inOrder_empty.grows_of_performs h).inOrder
  have hgrows := hf.grows_of_performs hmore
  have hnode {id : Nat} (hid : id < f.size) : id < f'.size ∧
      (f'.get id).span = (f.get id).span ∧ (f.get id).packed <+: (f'.get id).packed := by
    have hn := Array.getElem?_eq_getElem hid
    obtain ⟨n', hn', hspan⟩ := hgrows.extend.nodes hn
    rw [get, get, hn, hn', Option.getD_some, Option.getD_some]
    exact ⟨(Array.getElem?_eq_some_iff.mp hn').1, hspan, hgrows.lists hn hn'⟩
  refine ⟨nodup_map_toList hf.wf.spans, fun span id => hf.wf.lookup_eq_some_iff, f.lookup_find,
    arguments_of_performs h, fun values a => Numbering.find?_eq_some_iff,
    Numbering.get?_insert_self f.arguments,
    nodup_map_toList fun hk hl hkey => ?_, fun k hk => ?_, f.addPacked_answer,
    fun id hid => hf.packed_eq hid, hf.wf.packedCount_eq, f.count_sorts, ?_,
    fun id hid => (hnode hid).2, toList_prefix hgrows.extend.packed,
    toList_prefix hgrows.extend.arguments, fun id hid => ?_⟩
  · obtain ⟨hparent, hslot, hpivot⟩ := by simpa [Packed.key] using hkey
    exact hf.wf.keys hk hl hparent hslot hpivot
  · obtain ⟨i, hi⟩ := Array.mem_iff_getElem?.mp hk
    obtain ⟨hparent, hleft, hright⟩ := hf.wf.packed_lt hi
    exact ⟨hparent, hleft, hright, hf.pivots hi⟩
  · by_contra hlt
    exact Nat.lt_irrefl _ (hnode (Nat.lt_of_not_le hlt)).1
  · obtain ⟨n, hn, hlength⟩ := mem_ambiguousNodes_iff.mp hid
    obtain ⟨n', hn', -⟩ := hgrows.extend.nodes hn
    exact mem_ambiguousNodes_iff.mpr
      ⟨n', hn', Nat.lt_of_lt_of_le hlength (hgrows.lists hn hn').length_le⟩

end

/-- The last two packed nodes have the same parts, and the last calls ask for what is there. -/
def sharedCalls : List Call :=
  [.internArguments [.int 1], .terminal 0 0 1, .terminal 1 1 2, .getNode 3 none (some 0) 1,
    .nonterminal 0 (some 0) 0 2, .addPacked 3 5 none 2, .addPacked 3 6 none 2,
    .internArguments [.int 1], .addPacked 3 5 none 2]

/-- One of these derivations is new. -/
def laterCalls : List Call := [.getNode 3 none (some 0) 1, .addPacked 2 4 (some 0) 1]

/-- Two derivations of the nonterminal stay two. -/
theorem sharing_exact_sharedCalls :
    Performs Call.Valid perform empty sharedCalls (sharedCalls.foldl perform empty) ∧
      Performs Call.Valid perform (sharedCalls.foldl perform empty) laterCalls
        (laterCalls.foldl perform (sharedCalls.foldl perform empty)) ∧
      ((sharedCalls.foldl perform empty).get 3).packed = [1, 2] ∧
      (laterCalls.foldl perform (sharedCalls.foldl perform empty)).packedCount = 4 ∧
      (sharedCalls.foldl perform empty).packedCount = 3 ∧
      (sharedCalls.foldl perform empty).arguments.toList = [[.int 1]] ∧
      3 ∈ (laterCalls.foldl perform (sharedCalls.foldl perform empty)).ambiguousNodes := by
  have hperforms : Performs Call.Valid perform empty sharedCalls
      (sharedCalls.foldl perform empty) := performs_foldl sharedCalls (by decide +kernel)
  have hlater : Performs Call.Valid perform (sharedCalls.foldl perform empty) laterCalls
      (laterCalls.foldl perform (sharedCalls.foldl perform empty)) :=
    performs_foldl laterCalls (by decide +kernel)
  obtain ⟨-, -, -, harguments, -, -, -, -, -, -, hcount, -, -, -, -, -, hambiguous⟩ :=
    sharing_exact hperforms hlater
  exact ⟨hperforms, hlater, by decide +kernel, by decide +kernel, hcount.trans (by decide +kernel),
    harguments.trans (by decide +kernel), hambiguous 3 (by decide +kernel)⟩

end Forest

end GeneralLL
