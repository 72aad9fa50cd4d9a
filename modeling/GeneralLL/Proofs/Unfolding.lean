import Mathlib.Logic.Relation
import GeneralLL.Proofs.Extraction
import GeneralLL.Terminal.Run

/-!
# Extraction unfolds a forest

A forest need not come from a parse: whoever builds one by hand can make nodes that are
parts of themselves, share nodes, or leave nodes without derivations. Extraction comes to an
end on every forest, and this file says with which answer (`tree_exact`).

* Extraction goes into nodes that are no terminals, from a node to the parts of its
  derivations (`GoesInto`). It answers a tree **exactly if no node on the way has several
  derivations and none leads back to itself.**
* The tree is then what the root unfolds to (`UnfoldsTo`): parts of rules are replaced by what
  they are made of, shared nodes are unfolded again at each place, and a node without
  derivations has no children.
* A node that is reported lies on the way, and has what is reported of it.
-/

namespace GeneralLL.Forest

open Relation

/-! ## Where extraction goes -/

/-- The nodes that a derivation joins, from left to right. -/
def Packed.parts (k : Packed) : List Nat := k.left.toList ++ [k.right]

/-- The parts of all derivations of a node. -/
def partsOf (f : Forest) (id : Nat) : List Nat :=
  (f.get id).packed.flatMap fun i => (f.getPacked i).parts

/-- A node that extraction goes into. -/
def Inner (f : Forest) (id : Nat) : Prop := (f.get id).span.label.isTerminal = false

/-- One step on the way of extraction. -/
def GoesInto (f : Forest) (id part : Nat) : Prop := f.Inner id ∧ part ∈ f.partsOf id

/-- The ways that extraction can take. -/
def Meets (f : Forest) : Nat → Nat → Prop := ReflTransGen f.GoesInto

/-- A node that leads back to itself. -/
def OnCycle (f : Forest) (id : Nat) : Prop := TransGen f.GoesInto id id

/-- A node has one derivation at most. -/
def Single (f : Forest) (id : Nat) : Prop := (f.get id).packed.length ≤ 1

section

variable {μ : Type}

/-! ## Unfoldings -/

/-- What nodes that stand side by side unfold to. -/
inductive UnfoldsTo (f : Forest) (graph : SlotGraph μ) (input : Input) :
    List Nat → List ParseTree → Prop where
  | nil : UnfoldsTo f graph input [] []
  | terminal {id t : Nat} {rest : List Nat} {trees : List ParseTree} :
      (f.get id).span.label = .terminal t → UnfoldsTo f graph input rest trees →
      UnfoldsTo f graph input (id :: rest)
        (leafTree graph input t (f.get id).span.left (f.get id).span.right :: trees)
  | nonterminal {id a : Nat} {arguments : Option Nat} {rest : List Nat}
      {children trees : List ParseTree} :
      (f.get id).span.label = .nonterminal a arguments → f.Single id →
      UnfoldsTo f graph input (f.partsOf id) children → UnfoldsTo f graph input rest trees →
      UnfoldsTo f graph input (id :: rest) (.ofName (graph.nonterminalName a) children :: trees)
  | intermediate {id slot : Nat} {arguments : Option Nat} {rest : List Nat}
      {children trees : List ParseTree} :
      (f.get id).span.label = .intermediate slot arguments → f.Single id →
      UnfoldsTo f graph input (f.partsOf id) children → UnfoldsTo f graph input rest trees →
      UnfoldsTo f graph input (id :: rest) (children ++ trees)

/-- The tree that a node unfolds to if extraction starts there. A part of a rule makes a node then,
for there is nothing above it to put its trees into. -/
inductive IsTreeOf [Matcher μ] (f : Forest) (graph : SlotGraph μ) (input : Input) (root : Nat) :
    ParseTree → Prop where
  | terminal {t : Nat} : (f.get root).span.label = .terminal t →
      IsTreeOf f graph input root
        (leafTree graph input t (f.get root).span.left (f.get root).span.right)
  | inner {children : List ParseTree} : f.Inner root → f.Single root →
      UnfoldsTo f graph input (f.partsOf root) children →
      IsTreeOf f graph input root (.ofName ((f.get root).span.label.name graph) children)

variable {f : Forest} {graph : SlotGraph μ} {input : Input}

theorem UnfoldsTo.append {ids ids' : List Nat} {trees trees' : List ParseTree}
    (h : f.UnfoldsTo graph input ids trees) (h' : f.UnfoldsTo graph input ids' trees') :
    f.UnfoldsTo graph input (ids ++ ids') (trees ++ trees') := by
  induction h with
  | nil => exact h'
  | terminal hlabel _ ih => exact .terminal hlabel ih
  | nonterminal hlabel hsingle hchildren _ _ ih => exact .nonterminal hlabel hsingle hchildren ih
  | intermediate hlabel hsingle hchildren _ _ ih =>
    rw [List.append_assoc]
    exact .intermediate hlabel hsingle hchildren ih

/-- **There is one unfolding at most.** -/
theorem UnfoldsTo.unique {ids : List Nat} {trees : List ParseTree}
    (h : f.UnfoldsTo graph input ids trees) :
    ∀ {trees' : List ParseTree}, f.UnfoldsTo graph input ids trees' → trees' = trees := by
  induction h with
  | nil =>
    intro trees' h'
    cases h'
    rfl
  | terminal hlabel _ ih =>
    intro trees' h'
    cases h' with
    | terminal hlabel' hrest =>
      obtain rfl := Label.terminal.inj (hlabel.symm.trans hlabel')
      rw [ih hrest]
    | nonterminal hlabel' | intermediate hlabel' =>
      exact absurd (hlabel.symm.trans hlabel') (by simp)
  | nonterminal hlabel _ _ _ ihc ih =>
    intro trees' h'
    cases h' with
    | nonterminal hlabel' _ hchildren hrest =>
      obtain ⟨rfl, -⟩ := Label.nonterminal.inj (hlabel.symm.trans hlabel')
      rw [ihc hchildren, ih hrest]
    | terminal hlabel' | intermediate hlabel' =>
      exact absurd (hlabel.symm.trans hlabel') (by simp)
  | intermediate hlabel _ _ _ ihc ih =>
    intro trees' h'
    cases h' with
    | intermediate hlabel' _ hchildren hrest => rw [ihc hchildren, ih hrest]
    | terminal hlabel' | nonterminal hlabel' =>
      exact absurd (hlabel.symm.trans hlabel') (by simp)

/-- On no way from a node there is one with several derivations or one that leads back to itself. -/
structure Tame (f : Forest) (id : Nat) : Prop where
  /-- Every inner node on the way has one derivation at most. -/
  single : ∀ {id' : Nat}, f.Meets id id' → f.Inner id' → f.Single id'
  /-- No node on the way leads back to itself. -/
  not_onCycle : ∀ {id' : Nat}, f.Meets id id' → ¬f.OnCycle id'

theorem tame_of_parts {id : Nat} (hsingle : f.Inner id → f.Single id)
    (h : ∀ part, f.GoesInto id part → f.Tame part) : f.Tame id := by
  constructor
  · intro id' hmeets hinner
    rcases hmeets.cases_head with rfl | ⟨part, hpart, hmeets⟩
    · exact hsingle hinner
    · exact (h part hpart).single hmeets hinner
  · intro id' hmeets hcycle
    rcases hmeets.cases_head with rfl | ⟨part, hpart, hmeets⟩
    · -- the first part of a way around leads back to itself as well
      obtain ⟨part, hpart, hback⟩ := TransGen.head'_iff.mp hcycle
      exact (h part hpart).not_onCycle .refl (TransGen.tail' hback hpart)
    · exact (h part hpart).not_onCycle hmeets hcycle

theorem tame_of_terminal {id t : Nat} (hlabel : (f.get id).span.label = .terminal t) :
    f.Tame id := by
  have hleaf : ¬f.Inner id := by simp [Inner, hlabel, Label.isTerminal]
  exact tame_of_parts (fun h => absurd h hleaf) fun part hpart => absurd hpart.1 hleaf

/-- **What unfolds does not go around in circles and has nowhere several derivations.** -/
theorem UnfoldsTo.tame {ids : List Nat} {trees : List ParseTree}
    (h : f.UnfoldsTo graph input ids trees) : ∀ id ∈ ids, f.Tame id := by
  induction h with
  | nil => exact fun id hid => absurd hid List.not_mem_nil
  | terminal hlabel _ ih => exact List.forall_mem_cons.mpr ⟨tame_of_terminal hlabel, ih⟩
  | nonterminal _ hsingle _ _ ihc ih | intermediate _ hsingle _ _ ihc ih =>
    refine List.forall_mem_cons.mpr ⟨?_, ih⟩
    exact tame_of_parts (fun _ => hsingle) fun part hpart => ihc part hpart.2

section

variable [Matcher μ] {root : Nat} {t : ParseTree}

theorem IsTreeOf.tame (h : f.IsTreeOf graph input root t) : f.Tame root := by
  cases h with
  | terminal hlabel => exact tame_of_terminal hlabel
  | inner _ hsingle hchildren =>
    exact tame_of_parts (fun _ => hsingle) fun part hpart => hchildren.tame part hpart.2

theorem IsTreeOf.unique {t' : ParseTree} (h : f.IsTreeOf graph input root t)
    (h' : f.IsTreeOf graph input root t') : t' = t := by
  cases h with
  | terminal hlabel =>
    cases h' with
    | terminal hlabel' => rw [Label.terminal.inj (hlabel.symm.trans hlabel')]
    | inner hinner => simp [Inner, hlabel, Label.isTerminal] at hinner
  | inner hinner _ hchildren =>
    cases h' with
    | terminal hlabel' => simp [Inner, hlabel', Label.isTerminal] at hinner
    | inner _ _ hchildren' => rw [hchildren.unique hchildren']

end

/-! ## Answers -/

variable [Matcher μ]

/-- An answer of extraction: trees of which something is true, or an error that names a node. -/
inductive Gives (f : Forest) (graph : SlotGraph μ) (met : Nat → Prop)
    (made : List ParseTree → Prop) : Except TreeError (List ParseTree) → Prop where
  | ok {trees : List ParseTree} : made trees → Gives f graph met made (.ok trees)
  | ambiguous {id : Nat} : met id → f.Inner id → 1 < (f.get id).packed.length →
      Gives f graph met made (.error (.ambiguous ((f.get id).span.label.name graph)
        (f.get id).span.left (f.get id).span.right))
  | cyclic {id : Nat} : met id → f.OnCycle id →
      Gives f graph met made (.error (.cyclic ((f.get id).span.label.name graph)
        (f.get id).span.left (f.get id).span.right))

section

variable {met met' : Nat → Prop} {made made' : List ParseTree → Prop}
  {x y : Except TreeError (List ParseTree)}

theorem Gives.append {ids ids' : List Nat}
    (hx : f.Gives graph met (f.UnfoldsTo graph input ids) x)
    (hy : f.Gives graph met (f.UnfoldsTo graph input ids') y) :
    f.Gives graph met (f.UnfoldsTo graph input (ids ++ ids'))
      (do
        let lefts ← x
        let rights ← y
        return lefts ++ rights) := by
  cases hx with
  | ambiguous hmet hinner hseveral => exact .ambiguous hmet hinner hseveral
  | cyclic hmet hcycle => exact .cyclic hmet hcycle
  | ok hlefts =>
    cases hy with
    | ambiguous hmet hinner hseveral => exact .ambiguous hmet hinner hseveral
    | cyclic hmet hcycle => exact .cyclic hmet hcycle
    | ok hrights => exact .ok (hlefts.append hrights)

theorem Gives.imp (h : f.Gives graph met made x) (hmet : ∀ id, met id → met' id)
    (hmade : ∀ trees, made trees → made' trees) : f.Gives graph met' made' x := by
  cases h with
  | ok htrees => exact .ok (hmade _ htrees)
  | ambiguous hid hinner hseveral => exact .ambiguous (hmet _ hid) hinner hseveral
  | cyclic hid hcycle => exact .cyclic (hmet _ hid) hcycle

theorem Gives.map {next : List ParseTree → List ParseTree}
    (h : f.Gives graph met (fun trees => made (next trees)) x) :
    f.Gives graph met made (x.map next) := by
  cases h with
  | ok htrees => exact .ok htrees
  | ambiguous hid hinner hseveral => exact .ambiguous hid hinner hseveral
  | cyclic hid hcycle => exact .cyclic hid hcycle

end

/-- What the children of a node tell about the node itself. -/
theorem Gives.splice {id : Nat} {children : Except TreeError (List ParseTree)}
    (h : f.Inner id → f.Gives graph (f.Meets id)
      (fun trees => f.Single id ∧ f.UnfoldsTo graph input (f.partsOf id) trees) children) :
    f.Gives graph (f.Meets id) (f.UnfoldsTo graph input [id])
      (f.splice graph input id children) := by
  unfold Forest.splice
  dsimp only
  split
  · rename_i t hlabel
    exact .ok (.terminal hlabel .nil)
  · rename_i a arguments hlabel
    rw [hlabel]
    refine Gives.map ((h (by rw [Inner, hlabel]; rfl)).imp (fun _ hid => hid) fun trees htrees => ?_)
    exact .nonterminal hlabel htrees.1 htrees.2 .nil
  · rename_i slot arguments hlabel
    refine (h (by rw [Inner, hlabel]; rfl)).imp (fun _ hid => hid) fun trees htrees => ?_
    rw [← List.append_nil trees]
    exact .intermediate hlabel htrees.1 htrees.2 .nil

/-- What follows from what the parts of a derivation give. -/
theorem Gives.parts {path : List Nat} {k : Packed}
    (h : ∀ part ∈ k.parts, f.Gives graph (f.Meets part) (f.UnfoldsTo graph input [part])
      (f.partTrees graph input path (some part))) :
    f.Gives graph (fun id => ∃ part ∈ k.parts, f.Meets part id) (f.UnfoldsTo graph input k.parts)
      (do
        let lefts ← f.partTrees graph input path k.left
        let rights ← f.partTrees graph input path (some k.right)
        return lefts ++ rights) := by
  have hpart {part : Nat} (hmem : part ∈ k.parts) :
      f.Gives graph (fun id => ∃ part ∈ k.parts, f.Meets part id) (f.UnfoldsTo graph input [part])
        (f.partTrees graph input path (some part)) :=
    (h part hmem).imp (fun id hmeets => ⟨part, hmem, hmeets⟩) fun _ htrees => htrees
  have hright : k.right ∈ k.parts := List.mem_append_right _ (List.mem_singleton_self _)
  refine Gives.append ?_ (hpart hright)
  cases hl : k.left with
  | none => exact .ok .nil
  | some l => exact hpart (List.mem_append_left _ (by rw [hl]; exact List.mem_singleton_self l))

/-- A node that the path has passed is reported. -/
theorem childTrees_of_mem_path {path : List Nat} {id : Nat} {n : Node}
    (hn : f.nodes[id]? = some n) (hmem : id ∈ path) :
    f.childTrees graph input path id
      = .error (.cyclic (n.span.label.name graph) n.span.left n.span.right) := by
  rw [childTrees]
  split
  · rename_i hnone
    exact absurd (hn.symm.trans hnone) (by simp)
  · rename_i n' hn'
    obtain rfl := Option.some.inj (hn.symm.trans hn')
    rw [dif_pos hmem]

/-- **What a node gives** at the end of a path that leads to it. -/
theorem gives_childTrees {path : List Nat} {id : Nat} (hinner : f.Inner id)
    (hpath : ∀ a ∈ path, TransGen f.GoesInto a id) :
    f.Gives graph (f.Meets id)
      (fun trees => f.Single id ∧ f.UnfoldsTo graph input (f.partsOf id) trees)
      (f.childTrees graph input path id) := by
  -- a node that the forest does not have is a terminal
  obtain ⟨n, hn⟩ : ∃ n, f.nodes[id]? = some n := by
    refine Option.ne_none_iff_exists'.mp fun hnone => ?_
    rw [Inner, get, hnone] at hinner
    exact absurd hinner (by decide)
  have hget : f.get id = n := by rw [get, hn, Option.getD_some]
  by_cases hmem : id ∈ path
  · rw [childTrees_of_mem_path hn hmem, ← hget]
    exact .cyclic .refl (hpath id hmem)
  · rw [childTrees_eq hn hmem]
    split
    · rename_i hpacked
      refine .ok ⟨by simp [Single, hget, hpacked], ?_⟩
      rw [partsOf, hget, hpacked]
      exact .nil
    · rename_i i hpacked
      have hparts : f.partsOf id = (f.getPacked i).parts := by simp [partsOf, hget, hpacked]
      have hgoes {part : Nat} (hpart : part ∈ (f.getPacked i).parts) : f.GoesInto id part :=
        ⟨hinner, hparts ▸ hpart⟩
      rw [hparts]
      refine (Gives.parts fun part hpart => ?_).imp ?_ fun trees htrees => ⟨?_, htrees⟩
      · -- the path that leads to the part is longer by this node
        refine Gives.splice fun hinner => gives_childTrees hinner fun a ha => ?_
        rcases List.mem_cons.mp ha with rfl | ha
        · exact .single (hgoes hpart)
        · exact (hpath a ha).tail (hgoes hpart)
      · intro id' hmeets
        obtain ⟨part, hpart, hmeets⟩ := hmeets
        exact .head (hgoes hpart) hmeets
      · simp [Single, hget, hpacked]
    · rename_i hnil hone
      rw [← hget]
      refine .ambiguous .refl hinner ?_
      rw [hget]
      match hpacked : n.packed with
      | [] => exact absurd hpacked hnil
      | [i] => exact absurd hpacked (hone i)
      | _ :: _ :: _ => simp
termination_by (f.offPath path).length
decreasing_by exact length_offPath_lt hn hmem

/-! ## The tree of a node -/

/-- An error names this node of the forest. -/
def Names (f : Forest) (graph : SlotGraph μ) (id : Nat) (label : String) (left right : Nat) :
    Prop :=
  label = (f.get id).span.label.name graph ∧ left = (f.get id).span.left ∧
    right = (f.get id).span.right

/-- Extraction at a node answers what the forest says there. -/
structure Exact (f : Forest) (graph : SlotGraph μ) (input : Input) (root : Nat) : Prop where
  /-- What is answered is what the node unfolds to, and what it unfolds to is answered. -/
  tree : ∀ t, f.tree graph input root = .ok t ↔ f.IsTreeOf graph input root t
  /-- There is a tree exactly if no node that is met has several derivations or leads back to
  itself. -/
  exists_tree : (∃ t, f.tree graph input root = .ok t) ↔
    (∀ id, f.Meets root id → f.Inner id → f.Single id) ∧ ∀ id, f.Meets root id → ¬f.OnCycle id
  /-- A node that is reported as ambiguous is met and has several derivations. -/
  ambiguous : ∀ label left right,
    f.tree graph input root = .error (.ambiguous label left right) →
      ∃ id, f.Meets root id ∧ f.Inner id ∧ 2 ≤ (f.get id).packed.length ∧
        f.Names graph id label left right
  /-- A node that is reported as part of a cycle is met and leads back to itself. -/
  cyclic : ∀ label left right,
    f.tree graph input root = .error (.cyclic label left right) →
      ∃ id, f.Meets root id ∧ f.Inner id ∧ f.OnCycle id ∧ f.Names graph id label left right

/-- An answer of extraction at a node. -/
inductive Answer (f : Forest) (graph : SlotGraph μ) (input : Input) (root : Nat) :
    Except TreeError ParseTree → Prop where
  | ok {t : ParseTree} : f.IsTreeOf graph input root t → Answer f graph input root (.ok t)
  | ambiguous {id left right : Nat} {label : String} : f.Meets root id → f.Inner id →
      2 ≤ (f.get id).packed.length → f.Names graph id label left right →
      Answer f graph input root (.error (.ambiguous label left right))
  | cyclic {id left right : Nat} {label : String} : f.Meets root id → f.OnCycle id →
      f.Names graph id label left right →
      Answer f graph input root (.error (.cyclic label left right))

theorem answer_tree (f : Forest) (graph : SlotGraph μ) (input : Input) (root : Nat) :
    f.Answer graph input root (f.tree graph input root) := by
  unfold Forest.tree
  dsimp only
  split
  · rename_i t hlabel
    exact .ok (.terminal hlabel)
  · rename_i hlabel
    have hinner : f.Inner root := by
      rw [Inner]
      cases h : (f.get root).span.label with
      | terminal t => exact absurd h (hlabel t)
      | nonterminal | intermediate => rfl
    have hgives : f.Gives graph _ _ (f.childTrees graph input [] root) :=
      gives_childTrees hinner fun _ h => absurd h List.not_mem_nil
    generalize f.childTrees graph input [] root = children at hgives
    cases hgives with
    | ok htrees => exact .ok (.inner hinner htrees.1 htrees.2)
    | ambiguous hmet hinner hseveral => exact .ambiguous hmet hinner hseveral ⟨rfl, rfl, rfl⟩
    | cyclic hmet hcycle => exact .cyclic hmet hcycle ⟨rfl, rfl, rfl⟩

/-- **Extraction is exact on every forest,** from every node, however the forest was built. -/
theorem tree_exact (f : Forest) (graph : SlotGraph μ) (input : Input) (root : Nat) :
    f.Exact graph input root := by
  have hanswer := f.answer_tree graph input root
  have htame (h : f.Tame root) : ∃ t, f.tree graph input root = .ok t := by
    generalize f.tree graph input root = answer at hanswer
    cases hanswer with
    | @ok t _ => exact ⟨t, rfl⟩
    | ambiguous hmet hinner hseveral =>
      exact absurd (h.single hmet hinner) (Nat.not_le_of_lt hseveral)
    | cyclic hmet hcycle => exact absurd hcycle (h.not_onCycle hmet)
  have hsound {t : ParseTree} (h : f.tree graph input root = .ok t) :
      f.IsTreeOf graph input root t := by
    rw [h] at hanswer
    cases hanswer with
    | ok ht => exact ht
  refine ⟨fun t => ⟨hsound, fun ht => ?_⟩, ?_, fun label left right h => ?_,
    fun label left right h => ?_⟩
  · obtain ⟨t', ht'⟩ := htame ht.tame
    rw [ht', ht.unique (hsound ht')]
  · constructor
    · intro h
      obtain ⟨t, ht⟩ := h
      have htame := (hsound ht).tame
      exact ⟨fun id => htame.single, fun id => htame.not_onCycle⟩
    · intro h
      exact htame ⟨fun {id} => h.1 id, fun {id} => h.2 id⟩
  · rw [h] at hanswer
    cases hanswer with
    | ambiguous hmet hinner hseveral hnames => exact ⟨_, hmet, hinner, hseveral, hnames⟩
  · rw [h] at hanswer
    cases hanswer with
    | cyclic hmet hcycle hnames =>
      obtain ⟨part, hpart, -⟩ := TransGen.head'_iff.mp hcycle
      exact ⟨_, hmet, hpart.1, hcycle, hnames⟩

/-- A node that was made a part of itself by hand. -/
example : ((empty.nonterminal 0 none 0 0).2.addPacked 0 0 none 0).2.tree (μ := RunMatcher)
    ⟨"", #[⟨"S", [], []⟩], .empty, #[], #[]⟩ ⟨#[]⟩ 0 = .error (.cyclic "S" 0 0) := by
  cbv

/-- A node without derivations that was made both parts of another by hand. -/
example : (((empty.nonterminal 1 none 0 0).2.nonterminal 0 none 0 0).2.addPacked 1 0 (some 0) 0).2.tree
    (μ := RunMatcher) ⟨"", #[⟨"S", [], []⟩, ⟨"A", [], []⟩], .empty, #[], #[]⟩ ⟨#[]⟩ 1
      = .ok (.ofName "S" [.ofName "A" [], .ofName "A" []]) := by
  cbv

end

end GeneralLL.Forest
