import GeneralLL.Proofs.Extraction
import GeneralLL.Proofs.ForestShape

/-!
# What the tree of a text yields

The leaves of a tree that is read off a forest are matches that lie side by side: each
starts where the one before it ends, from the start of the text to its end
(`tiles_of_reads`). The tree that is extracted is one of these (`reads_of_partTrees`). This
holds for all grammars, conditions and values included.

So the leaves spell the text. But the yield of a tree leaves out the leaves of empty
derivations, and all that tells these from others is their text, `"ε"`. A terminal may match
this very letter, and then its leaf is left out as well. **The yield is the text exactly if
this does not happen** (`yield_tree_iff`), as in texts without the letter. There are texts
for which it does (`yield_lost`).
-/

namespace GeneralLL

open SlotGraph

/-! ## Matches side by side -/

/-- A terminal with the positions between which it was matched. -/
structure Match (μ : Type) where
  /-- The terminal that was matched. -/
  terminal : Terminal μ
  /-- The position where the match starts. -/
  left : Nat
  /-- The position behind its end. -/
  right : Nat

namespace Match

variable {μ : Type}

/-- The characters that were matched. -/
def text (input : Input) (m : Match μ) : String := input.substring m.left m.right

/-- Has the leaf of this match the text that leaves of empty derivations have? -/
def Hidden (input : Input) (m : Match μ) : Prop :=
  m.terminal.isEpsilon = false ∧ m.text input = ParseTree.epsilonLeaf

/-- What the leaf of this match adds to a yield. -/
def visible (input : Input) (m : Match μ) : String :=
  if m.terminal.isEpsilon ∨ m.text input = ParseTree.epsilonLeaf then "" else m.text input

end Match

/-- The matches lie side by side, from one position to another. -/
inductive Tiles {μ : Type} [Matcher μ] (input : Input) : List (Match μ) → Nat → Nat → Prop where
  | nil {i : Nat} : Tiles input [] i i
  | cons {t : Terminal μ} {rest : List (Match μ)} {i j k : Nat} :
      t.matchAt input i = some j → i ≤ j → Tiles input rest j k →
      Tiles input (⟨t, i, j⟩ :: rest) i k

theorem Input.substring_append {input : Input} {i j k : Nat} (hij : i ≤ j) (hjk : j ≤ k) :
    input.substring i j ++ input.substring j k = input.substring i k := by
  rw [substring, substring, ← String.ofList_append, ← Array.toList_append,
    Array.extract_append_extract, Nat.min_eq_left hij, Nat.max_eq_right hjk, substring]

theorem Input.substring_self (input : Input) (i : Nat) : input.substring i i = "" := by
  rw [substring, Array.extract_empty_of_stop_le_start (Nat.le_refl i)]

namespace Tiles

variable {μ : Type} [Matcher μ] {input : Input} {tiles tiles' : List (Match μ)} {i j k : Nat}

theorem single {t : Terminal μ} (hmatch : t.matchAt input i = some j) (hle : i ≤ j) :
    Tiles input [⟨t, i, j⟩] i j := .cons hmatch hle .nil

theorem append (h : Tiles input tiles i j) (h' : Tiles input tiles' j k) :
    Tiles input (tiles ++ tiles') i k := by
  induction h with
  | nil => exact h'
  | cons hmatch hle _ ih => exact .cons hmatch hle (ih h')

theorem le (h : Tiles input tiles i j) : i ≤ j := by
  induction h with
  | nil => exact Nat.le_refl _
  | cons _ hle _ ih => exact Nat.le_trans hle ih

/-- Together the matches have matched all that lies between the two positions. -/
theorem join_text (h : Tiles input tiles i j) :
    String.join (tiles.map (Match.text input)) = input.substring i j := by
  induction h with
  | nil => exact (Input.substring_self _ _).symm
  | cons _ hle hrest ih =>
    rw [List.map_cons, String.join_cons, ih, Match.text, Input.substring_append hle hrest.le]

end Tiles

/-! ## What a yield leaves out -/

section

variable {μ : Type} [Matcher μ] {input : Input} {m : Match μ} {tiles : List (Match μ)} {i j : Nat}

omit [Matcher μ] in
theorem Match.Hidden.visible_eq (h : m.Hidden input) : m.visible input = "" := if_pos (Or.inr h.2)

theorem Match.visible_eq_text (hmatch : m.terminal.matchAt input m.left = some m.right)
    (h : ¬m.Hidden input) : m.visible input = m.text input := by
  obtain ⟨t, left, right⟩ := m
  cases ht : t.isEpsilon with
  | false => exact if_neg (by simpa [Match.Hidden, ht] using h)
  | true =>
    -- the empty terminal has matched nothing
    cases t with
    | epsilon =>
      have hmatch : some left = some right := hmatch
      obtain rfl := Option.some.inj hmatch
      exact (input.substring_self left).symm
    | char | oneOf | literal | custom => exact absurd ht (by simp [Terminal.isEpsilon])

/-- No more is visible than was matched. -/
theorem Tiles.length_visible_le (h : Tiles input tiles i j) :
    (String.join (tiles.map (Match.visible input))).length ≤ (input.substring i j).length := by
  rw [← h.join_text]
  induction h with
  | nil => exact Nat.le_refl _
  | @cons t rest i j k hmatch _ _ ih =>
    rw [List.map_cons, List.map_cons, String.join_cons, String.join_cons, String.length_append,
      String.length_append]
    have hhead : (Match.visible input ⟨t, i, j⟩).length ≤ (Match.text input ⟨t, i, j⟩).length := by
      by_cases hhidden : Match.Hidden input ⟨t, i, j⟩
      · rw [hhidden.visible_eq]
        exact Nat.zero_le _
      · rw [Match.visible_eq_text hmatch hhidden]
    omega

/-- **What is hidden is missing.** The visible texts are the text between the two positions
exactly if no match is hidden. -/
theorem Tiles.join_visible_iff (h : Tiles input tiles i j) :
    String.join (tiles.map (Match.visible input)) = input.substring i j ↔
      ∀ m ∈ tiles, ¬m.Hidden input := by
  induction h with
  | nil => exact ⟨fun _ m hm => absurd hm List.not_mem_nil, fun _ => (input.substring_self _).symm⟩
  | @cons t rest i j k hmatch hle hrest ih =>
    rw [List.map_cons, String.join_cons, List.forall_mem_cons, ← ih,
      ← Input.substring_append hle hrest.le]
    by_cases hhidden : Match.Hidden input ⟨t, i, j⟩
    · refine ⟨fun heq => ?_, fun h => absurd hhidden h.1⟩
      -- the hidden letter is missing, and nothing can stand in for it
      have hlength := congrArg String.length heq
      have htext : input.substring i j = ParseTree.epsilonLeaf := hhidden.2
      have hone : ParseTree.epsilonLeaf.length = 1 := by decide
      have hshort := hrest.length_visible_le
      rw [hhidden.visible_eq, htext, String.length_append, String.length_append, hone,
        String.length_empty] at hlength
      omega
    · rw [Match.visible_eq_text hmatch hhidden, Match.text, String.append_right_inj]
      exact ⟨fun heq => ⟨hhidden, heq⟩, fun h => h.2⟩

omit [Matcher μ] in
/-- In a text without the letter nothing is hidden. -/
theorem Match.not_hidden (hletter : 'ε' ∉ input.chars) : ¬m.Hidden input := by
  intro h
  have hchars := congrArg String.toList h.2
  rw [Match.text, Input.substring, String.toList_ofList] at hchars
  have hmem : 'ε' ∈ (input.chars.extract m.left m.right).toList := by
    rw [hchars]
    decide
  obtain ⟨k, hk, heq⟩ := Array.mem_extract_iff_getElem.mp (Array.mem_toList_iff.mp hmem)
  exact hletter (heq ▸ Array.getElem_mem _)

end

/-! ## The matches of a tree -/

namespace DerivationTree

variable {μ : Type}

mutual

/-- The matches at the leaves of a tree, from left to right. -/
def leaves : DerivationTree μ → List (Match μ)
  | leaf t left right => [⟨t, left, right⟩]
  | node _ children => leavesOf children

/-- The matches at the leaves of several trees. -/
def leavesOf : List (DerivationTree μ) → List (Match μ)
  | [] => []
  | t :: rest => t.leaves ++ leavesOf rest

end

theorem leavesOf_append (trees trees' : List (DerivationTree μ)) :
    leavesOf (trees ++ trees') = leavesOf trees ++ leavesOf trees' := by
  induction trees with
  | nil => rfl
  | cons t rest ih => rw [List.cons_append, leavesOf, leavesOf, ih, List.append_assoc]

mutual

/-- **The yield of a tree is made of what its matches add.** -/
theorem yield_render (g : Grammar μ) (input : Input) : ∀ t : DerivationTree μ,
    (t.render g input).yield = String.join (t.leaves.map (Match.visible input))
  | leaf t left right => by
    rw [render, leaves, List.map_singleton, String.join_cons, String.join_nil, String.append_empty,
      Match.visible, Match.text]
    cases t.isEpsilon with
    | true => rfl
    | false => simp [ParseTree.leaf, ParseTree.yield]
  | node rule children => by
    rw [render, ParseTree.ofName, ParseTree.yield, leaves]
    · exact yields_renders g input children
    · simp

theorem yields_renders (g : Grammar μ) (input : Input) : ∀ trees : List (DerivationTree μ),
    ParseTree.yields (renders g input trees)
      = String.join ((leavesOf trees).map (Match.visible input))
  | [] => rfl
  | t :: rest => by
    rw [renders, ParseTree.yields, leavesOf, List.map_append, String.join_append,
      yield_render g input t, yields_renders g input rest]

end

end DerivationTree

namespace Parser

variable {μ : Type} [DecidableEq μ] [Matcher μ] {p : Parser μ} {g : Grammar μ}

/-! ## Leaves of readings -/

/-- The piece, if it is one of a terminal, is a match of it. -/
def Matches (p : Parser μ) (w : Piece) : Prop :=
  ∀ id left right, w = .terminal id left right →
    (p.graph.terminal id).matchAt p.input left = some right

omit [DecidableEq μ] in
theorem Fits.matches {s : Symbol μ} {left right : Nat} {w : Piece} (h : p.Fits s left right w) :
    p.Matches w := by
  intro id l r hw
  cases h with
  | terminal hid hmatch =>
    obtain ⟨rfl, rfl, rfl⟩ := Piece.terminal.inj hw
    rw [SlotGraph.terminal, hid, Option.getD_some]
    exact hmatch
  | call => exact absurd hw (by simp)

theorem Recognised.matches {k i left right : Nat} {r : Rule μ} {values : Option (List Value)}
    {w : Piece} (h : p.Recognised g k r values left i right (some w)) : p.Matches w := by
  cases h with
  | first _ _ _ hw => exact hw.matches
  | part => exact fun id l r hw => absurd hw (by simp)

/-- The matches lie side by side where the part has recognised the text, if there is a part. -/
def Spread (p : Parser μ) (tiles : List (Match μ)) : Option Piece → Prop
  | none => tiles = []
  | some w => p.Matches w → Tiles p.input tiles w.left w.right

section

variable (hg : SlotGraph.ofGrammar g = .ok p.graph) (hbounded : g.Bounded p.input)

include hg

/-- **The parts of a derivation lie side by side.** -/
theorem Formed.tiles {d : Packing} (hd : p.Formed g d) {lefts rights : List (Match μ)}
    (hlefts : p.Spread lefts d.left) (hrights : p.Spread rights (some d.right)) :
    Tiles p.input (lefts ++ rights) d.parent.left d.parent.right := by
  cases hd with
  | @join k i left pivot right r values s b l w hr hs hb hl hw hle hle' =>
    obtain ⟨hstart, hmiddle⟩ := hl.extents
    obtain ⟨hmiddle', hend⟩ := hw.extents
    have htiles : Tiles p.input lefts l.left l.right := hlefts hl.matches
    have htiles' : Tiles p.input rights w.left w.right := hrights hw.matches
    rw [hstart, hmiddle] at htiles
    rw [hmiddle', hend] at htiles'
    exact htiles.append htiles'
  | @whole k left right r values part hr hpart =>
    obtain rfl : lefts = [] := hlefts
    obtain ⟨-, hstart, hend⟩ := hpart.child_eq p.graph.epsilon
    have hmatches : p.Matches (part.getD (.terminal p.graph.epsilon left left)) := by
      cases part with
      | none =>
        intro id l r h
        obtain ⟨rfl, rfl, rfl⟩ := Piece.terminal.inj h
        rw [SlotGraph.terminal, get?_epsilon hg]
        rfl
      | some w => exact hpart.matches
    have htiles : Tiles p.input rights _ _ := hrights hmatches
    rw [hstart, hend] at htiles
    exact htiles

variable {s : State} (hs : p.Coherent s)

include hbounded hs

/-- **The leaves of what is read off a node lie side by side** where the node is. -/
theorem tiles_of_reads {o : Option Nat} {trees : List (DerivationTree μ)}
    (hreads : s.forest.Reads p.graph o trees) :
    ∀ {part : Option Piece}, s.forest.part? o = some part →
      p.Spread (DerivationTree.leavesOf trees) part := by
  induction hreads with
  | nothing =>
    intro part hpart
    obtain rfl := Option.some.inj hpart
    rfl
  | @terminal id t n hn hlabel =>
    intro part hpart
    have hid : s.forest.piece? id = some (.terminal t n.span.left n.span.right) :=
      Forest.piece?_eq_some_iff.mpr ⟨n, hn, by rw [Forest.pieceOf?, hlabel]⟩
    rw [Forest.part?_of_piece? hid] at hpart
    obtain rfl := Option.some.inj hpart
    have hcovering : p.Covering (.terminal t n.span.left n.span.right) :=
      located_of_entails hg hbounded (hs.sound (f := .piece _) ⟨id, hid⟩)
    exact fun hmatches => .single (hmatches t _ _ rfl) hcovering.le
  | nonterminal hn hlabel hi hk _ _ ihl ihr | intermediate hn hlabel hi hk _ _ ihl ihr =>
    intro part hpart
    obtain ⟨d, hd, hread, hspan⟩ := hs.formed hg hbounded hn ⟨_, hi, hk⟩
    obtain ⟨-, -, -, hleft, hright⟩ := Forest.packing?_eq_some_iff.mp hread
    rw [Forest.part?_of_piece? (Forest.piece?_eq_some_iff.mpr ⟨_, hn, hspan⟩)] at hpart
    obtain rfl := Option.some.inj hpart
    have htiles := hd.tiles hg (ihl hleft) (ihr (Forest.part?_of_piece? hright))
    rw [← DerivationTree.leavesOf_append] at htiles
    intro _
    simpa only [DerivationTree.leavesOf, DerivationTree.leaves, List.append_nil] using htiles

/-! ## Extracted trees are readings -/

/-- A whole rule has the name of its nonterminal. -/
theorem Coherent.nonterminalName_eq {id i a : Nat} {arguments : Option Nat} {n : Forest.Node}
    {k : Forest.Packed} (hn : s.forest.nodes[id]? = some n) (hi : i ∈ n.packed)
    (hk : s.forest.packed[i]? = some k) (hlabel : n.span.label = .nonterminal a arguments) :
    p.graph.nonterminalName a = DerivationTree.nameOf g (p.graph.slot k.slot).rule := by
  obtain ⟨d, hd, hread, hspan⟩ := hs.formed hg hbounded hn ⟨i, hi, hk⟩
  obtain ⟨-, hslot, -⟩ := Forest.packing?_eq_some_iff.mp hread
  cases hd with
  | join =>
    obtain ⟨_, -, heq⟩ := Forest.pieceOf?_eq_some_iff.mp hspan
    rw [heq] at hlabel
    exact absurd hlabel (by simp)
  | whole hr =>
    obtain ⟨_, -, heq⟩ := Forest.pieceOf?_eq_some_iff.mp hspan
    rw [heq] at hlabel
    obtain ⟨rfl, -⟩ := Forest.Label.nonterminal.inj hlabel
    rw [hslot, (slot_at hg hr (Nat.le_refl _)).2.1, (nonterminalName_head hg hr).2,
      DerivationTree.nameOf, hr]
    rfl

omit hg hbounded hs [DecidableEq μ] in
/-- A tree is extracted at an inner node only if the node has one derivation, and is made of what is
extracted at the parts of it. -/
theorem splice_childTrees_eq_ok {id i : Nat} {rest path : List Nat} {n : Forest.Node}
    {k : Forest.Packed} {trees : List ParseTree} (hn : s.forest.nodes[id]? = some n)
    (hinner : n.span.label.isTerminal = false) (hpath : id ∉ path)
    (hpacked : n.packed = i :: rest) (hk : s.forest.packed[i]? = some k)
    (h : s.forest.splice p.graph p.input id (s.forest.childTrees p.graph p.input path id)
      = .ok trees) :
    ∃ lefts rights, s.forest.partTrees p.graph p.input (id :: path) k.left = .ok lefts ∧
      s.forest.partTrees p.graph p.input (id :: path) (some k.right) = .ok rights ∧
      s.forest.splice p.graph p.input id (.ok (lefts ++ rights)) = .ok trees := by
  have herror {e : TreeError} (h : s.forest.splice p.graph p.input id (.error e) = .ok trees) :
      False := by
    rw [Forest.splice_error hn hinner] at h
    exact absurd h (by simp)
  rw [Forest.childTrees_eq hn hpath, hpacked] at h
  cases rest with
  | cons j rest => exact (herror h).elim
  | nil =>
    dsimp only at h
    rw [Forest.getPacked_eq hk] at h
    cases hlefts : s.forest.partTrees p.graph p.input (id :: path) k.left with
    | error e =>
      rw [hlefts] at h
      exact (herror h).elim
    | ok lefts =>
      cases hrights : s.forest.partTrees p.graph p.input (id :: path) (some k.right) with
      | error e =>
        rw [hlefts, hrights] at h
        exact (herror h).elim
      | ok rights =>
        rw [hlefts, hrights] at h
        exact ⟨lefts, rights, rfl, rfl, h⟩

/-- **What is extracted at a node is read off it.** A path leads down to the node along smaller and
smaller numbers, so the node is not on it. -/
theorem reads_of_partTrees (hf : s.forest.Founded) {id : Nat} (hid : id < s.forest.size) :
    ∀ {path : List Nat} {trees : List ParseTree}, (∀ id' ∈ path, id < id') →
      s.forest.partTrees p.graph p.input path (some id) = .ok trees →
      ∃ readings, s.forest.Reads p.graph (some id) readings ∧
        trees = DerivationTree.renders g p.input readings := by
  induction id using Nat.strongRecOn with
  | ind id ih =>
    intro path trees hbelow htrees
    have hpath : id ∉ path := fun h => Nat.lt_irrefl id (hbelow id h)
    have hn := Array.getElem?_eq_getElem hid
    generalize s.forest.nodes[id] = n at hn
    have htrees : s.forest.splice p.graph p.input id
      (s.forest.childTrees p.graph p.input path id) = .ok trees := htrees
    cases hlabel : n.span.label with
    | terminal t =>
      rw [Forest.splice_leaf hn hlabel] at htrees
      obtain rfl := Except.ok.inj htrees
      exact ⟨_, .terminal hn hlabel, rfl⟩
    | nonterminal | intermediate =>
      have hinner : n.span.label.isTerminal = false := by
        rw [hlabel]
        rfl
      obtain ⟨i, rest, k, hpacked, hk, hright, hleft⟩ := hf.first hn hinner
      have hi : i ∈ n.packed := by
        rw [hpacked]
        exact List.mem_cons_self
      obtain ⟨lefts, rights, hlefts, hrights, hgather⟩ :=
        splice_childTrees_eq_ok hn hinner hpath hpacked hk htrees
      -- the parts have smaller numbers than the node, which is the last of the path now
      obtain ⟨rights', hr, rfl⟩ := ih k.right hright (Nat.lt_trans hright hid)
        (Forest.below_cons hright hbelow) hrights
      obtain ⟨lefts', hl, rfl⟩ : ∃ lefts', s.forest.Reads p.graph k.left lefts' ∧
          lefts = DerivationTree.renders g p.input lefts' := by
        cases hkl : k.left with
        | none =>
          rw [hkl] at hlefts
          obtain rfl := Except.ok.inj hlefts
          exact ⟨[], .nothing, rfl⟩
        | some l =>
          have hlt := hleft l (Option.mem_def.mpr hkl)
          rw [hkl] at hlefts
          exact ih l hlt (Nat.lt_trans hlt hid) (Forest.below_cons hlt hbelow) hlefts
      rw [← DerivationTree.renders_append, Forest.splice_renders hn hinner fun a arguments =>
        hs.nonterminalName_eq hg hbounded hn hi hk] at hgather
      exact ⟨_, (Forest.reads_inner_iff hn hinner).mpr
        ⟨i, k, lefts', rights', hi, hk, hl, hr, rfl⟩, (Except.ok.inj hgather).symm⟩

end

/-- **The yield of the tree of a text.** The leaves of the tree are matches side by side that cover
the text. The tree yields what they have matched but for those that have matched the text of the leaf
of an empty derivation, and so it yields the text exactly if there are none of these; as in a text
without this letter. -/
theorem yield_tree_iff (hg : SlotGraph.ofGrammar g = .ok p.graph) (hbounded : g.Bounded p.input)
    {fuel root : Nat} {f : Forest} (h : (p.parse fuel).verdict = .ok (.success root f))
    {tree : ParseTree} (htree : f.tree p.graph p.input root = .ok tree) :
    ∃ d, f.Reads p.graph (some root) [d] ∧ tree = d.render g p.input ∧
      Tiles p.input d.leaves 0 p.input.length ∧
      tree.yield = String.join (d.leaves.map (Match.visible p.input)) ∧
      (tree.yield = String.ofList p.input.chars.toList ↔ ∀ m ∈ d.leaves, ¬m.Hidden p.input) ∧
      ('ε' ∉ p.input.chars → tree.yield = String.ofList p.input.chars.toList) := by
  obtain ⟨log, s, hends, hs, rfl, hpiece⟩ := exists_settled_of_success hg h
  obtain ⟨ran, hreached⟩ := hends.reaches.reached hg
  have hf := (hends.reaches.grounded hg).built.founded
  have hroot := Forest.part?_of_piece? hpiece
  obtain ⟨n, hn, hpieceOf⟩ := Forest.piece?_eq_some_iff.mp hpiece
  obtain ⟨a, -, hnode⟩ := Forest.pieceOf?_eq_some_iff.mp hpieceOf
  have hparts : s.forest.partTrees p.graph p.input [] (some root) = .ok [tree] := by
    rw [Forest.partTrees_eq_tree hn (by rw [hnode]), htree]
    rfl
  obtain ⟨readings, hreads, hrendered⟩ := reads_of_partTrees hg hbounded hreached.coherent hf
    (Forest.lt_size_of_piece? hpiece) (fun _ h => absurd h List.not_mem_nil) hparts
  obtain ⟨d, rfl⟩ : ∃ d, readings = [d] := by
    match readings with
    | [d] => exact ⟨d, rfl⟩
    | [] => exact absurd hrendered (by simp [DerivationTree.renders])
    | _ :: _ :: _ => exact absurd hrendered (by simp [DerivationTree.renders])
  obtain ⟨rfl, -⟩ := List.cons.inj hrendered
  have hspread := tiles_of_reads hg hbounded hreached.coherent hreads hroot
    (fun _ _ _ heq => absurd heq (by simp))
  have htiles : Tiles p.input d.leaves 0 p.input.length := by
    rw [DerivationTree.leavesOf, DerivationTree.leavesOf, List.append_nil] at hspread
    exact hspread
  have htext : p.input.substring 0 p.input.length = String.ofList p.input.chars.toList := by
    rw [Input.substring, Input.length, Array.extract_size]
  have hyield := DerivationTree.yield_render g p.input d
  have hiff := htiles.join_visible_iff
  rw [← hyield, htext] at hiff
  exact ⟨d, hreads, rfl, htiles, hyield, hiff,
    fun hletter => hiff.mpr fun m _ => Match.not_hidden hletter⟩

end Parser

/-! ## An example -/

/-- One letter, which is the text of the leaf of an empty derivation. -/
def greek : Grammar RunMatcher where
  name := "greek"
  start := "S"
  rules := [⟨"S", [.terminal (.char 'ε') {}], none⟩]

/-- The parser for the letter. -/
def greekParser : Parser RunMatcher :=
  { graph := SlotGraph.compile greek, input := .ofString "ε" }

theorem ofGrammar_greek : SlotGraph.ofGrammar greek = .ok greekParser.graph :=
  SlotGraph.ofGrammar_eq_ok_iff.mpr ⟨by decide +kernel, rfl⟩

/-- The tree of the letter yields nothing. -/
theorem exists_tree_greek : ∃ root f tree,
    (greekParser.parse 100).verdict = .ok (.success root f) ∧
      f.tree greekParser.graph greekParser.input root = .ok tree ∧ tree.yield = "" := by
  obtain ⟨root, f, tree, hv, htree, hyield⟩ :=
    greekParser.exists_tree 100 (q := fun tree => tree.yield = "") (by decide +kernel)
  exact ⟨root, f, tree, hv, htree, of_decide_eq_true hyield⟩

/-- The match of the letter is hidden. -/
theorem yield_tree_iff_greek :
    SlotGraph.ofGrammar greek = .ok greekParser.graph ∧ greek.Bounded greekParser.input ∧
      ∃ root f tree, ∃ d : DerivationTree RunMatcher,
        (greekParser.parse 100).verdict = .ok (.success root f) ∧
        f.tree greekParser.graph greekParser.input root = .ok tree ∧
        tree = d.render greek greekParser.input ∧
        ∃ m ∈ d.leaves, m.Hidden greekParser.input := by
  have hbounded : greek.Bounded greekParser.input := fun m _ => m.bounded _
  obtain ⟨root, f, tree, hv, htree, hyield⟩ := exists_tree_greek
  obtain ⟨d, -, hd, -, -, hiff, -⟩ := Parser.yield_tree_iff ofGrammar_greek hbounded hv htree
  refine ⟨ofGrammar_greek, hbounded, root, f, tree, d, hv, htree, hd, ?_⟩
  by_contra hnone
  have htext := hiff.mpr fun m hm hhidden => hnone ⟨m, hm, hhidden⟩
  rw [hyield] at htext
  exact absurd htext (by decide +kernel)

/-- **A letter of the text is missing in the yield of its tree.** -/
theorem yield_lost :
    SlotGraph.ofGrammar greek = .ok greekParser.graph ∧ greek.Bounded greekParser.input ∧
      ∃ root f tree, (greekParser.parse 100).verdict = .ok (.success root f) ∧
        f.tree greekParser.graph greekParser.input root = .ok tree ∧
        tree.yield ≠ String.ofList greekParser.input.chars.toList := by
  obtain ⟨root, f, tree, hv, htree, hyield⟩ := exists_tree_greek
  refine ⟨ofGrammar_greek, fun m _ => m.bounded _, root, f, tree, hv, htree, ?_⟩
  rw [hyield]
  decide +kernel

end GeneralLL
